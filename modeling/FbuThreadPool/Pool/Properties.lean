import FbuThreadPool.Pool.Invariant
import FbuThreadPool.Pool.Refinement
/-!
# The guarantees of `fbu::ThreadPool` over every interleaving

Read off `Inv` for every state reachable from a freshly built pool:

* `getNumThreads_eq`: the pool keeps the `n` workers it was built with;
* `waitForCompletion_drained`: `waitForCompletion` returns only when every job handed to
  `addJob` has been popped and has returned;
* `dequeue_fifo_exactly_once`: jobs are popped in push order, and each is run once, by the
  worker that popped it, before that worker pops another;
* `no_lost_wakeup`: a queued job always has a worker outside the wait set, and a blocked
  `waitForCompletion` always has work to wait for;
* `busy_count`: `mNumBusyThreads` counts the busy workers, stays in `[0, n]`, and is zero
  once every worker has left its loop, so no `assert` of the pool fails.
-/

namespace FbuThreadPool

namespace Pool

variable {α : Type} {n d : Nat} {ex : List Nat} {s : Pool α}

theorem notifyOne_length {ws ws' : List (WorkerPc α)} {wake : Option Nat}
    (h : notifyOne ws wake = some ws') : ws'.length = ws.length := by
  rcases notifyOne_eq_some h with ⟨-, rfl⟩ | ⟨v, -, -, rfl⟩
  · rfl
  · exact List.length_set ..

theorem addJob_length {s s' : Pool α} {job : Job α} {wake : Option Nat}
    (h : s.addJob job wake = some s') : s'.workers.length = s.workers.length := by
  obtain ⟨-, ws, hws, rfl⟩ := addJob_eq_some h
  exact notifyOne_length hws

/-- No step adds or removes a worker. -/
theorem step_length {s s' : Pool α} {a : Action α} (h : s.step a = some s') :
    s'.workers.length = s.workers.length := by
  cases a with
  | addJob j wake => exact addJob_length h
  | loopTest w => obtain ⟨-, rfl⟩ := loopTest_eq_some h; exact List.length_set ..
  | testJobAvailable w =>
    obtain ⟨-, -, rfl⟩ := testJobAvailable_eq_some h; exact List.length_set ..
  | waitJobAvailable w =>
    obtain ⟨-, rfl⟩ := waitJobAvailable_eq_some h; exact List.length_set ..
  | wakeWorker w => obtain ⟨-, rfl⟩ := wakeWorker_eq_some h; exact List.length_set ..
  | grabNextJob w =>
    obtain ⟨-, ⟨-, rfl⟩ | ⟨-, _, _, -, rfl⟩ | ⟨-, -, rfl⟩⟩ := grabNextJob_eq_some h
    · exact List.length_set ..
    · exact List.length_set ..
    · rfl
  | runJob w =>
    obtain ⟨-, rfl⟩ | ⟨_, -, rfl⟩ | ⟨_, _, _, -, -, rfl⟩ := runJob_eq_some h <;>
      exact List.length_set ..
  | finishWrapper w =>
    obtain ⟨_, _, _, -, -, rfl⟩ := finishWrapper_eq_some h; exact List.length_set ..
  | jobDone w => obtain ⟨_, -, -, rfl⟩ := jobDone_eq_some h; exact List.length_set ..
  | waitForCompletion t => obtain ⟨-, -, rfl⟩ := waitForCompletion_eq_some h; rfl
  | wakeDrainer t => obtain ⟨-, rfl⟩ := wakeDrainer_eq_some h; rfl
  | setTerminate => obtain ⟨-, rfl⟩ := setTerminate_eq_some h; rfl
  | notifyAll => obtain ⟨-, rfl⟩ := notifyAll_eq_some h; exact List.length_map ..
  | join => obtain ⟨_, -, -, rfl⟩ := join_eq_some h; rfl
  | assertIdle => obtain ⟨-, ⟨-, rfl⟩ | ⟨-, rfl⟩⟩ := assertIdle_eq_some h <;> rfl
  | executorAddJob e j => obtain ⟨_, -, rfl⟩ := executorAddJob_eq_some h; rfl
  | executorSubmit e k wake =>
    obtain ⟨_, _, _, -, -, h₁, rfl⟩ := executorSubmit_eq_some h
    have := addJob_length h₁
    exact this
  | executorWait e t => obtain ⟨_, _, -, -, rfl⟩ := executorWait_eq_some h; rfl
  | executorWake e t => obtain ⟨_, _, -, -, rfl⟩ := executorWake_eq_some h; rfl

theorem workers_length_of_reachable (hr : Reachable (init n d ex) s) : s.workers.length = n :=
  hr.induction (P := fun s : Pool α => s.workers.length = n) (by simp [init])
    fun _ _ _ h hs => (step_length hs).trans h

/-- The pool keeps the number of workers it was built with. -/
theorem getNumThreads_eq (hr : Reachable (init n d ex) s) : s.getNumThreads = n :=
  workers_length_of_reachable hr

/-- The thread count the constructor picks is positive, and is the requested count when one
is given. -/
theorem numThreads_pos (pNumThreads : Int) (hardwareConcurrency : Nat)
    (hp : -2 ^ 31 ≤ pNumThreads ∧ pNumThreads < 2 ^ 31) :
    0 < numThreads pNumThreads hardwareConcurrency ∧
      (0 < pNumThreads → numThreads pNumThreads hardwareConcurrency = pNumThreads.toNat) := by
  unfold numThreads
  refine ⟨?_, fun hpos => ?_⟩
  · split
    · omega
    · split <;> omega
  · rw [if_pos (by omega)]; omega

/-! ## What `Inv` says about busy workers -/

theorem Placed.terminate_of_noop {s : Pool α} {p : WorkerPc α} (hp : s.Placed p)
    (hb : p.isBusy = true) (hj : p.lJob = none) : s.terminate = true := by
  cases p with
  | running j => cases j <;> first | exact hp | cases hj
  | finished j => cases j <;> first | exact hp | cases hj
  | wrapping => cases hj
  | _ => cases hb

/-- Before termination, a busy worker holds a job it popped. -/
theorem Inv.lJob_of_busy (h : s.Inv) (ht : s.terminate = false) {w : Nat} {p : WorkerPc α}
    (hw : s.workers[w]? = some p) (hb : p.isBusy = true) :
    ∃ j, p.lJob = some j ∧ Event.take w j ∈ s.log := by
  cases hj : p.lJob with
  | some j => exact ⟨j, rfl, h.lJob_taken w j (by simp [hw, hj])⟩
  | none =>
    have := (h.placed p (List.getElem?_mem hw)).terminate_of_noop hb hj
    simp [ht] at this

theorem Inv.busy_eq_zero_iff (h : s.Inv) :
    s.numBusyThreads = 0 ↔ ∀ p ∈ s.workers, p.isBusy = false := by
  rw [h.busy_eq]
  simp [List.countP_eq_zero]

/-- Before termination and before any `addJob`, no worker is busy. -/
theorem Inv.busy_eq_zero_of_no_add (h : s.Inv)
    (hfifo : s.log.filterMap Event.taken ++ s.jobsQueue = s.log.filterMap Event.added)
    (ht : s.terminate = false) (hadd : s.log.filterMap Event.added = []) :
    s.numBusyThreads = 0 := by
  refine h.busy_eq_zero_iff.2 fun p hp => Bool.eq_false_iff.2 fun hb => ?_
  obtain ⟨w, hw⟩ := List.mem_iff_getElem?.1 hp
  obtain ⟨j, -, hj⟩ := h.lJob_of_busy ht hw hb
  have htaken : s.log.filterMap Event.taken = [] :=
    (List.append_eq_nil.1 (hfifo.trans hadd)).1
  cases List.filterMap_eq_nil_iff.1 htaken _ hj

/-! ## The drain guarantee -/

/-- With the queue empty and no job pending on a worker, every job pushed has been popped
and has returned. -/
theorem log_drained (hr : Reachable (init n d ex) s) (hq : s.jobsQueue = [])
    (hpend : ∀ p ∈ s.workers, p.pending = none) :
    s.log.filterMap Event.taken = s.log.filterMap Event.added ∧
      (s.log.filterMap Event.returned).Perm (s.log.filterMap Event.added) := by
  have htaken : s.log.filterMap Event.taken = s.log.filterMap Event.added := by
    simpa [hq] using fifo_of_reachable hr
  have hperm := taken_perm_of_reachable hr
  rw [List.filterMap_eq_nil_iff.2 hpend, List.append_nil, htaken] at hperm
  exact ⟨htaken, hperm.symm⟩

/-- `waitForCompletion` returns only on an empty queue with no worker busy: every job pushed
before its last test has been popped and has returned. -/
theorem waitForCompletion_drained {s s' : Pool α} {t : Nat} (hr : Reachable (init n d ex) s)
    (hs : s.waitForCompletion t = some s') (hret : s'.drainers[t]? = some .idle) :
    s.jobsQueue = [] ∧ s.numBusyThreads = 0 ∧ (∀ p ∈ s.workers, p.pending = none) ∧
      s.log.filterMap Event.taken = s.log.filterMap Event.added ∧
      (s.log.filterMap Event.returned).Perm (s.log.filterMap Event.added) := by
  have h := inv_of_reachable hr
  obtain ⟨hd, -, rfl⟩ := waitForCompletion_eq_some hs
  have ht : t < s.drainers.length := by
    rcases hd with hd | hd <;> exact (List.getElem?_eq_some_iff.1 hd).1
  rw [List.getElem?_set_self ht] at hret
  split at hret
  · cases hret
  next hc =>
  simp only [Bool.or_eq_true, decide_eq_true_eq, not_or, not_lt] at hc
  have hq : s.jobsQueue = [] := List.eq_nil_of_length_eq_zero (by omega)
  have hb : s.numBusyThreads = 0 := le_antisymm hc.2 h.busy_nonneg
  have hpend p (hp : p ∈ s.workers) : p.pending = none :=
    WorkerPc.pending_of_not_busy (h.busy_eq_zero_iff.1 hb p hp)
  exact ⟨hq, hb, hpend, log_drained hr hq hpend⟩

/-- A caller of `waitForCompletion` blocked while job 7 ran is notified by the worker's
`jobDone` and returns: the job has been popped and has returned. -/
theorem waitForCompletion_drained_after_job :
    let s : Pool Nat := ⟨[.loop], [], 0, false, [.checking], .idle, [],
      [.add (.plain 7), .take 0 (.plain 7), .ret 0 (.plain 7)], false⟩
    Reachable (init 1 1 []) s ∧ s.waitForCompletion 0 = some { s with drainers := [.idle] } ∧
      ({ s with drainers := [.idle] } : Pool Nat).drainers[0]? = some .idle ∧
      (s.jobsQueue = [] ∧ s.numBusyThreads = 0 ∧ (∀ p ∈ s.workers, p.pending = none) ∧
        s.log.filterMap Event.taken = s.log.filterMap Event.added ∧
        (s.log.filterMap Event.returned).Perm (s.log.filterMap Event.added)) := by
  intro s
  have hr := reachable_of_run (show (init 1 1 [] : Pool Nat).run [.addJob 7 none,
    .waitForCompletion 0, .loopTest 0, .testJobAvailable 0, .grabNextJob 0, .runJob 0,
    .jobDone 0] = some s from rfl)
  have hs : s.waitForCompletion 0 = some { s with drainers := [.idle] } := rfl
  exact ⟨hr, hs, rfl, waitForCompletion_drained hr hs rfl⟩

/-! ## Order and ownership of jobs -/

/-- A worker whose read of `mTerminate` in `grabNextJob` sees it set takes the no-op `[]{}`
and leaves the queue and the history alone. -/
theorem grabNextJob_terminate {s s' : Pool α} {w : Nat} (ht : s.terminate = true)
    (hs : s.grabNextJob w = some s') :
    s'.workers[w]? = some (.running none) ∧ s'.jobsQueue = s.jobsQueue ∧ s'.log = s.log := by
  obtain ⟨hw, ⟨-, rfl⟩ | ⟨hf, -⟩ | ⟨hf, -⟩⟩ := grabNextJob_eq_some hs
  · exact ⟨List.getElem?_set_self (List.getElem?_eq_some_iff.1 hw).1, rfl, rfl⟩
  · cases ht.symm.trans hf
  · cases ht.symm.trans hf

/-- Jobs are popped in push order; each popped job is run once, by the worker that popped
it, which pops nothing else before it returns; the termination branch pops nothing. -/
theorem dequeue_fifo_exactly_once (hr : Reachable (init n d ex) s) :
    s.log.filterMap Event.taken ++ s.jobsQueue = s.log.filterMap Event.added ∧
      (∀ w, ∃ done : List (Job α), s.log.filter (Event.byWorker w) =
        done.flatMap (fun j => [.take w j, .ret w j]) ++
          ((s.workers[w]?.bind WorkerPc.pending).map (Event.take w)).toList) ∧
      (∀ w s', s.terminate = true → s.grabNextJob w = some s' →
        s'.jobsQueue = s.jobsQueue ∧ s'.log = s.log) :=
  ⟨fifo_of_reachable hr, (inv_of_reachable hr).history,
    fun _ _ ht hs => (grabNextJob_terminate ht hs).2⟩

/-- Two workers pop jobs 7 and 8 in push order, and worker 1's job returns first. -/
theorem dequeue_fifo_exactly_once_two_workers :
    let s : Pool Nat := ⟨[.running (some (.plain 7)), .finished (some (.plain 8))], [], 2, false,
      [], .idle, [], [.add (.plain 7), .add (.plain 8), .take 0 (.plain 7), .take 1 (.plain 8),
        .ret 1 (.plain 8)], false⟩
    Reachable (init 2 0 []) s ∧
      (s.log.filterMap Event.taken ++ s.jobsQueue = s.log.filterMap Event.added ∧
        (∀ w, ∃ done : List (Job Nat), s.log.filter (Event.byWorker w) =
          done.flatMap (fun j => [.take w j, .ret w j]) ++
            ((s.workers[w]?.bind WorkerPc.pending).map (Event.take w)).toList) ∧
        (∀ w s', s.terminate = true → s.grabNextJob w = some s' →
          s'.jobsQueue = s.jobsQueue ∧ s'.log = s.log)) := by
  intro s
  have hr := reachable_of_run (show (init 2 0 [] : Pool Nat).run [.addJob 7 none,
    .addJob 8 none, .loopTest 0, .testJobAvailable 0, .grabNextJob 0, .loopTest 1,
    .testJobAvailable 1, .grabNextJob 1, .runJob 1] = some s from rfl)
  exact ⟨hr, dequeue_fifo_exactly_once hr⟩

/-! ## No lost wakeup before termination -/

/-- A queued job always has a worker outside `mJobAvailableCV`'s wait set, and a thread
blocked in `waitForCompletion` always has queued or running work to wait for. -/
theorem no_lost_wakeup (hn : 0 < n) (hr : Reachable (init n d ex) s) :
    (s.jobsQueue ≠ [] → ∃ p ∈ s.workers, p.isBlocked = false) ∧
      (WaitPc.blocked ∈ s.drainers → s.jobsQueue ≠ [] ∨ 0 < s.numBusyThreads) := by
  have h := inv_of_reachable hr
  have hw : s.workers ≠ [] :=
    List.ne_nil_of_length_pos (by rw [workers_length_of_reachable hr]; exact hn)
  exact ⟨h.queued_awake hw, h.drainer_blocked⟩

/-- Both workers waited on an empty queue; `addJob` woke worker 1 only, and a caller of
`waitForCompletion` blocked on the queued job. -/
theorem no_lost_wakeup_queued :
    let s : Pool Nat := ⟨[.blocked, .waiting], [.plain 7], 0, false, [.blocked], .idle, [],
      [.add (.plain 7)], false⟩
    0 < 2 ∧ Reachable (init 2 1 []) s ∧
      ((s.jobsQueue ≠ [] → ∃ p ∈ s.workers, p.isBlocked = false) ∧
        (WaitPc.blocked ∈ s.drainers → s.jobsQueue ≠ [] ∨ 0 < s.numBusyThreads)) := by
  intro s
  have hr := reachable_of_run (show (init 2 1 [] : Pool Nat).run [.loopTest 0,
    .testJobAvailable 0, .waitJobAvailable 0, .loopTest 1, .testJobAvailable 1,
    .waitJobAvailable 1, .addJob 7 (some 1), .waitForCompletion 0] = some s from rfl)
  exact ⟨Nat.two_pos, hr, no_lost_wakeup Nat.two_pos hr⟩

/-! ## The busy count -/

/-- `mNumBusyThreads` counts the busy workers, each holding a job it popped until
termination; it stays in `[0, getNumThreads()]`, is zero before the first `addJob`, and is
zero once every worker has left `threadExecLoop`, so no `assert` fails. -/
theorem busy_count (hr : Reachable (init n d ex) s) :
    s.numBusyThreads = s.workers.countP WorkerPc.isBusy ∧
      (s.terminate = false → ∀ w p, s.workers[w]? = some p → p.isBusy = true →
        ∃ j, p.lJob = some j ∧ Event.take w j ∈ s.log) ∧
      0 ≤ s.getNumBusyThreads ∧ s.getNumBusyThreads ≤ s.getNumThreads ∧
      (s.log.filterMap Event.added = [] → s.terminate = false → s.numBusyThreads = 0) ∧
      ((∀ p ∈ s.workers, p = .exited) → s.numBusyThreads = 0) ∧
      s.assertFailed = false := by
  have h := inv_of_reachable hr
  have hle : s.getNumBusyThreads ≤ s.getNumThreads := by
    unfold getNumBusyThreads getNumThreads
    rw [h.busy_eq]
    exact Int.ofNat_le.2 (List.countP_le_length _)
  refine ⟨h.busy_eq, fun ht _ _ => h.lJob_of_busy ht, h.busy_nonneg, hle,
    fun hadd ht => h.busy_eq_zero_of_no_add (fifo_of_reachable hr) ht hadd, fun hex => ?_,
    h.no_fail⟩
  exact h.busy_eq_zero_iff.2 fun p hp => by rw [hex p hp]; rfl

/-- Worker 0 of two runs job 7: one busy thread, which holds the job it popped. -/
theorem busy_count_running :
    let s : Pool Nat := ⟨[.running (some (.plain 7)), .loop], [], 1, false, [], .idle, [],
      [.add (.plain 7), .take 0 (.plain 7)], false⟩
    Reachable (init 2 0 []) s ∧
      (s.numBusyThreads = s.workers.countP WorkerPc.isBusy ∧
        (s.terminate = false → ∀ w p, s.workers[w]? = some p → p.isBusy = true →
          ∃ j, p.lJob = some j ∧ Event.take w j ∈ s.log) ∧
        0 ≤ s.getNumBusyThreads ∧ s.getNumBusyThreads ≤ s.getNumThreads ∧
        (s.log.filterMap Event.added = [] → s.terminate = false → s.numBusyThreads = 0) ∧
        ((∀ p ∈ s.workers, p = .exited) → s.numBusyThreads = 0) ∧
        s.assertFailed = false) := by
  intro s
  have hr := reachable_of_run (show (init 2 0 [] : Pool Nat).run [.addJob 7 none,
    .loopTest 0, .testJobAvailable 0, .grabNextJob 0] = some s from rfl)
  exact ⟨hr, busy_count hr⟩

end Pool

end FbuThreadPool
