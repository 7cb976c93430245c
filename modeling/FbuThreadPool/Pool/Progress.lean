import FbuThreadPool.Pool.Properties
import FbuThreadPool.Pool.ExecutorCount
/-!
# Before destruction, the workers alone drain the pool

`waitForCompletion` returns only on a drained pool (`Pool.waitForCompletion_drained`). This
module shows that the pool can always get there: from every reachable state in which
`mTerminate` is not set, the workers' own code, with no further `addJob`, no spurious
wakeup and no step of any other thread, runs every job pushed so far to its end.

The argument is a ranking. Each place of a worker in `threadExecLoop` has a rank, and a
queued job is worth more than the trip of the worker that pops it back to the loop test
(`potential`). In a state that is not drained some worker step is enabled and lowers the
potential (`exists_progress`): a worker holding the mutex can always go on, a queued job
has a worker outside the wait set (`Inv.queued_awake`), and a busy worker can finish its
job. That a worker can move needs two facts beyond `Inv`, kept by every step (`Live`): a
worker leaves the loop only once `mTerminate` is set, and every wrapper names an executor
of the pool.

* `workers_drain`: from every reachable state before termination, a schedule of worker
  steps reaches a state with an empty queue and no worker busy, where every job pushed has
  returned and every thread in `waitForCompletion` returns at its next pass;
* `executors_drain`: if no executor's `addJob` is between its two blocks, the same schedule
  brings every executor's count to `0`, with every job it counted returned and every thread
  in its `waitForCompletion` returning at its next pass.
-/

namespace FbuThreadPool

/-- Steps of the workers' own code: `threadExecLoop`, `grabNextJob`, the jobs' bodies and
the executors' wrappers. A spurious wakeup is not one. -/
def Action.byWorker {α : Type} : Action α → Bool
  | .loopTest _ | .testJobAvailable _ | .waitJobAvailable _ | .grabNextJob _ | .runJob _
  | .finishWrapper _ | .jobDone _ => true
  | _ => false

/-- A wrapper names one of the pool's `m` executors. -/
def Job.Bound {α : Type} (m : Nat) : Job α → Prop
  | .plain _ => True
  | .wrapped e _ => e < m

namespace WorkerPc

variable {α : Type} {t : Bool} {m : Nat} {p q : WorkerPc α}

/-- What a worker needs to be able to move: it has left the loop only if `mTerminate` is
set, and the job it holds names one of the `m` executors. -/
def Sound (t : Bool) (m : Nat) (p : WorkerPc α) : Prop :=
  (p = .exited → t = true) ∧ ∀ j, p.lJob = some j → j.Bound m

theorem Sound.of_lJob (hp : p.Sound t m) (hq : q ≠ .exited)
    (hj : ∀ j, q.lJob = some j → p.lJob = some j) : q.Sound t m :=
  ⟨fun h => absurd h hq, fun j h => hp.2 j (hj j h)⟩

theorem Sound.of_idle (hq : q ≠ .exited) (hj : q.lJob = none) : q.Sound t m :=
  ⟨fun h => absurd h hq, fun j h => by rw [hj] at h; cases h⟩

theorem Sound.terminate (hp : p.Sound t m) : p.Sound true m := ⟨fun _ => rfl, hp.2⟩

theorem Sound.notify (hp : p.Sound t m) : p.notify.Sound t m := by
  cases p <;> first | exact hp | exact .of_idle nofun rfl

theorem wrapperOf_of_not_busy {e : Nat} (h : p.isBusy = false) : p.wrapperOf e = none := by
  cases p <;> first | rfl | cases h

/-- How much of its own code a worker still runs before it blocks or exits: a worker on
its way to a pop ranks below one that holds a job. -/
def rank : WorkerPc α → Nat
  | .blocked | .exited => 0
  | .holding => 1
  | .grabbing => 2
  | .waiting => 3
  | .loop => 4
  | .finished _ => 5
  | .wrapping _ _ => 6
  | .running _ => 7

end WorkerPc

theorem List.sum_map_set_add {β : Type} (f : β → Nat) {l : List β} {i : Nat} {a : β} (b : β)
    (h : l[i]? = some a) : ((l.set i b).map f).sum + f a = (l.map f).sum + f b := by
  simpa using ((List.set_append_perm b h).map f).sum_eq

namespace Pool

variable {α : Type} {n d : Nat} {ex : List Nat} {s s' : Pool α}

/-! ## Every worker can move -/

/-- What, beyond `Inv`, keeps every worker able to move. -/
structure Live (s : Pool α) : Prop where
  /-- Every queued wrapper names an executor of the pool. -/
  queued : ∀ j ∈ s.jobsQueue, j.Bound s.executors.length
  /-- Every worker is `Sound`: out of the loop only once `mTerminate` is set, and holding
  only wrappers of executors of the pool. -/
  workers : ∀ p ∈ s.workers, p.Sound s.terminate s.executors.length

theorem live_init (n d : Nat) (ex : List Nat) : (init n d ex : Pool α).Live where
  queued := nofun
  workers p hp := by
    rw [List.eq_of_mem_replicate hp]
    exact .of_idle nofun rfl

theorem Live.of_views (h : s.Live) (hq : s'.jobsQueue = s.jobsQueue)
    (ht : s'.terminate = s.terminate) (hm : s'.executors.length = s.executors.length)
    (hw : ∀ p ∈ s'.workers, p.Sound s.terminate s.executors.length) : s'.Live :=
  ⟨fun j hj => hm ▸ h.queued j (hq ▸ hj), fun p hp => ht ▸ hm ▸ hw p hp⟩

theorem Live.workers_set (h : s.Live) {w : Nat} (q : WorkerPc α)
    (hq : q.Sound s.terminate s.executors.length) :
    ∀ p ∈ s.workers.set w q, p.Sound s.terminate s.executors.length :=
  fun p hp => (List.mem_or_eq_of_mem_set hp).elim (h.workers p) (· ▸ hq)

theorem Live.workers_idle (h : s.Live) {w : Nat} (q : WorkerPc α) (hq : q ≠ .exited)
    (hj : q.lJob = none) : ∀ p ∈ s.workers.set w q, p.Sound s.terminate s.executors.length :=
  h.workers_set q (.of_idle hq hj)

/-- Worker `w` moves to a place that holds what it held, or nothing. -/
theorem Live.workers_move (h : s.Live) {w : Nat} {p : WorkerPc α} (q : WorkerPc α)
    (hw : s.workers[w]? = some p) (hq : q ≠ .exited)
    (hj : ∀ j, q.lJob = some j → p.lJob = some j) :
    ∀ p ∈ s.workers.set w q, p.Sound s.terminate s.executors.length :=
  h.workers_set q ((h.workers p (List.getElem?_mem hw)).of_lJob hq hj)

theorem Live.addJob (h : s.Live) {job : Job α} {wake : Option Nat}
    (hs : s.addJob job wake = some s') (hj : job.Bound s.executors.length) : s'.Live := by
  obtain ⟨-, ws, hws, rfl⟩ := addJob_eq_some hs
  refine ⟨fun j hj' => ?_, fun p hp => ?_⟩
  · rcases List.mem_append.1 hj' with hj' | hj'
    · exact h.queued j hj'
    · rw [List.mem_singleton.1 hj']; exact hj
  · rcases notifyOne_eq_some hws with ⟨-, rfl⟩ | ⟨v, -, -, rfl⟩
    · exact h.workers p hp
    · exact h.workers_set .waiting (.of_idle nofun rfl) p hp

theorem Live.step (h : s.Live) {a : Action α} (hs : s.step a = some s') : s'.Live := by
  cases a with
  | addJob j wake => exact h.addJob hs trivial
  | loopTest w =>
    obtain ⟨-, rfl⟩ := loopTest_eq_some hs
    split
    · exact ⟨h.queued, h.workers_set .exited ⟨fun _ => ‹_›, fun _ h => by cases h⟩⟩
    · exact ⟨h.queued, h.workers_idle .waiting nofun rfl⟩
  | testJobAvailable w =>
    obtain ⟨-, -, rfl⟩ := testJobAvailable_eq_some hs
    split
    · exact ⟨h.queued, h.workers_idle .grabbing nofun rfl⟩
    · exact ⟨h.queued, h.workers_idle .holding nofun rfl⟩
  | waitJobAvailable w =>
    obtain ⟨-, rfl⟩ := waitJobAvailable_eq_some hs
    exact ⟨h.queued, h.workers_idle .blocked nofun rfl⟩
  | wakeWorker w =>
    obtain ⟨-, rfl⟩ := wakeWorker_eq_some hs
    exact ⟨h.queued, h.workers_idle .waiting nofun rfl⟩
  | grabNextJob w =>
    obtain ⟨-, ⟨-, rfl⟩ | ⟨-, job, rest, hq, rfl⟩ | ⟨-, -, rfl⟩⟩ :=
      grabNextJob_eq_some hs
    · exact ⟨h.queued, h.workers_idle (.running none) nofun rfl⟩
    · have hjob : job.Bound s.executors.length := h.queued job (by simp [hq])
      exact ⟨fun j hj => h.queued j (by simp [hq, hj]),
        h.workers_set (.running (some job)) ⟨nofun, fun _ hj => by cases hj; exact hjob⟩⟩
    · exact ⟨h.queued, h.workers⟩
  | runJob w =>
    obtain ⟨hw, rfl⟩ | ⟨_, hw, rfl⟩ | ⟨_, _, _, hw, -, rfl⟩ := runJob_eq_some hs
    · exact ⟨h.queued, h.workers_idle (.finished none) nofun rfl⟩
    · exact ⟨h.queued, h.workers_move (.finished _) hw nofun fun _ => id⟩
    · exact h.of_views rfl rfl (List.length_set ..) (h.workers_move (.wrapping _ _) hw nofun
        fun _ => id)
  | finishWrapper w =>
    obtain ⟨_, _, _, hw, -, rfl⟩ := finishWrapper_eq_some hs
    exact h.of_views rfl rfl (List.length_set ..) (h.workers_move (.finished _) hw nofun
      fun _ => id)
  | jobDone w =>
    obtain ⟨_, -, -, rfl⟩ := jobDone_eq_some hs
    exact ⟨h.queued, h.workers_idle .loop nofun rfl⟩
  | waitForCompletion t =>
    obtain ⟨-, -, rfl⟩ := waitForCompletion_eq_some hs; exact ⟨h.queued, h.workers⟩
  | wakeDrainer t => obtain ⟨-, rfl⟩ := wakeDrainer_eq_some hs; exact ⟨h.queued, h.workers⟩
  | setTerminate =>
    obtain ⟨-, rfl⟩ := setTerminate_eq_some hs
    exact ⟨h.queued, fun p hp => (h.workers p hp).terminate⟩
  | notifyAll =>
    obtain ⟨-, rfl⟩ := notifyAll_eq_some hs
    refine ⟨h.queued, fun p hp => ?_⟩
    obtain ⟨q, hq, rfl⟩ := List.mem_map.1 hp
    exact (h.workers q hq).notify
  | join => obtain ⟨_, -, -, rfl⟩ := join_eq_some hs; exact ⟨h.queued, h.workers⟩
  | assertIdle =>
    obtain ⟨-, ⟨-, rfl⟩ | ⟨-, rfl⟩⟩ := assertIdle_eq_some hs <;> exact ⟨h.queued, h.workers⟩
  | executorAddJob e j =>
    obtain ⟨_, -, rfl⟩ := executorAddJob_eq_some hs
    exact h.of_views rfl rfl (List.length_set ..) h.workers
  | executorSubmit e k wake =>
    obtain ⟨_, _, _, hx, -, h₁, rfl⟩ := executorSubmit_eq_some hs
    have h₂ := h.addJob h₁ (List.getElem?_eq_some_iff.1 hx).1
    obtain ⟨-, _, -, rfl⟩ := addJob_eq_some h₁
    exact h₂.of_views rfl rfl (List.length_set ..) h₂.workers
  | executorWait e t =>
    obtain ⟨_, _, -, -, rfl⟩ := executorWait_eq_some hs
    exact h.of_views rfl rfl (List.length_set ..) h.workers
  | executorWake e t =>
    obtain ⟨_, _, -, -, rfl⟩ := executorWake_eq_some hs
    exact h.of_views rfl rfl (List.length_set ..) h.workers

theorem live_of_reachable (hr : Reachable (init n d ex) s) : s.Live :=
  hr.induction (live_init n d ex) fun _ _ _ h hs => h.step hs

/-! ## The potential -/

/-- The work left in the pool: the workers' ranks, and for each queued job more than the
rise in rank of the worker that pops it. -/
def potential (s : Pool α) : Nat := (s.workers.map WorkerPc.rank).sum + 6 * s.jobsQueue.length

theorem potential_lt {w : Nat} {p : WorkerPc α} (q : WorkerPc α) (hw : s.workers[w]? = some p)
    (hs' : s'.workers = s.workers.set w q)
    (hlt : q.rank + 6 * s'.jobsQueue.length < p.rank + 6 * s.jobsQueue.length) :
    s'.potential < s.potential := by
  have := List.sum_map_set_add WorkerPc.rank q hw
  unfold potential
  rw [hs']
  omega

/-- Nothing left to run: the queue is empty, no worker is busy, and the mutex is free. -/
def Drained (s : Pool α) : Prop :=
  s.jobsQueue = [] ∧ s.lockFree = true ∧ ∀ p ∈ s.workers, p.isBusy = false

instance [DecidableEq α] : DecidablePred (Drained (α := α)) := fun s =>
  inferInstanceAs
    (Decidable (s.jobsQueue = [] ∧ s.lockFree = true ∧ ∀ p ∈ s.workers, p.isBusy = false))

/-- A worker out of the wait set can take a step of its own code that lowers the
potential, once it holds the mutex or the mutex is free. -/
theorem exists_worker_step (hi : s.Inv) (hl : s.Live) (ht : s.terminate = false) {w : Nat}
    {p : WorkerPc α} (hw : s.workers[w]? = some p) (hb : p.isBlocked = false)
    (hlock : s.lockFree = true ∨ p.holdsLock = true) :
    ∃ a s', a.byWorker = true ∧ s.step a = some s' ∧ s'.potential < s.potential := by
  have hsound := hl.workers p (List.getElem?_mem hw)
  cases p with
  | loop =>
    refine exists_step_of_isSome (a := .loopTest w) rfl (by simp [step, loopTest, hw])
      fun s' hs' => ?_
    obtain ⟨-, rfl⟩ := loopTest_eq_some hs'
    exact potential_lt _ hw rfl (by simp [ht, WorkerPc.rank])
  | waiting =>
    have hf : s.lockFree = true := hlock.resolve_right nofun
    refine exists_step_of_isSome (a := .testJobAvailable w) rfl
      (by simp [step, testJobAvailable, hw, hf]) fun s' hs' => ?_
    obtain ⟨-, -, rfl⟩ := testJobAvailable_eq_some hs'
    exact potential_lt _ hw rfl (by split <;> simp [WorkerPc.rank])
  | holding =>
    refine exists_step_of_isSome (a := .waitJobAvailable w) rfl
      (by simp [step, waitJobAvailable, hw]) fun s' hs' => ?_
    obtain ⟨-, rfl⟩ := waitJobAvailable_eq_some hs'
    exact potential_lt _ hw rfl (by simp [WorkerPc.rank])
  | blocked => cases hb
  | grabbing =>
    refine exists_step_of_isSome (a := .grabNextJob w) rfl
      (by simp [step, grabNextJob, hw, ht]; split <;> rfl) fun s' hs' => ?_
    obtain ⟨-, ⟨hT, -⟩ | ⟨-, job, rest, hjr, rfl⟩ | ⟨-, hq, -⟩⟩ := grabNextJob_eq_some hs'
    · cases ht.symm.trans hT
    · refine potential_lt _ hw rfl ?_
      simp only [hjr, List.length_cons, WorkerPc.rank]
      omega
    · simpa [Placed, ht, hq] using hi.placed _ (List.getElem?_mem hw)
  | running j =>
    refine exists_step_of_isSome (a := .runJob w) rfl ?_ fun s' hs' => ?_
    · rcases j with _ | _ | ⟨e, j⟩
      · simp [step, runJob, hw]
      · simp [step, runJob, hw]
      · have he : e < s.executors.length := hsound.2 _ rfl
        simp [step, runJob, hw, List.getElem?_eq_getElem he]
    obtain ⟨-, rfl⟩ | ⟨_, -, rfl⟩ | ⟨_, _, _, -, -, rfl⟩ := runJob_eq_some hs' <;>
      exact potential_lt _ hw rfl (by simp [WorkerPc.rank])
  | wrapping e j =>
    have he : e < s.executors.length := hsound.2 _ rfl
    refine exists_step_of_isSome (a := .finishWrapper w) rfl
      (by simp [step, finishWrapper, hw, List.getElem?_eq_getElem he]) fun s' hs' => ?_
    obtain ⟨_, _, _, -, -, rfl⟩ := finishWrapper_eq_some hs'
    exact potential_lt _ hw rfl (by simp [WorkerPc.rank])
  | finished j =>
    have hf : s.lockFree = true := hlock.resolve_right nofun
    refine exists_step_of_isSome (a := .jobDone w) rfl (by simp [step, jobDone, hw, hf])
      fun s' hs' => ?_
    obtain ⟨_, -, -, rfl⟩ := jobDone_eq_some hs'
    exact potential_lt _ hw rfl (by simp [WorkerPc.rank])
  | exited => cases ht.symm.trans (hsound.1 rfl)

/-- Before termination, in a state that keeps `Inv` and `Live` and is not drained, some
worker can take a step of its own code that lowers the potential. -/
theorem exists_progress (hi : s.Inv) (hl : s.Live) (ht : s.terminate = false)
    (hne : s.workers ≠ []) (hd : ¬ s.Drained) :
    ∃ a s', a.byWorker = true ∧ s.step a = some s' ∧ s'.potential < s.potential := by
  by_cases hf : s.lockFree = true
  · by_cases hq : s.jobsQueue = []
    · obtain ⟨p, hp, hb⟩ : ∃ p ∈ s.workers, p.isBusy = true := by
        simpa [Drained, hq, hf] using hd
      obtain ⟨w, hw⟩ := List.mem_iff_getElem?.1 hp
      refine exists_worker_step hi hl ht hw ?_ (.inl hf)
      cases p <;> first | rfl | cases hb
    · obtain ⟨p, hp, hb⟩ := hi.queued_awake hne hq
      obtain ⟨w, hw⟩ := List.mem_iff_getElem?.1 hp
      exact exists_worker_step hi hl ht hw hb (.inl hf)
  · obtain ⟨p, hp, hlk⟩ : ∃ p ∈ s.workers, p.holdsLock = true := by simpa [lockFree] using hf
    obtain ⟨w, hw⟩ := List.mem_iff_getElem?.1 hp
    refine exists_worker_step hi hl ht hw ?_ (.inr hlk)
    cases p <;> first | rfl | cases hlk

/-- A worker's step pushes no job, leaves `mTerminate` alone, and hands no executor job to
the pool. -/
theorem byWorker_keeps {a : Action α} (ha : a.byWorker = true) (hs : s.step a = some s') :
    s'.terminate = s.terminate ∧ s'.log.filterMap Event.added = s.log.filterMap Event.added ∧
      s'.executors.map Executor.inFlight = s.executors.map Executor.inFlight := by
  cases a with
  | loopTest w => obtain ⟨-, rfl⟩ := loopTest_eq_some hs; exact ⟨rfl, rfl, rfl⟩
  | testJobAvailable w =>
    obtain ⟨-, -, rfl⟩ := testJobAvailable_eq_some hs; exact ⟨rfl, rfl, rfl⟩
  | waitJobAvailable w => obtain ⟨-, rfl⟩ := waitJobAvailable_eq_some hs; exact ⟨rfl, rfl, rfl⟩
  | grabNextJob w =>
    obtain ⟨-, ⟨-, rfl⟩ | ⟨-, _, _, -, rfl⟩ | ⟨-, -, rfl⟩⟩ := grabNextJob_eq_some hs <;>
      exact ⟨rfl, by simp [Event.added], rfl⟩
  | runJob w =>
    obtain ⟨-, rfl⟩ | ⟨_, -, rfl⟩ | ⟨_, _, _, -, hx, rfl⟩ := runJob_eq_some hs
    · exact ⟨rfl, rfl, rfl⟩
    · exact ⟨rfl, by simp [Event.added], rfl⟩
    · exact ⟨rfl, rfl, List.map_set_of_eq _ hx rfl⟩
  | finishWrapper w =>
    obtain ⟨_, _, _, -, hx, rfl⟩ := finishWrapper_eq_some hs
    exact ⟨rfl, by simp [Event.added], List.map_set_of_eq _ hx rfl⟩
  | jobDone w => obtain ⟨_, -, -, rfl⟩ := jobDone_eq_some hs; exact ⟨rfl, rfl, rfl⟩
  | _ => cases ha

/-! ## Draining -/

/-- Before termination, a schedule of worker steps leads from every reachable state to a
drained one, pushing nothing and handing no executor job to the pool. -/
theorem drain_run (hn : 0 < n) (hr : Reachable (init n d ex) s) (ht : s.terminate = false) :
    ∃ as s', (∀ a ∈ as, a.byWorker = true) ∧ s.run as = some s' ∧
      Reachable (init n d ex) s' ∧ s'.Drained ∧
      s'.log.filterMap Event.added = s.log.filterMap Event.added ∧
      s'.executors.map Executor.inFlight = s.executors.map Executor.inFlight := by
  let P (s' : Pool α) : Prop := Reachable (init n d ex) s' ∧ s'.terminate = false ∧
    s'.log.filterMap Event.added = s.log.filterMap Event.added ∧
    s'.executors.map Executor.inFlight = s.executors.map Executor.inFlight
  have hprog (s₁ : Pool α) (h₁ : P s₁) (hd : ¬ s₁.Drained) :
      ∃ a s₂, a.byWorker = true ∧ s₁.step a = some s₂ ∧ P s₂ ∧ s₂.potential < s₁.potential := by
    obtain ⟨hr₁, ht₁, hadd₁, hfl₁⟩ := h₁
    have hne : s₁.workers ≠ [] :=
      List.ne_nil_of_length_pos (by rw [workers_length_of_reachable hr₁]; exact hn)
    obtain ⟨a, s₂, ha, hs, hlt⟩ :=
      exists_progress (inv_of_reachable hr₁) (live_of_reachable hr₁) ht₁ hne hd
    obtain ⟨ht₂, hadd₂, hfl₂⟩ := byWorker_keeps ha hs
    exact ⟨a, s₂, ha, hs, ⟨.tail hr₁ ⟨a, hs⟩, ht₂.trans ht₁, hadd₂.trans hadd₁,
      hfl₂.trans hfl₁⟩, hlt⟩
  obtain ⟨as, s', has, hrun, ⟨hr', -, hadd, hfl⟩, hd⟩ :=
    exists_run_of_rank (Q := Drained) potential hprog (s := s) ⟨hr, ht, rfl, rfl⟩
  exact ⟨as, s', has, hrun, hr', hd, hadd, hfl⟩

/-- Before `~ThreadPool` begins, the workers alone, with no further `addJob` and no
spurious wakeup, run every job pushed so far to its end: some schedule of their steps
reaches a state with an empty queue and no worker busy, where every job pushed has returned
and every thread in `waitForCompletion` returns at its next pass. -/
theorem workers_drain (hn : 0 < n) (hr : Reachable (init n d ex) s) (ht : s.terminate = false) :
    ∃ as s', (∀ a ∈ as, a.byWorker = true) ∧ s.run as = some s' ∧
      s'.jobsQueue = [] ∧ s'.numBusyThreads = 0 ∧
      (s'.log.filterMap Event.returned).Perm (s.log.filterMap Event.added) ∧
      ∀ t dp, s'.drainers[t]? = some dp →
        ∃ s'', s'.waitForCompletion t = some s'' ∧ s''.drainers[t]? = some .idle := by
  obtain ⟨as, s', has, hrun, hr', ⟨hq, hf, hbusy⟩, hadd, -⟩ := drain_run hn hr ht
  have hi := inv_of_reachable hr'
  have hb : s'.numBusyThreads = 0 := hi.busy_eq_zero_iff.2 hbusy
  have hpend p (hp : p ∈ s'.workers) : p.pending = none :=
    WorkerPc.pending_of_not_busy (hbusy p hp)
  refine ⟨as, s', has, hrun, hq, hb, hadd ▸ (log_drained hr' hq hpend).2, fun t dp hdp => ?_⟩
  refine ⟨{ s' with drainers := s'.drainers.set t .idle }, ?_,
    List.getElem?_set_self (List.getElem?_eq_some_iff.1 hdp).1⟩
  cases dp with
  | blocked =>
    rcases hi.drainer_blocked (List.getElem?_mem hdp) with h | h
    · exact absurd hq h
    · omega
  | _ => simp [waitForCompletion, hdp, hf, hq, hb]

theorem workers_drain_queued :
    let s : Pool Nat :=
      { (init 1 0 [] : Pool Nat) with jobsQueue := [.plain 7], log := [.add (.plain 7)] }
    0 < 1 ∧ Reachable (init 1 0 []) s ∧ s.terminate = false ∧
      ∃ as s', (∀ a ∈ as, a.byWorker = true) ∧ s.run as = some s' ∧
        s'.jobsQueue = [] ∧ s'.numBusyThreads = 0 ∧
        (s'.log.filterMap Event.returned).Perm (s.log.filterMap Event.added) ∧
        ∀ t dp, s'.drainers[t]? = some dp →
          ∃ s'', s'.waitForCompletion t = some s'' ∧ s''.drainers[t]? = some .idle :=
  have hr : Reachable (init 1 0 [] : Pool Nat)
      { (init 1 0 [] : Pool Nat) with jobsQueue := [.plain 7], log := [.add (.plain 7)] } :=
    reachable_of_run (show (init 1 0 [] : Pool Nat).run [.addJob 7 none] = some _ from rfl)
  ⟨by decide, hr, rfl, workers_drain (by decide) hr rfl⟩

/-- Before `~ThreadPool` begins, once no `ThreadPoolJobsExecutor::addJob` is between its
two blocks, the workers alone bring every executor to rest: some schedule of their steps
reaches a state where every executor's `mNumJobs` reads `0`, every job it counted has
returned, and every thread in its `waitForCompletion` returns at its next pass. -/
theorem executors_drain (hn : 0 < n) (hr : Reachable (init n d ex) s)
    (ht : s.terminate = false) (hfl : ∀ x ∈ s.executors, x.inFlight = []) :
    ∃ as s', (∀ a ∈ as, a.byWorker = true) ∧ s.run as = some s' ∧
      ∀ (e : Nat) (x : Executor α), s'.executors[e]? = some x →
        x.completion.numJobs = 0 ∧ x.submitted.Perm x.returned ∧
        ∀ (t : Nat) (wp : WaitPc), x.completion.waiters[t]? = some wp →
          ∃ c, x.completion.waitForCompletion t = some c ∧ c.waiters[t]? = some .idle := by
  obtain ⟨as, s', has, hrun, hr', ⟨hq, -, hbusy⟩, -, hfl'⟩ := drain_run hn hr ht
  refine ⟨as, s', has, hrun, fun e x hx => ?_⟩
  have hA := execInv_of_reachable hr' e x hx
  have hin : x.inFlight = [] := by
    obtain ⟨y, hy, hyx⟩ := List.mem_map.1
      (hfl' ▸ List.mem_map_of_mem Executor.inFlight (List.getElem?_mem hx))
    rw [← hyx, hfl y hy]
  have h0 : s'.outstanding e x = [] := by
    simp only [outstanding, inPool, hin, hq, List.filterMap_nil, List.nil_append,
      List.filterMap_eq_nil_iff]
    exact fun p hp => WorkerPc.wrapperOf_of_not_busy (hbusy p hp)
  have htr := hA.tracks
  rw [h0] at htr
  refine ⟨htr.numJobs_eq, hA.submitted_perm_returned h0, fun t wp hwp => ?_⟩
  refine ⟨{ x.completion with waiters := x.completion.waiters.set t .idle }, ?_,
    List.getElem?_set_self (List.getElem?_eq_some_iff.1 hwp).1⟩
  cases wp with
  | blocked => exact absurd (htr.blocked_pos (List.getElem?_mem hwp)) (Nat.lt_irrefl 0)
  | _ => simp [Completion.waitForCompletion, hwp, htr.numJobs_eq]

theorem executors_drain_submitted :
    let s : Pool Nat :=
      { (init 1 0 [1] : Pool Nat) with
        jobsQueue := [.wrapped 0 7], executors := [⟨⟨1, [.idle]⟩, [], [7], []⟩],
        log := [.add (.wrapped 0 7)] }
    0 < 1 ∧ Reachable (init 1 0 [1]) s ∧ s.terminate = false ∧
      (∀ x ∈ s.executors, x.inFlight = []) ∧
      ∃ as s', (∀ a ∈ as, a.byWorker = true) ∧ s.run as = some s' ∧
        ∀ (e : Nat) (x : Executor Nat), s'.executors[e]? = some x →
          x.completion.numJobs = 0 ∧ x.submitted.Perm x.returned ∧
          ∀ (t : Nat) (wp : WaitPc), x.completion.waiters[t]? = some wp →
            ∃ c, x.completion.waitForCompletion t = some c ∧ c.waiters[t]? = some .idle :=
  have hr : Reachable (init 1 0 [1] : Pool Nat)
      { (init 1 0 [1] : Pool Nat) with
        jobsQueue := [.wrapped 0 7], executors := [⟨⟨1, [.idle]⟩, [], [7], []⟩],
        log := [.add (.wrapped 0 7)] } :=
    reachable_of_run (show (init 1 0 [1] : Pool Nat).run
      [.executorAddJob 0 7, .executorSubmit 0 0 none] = some _ from rfl)
  have hfl : ∀ x ∈ [(⟨⟨1, [.idle]⟩, [], [7], []⟩ : Executor Nat)], x.inFlight = [] := by
    simp
  ⟨by decide, hr, rfl, hfl, executors_drain (by decide) hr rfl hfl⟩

end Pool

end FbuThreadPool
