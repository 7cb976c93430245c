import FbuThreadPool.Legacy.Invariant
import FbuThreadPool.Pool.Progress
/-!
# In the legacy pool, waiting for completion always can end

`legacy_no_lost_wakeup` shows that no wakeup of the legacy pool is lost although
`mCompletionCV` is notified without the lock. This module shows the other half: the threads
can always finish. `Action.byThreads` are the steps of the code of the workers and of the
callers of `waitForCompletion`: no `addJob`, no spurious wakeup, no step of the destructor.

The argument is a ranking, as for `fbu::ThreadPool` (`Pool.Progress`). A notification moves
every blocked caller of `waitForCompletion` back to its test, which raises their ranks; the
workers' part of `potential` is weighed above anything one notification can add, so that
every step of the threads lowers it (`potential_lt_worker`, `potential_lt_drainer`). Before
termination, some such step is enabled in every reachable state where a thread is not at rest
(`exists_progress`): a thread holding the mutex can always go on, a queued job has a worker
outside the wait set, and a blocked caller of `waitForCompletion` has a job queued or a
notification to come (`Inv.drainer_blocked`).

* `legacy_wait_completes`: from every reachable state before termination, some schedule of
  the threads' own steps empties the queue, brings the busy count back to its first value, and
  returns every call of `waitForCompletion`.
-/

namespace FbuThreadPool

namespace Legacy

/-- Steps of the code of the workers and of the callers of `waitForCompletion`: no
`addJob`, no spurious wakeup, no step of `~ThreadPool`. -/
def Action.byThreads {α : Type} : Action α → Bool
  | .loopTest _ | .testJobAvailable _ | .waitJobAvailable _ | .grabNextJob _ | .runJob _
  | .decrementBusy _ | .notifyCompletion _ | .waitForCompletion _ | .waitCompletion _ => true
  | _ => false

/-- How many steps of its own code a worker is from the wait set of `mJobAvailableCV`, on
the way round the loop. -/
def WorkerPc.rank {α : Type} : WorkerPc α → Nat
  | .blocked | .exited => 0
  | .holding => 1
  | .grabbing => 2
  | .waiting => 3
  | .loop => 4
  | .notifying => 5
  | .finished => 6
  | .running _ => 7

/-- How many steps of its own code a caller of `waitForCompletion` is from returning or
waiting on `mCompletionCV`. -/
def DrainPc.rank : DrainPc → Nat
  | .idle | .blocked => 0
  | .holding => 1
  | .checking => 2

theorem DrainPc.sum_map_rank_le (l : List DrainPc) : (l.map rank).sum ≤ 2 * l.length := by
  induction l with
  | nil => rfl
  | cons d l ih => cases d <;> simp only [List.map_cons, List.sum_cons, rank,
      List.length_cons] <;> omega

theorem WorkerPc.eq_blocked_of_isBlocked {α : Type} {p : WorkerPc α} (h : p.isBlocked = true) :
    p = .blocked := by
  cases p <;> first | rfl | cases h

namespace Pool

variable {α : Type} {b : Int} {n d : Nat} {s s' : Pool α}

/-! ## The potential -/

/-- The workers' ranks and six per queued job, weighed above the ranks of the callers of
`waitForCompletion`, which one notification can raise by at most two each. -/
def potential (s : Pool α) : Nat :=
  (2 * s.drainers.length + 1) * ((s.workers.map WorkerPc.rank).sum + 6 * s.jobsQueue.length) +
    (s.drainers.map DrainPc.rank).sum

/-- A worker's step that lowers its rank plus six per queued job lowers the potential,
whatever it does to the callers of `waitForCompletion`. -/
theorem potential_lt_worker {w : Nat} {p : WorkerPc α} (q : WorkerPc α)
    (hw : s.workers[w]? = some p) (hs' : s'.workers = s.workers.set w q)
    (hd : s'.drainers.length = s.drainers.length)
    (hlt : q.rank + 6 * s'.jobsQueue.length < p.rank + 6 * s.jobsQueue.length) :
    s'.potential < s.potential := by
  have hsum := List.sum_map_set_add WorkerPc.rank q hw
  have hD := DrainPc.sum_map_rank_le s'.drainers
  have hX : (s'.workers.map WorkerPc.rank).sum + 6 * s'.jobsQueue.length + 1 ≤
      (s.workers.map WorkerPc.rank).sum + 6 * s.jobsQueue.length := by
    rw [hs']; omega
  have hmul := Nat.mul_le_mul_left (2 * s.drainers.length + 1) hX
  unfold potential
  rw [hd, Nat.mul_add _ _ 1] at *
  omega

/-- A step of a caller of `waitForCompletion` that lowers its rank lowers the potential. -/
theorem potential_lt_drainer {t : Nat} {p : DrainPc} (q : DrainPc)
    (ht : s.drainers[t]? = some p) (hs' : s' = { s with drainers := s.drainers.set t q })
    (hlt : q.rank < p.rank) : s'.potential < s.potential := by
  have hsum := List.sum_map_set_add DrainPc.rank q ht
  subst hs'
  unfold potential
  simp only [List.length_set]
  omega

/-! ## Some thread can always move -/

/-- A worker leaves `threadExecLoop` only once `mTerminate` is set. -/
def Live (s : Pool α) : Prop := ∀ p ∈ s.workers, p = .exited → s.terminate = true

theorem live_init (b : Int) (n d : Nat) : (initWith b n d : Pool α).Live := by
  intro p hp
  simp only [initWith, List.mem_replicate] at hp
  rw [hp.2]
  exact nofun

/-- A move of one worker keeps `Live` when it leaves the loop only with `mTerminate` set. -/
theorem Live.set_worker {w : Nat} {q : WorkerPc α} (h : s.Live)
    (ht : s'.terminate = s.terminate) (hs' : s'.workers = s.workers.set w q)
    (hq : q = .exited → s.terminate = true) : s'.Live := by
  intro p hp he
  rw [hs'] at hp
  rw [ht]
  rcases List.mem_or_eq_of_mem_set hp with hp | rfl
  · exact h p hp he
  · exact hq he

theorem Live.step {a : Action α} (h : s.Live) (hs : s.step a = some s') : s'.Live := by
  cases a with
  | addJob j wake =>
    obtain ⟨-, ⟨-, -, rfl⟩ | ⟨v, -, -, rfl⟩⟩ := addJob_eq_some hs
    · exact h
    · exact h.set_worker (q := .waiting) rfl rfl nofun
  | loopTest w =>
    obtain ⟨-, rfl⟩ := loopTest_eq_some hs
    exact h.set_worker rfl rfl fun he => by split at he <;> simp_all
  | testJobAvailable w =>
    obtain ⟨-, -, rfl⟩ := testJobAvailable_eq_some hs
    exact h.set_worker rfl rfl fun he => by split at he <;> cases he
  | waitJobAvailable w =>
    obtain ⟨-, rfl⟩ := waitJobAvailable_eq_some hs
    exact h.set_worker (q := .blocked) rfl rfl nofun
  | wakeWorker w =>
    obtain ⟨-, rfl⟩ := wakeWorker_eq_some hs
    exact h.set_worker (q := .waiting) rfl rfl nofun
  | grabNextJob w =>
    obtain ⟨-, ⟨-, rfl⟩ | ⟨-, job, -, -, rfl⟩⟩ := grabNextJob_eq_some hs
    · exact h.set_worker (q := .running none) rfl rfl nofun
    · exact h.set_worker (q := .running (some job)) rfl rfl nofun
  | runJob w =>
    obtain ⟨-, -, rfl⟩ := runJob_eq_some hs
    exact h.set_worker (q := .finished) rfl rfl nofun
  | decrementBusy w =>
    obtain ⟨-, rfl⟩ := decrementBusy_eq_some hs
    exact h.set_worker (q := .notifying) rfl rfl nofun
  | notifyCompletion w =>
    obtain ⟨-, rfl⟩ := notifyCompletion_eq_some hs
    exact h.set_worker (q := .loop) rfl rfl nofun
  | waitForCompletion t => obtain ⟨-, -, rfl⟩ := waitForCompletion_eq_some hs; exact h
  | waitCompletion t => obtain ⟨-, rfl⟩ := waitCompletion_eq_some hs; exact h
  | wakeDrainer t => obtain ⟨-, rfl⟩ := wakeDrainer_eq_some hs; exact h
  | setTerminate => obtain ⟨-, rfl⟩ := setTerminate_eq_some hs; exact fun _ _ _ => rfl
  | notifyAll =>
    obtain ⟨-, rfl⟩ := notifyAll_eq_some hs
    intro p hp he
    obtain ⟨q, hq, rfl⟩ := List.mem_map.1 hp
    exact h q hq (by cases q <;> first | rfl | cases he)
  | join => obtain ⟨_, -, -, rfl⟩ := join_eq_some hs; exact h

theorem live_of_reachable (hr : Reachable (initWith b n d) s) : s.Live :=
  hr.induction (live_init b n d) fun _ _ _ h hs => h.step hs

/-- A worker out of the wait set can take a step of its own code that lowers the potential,
once it holds the mutex or the mutex is free. -/
theorem exists_worker_step (hi : s.Inv b) (hl : s.Live) (ht : s.terminate = false) {w : Nat}
    {p : WorkerPc α} (hw : s.workers[w]? = some p) (hb : p.isBlocked = false)
    (hlock : s.lockFree = true ∨ p.holdsLock = true) :
    ∃ a s', a.byThreads = true ∧ s.step a = some s' ∧ s'.potential < s.potential := by
  cases p with
  | loop =>
    refine exists_step_of_isSome (a := .loopTest w) rfl
      (by simp only [step, loopTest, hw, Option.isSome_some]) fun s' hs' => ?_
    obtain ⟨-, rfl⟩ := loopTest_eq_some hs'
    exact potential_lt_worker _ hw rfl rfl
      (by simp only [ht, Bool.false_eq_true, ↓reduceIte, WorkerPc.rank]; omega)
  | waiting =>
    have hf : s.lockFree = true := hlock.resolve_right nofun
    refine exists_step_of_isSome (a := .testJobAvailable w) rfl
      (by simp only [step, testJobAvailable, hw, hf, if_true, Option.isSome_some]) fun s' hs' => ?_
    obtain ⟨-, -, rfl⟩ := testJobAvailable_eq_some hs'
    exact potential_lt_worker _ hw rfl rfl (by split <;> simp only [WorkerPc.rank] <;> omega)
  | holding =>
    refine exists_step_of_isSome (a := .waitJobAvailable w) rfl
      (by simp only [step, waitJobAvailable, hw, Option.isSome_some]) fun s' hs' => ?_
    obtain ⟨-, rfl⟩ := waitJobAvailable_eq_some hs'
    exact potential_lt_worker _ hw rfl rfl (by simp only [WorkerPc.rank]; omega)
  | blocked => cases hb
  | grabbing =>
    have hq : s.jobsQueue ≠ [] := by
      simpa [Placed, ht] using hi.placed _ (List.getElem?_mem hw)
    refine exists_step_of_isSome (a := .grabNextJob w) rfl
      (grabNextJob_isSome hw (hi.placed _ (List.getElem?_mem hw))) fun s' hs' => ?_
    obtain ⟨-, ⟨hT, -⟩ | ⟨-, job, rest, hjr, rfl⟩⟩ := grabNextJob_eq_some hs'
    · cases ht.symm.trans hT
    · refine potential_lt_worker _ hw rfl rfl ?_
      simp only [hjr, List.length_cons, WorkerPc.rank]
      omega
  | running j =>
    refine exists_step_of_isSome (a := .runJob w) rfl
      (by simp only [step, runJob, hw, Option.isSome_some]) fun s' hs' => ?_
    obtain ⟨_, -, rfl⟩ := runJob_eq_some hs'
    exact potential_lt_worker _ hw rfl rfl (by simp only [WorkerPc.rank]; omega)
  | finished =>
    refine exists_step_of_isSome (a := .decrementBusy w) rfl
      (by simp only [step, decrementBusy, hw, Option.isSome_some]) fun s' hs' => ?_
    obtain ⟨-, rfl⟩ := decrementBusy_eq_some hs'
    exact potential_lt_worker _ hw rfl rfl (by simp only [WorkerPc.rank]; omega)
  | notifying =>
    refine exists_step_of_isSome (a := .notifyCompletion w) rfl
      (by simp only [step, notifyCompletion, hw, Option.isSome_some]) fun s' hs' => ?_
    obtain ⟨-, rfl⟩ := notifyCompletion_eq_some hs'
    exact potential_lt_worker _ hw rfl (List.length_map _ _) (by simp only [WorkerPc.rank]; omega)
  | exited => cases ht.symm.trans (hl _ (List.getElem?_mem hw) rfl)

/-- A caller of `waitForCompletion` about to wait can wait, and one back at its test can
test once the mutex is free; both lower the potential. -/
theorem exists_drainer_step {t : Nat} {p : DrainPc} (ht : s.drainers[t]? = some p)
    (hp : p = .holding ∨ (p = .checking ∧ s.lockFree = true)) :
    ∃ a s', a.byThreads = true ∧ s.step a = some s' ∧ s'.potential < s.potential := by
  rcases hp with rfl | ⟨rfl, hf⟩
  · refine exists_step_of_isSome (a := .waitCompletion t) rfl
      (by simp only [step, waitCompletion, ht, Option.isSome_some]) fun s' hs' => ?_
    obtain ⟨-, hs'⟩ := waitCompletion_eq_some hs'
    exact potential_lt_drainer _ ht hs' (by decide)
  · refine exists_step_of_isSome (a := .waitForCompletion t) rfl
      (by simp only [step, waitForCompletion, ht, hf, if_true, Option.isSome_some]) fun s' hs' => ?_
    obtain ⟨-, -, hs'⟩ := waitForCompletion_eq_some hs'
    exact potential_lt_drainer _ ht hs' (by split <;> decide)

/-- Every thread at rest: the queue is empty, every worker waits for a job, and every call of
`waitForCompletion` has returned. -/
def AtRest (s : Pool α) : Prop :=
  s.jobsQueue = [] ∧ (∀ p ∈ s.workers, p = .blocked) ∧ ∀ t ∈ s.drainers, t = .idle

/-- Before termination, in a reachable state where some thread is not at rest, some thread
can take a step of its own code that lowers the potential. -/
theorem exists_progress (hi : s.Inv b) (hl : s.Live) (ht : s.terminate = false)
    (hne : s.workers ≠ []) (hd : ¬ s.AtRest) :
    ∃ a s', a.byThreads = true ∧ s.step a = some s' ∧ s'.potential < s.potential := by
  -- a thread holding the mutex goes on
  by_cases hdh : DrainPc.holding ∈ s.drainers
  · obtain ⟨t, ht'⟩ := List.mem_iff_getElem?.1 hdh
    exact exists_drainer_step ht' (.inl rfl)
  by_cases hwh : ∃ p ∈ s.workers, p.holdsLock = true
  · obtain ⟨p, hp, hlk⟩ := hwh
    obtain ⟨w, hw⟩ := List.mem_iff_getElem?.1 hp
    exact exists_worker_step hi hl ht hw (by cases p <;> first | rfl | cases hlk) (.inr hlk)
  have hf : s.lockFree = true := by
    simp only [not_exists, not_and, Bool.not_eq_true] at hwh
    simp only [lockFree, Bool.and_eq_true, List.all_eq_true, bne_iff_ne]
    exact ⟨fun p hp => by simp [hwh p hp], fun t ht' he => hdh (he ▸ ht')⟩
  -- otherwise any worker out of the wait set, or any caller back at its test, moves
  by_cases hwb : ∃ p ∈ s.workers, p.isBlocked = false
  · obtain ⟨p, hp, hb⟩ := hwb
    obtain ⟨w, hw⟩ := List.mem_iff_getElem?.1 hp
    exact exists_worker_step hi hl ht hw hb (.inl hf)
  by_cases hdc : DrainPc.checking ∈ s.drainers
  · obtain ⟨t, ht'⟩ := List.mem_iff_getElem?.1 hdc
    exact exists_drainer_step ht' (.inr ⟨rfl, hf⟩)
  -- every worker is blocked: no job is queued and no caller is left waiting
  simp only [not_exists, not_and, Bool.not_eq_false] at hwb
  have hall : ∀ p ∈ s.workers, p = .blocked := fun p hp =>
    WorkerPc.eq_blocked_of_isBlocked (hwb p hp)
  have hq : s.jobsQueue = [] := by
    by_contra hq
    obtain ⟨p, hp, hb⟩ := hi.queued_awake hne hq
    rw [hall p hp] at hb
    cases hb
  have hnot : s.workers.countP WorkerPc.notifies = 0 :=
    List.countP_eq_zero.2 fun p hp => by rw [hall p hp]; exact Bool.false_ne_true
  refine (hd ⟨hq, hall, fun t ht' => ?_⟩).elim
  cases t with
  | idle => rfl
  | checking => exact absurd ht' hdc
  | holding => exact absurd ht' hdh
  | blocked => exact absurd (hi.drainer_blocked ht') (by simp [hq, hnot])

/-- A step of the threads leaves `mTerminate` alone. -/
theorem byThreads_terminate {a : Action α} (ha : a.byThreads = true)
    (hs : s.step a = some s') : s'.terminate = s.terminate := by
  cases a with
  | loopTest w => obtain ⟨-, rfl⟩ := loopTest_eq_some hs; rfl
  | testJobAvailable w => obtain ⟨-, -, rfl⟩ := testJobAvailable_eq_some hs; rfl
  | waitJobAvailable w => obtain ⟨-, rfl⟩ := waitJobAvailable_eq_some hs; rfl
  | grabNextJob w =>
    obtain ⟨-, ⟨-, rfl⟩ | ⟨-, _, _, -, rfl⟩⟩ := grabNextJob_eq_some hs <;> rfl
  | runJob w => obtain ⟨_, -, rfl⟩ := runJob_eq_some hs; rfl
  | decrementBusy w => obtain ⟨-, rfl⟩ := decrementBusy_eq_some hs; rfl
  | notifyCompletion w => obtain ⟨-, rfl⟩ := notifyCompletion_eq_some hs; rfl
  | waitForCompletion t => obtain ⟨-, -, rfl⟩ := waitForCompletion_eq_some hs; rfl
  | waitCompletion t => obtain ⟨-, rfl⟩ := waitCompletion_eq_some hs; rfl
  | _ => cases ha

/-! ## Every thread comes to rest -/

/-- **Waiting for completion always can end.** Before `~ThreadPool` begins, the threads' own
code, with no further `addJob` and no spurious wakeup, can always bring the legacy pool to
rest: some schedule of their steps empties the queue, brings `mNumBusyThreads` back to the
value `b` it started at (`0` when it started at `0`), and returns every call of
`waitForCompletion`. -/
theorem legacy_wait_completes (hn : 0 < n) (hr : Reachable (initWith b n d) s)
    (ht : s.terminate = false) :
    ∃ as s', (∀ a ∈ as, a.byThreads = true) ∧ s.run as = some s' ∧
      s'.jobsQueue = [] ∧ s'.numBusyThreads = b ∧ ∀ t ∈ s'.drainers, t = .idle := by
  let P (s' : Pool α) : Prop := Reachable (initWith b n d) s' ∧ s'.terminate = false
  have hprog (s₁ : Pool α) (h₁ : P s₁) (hd : ¬ s₁.AtRest) :
      ∃ a s₂, a.byThreads = true ∧ s₁.step a = some s₂ ∧ P s₂ ∧
        s₂.potential < s₁.potential := by
    obtain ⟨hr₁, ht₁⟩ := h₁
    have hne : s₁.workers ≠ [] :=
      List.ne_nil_of_length_pos (by rw [length_workers_of_reachable hr₁]; exact hn)
    obtain ⟨a, s₂, ha, hs, hlt⟩ :=
      exists_progress (inv_of_reachable hr₁) (live_of_reachable hr₁) ht₁ hne hd
    exact ⟨a, s₂, ha, hs, ⟨.tail hr₁ ⟨a, hs⟩, (byThreads_terminate ha hs).trans ht₁⟩, hlt⟩
  obtain ⟨as, s', has, hrun, ⟨hr', -⟩, hq, hw, hdr⟩ :=
    exists_run_of_rank (Q := AtRest) potential hprog (s := s) ⟨hr, ht⟩
  refine ⟨as, s', has, hrun, hq, ?_, hdr⟩
  rw [(inv_of_reachable hr').busy_eq, List.countP_eq_zero.2 fun p hp => by simp [hw p hp,
    WorkerPc.isBusy]]
  exact Int.add_zero b

/-- From a busy count that started at `1`: worker 0 has its notification to make, job 8 is
queued, and the caller of `waitForCompletion` is blocked; the pool comes to rest with the
count back at `1`. -/
theorem legacy_wait_completes_blocked :
    let s : Pool Nat := ⟨[.notifying], [8], 1, false, [.blocked], .idle⟩
    0 < 1 ∧ Reachable (initWith 1 1 1) s ∧ s.terminate = false ∧
      ∃ as s', (∀ a ∈ as, a.byThreads = true) ∧ s.run as = some s' ∧
        s'.jobsQueue = [] ∧ s'.numBusyThreads = 1 ∧ ∀ t ∈ s'.drainers, t = .idle := by
  intro s
  have hr := reachable_of_run (show (initWith 1 1 1 : Pool Nat).run
    [.addJob 7 none, .addJob 8 none, .loopTest 0, .testJobAvailable 0, .grabNextJob 0,
      .waitForCompletion 0, .waitCompletion 0, .runJob 0, .decrementBusy 0] = some s from rfl)
  exact ⟨Nat.one_pos, hr, rfl, legacy_wait_completes Nat.one_pos hr rfl⟩

end Pool

end Legacy

end FbuThreadPool
