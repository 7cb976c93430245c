import FbuThreadPool.Pool.Executor
/-!
# What `ThreadPoolJobsExecutor::waitForCompletion` guarantees

Read off `ExecInv` for every executor of every reachable pool:

* `executor_counts_own_jobs`: `mNumJobs` is the number of the executor's own outstanding
  jobs modulo `2^32`; only its own increment and its own wrappers' decrements change it, and a
  blocked waiter always has a job outstanding; below `2^31` outstanding jobs it reads that
  number and a blocked waiter sees a positive count; below `2^32` `waitForCompletion` returns
  only once every job counted has returned;
* `executor_count_wraps`: `2^31` jobs counted and queued before any worker runs make the
  counter read `INT_MIN`;
* `executor_wait_returns_while_busy`: the wrapper's decrement comes before the worker's
  `--mNumBusyThreads`, so `waitForCompletion` of the executor can return while the pool
  still counts the worker busy.
-/

namespace FbuThreadPool

theorem List.map_getElem?_set_of_eq {β γ : Type} (f : β → γ) {l : List β} {i j : Nat}
    {a b : β} (h : l[i]? = some a) (hf : f b = f a) : (l.set i b)[j]?.map f = l[j]?.map f := by
  by_cases hij : i = j
  · subst hij
    rw [List.getElem?_set_self (List.getElem?_eq_some_iff.1 h).1, h]
    exact congrArg some hf
  · rw [List.getElem?_set_ne hij]

/-- Action `a` runs code of executor `e` that writes its `mNumJobs`: the increment of its
`addJob`, or the decrement in one of its wrappers. -/
def Action.countsFor {α : Type} (s : Pool α) (e : Nat) : Action α → Prop
  | .executorAddJob e' _ => e' = e
  | .finishWrapper w => ∃ j, s.workers[w]? = some (.wrapping e j)
  | _ => False

namespace Pool

variable {α : Type} {n d : Nat} {ex : List Nat} {s : Pool α}

theorem WorkerPc.wrapperOf_of_wrappingOf {e : Nat} {p : WorkerPc α} {j : α}
    (h : p.wrappingOf e = some j) : p.wrapperOf e = some j := by
  cases p <;> first | cases h | exact h

/-- No step but the executor's own increment and its wrappers' decrements changes its
`mNumJobs`: not another executor, not a direct job of the pool, not a wait. -/
theorem numJobs_frame {s' : Pool α} {a : Action α} {e : Nat} (hs : s.step a = some s')
    (ha : ¬ a.countsFor s e) :
    s'.executors[e]?.map (fun x => x.completion.numJobs) =
      s.executors[e]?.map (fun x => x.completion.numJobs) := by
  cases a with
  | addJob j wake => rw [(addJob_views hs).1]
  | loopTest w => obtain ⟨-, rfl⟩ := loopTest_eq_some hs; rfl
  | testJobAvailable w => obtain ⟨-, -, rfl⟩ := testJobAvailable_eq_some hs; rfl
  | waitJobAvailable w => obtain ⟨-, rfl⟩ := waitJobAvailable_eq_some hs; rfl
  | wakeWorker w => obtain ⟨-, rfl⟩ := wakeWorker_eq_some hs; rfl
  | grabNextJob w =>
    obtain ⟨-, ⟨-, rfl⟩ | ⟨-, _, _, -, rfl⟩ | ⟨-, -, rfl⟩⟩ :=
      grabNextJob_eq_some hs <;> rfl
  | runJob w =>
    obtain ⟨-, rfl⟩ | ⟨_, -, rfl⟩ | ⟨_, _, _, -, hx, rfl⟩ := runJob_eq_some hs
    · rfl
    · rfl
    · exact List.map_getElem?_set_of_eq _ hx rfl
  | finishWrapper w =>
    obtain ⟨e', j, x, hw, -, rfl⟩ := finishWrapper_eq_some hs
    have hne : e' ≠ e := by rintro rfl; exact ha ⟨j, hw⟩
    exact congrArg _ (List.getElem?_set_ne hne)
  | jobDone w => obtain ⟨_, -, -, rfl⟩ := jobDone_eq_some hs; rfl
  | waitForCompletion t => obtain ⟨-, -, rfl⟩ := waitForCompletion_eq_some hs; rfl
  | wakeDrainer t => obtain ⟨-, rfl⟩ := wakeDrainer_eq_some hs; rfl
  | setTerminate => obtain ⟨-, rfl⟩ := setTerminate_eq_some hs; rfl
  | notifyAll => obtain ⟨-, rfl⟩ := notifyAll_eq_some hs; rfl
  | join => obtain ⟨_, -, -, rfl⟩ := join_eq_some hs; rfl
  | assertIdle => obtain ⟨-, ⟨-, rfl⟩ | ⟨-, rfl⟩⟩ := assertIdle_eq_some hs <;> rfl
  | executorAddJob e' j =>
    obtain ⟨x, -, rfl⟩ := executorAddJob_eq_some hs
    exact congrArg _ (List.getElem?_set_ne ha)
  | executorSubmit e' k wake =>
    obtain ⟨x, _, _, hx, -, -, rfl⟩ := executorSubmit_eq_some hs
    exact List.map_getElem?_set_of_eq _ hx rfl
  | executorWait e' t =>
    obtain ⟨x, c, hx, hc, rfl⟩ := executorWait_eq_some hs
    obtain ⟨-, rfl⟩ := Completion.waitForCompletion_eq_some.1 hc
    exact List.map_getElem?_set_of_eq _ hx rfl
  | executorWake e' t =>
    obtain ⟨x, c, hx, hc, rfl⟩ := executorWake_eq_some hs
    obtain ⟨-, rfl⟩ := Completion.wake_eq_some.1 hc
    exact List.map_getElem?_set_of_eq _ hx rfl

/-- With no job outstanding, every job the executor counted has returned, each once. -/
theorem Agrees.submitted_perm_returned {e : Nat} {x : Executor α} (h : s.Agrees e x)
    (h0 : s.outstanding e x = []) : x.submitted.Perm x.returned := by
  have hwrap : s.workers.filterMap (WorkerPc.wrappingOf e) = [] := by
    simp only [outstanding, inPool, List.append_eq_nil, List.filterMap_eq_nil_iff] at h0
    exact List.filterMap_eq_nil_iff.2 fun p hp => by
      cases hj : p.wrappingOf e with
      | none => rfl
      | some j => cases (h0.2.2 p hp).symm.trans (WorkerPc.wrapperOf_of_wrappingOf hj)
  have hsub := h.submitted_perm
  have hret := h.returned_perm
  rw [h0, List.append_nil] at hsub
  rw [hwrap, List.append_nil] at hret
  exact hsub.trans hret.symm

/-- `mNumJobs` of executor `e` counts its own outstanding jobs modulo `2^32`, no step of
another thread changes it, and a blocked waiter always has a job outstanding. Below `2^31`
outstanding jobs the counter reads their number, so it is not negative, and a blocked waiter
sees a positive count; below `2^32` a pass of `waitForCompletion` returns only once every
counted job has returned. -/
theorem executor_counts_own_jobs {e : Nat} {x : Executor α} (hr : Reachable (init n d ex) s)
    (hx : s.executors[e]? = some x) :
    x.completion.numJobs = BitVec.ofNat 32 (s.outstanding e x).length ∧
      x.submitted.Perm (s.decrementedFor e ++ s.outstanding e x) ∧
      (∀ a s', s.step a = some s' → ¬ a.countsFor s e →
        s'.executors[e]?.map (fun x => x.completion.numJobs) = some x.completion.numJobs) ∧
      (WaitPc.blocked ∈ x.completion.waiters → s.outstanding e x ≠ []) ∧
      ((s.outstanding e x).length < 2 ^ 31 →
        x.completion.numJobs.toInt = (s.outstanding e x).length ∧
        (WaitPc.blocked ∈ x.completion.waiters → 0 < x.completion.numJobs.toInt)) ∧
      ((s.outstanding e x).length < 2 ^ 32 →
        ∀ t c, x.completion.waitForCompletion t = some c → c.waiters[t]? = some .idle →
          s.outstanding e x = [] ∧ x.submitted.Perm x.returned) := by
  have h := execInv_of_reachable hr e x hx
  have hpos (hb : WaitPc.blocked ∈ x.completion.waiters) : 0 < (s.outstanding e x).length :=
    h.tracks.blocked_pos hb
  refine ⟨h.tracks.numJobs_eq, h.submitted_perm, fun a s' hs ha => ?_,
    fun hb => List.ne_nil_of_length_pos (hpos hb), fun hlt => ?_, fun hlt t c hc hret => ?_⟩
  · rw [numJobs_frame hs ha, hx]; rfl
  · have hint := h.tracks.toInt_eq hlt
    exact ⟨hint, fun hb => by rw [hint]; exact_mod_cast hpos hb⟩
  · have h0 := h.tracks.eq_zero hlt (Completion.numJobs_eq_zero_of_returns hc hret)
    have hnil := List.eq_nil_of_length_eq_zero h0
    exact ⟨hnil, h.submitted_perm_returned hnil⟩

/-- Executor 0 has counted jobs 7 and 8 and handed 7 to the pool; 7 has run and its wrapper
has decremented, and a caller of the executor's `waitForCompletion` is blocked on job 8. -/
theorem executor_counts_own_jobs_blocked :
    let s : Pool Nat := ⟨[.finished (some (.wrapped 0 7))], [], 1, false, [], .idle,
      [⟨⟨1, [.blocked]⟩, [8], [7, 8], [7]⟩],
      [.add (.wrapped 0 7), .take 0 (.wrapped 0 7), .ret 0 (.wrapped 0 7)], false⟩
    let x : Executor Nat := ⟨⟨1, [.blocked]⟩, [8], [7, 8], [7]⟩
    Reachable (init 1 0 [1]) s ∧ s.executors[0]? = some x ∧
      (x.completion.numJobs = BitVec.ofNat 32 (s.outstanding 0 x).length ∧
        x.submitted.Perm (s.decrementedFor 0 ++ s.outstanding 0 x) ∧
        (∀ a s', s.step a = some s' → ¬ a.countsFor s 0 →
          s'.executors[0]?.map (fun x => x.completion.numJobs) = some x.completion.numJobs) ∧
        (WaitPc.blocked ∈ x.completion.waiters → s.outstanding 0 x ≠ []) ∧
        ((s.outstanding 0 x).length < 2 ^ 31 →
          x.completion.numJobs.toInt = (s.outstanding 0 x).length ∧
          (WaitPc.blocked ∈ x.completion.waiters → 0 < x.completion.numJobs.toInt)) ∧
        ((s.outstanding 0 x).length < 2 ^ 32 →
          ∀ t c, x.completion.waitForCompletion t = some c → c.waiters[t]? = some .idle →
            s.outstanding 0 x = [] ∧ x.submitted.Perm x.returned)) := by
  intro s x
  have hr := reachable_of_run (show (init 1 0 [1] : Pool Nat).run [.executorAddJob 0 7,
    .executorSubmit 0 0 none, .executorAddJob 0 8, .loopTest 0, .testJobAvailable 0,
    .grabNextJob 0, .runJob 0, .finishWrapper 0, .executorWait 0 0] = some s from rfl)
  have hx : s.executors[0]? = some x := rfl
  exact ⟨hr, hx, executor_counts_own_jobs hr hx⟩

/-! ## The 32-bit counter wraps -/

/-- Executor 0 of a one-worker pool has counted and pushed `k` copies of `job`, and the
worker has not run. -/
def floodState (job : α) (k : Nat) : Pool α :=
  { (init 1 0 [0] : Pool α) with
    jobsQueue := List.replicate k (.wrapped 0 job)
    executors := [⟨⟨BitVec.ofNat 32 k, []⟩, [], List.replicate k job, []⟩]
    log := List.replicate k (.add (.wrapped 0 job)) }

theorem floodState_run (job : α) (k : Nat) :
    (floodState job k).run [.executorAddJob 0 job, .executorSubmit 0 0 none] =
      some (floodState job (k + 1)) := by
  simp [floodState, run, step, executorAddJob, executorSubmit, addJob, notifyOne, lockFree, init,
    Completion.increment, WorkerPc.holdsLock, WorkerPc.isBlocked, List.replicate_succ',
    BitVec.ofNat_add]

theorem reachable_floodState (job : α) (k : Nat) :
    Reachable (init 1 0 [0]) (floodState job k) := by
  induction k with
  | zero => exact .refl
  | succ k ih => exact ih.trans (reachable_of_run (floodState_run job k))

/-- `2^31` jobs counted and queued by one executor, before the worker runs, make its
`mNumJobs` read `INT_MIN`. -/
theorem executor_count_wraps :
    Reachable (init 1 0 [0] : Pool Nat) (floodState 0 (2 ^ 31)) ∧
      (floodState 0 (2 ^ 31) : Pool Nat).executors[0]?.map (fun x => x.completion.numJobs.toInt) =
        some (-2 ^ 31) :=
  ⟨reachable_floodState 0 _, by
    show some (BitVec.ofNat 32 (2 ^ 31)).toInt = some (-2 ^ 31)
    decide⟩

/-! ## The pool's busy count after an executor's wait -/

/-- One job through an executor on a one-worker pool: the wrapper has decremented the
executor's count and returned, and the worker has not yet run `--mNumBusyThreads`. The
executor's `waitForCompletion` returns (its waiter stays `idle`) while the pool reports one
busy thread. -/
theorem executor_wait_returns_while_busy :
    let s : Pool Nat :=
      { workers := [.finished (some (.wrapped 0 7))], jobsQueue := [], numBusyThreads := 1,
        terminate := false, drainers := [], dtor := .idle,
        executors := [⟨⟨0, [.idle]⟩, [], [7], [7]⟩],
        log := [.add (.wrapped 0 7), .take 0 (.wrapped 0 7), .ret 0 (.wrapped 0 7)],
        assertFailed := false }
    Reachable (init 1 0 [1]) s ∧ s.executorWait 0 0 = some s ∧ s.getNumBusyThreads = 1 :=
  ⟨reachable_of_run (show (init 1 0 [1] : Pool Nat).run [.executorAddJob 0 7,
      .executorSubmit 0 0 none, .loopTest 0, .testJobAvailable 0, .grabNextJob 0, .runJob 0,
      .finishWrapper 0] = some _ from rfl), rfl, rfl⟩

end Pool

end FbuThreadPool
