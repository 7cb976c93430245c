import FbuThreadPool.Pool.Progress
/-!
# `~ThreadPool`: the jobs it drops and when it returns

`~ThreadPool` sets `mTerminate`, wakes the workers with `notify_all` and joins them; its
comment warns that it "will not wait for all the jobs to be processed". Two results make this
precise.

A worker whose read of `mTerminate` in `grabNextJob` sees it set hands out the no-op `[]{}`
instead of popping. The flag is never cleared, so along every run from a state where it is set
every such read sees it, no worker pops, and the queue only grows
(`no_pop_after_terminate`). The statement is about the workers' reads: the code writes the
flag without the lock, and a worker that read it clear just before the write still pops,
which the model orders before the write (`Pool.grabNextJob`).

The destructor can hang (`Pool.terminate_notify_lost`), but only through the race between a
worker's test of the wait predicate and its wait. From every reachable state before
destruction some schedule of the destructor's and the workers' own steps joins every worker
and passes the final `assert(mNumBusyThreads == 0)` (`destructor_completes`): the worker that
is between its test and its wait (at most one, since it holds the mutex) enters the wait set
before `notify_all`, after which no worker waits, and a ranking that counts each worker's
distance to the loop's exit and the joins left goes down at every step.

* `no_pop_after_terminate`: once `mTerminate` is set, along every run every worker's read
  of it in `grabNextJob` takes the no-op, nothing is popped, and the queue only grows;
* `destructor_completes`: from every reachable state before destruction, the destructor and
  the workers alone can finish `~ThreadPool`, leaving the queue as it was.
-/

namespace FbuThreadPool

/-- Steps of `~ThreadPool` and of the workers' own code. -/
def Action.byDestructor {α : Type} : Action α → Bool
  | .setTerminate | .notifyAll | .join | .assertIdle => true
  | a => a.byWorker

namespace WorkerPc

variable {α : Type}

/-- About to wait on `mJobAvailableCV`, or in its wait set. -/
def waitsForJob : WorkerPc α → Bool
  | .holding | .blocked => true
  | _ => false

/-- Once `mTerminate` is set, how far a worker that does not wait is from leaving the loop:
each step of its own code lowers it. -/
def exitRank : WorkerPc α → Nat
  | .exited | .holding | .blocked => 0
  | .loop => 1
  | .finished _ => 2
  | .wrapping _ _ => 3
  | .running _ => 4
  | .grabbing => 5
  | .waiting => 6

end WorkerPc

namespace Pool

variable {α : Type} {n d : Nat} {ex : List Nat} {s s' : Pool α}

/-! ## Nothing is popped once `mTerminate` is set -/

/-- With `mTerminate` set, a step keeps it set, pops nothing and only appends to the
queue. -/
theorem terminate_keeps {a : Action α} (ht : s.terminate = true) (hs : s.step a = some s') :
    s'.terminate = true ∧ s'.log.filterMap Event.taken = s.log.filterMap Event.taken ∧
      s.jobsQueue <+: s'.jobsQueue := by
  have hadd {job : Job α} {wake : Option Nat} {s₁ : Pool α} (h : s.addJob job wake = some s₁) :
      s₁.terminate = true ∧ s₁.log.filterMap Event.taken = s.log.filterMap Event.taken ∧
        s.jobsQueue <+: s₁.jobsQueue := by
    obtain ⟨-, _, -, rfl⟩ := addJob_eq_some h
    exact ⟨ht, by simp [Event.taken], List.prefix_append _ _⟩
  have hsame : s'.terminate = s.terminate → s'.log = s.log → s'.jobsQueue = s.jobsQueue →
      s'.terminate = true ∧ s'.log.filterMap Event.taken = s.log.filterMap Event.taken ∧
        s.jobsQueue <+: s'.jobsQueue :=
    fun h₁ h₂ h₃ => ⟨h₁ ▸ ht, by rw [h₂], h₃ ▸ List.prefix_refl _⟩
  cases a with
  | addJob j wake => exact hadd hs
  | loopTest w => obtain ⟨-, rfl⟩ := loopTest_eq_some hs; exact hsame rfl rfl rfl
  | testJobAvailable w => obtain ⟨-, -, rfl⟩ := testJobAvailable_eq_some hs; exact hsame rfl rfl rfl
  | waitJobAvailable w => obtain ⟨-, rfl⟩ := waitJobAvailable_eq_some hs; exact hsame rfl rfl rfl
  | wakeWorker w => obtain ⟨-, rfl⟩ := wakeWorker_eq_some hs; exact hsame rfl rfl rfl
  | grabNextJob w =>
    obtain ⟨-, ⟨-, rfl⟩ | ⟨hf, -⟩ | ⟨hf, -⟩⟩ := grabNextJob_eq_some hs
    · exact hsame rfl rfl rfl
    · cases ht.symm.trans hf
    · cases ht.symm.trans hf
  | runJob w =>
    obtain ⟨-, rfl⟩ | ⟨_, -, rfl⟩ | ⟨_, _, _, -, -, rfl⟩ := runJob_eq_some hs
    · exact hsame rfl rfl rfl
    · exact ⟨ht, by simp [Event.taken], List.prefix_refl _⟩
    · exact hsame rfl rfl rfl
  | finishWrapper w =>
    obtain ⟨_, _, _, -, -, rfl⟩ := finishWrapper_eq_some hs
    exact ⟨ht, by simp [Event.taken], List.prefix_refl _⟩
  | jobDone w => obtain ⟨_, -, -, rfl⟩ := jobDone_eq_some hs; exact hsame rfl rfl rfl
  | waitForCompletion t =>
    obtain ⟨-, -, rfl⟩ := waitForCompletion_eq_some hs; exact hsame rfl rfl rfl
  | wakeDrainer t => obtain ⟨-, rfl⟩ := wakeDrainer_eq_some hs; exact hsame rfl rfl rfl
  | setTerminate => obtain ⟨-, rfl⟩ := setTerminate_eq_some hs; exact hsame ht.symm rfl rfl
  | notifyAll => obtain ⟨-, rfl⟩ := notifyAll_eq_some hs; exact hsame rfl rfl rfl
  | join => obtain ⟨_, -, -, rfl⟩ := join_eq_some hs; exact hsame rfl rfl rfl
  | assertIdle =>
    obtain ⟨-, ⟨-, rfl⟩ | ⟨-, rfl⟩⟩ := assertIdle_eq_some hs <;> exact hsame rfl rfl rfl
  | executorAddJob e j => obtain ⟨_, -, rfl⟩ := executorAddJob_eq_some hs; exact hsame rfl rfl rfl
  | executorSubmit e k wake =>
    obtain ⟨_, _, _, -, -, h₁, rfl⟩ := executorSubmit_eq_some hs
    have := hadd h₁
    exact this
  | executorWait e t => obtain ⟨_, _, -, -, rfl⟩ := executorWait_eq_some hs; exact hsame rfl rfl rfl
  | executorWake e t => obtain ⟨_, _, -, -, rfl⟩ := executorWake_eq_some hs; exact hsame rfl rfl rfl

/-- Once `mTerminate` is set, whatever any thread does, the flag stays set, every worker that
reads it in `grabNextJob` takes the no-op and pops nothing, no job is popped again, and every
job queued stays queued: `~ThreadPool` drops what it has not started. -/
theorem no_pop_after_terminate {s₀ : Pool α} (ht : s₀.terminate = true) (hr : Reachable s₀ s) :
    s.terminate = true ∧ s.log.filterMap Event.taken = s₀.log.filterMap Event.taken ∧
      s₀.jobsQueue <+: s.jobsQueue ∧
      ∀ w s', s.grabNextJob w = some s' →
        s'.workers[w]? = some (.running none) ∧ s'.jobsQueue = s.jobsQueue ∧ s'.log = s.log := by
  obtain ⟨ht', hlog, hq⟩ := hr.induction (P := fun s => s.terminate = true ∧
      s.log.filterMap Event.taken = s₀.log.filterMap Event.taken ∧ s₀.jobsQueue <+: s.jobsQueue)
    ⟨ht, rfl, List.prefix_refl _⟩ fun _ _ _ h hs =>
      let h' := terminate_keeps h.1 hs
      ⟨h'.1, h'.2.1.trans h.2.1, h.2.2.trans h'.2.2⟩
  exact ⟨ht', hlog, hq, fun _ _ => grabNextJob_terminate ht'⟩

/-- Job 7 is queued when the destructor sets `mTerminate`; job 8 is pushed after it, and the
worker that then tests the wait predicate reads the flag set and takes the no-op. -/
theorem no_pop_after_terminate_queued :
    let s₀ : Pool Nat := ⟨[.waiting], [.plain 7], 0, true, [], .notifying, [],
      [.add (.plain 7)], false⟩
    let s : Pool Nat := ⟨[.grabbing], [.plain 7, .plain 8], 0, true, [], .notifying, [],
      [.add (.plain 7), .add (.plain 8)], false⟩
    Reachable (init 1 0 []) s₀ ∧ s₀.terminate = true ∧ Reachable s₀ s ∧
      (s.terminate = true ∧ s.log.filterMap Event.taken = s₀.log.filterMap Event.taken ∧
        s₀.jobsQueue <+: s.jobsQueue ∧
        ∀ w s', s.grabNextJob w = some s' →
          s'.workers[w]? = some (.running none) ∧ s'.jobsQueue = s.jobsQueue ∧
            s'.log = s.log) := by
  intro s₀ s
  have h₀ := reachable_of_run (show (init 1 0 [] : Pool Nat).run
    [.addJob 7 none, .loopTest 0, .setTerminate] = some s₀ from rfl)
  have hr := reachable_of_run
    (show s₀.run [.addJob 8 none, .testJobAvailable 0] = some s from rfl)
  exact ⟨h₀, rfl, hr, no_pop_after_terminate rfl hr⟩

/-! ## The destructor finishes unless a wakeup is lost -/

/-- No worker waits on `mJobAvailableCV` or is between its test and its wait. -/
def NoneWaiting (s : Pool α) : Prop := ∀ p ∈ s.workers, p.waitsForJob = false

theorem NoneWaiting.set (h : s.NoneWaiting) {w : Nat} {q : WorkerPc α}
    (hq : q.waitsForJob = false) : ∀ p ∈ s.workers.set w q, p.waitsForJob = false :=
  fun p hp => (List.mem_or_eq_of_mem_set hp).elim (h p) (· ▸ hq)

/-- The destructor's joins still to do, and its final `assert`. -/
def joinsLeft (s : Pool α) : Nat :=
  match s.dtor with
  | .joining k => s.workers.length - k + 1
  | _ => 0

/-- What is left of `~ThreadPool` once `mTerminate` is set: each worker's distance to the
loop's exit, and the joins. -/
def exitPotential (s : Pool α) : Nat := (s.workers.map WorkerPc.exitRank).sum + s.joinsLeft

theorem exitPotential_lt {w : Nat} {p : WorkerPc α} (q : WorkerPc α)
    (hw : s.workers[w]? = some p) (hs' : s'.workers = s.workers.set w q)
    (hd : s'.dtor = s.dtor) (hlt : q.exitRank < p.exitRank) :
    s'.exitPotential < s.exitPotential := by
  have := List.sum_map_set_add WorkerPc.exitRank q hw
  have hj : s'.joinsLeft = s.joinsLeft := by simp only [joinsLeft, hd, hs', List.length_set]
  unfold exitPotential
  rw [hs', hj]
  omega

/-- With `mTerminate` set, a worker that does not wait and has not left the loop can take a
step of its own code that brings it closer to the exit, once it holds the mutex or the mutex
is free. -/
theorem exists_exit_worker_step (hl : s.Live) (ht : s.terminate = true) {w : Nat}
    {p : WorkerPc α} (hw : s.workers[w]? = some p) (hwait : p.waitsForJob = false)
    (hx : p ≠ .exited) (hlock : s.lockFree = true ∨ p.holdsLock = true) :
    ∃ a s', a.byDestructor = true ∧ s.step a = some s' ∧
      s'.exitPotential < s.exitPotential := by
  have hsound := hl.workers p (List.getElem?_mem hw)
  cases p with
  | loop =>
    refine exists_step_of_isSome (a := .loopTest w) rfl (by simp [step, loopTest, hw])
      fun s' hs' => ?_
    obtain ⟨-, rfl⟩ := loopTest_eq_some hs'
    exact exitPotential_lt _ hw rfl rfl (by simp [ht, WorkerPc.exitRank])
  | waiting =>
    have hf : s.lockFree = true := hlock.resolve_right nofun
    refine exists_step_of_isSome (a := .testJobAvailable w) rfl
      (by simp [step, testJobAvailable, hw, hf]) fun s' hs' => ?_
    obtain ⟨-, -, rfl⟩ := testJobAvailable_eq_some hs'
    exact exitPotential_lt _ hw rfl rfl (by simp [ht, WorkerPc.exitRank])
  | holding => cases hwait
  | blocked => cases hwait
  | grabbing =>
    refine exists_step_of_isSome (a := .grabNextJob w) rfl (by simp [step, grabNextJob, hw, ht])
      fun s' hs' => ?_
    obtain ⟨-, ⟨-, rfl⟩ | ⟨hf, -⟩ | ⟨hf, -⟩⟩ := grabNextJob_eq_some hs'
    · exact exitPotential_lt _ hw rfl rfl (by simp [WorkerPc.exitRank])
    · cases ht.symm.trans hf
    · cases ht.symm.trans hf
  | running j =>
    refine exists_step_of_isSome (a := .runJob w) rfl ?_ fun s' hs' => ?_
    · rcases j with _ | _ | ⟨e, j⟩
      · simp [step, runJob, hw]
      · simp [step, runJob, hw]
      · have he : e < s.executors.length := hsound.2 _ rfl
        simp [step, runJob, hw, List.getElem?_eq_getElem he]
    obtain ⟨-, rfl⟩ | ⟨_, -, rfl⟩ | ⟨_, _, _, -, -, rfl⟩ := runJob_eq_some hs' <;>
      exact exitPotential_lt _ hw rfl rfl (by simp [WorkerPc.exitRank])
  | wrapping e j =>
    have he : e < s.executors.length := hsound.2 _ rfl
    refine exists_step_of_isSome (a := .finishWrapper w) rfl
      (by simp [step, finishWrapper, hw, List.getElem?_eq_getElem he]) fun s' hs' => ?_
    obtain ⟨_, _, _, -, -, rfl⟩ := finishWrapper_eq_some hs'
    exact exitPotential_lt _ hw rfl rfl (by simp [WorkerPc.exitRank])
  | finished j =>
    have hf : s.lockFree = true := hlock.resolve_right nofun
    refine exists_step_of_isSome (a := .jobDone w) rfl (by simp [step, jobDone, hw, hf])
      fun s' hs' => ?_
    obtain ⟨_, -, -, rfl⟩ := jobDone_eq_some hs'
    exact exitPotential_lt _ hw rfl rfl (by simp [WorkerPc.exitRank])
  | exited => exact absurd rfl hx

/-- With `mTerminate` set and the destructor joining, and no worker waiting, some step of
the destructor or of a worker lowers `exitPotential`: a worker moves towards the exit, or,
once all have left, the destructor joins the next one or runs its `assert`. -/
theorem exists_exit_step (hi : s.Inv) (hl : s.Live) (ht : s.terminate = true) {k : Nat}
    (hk : s.dtor = .joining k) (hnw : s.NoneWaiting) :
    ∃ a s', a.byDestructor = true ∧ s.step a = some s' ∧
      s'.exitPotential < s.exitPotential := by
  by_cases hall : ∀ p ∈ s.workers, p = .exited
  · have hkle : k ≤ s.workers.length := by
      by_contra hgt
      have := hi.joined_exited k hk s.workers.length (by omega)
      simp at this
    rcases Nat.lt_or_ge k s.workers.length with hlt | hge
    · have hx : s.workers[k]? = some .exited := by
        rw [List.getElem?_eq_getElem hlt, hall _ (List.getElem_mem hlt)]
      refine exists_step_of_isSome (a := .join) rfl (by simp [step, join, hk, hx])
        fun s' hs' => ?_
      obtain ⟨k', hk', -, rfl⟩ := join_eq_some hs'
      cases hk.symm.trans hk'
      simp only [exitPotential, joinsLeft, hk]
      omega
    · have hb : s.numBusyThreads = 0 :=
        hi.busy_eq_zero_iff.2 fun p hp => by rw [hall p hp]; rfl
      have hkl : k = s.workers.length := by omega
      refine exists_step_of_isSome (a := .assertIdle) rfl
        (by simp [step, assertIdle, hk, hkl, hb]) fun s' hs' => ?_
      obtain ⟨-, ⟨-, rfl⟩ | ⟨hne, -⟩⟩ := assertIdle_eq_some hs'
      · simp [exitPotential, joinsLeft, hk]
      · exact absurd hb hne
  · obtain ⟨p, hp, hpx⟩ : ∃ p ∈ s.workers, p ≠ .exited := by simpa using hall
    by_cases hf : s.lockFree = true
    · obtain ⟨w, hw⟩ := List.mem_iff_getElem?.1 hp
      exact exists_exit_worker_step hl ht hw (hnw p hp) hpx (.inl hf)
    · obtain ⟨q, hq, hlk⟩ : ∃ q ∈ s.workers, q.holdsLock = true := by simpa [lockFree] using hf
      obtain ⟨w, hw⟩ := List.mem_iff_getElem?.1 hq
      exact exists_exit_worker_step hl ht hw (hnw q hq) (by rintro rfl; cases hlk) (.inr hlk)

/-- Once `mTerminate` is set and the destructor joins, a step of the destructor or of a
worker lets no worker wait, pushes and pops nothing, and leaves the destructor joining, or
done with every worker out of its loop. -/
theorem exit_keeps (hi : s.Inv) (ht : s.terminate = true) {k : Nat} (hk : s.dtor = .joining k)
    (hnw : s.NoneWaiting) {a : Action α} (ha : a.byDestructor = true)
    (hs : s.step a = some s') :
    s'.terminate = true ∧ s'.NoneWaiting ∧ s'.jobsQueue = s.jobsQueue ∧
      ((∃ k', s'.dtor = .joining k') ∨ (s'.dtor = .done ∧ ∀ p ∈ s'.workers, p = .exited)) := by
  have hjoin : ∃ k', s.dtor = .joining k' := ⟨k, hk⟩
  cases a with
  | loopTest w =>
    obtain ⟨-, rfl⟩ := loopTest_eq_some hs
    exact ⟨ht, hnw.set (by simp [ht, WorkerPc.waitsForJob]), rfl, .inl hjoin⟩
  | testJobAvailable w =>
    obtain ⟨-, -, rfl⟩ := testJobAvailable_eq_some hs
    exact ⟨ht, hnw.set (by simp [ht, WorkerPc.waitsForJob]), rfl, .inl hjoin⟩
  | waitJobAvailable w =>
    obtain ⟨hw, -⟩ := waitJobAvailable_eq_some hs
    cases hnw _ (List.getElem?_mem hw)
  | grabNextJob w =>
    obtain ⟨-, ⟨-, rfl⟩ | ⟨hf, -⟩ | ⟨hf, -⟩⟩ := grabNextJob_eq_some hs
    · exact ⟨ht, hnw.set rfl, rfl, .inl hjoin⟩
    · cases ht.symm.trans hf
    · cases ht.symm.trans hf
  | runJob w =>
    obtain ⟨-, rfl⟩ | ⟨_, -, rfl⟩ | ⟨_, _, _, -, -, rfl⟩ := runJob_eq_some hs <;>
      exact ⟨ht, hnw.set rfl, rfl, .inl hjoin⟩
  | finishWrapper w =>
    obtain ⟨_, _, _, -, -, rfl⟩ := finishWrapper_eq_some hs
    exact ⟨ht, hnw.set rfl, rfl, .inl hjoin⟩
  | jobDone w =>
    obtain ⟨_, -, -, rfl⟩ := jobDone_eq_some hs
    exact ⟨ht, hnw.set rfl, rfl, .inl hjoin⟩
  | setTerminate => cases hk.symm.trans (setTerminate_eq_some hs).1
  | notifyAll => cases hk.symm.trans (notifyAll_eq_some hs).1
  | join =>
    obtain ⟨k', -, -, rfl⟩ := join_eq_some hs
    exact ⟨ht, hnw, rfl, .inl ⟨_, rfl⟩⟩
  | assertIdle =>
    obtain ⟨hd, hdone⟩ := assertIdle_eq_some hs
    have hex : ∀ p ∈ s.workers, p = .exited := fun p hp => by
      obtain ⟨i, hi'⟩ := List.mem_iff_getElem?.1 hp
      have := hi.joined_exited _ hd i (List.getElem?_eq_some_iff.1 hi').1
      exact Option.some.inj (hi'.symm.trans this)
    rcases hdone with ⟨-, rfl⟩ | ⟨-, rfl⟩ <;> exact ⟨ht, hnw, rfl, .inr ⟨rfl, hex⟩⟩
  | _ => cases ha

/-- With `mTerminate` set, the destructor joining and no worker waiting, the destructor and
the workers alone finish `~ThreadPool`. -/
theorem exit_run (hr : Reachable (init n d ex) s) (ht : s.terminate = true) {k : Nat}
    (hk : s.dtor = .joining k) (hnw : s.NoneWaiting) :
    ∃ as s', (∀ a ∈ as, a.byDestructor = true) ∧ s.run as = some s' ∧
      Reachable (init n d ex) s' ∧ s'.dtor = .done ∧ (∀ p ∈ s'.workers, p = .exited) ∧
      s'.jobsQueue = s.jobsQueue := by
  let P (s' : Pool α) : Prop := Reachable (init n d ex) s' ∧ s'.terminate = true ∧
    s'.NoneWaiting ∧ s'.jobsQueue = s.jobsQueue ∧
    ((∃ k', s'.dtor = .joining k') ∨ (s'.dtor = .done ∧ ∀ p ∈ s'.workers, p = .exited))
  have hprog (s₁ : Pool α) (h₁ : P s₁) (hd : ¬ s₁.dtor = .done) :
      ∃ a s₂, a.byDestructor = true ∧ s₁.step a = some s₂ ∧ P s₂ ∧
        s₂.exitPotential < s₁.exitPotential := by
    obtain ⟨hr₁, ht₁, hnw₁, hq₁, ⟨k₁, hk₁⟩ | ⟨hd₁, -⟩⟩ := h₁
    · have hi₁ := inv_of_reachable hr₁
      obtain ⟨a, s₂, ha, hs, hlt⟩ :=
        exists_exit_step hi₁ (live_of_reachable hr₁) ht₁ hk₁ hnw₁
      obtain ⟨ht₂, hnw₂, hq₂, hd₂⟩ := exit_keeps hi₁ ht₁ hk₁ hnw₁ ha hs
      exact ⟨a, s₂, ha, hs, ⟨.tail hr₁ ⟨a, hs⟩, ht₂, hnw₂, hq₂.trans hq₁, hd₂⟩, hlt⟩
    · exact absurd hd₁ hd
  obtain ⟨as, s', has, hrun, ⟨hr', -, -, hq, hd'⟩, hdone⟩ :=
    exists_run_of_rank (Q := fun s' : Pool α => s'.dtor = .done) exitPotential hprog (s := s)
      ⟨hr, ht, hnw, rfl, .inl ⟨k, hk⟩⟩
  obtain ⟨k', hk'⟩ | ⟨-, hex⟩ := hd'
  · cases hdone.symm.trans hk'
  · exact ⟨as, s', has, hrun, hr', hdone, hex, hq⟩

/-- Right after `mTerminate` is written, letting the worker between its test and its wait
(if any) enter the wait set leaves no worker there. -/
theorem exists_none_holding (hi : s.Inv) :
    ∃ pre s₂, (∀ a ∈ pre, a.byDestructor = true) ∧ s.run pre = some s₂ ∧
      s₂.terminate = s.terminate ∧ s₂.dtor = s.dtor ∧ s₂.jobsQueue = s.jobsQueue ∧
      ∀ p ∈ s₂.workers, p ≠ .holding := by
  by_cases hh : ∃ w : Nat, s.workers[w]? = some .holding
  · obtain ⟨w, hw⟩ := hh
    refine ⟨[.waitJobAvailable w], { s with workers := s.workers.set w .blocked },
      by simp [Action.byDestructor, Action.byWorker],
      by simp [step, waitJobAvailable, hw], rfl, rfl, rfl, fun p hp hph => ?_⟩
    have hc := List.countP_set_add WorkerPc.holdsLock .blocked hw
    have h1 := hi.lock_le_one
    have hzero : (s.workers.set w .blocked).countP WorkerPc.holdsLock = 0 := by
      simp [WorkerPc.holdsLock] at hc
      omega
    have := lockFree_of_countP hzero hp
    rw [hph] at this
    cases this
  · refine ⟨[], s, nofun, rfl, rfl, rfl, rfl, fun p hp hph => hh ?_⟩
    obtain ⟨w, hw⟩ := List.mem_iff_getElem?.1 hp
    exact ⟨w, hph ▸ hw⟩

/-- From every reachable state before destruction, the destructor and the workers alone can
finish `~ThreadPool`: every worker leaves its loop and is joined, the final `assert` passes,
and the jobs still queued are left in the queue, never run. -/
theorem destructor_completes (hr : Reachable (init n d ex) s) (hd : s.dtor = .idle) :
    ∃ as s', (∀ a ∈ as, a.byDestructor = true) ∧ s.run as = some s' ∧
      s'.dtor = .done ∧ s'.assertFailed = false ∧ (∀ p ∈ s'.workers, p = .exited) ∧
      s'.jobsQueue = s.jobsQueue := by
  have h₁ : s.step .setTerminate = some { s with terminate := true, dtor := .notifying } := by
    simp [step, setTerminate, hd]
  have hr₁ : Reachable (init n d ex) { s with terminate := true, dtor := .notifying } :=
    .tail hr ⟨_, h₁⟩
  obtain ⟨pre, s₂, hpre, hrun₂, ht₂, hd₂, hq₂, hhold⟩ := exists_none_holding (inv_of_reachable hr₁)
  have h₃ : s₂.step .notifyAll =
      some { s₂ with workers := s₂.workers.map WorkerPc.notify, dtor := .joining 0 } := by
    simp [step, notifyAll, hd₂]
  have hr₃ := Relation.ReflTransGen.tail (hr₁.trans (reachable_of_run hrun₂)) ⟨_, h₃⟩
  have hnw : NoneWaiting
      { s₂ with workers := s₂.workers.map WorkerPc.notify, dtor := .joining 0 } := fun p hp => by
    obtain ⟨q, hq, rfl⟩ := List.mem_map.1 hp
    cases q <;> first | rfl | exact absurd rfl (hhold _ hq)
  obtain ⟨as, s', has, hrun, hr', hdone, hex, hq⟩ := exit_run hr₃ ht₂ rfl hnw
  refine ⟨.setTerminate :: pre ++ .notifyAll :: as, s', ?_, ?_, hdone,
    (inv_of_reachable hr').no_fail, hex, hq.trans hq₂⟩
  · simp only [List.cons_append, List.forall_mem_cons, List.forall_mem_append]
    exact ⟨rfl, hpre, rfl, has⟩
  · simp [run_append, h₁, hrun₂, h₃, hrun]

/-- A worker that found the queue empty still holds the mutex on its way into the wait
set: the schedule lets it wait before `notify_all`, and the destructor finishes. -/
theorem destructor_completes_holding :
    let s : Pool Nat := { (init 1 0 [] : Pool Nat) with workers := [.holding] }
    Reachable (init 1 0 []) s ∧ s.dtor = .idle ∧
      ∃ as s', (∀ a ∈ as, a.byDestructor = true) ∧ s.run as = some s' ∧
        s'.dtor = .done ∧ s'.assertFailed = false ∧ (∀ p ∈ s'.workers, p = .exited) ∧
        s'.jobsQueue = s.jobsQueue :=
  have hr : Reachable (init 1 0 [] : Pool Nat)
      { (init 1 0 [] : Pool Nat) with workers := [.holding] } :=
    reachable_of_run (show (init 1 0 [] : Pool Nat).run [.loopTest 0, .testJobAvailable 0] =
      some _ from rfl)
  ⟨hr, rfl, destructor_completes hr rfl⟩

end Pool

end FbuThreadPool
