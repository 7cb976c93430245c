import FbuThreadPool.Pool.Step
/-!
# What every reachable state of `fbu::ThreadPool` keeps

`Inv` collects the facts the code relies on without stating them: the busy count counts the
workers between its increment and decrement, the mutex is held across steps by at most one
worker, a worker about to wait saw an empty queue, each worker's history pairs each pop with
the return of the same job, and no wakeup is lost before termination. Each step function
keeps `Inv` (`Inv.addJob`, `Inv.grabNextJob`, ...), so every reachable state has it
(`inv_of_reachable`). The order of the queue is the business of `Pool.Refinement`.
-/

namespace FbuThreadPool

/-! ## Replacing one entry of a list -/

theorem List.countP_set_of_eq {β : Type} (p : β → Bool) {l : List β} {i : Nat} {a b : β}
    (h : l[i]? = some a) (hp : p b = p a) : (l.set i b).countP p = l.countP p := by
  have := List.countP_set_add p b h
  rw [hp] at this
  omega

theorem List.filterMap_set_of_eq {β γ : Type} (f : β → Option γ) {l : List β} {i : Nat}
    {a b : β} (h : l[i]? = some a) (hf : f b = f a) : (l.set i b).filterMap f = l.filterMap f := by
  induction l generalizing i with
  | nil => simp at h
  | cons x l ih =>
    cases i with
    | zero =>
      simp only [List.getElem?_cons_zero, Option.some.injEq] at h
      subst h
      simp [List.filterMap_cons, hf]
    | succ i => simp [List.filterMap_cons, ih (by simpa using h)]

theorem List.bind_getElem?_set_of_eq {β γ : Type} (f : β → Option γ) {l : List β} {i j : Nat}
    {a b : β} (h : l[i]? = some a) (hf : f b = f a) : (l.set i b)[j]?.bind f = l[j]?.bind f := by
  by_cases hij : i = j
  · subst hij
    rw [List.getElem?_set_self (List.getElem?_eq_some_iff.1 h).1, h]
    exact hf
  · rw [List.getElem?_set_ne hij]

theorem List.bind_getElem?_set_self {β γ : Type} (f : β → Option γ) {l : List β} {i : Nat}
    {a b : β} (h : l[i]? = some a) : (l.set i b)[i]?.bind f = f b := by
  rw [List.getElem?_set_self (List.getElem?_eq_some_iff.1 h).1]
  rfl

theorem List.mem_set_of_getElem? {β : Type} {l : List β} {i : Nat} {a : β} (b : β)
    (h : l[i]? = some a) : b ∈ l.set i b :=
  List.mem_set l i (List.getElem?_eq_some_iff.1 h).1 b

/-! ## Workers outside the busy section -/

namespace WorkerPc

variable {α : Type} {p : WorkerPc α}

theorem pending_of_not_busy (h : p.isBusy = false) : p.pending = none := by
  cases p <;> simp_all [isBusy, WorkerPc.pending]

theorem lJob_of_not_busy (h : p.isBusy = false) : p.lJob = none := by
  cases p <;> simp_all [isBusy, WorkerPc.lJob]

end WorkerPc

namespace Pool

variable {α : Type}

theorem lockFree_iff {s : Pool α} :
    s.lockFree = true ↔ s.workers.countP WorkerPc.holdsLock = 0 := by
  simp [lockFree, List.countP_eq_zero]

/-- What a worker's place says about the shared state: a worker about to wait saw an empty
queue, one about to grab saw a job or the termination flag, and the no-op job is handed out
only once `mTerminate` is set. -/
def Placed (s : Pool α) : WorkerPc α → Prop
  | .holding => s.jobsQueue = []
  | .grabbing => s.jobsQueue ≠ [] ∨ s.terminate = true
  | .running none | .finished none => s.terminate = true
  | _ => True

/-- The facts every reachable state keeps. -/
structure Inv (s : Pool α) : Prop where
  /-- `mNumBusyThreads` counts the workers between its increment and its decrement. -/
  busy_eq : s.numBusyThreads = s.workers.countP WorkerPc.isBusy
  /-- At most one worker holds `mJobsQueueMutex` across steps. -/
  lock_le_one : s.workers.countP WorkerPc.holdsLock ≤ 1
  placed : ∀ p ∈ s.workers, s.Placed p
  /-- The destructor has only joined workers that have left the loop. -/
  joined_exited : ∀ k, s.dtor = .joining k → ∀ i < k, s.workers[i]? = some .exited
  /-- No `assert` has failed. -/
  no_fail : s.assertFailed = false
  /-- The history of each worker pairs each pop with the return of the same job. -/
  history : ∀ v, ∃ done : List (Job α), s.log.filter (Event.byWorker v) =
    done.flatMap (fun j => [.take v j, .ret v j]) ++
      ((s.workers[v]?.bind WorkerPc.pending).map (Event.take v)).toList
  /-- The job a worker holds is one it popped. -/
  lJob_taken : ∀ v j, s.workers[v]?.bind WorkerPc.lJob = some j → Event.take v j ∈ s.log
  /-- A queued job always has a worker outside the wait set of `mJobAvailableCV`. -/
  queued_awake :
    s.workers ≠ [] → s.jobsQueue ≠ [] → ∃ p ∈ s.workers, p.isBlocked = false
  /-- A thread blocked in `waitForCompletion` always has work to wait for. -/
  drainer_blocked : .blocked ∈ s.drainers → s.jobsQueue ≠ [] ∨ 0 < s.numBusyThreads

theorem inv_init (n d : Nat) (ex : List Nat) : (init n d ex : Pool α).Inv where
  busy_eq := by simp [init, List.countP_replicate, WorkerPc.isBusy]
  lock_le_one := by simp [init, List.countP_replicate, WorkerPc.holdsLock]
  placed p hp := by
    simp only [init, List.mem_replicate] at hp
    rw [hp.2]
    trivial
  joined_exited k h := by simp [init] at h
  no_fail := rfl
  history v := ⟨[], by simp [init, List.getElem?_replicate]; split <;> rfl⟩
  lJob_taken v j h := by simp [init, List.getElem?_replicate] at h; split at h <;> cases h
  queued_awake _ h := absurd rfl h
  drainer_blocked h := by simp [init, List.mem_replicate] at h

theorem Inv.with_executors {s : Pool α} (h : s.Inv) (xs : List (Executor α)) :
    ({ s with executors := xs } : Pool α).Inv :=
  { h with }

theorem Inv.busy_nonneg {s : Pool α} (h : s.Inv) : 0 ≤ s.numBusyThreads := by
  rw [h.busy_eq]; exact Int.natCast_nonneg _

/-- An old worker at `w` that was not `exited` keeps the joined workers exited. -/
theorem joined_exited_set {ws : List (WorkerPc α)} {w : Nat} {old new : WorkerPc α} {k : Nat}
    (hw : ws[w]? = some old) (hex : old ≠ .exited)
    (h : ∀ i < k, ws[i]? = some .exited) : ∀ i < k, (ws.set w new)[i]? = some .exited := by
  intro i hi
  rw [List.getElem?_set]
  split
  · subst_vars; rw [h _ hi] at hw; exact absurd (Option.some.inj hw).symm hex
  · exact h i hi

/-- A move of one worker outside the busy section keeps `Inv` when it takes the mutex only
if it is free, the place it reaches is consistent, it enters the wait set only on an empty
queue, and it does not leave `exited`. -/
theorem Inv.set_not_busy {s : Pool α} {w : Nat} {old new : WorkerPc α} (h : s.Inv)
    (hw : s.workers[w]? = some old) (ho : old.isBusy = false) (hn : new.isBusy = false)
    (hex : old ≠ .exited) (hlock : new.holdsLock = true → s.lockFree = true)
    (hplaced : s.Placed new) (hbl : new.isBlocked = true → s.jobsQueue = []) :
    ({ s with workers := s.workers.set w new } : Pool α).Inv :=
  have hpend : new.pending = old.pending := by
    rw [WorkerPc.pending_of_not_busy hn, WorkerPc.pending_of_not_busy ho]
  { h with
    busy_eq := by rw [List.countP_set_of_eq _ hw (hn.trans ho.symm)]; exact h.busy_eq
    lock_le_one := by
      show (s.workers.set w new).countP _ ≤ 1
      have hc := List.countP_set_add WorkerPc.holdsLock new hw
      have h1 := h.lock_le_one
      by_cases hnl : new.holdsLock = true
      · have h0 := lockFree_iff.1 (hlock hnl)
        rw [if_pos hnl] at hc; split at hc <;> omega
      · rw [if_neg hnl] at hc; split at hc <;> omega
    placed := fun p hp => by
      rcases List.mem_or_eq_of_mem_set hp with hp | rfl
      · exact h.placed p hp
      · exact hplaced
    joined_exited := fun k hk => joined_exited_set hw hex (h.joined_exited k hk)
    history := fun v => by rw [List.bind_getElem?_set_of_eq _ hw hpend]; exact h.history v
    lJob_taken := fun v j => by
      rw [List.bind_getElem?_set_of_eq _ hw (by rw [WorkerPc.lJob_of_not_busy hn,
        WorkerPc.lJob_of_not_busy ho])]
      exact h.lJob_taken v j
    queued_awake := fun hne hq => by
      cases hb : new.isBlocked
      · exact ⟨new, List.mem_set_of_getElem? new hw, hb⟩
      · exact absurd (hbl hb) hq }

theorem Inv.loopTest {s s' : Pool α} {w : Nat} (h : s.Inv) (hs : s.loopTest w = some s') :
    s'.Inv := by
  obtain ⟨hw, rfl⟩ := loopTest_eq_some hs
  refine h.set_not_busy hw rfl ?_ (by simp) ?_ ?_ ?_ <;> split <;>
    simp [WorkerPc.isBusy, WorkerPc.holdsLock, WorkerPc.isBlocked, Placed]

theorem Inv.testJobAvailable {s s' : Pool α} {w : Nat} (h : s.Inv)
    (hs : s.testJobAvailable w = some s') : s'.Inv := by
  obtain ⟨hw, hfree, rfl⟩ := testJobAvailable_eq_some hs
  refine h.set_not_busy hw rfl ?_ (by simp) (fun _ => hfree) ?_ ?_ <;> split <;>
    simp_all [WorkerPc.isBusy, WorkerPc.isBlocked, Placed, ← List.length_pos]

theorem Inv.waitJobAvailable {s s' : Pool α} {w : Nat} (h : s.Inv)
    (hs : s.waitJobAvailable w = some s') : s'.Inv := by
  obtain ⟨hw, rfl⟩ := waitJobAvailable_eq_some hs
  have hq : s.jobsQueue = [] := h.placed _ (List.getElem?_mem hw)
  exact h.set_not_busy hw rfl rfl (by simp) (by simp [WorkerPc.holdsLock]) trivial fun _ => hq

theorem Inv.wakeWorker {s s' : Pool α} {w : Nat} (h : s.Inv) (hs : s.wakeWorker w = some s') :
    s'.Inv := by
  obtain ⟨hw, rfl⟩ := wakeWorker_eq_some hs
  exact h.set_not_busy hw rfl rfl (by simp) (by simp [WorkerPc.holdsLock]) trivial
    (by simp [WorkerPc.isBlocked])

/-! ## The busy section -/

/-- The place of a worker that holds no lock depends on the termination flag alone. -/
theorem Placed.of_not_holdsLock {s s' : Pool α} {p : WorkerPc α} (hp : s.Placed p)
    (ht : s'.terminate = s.terminate) (hl : p.holdsLock = false) : s'.Placed p := by
  cases p with
  | holding | grabbing => simp [WorkerPc.holdsLock] at hl
  | running j | finished j => cases j <;> simp_all [Placed]
  | _ => trivial

theorem lockFree_of_countP {ws : List (WorkerPc α)} (h : ws.countP WorkerPc.holdsLock = 0)
    {p : WorkerPc α} (hp : p ∈ ws) : p.holdsLock = false := by
  rw [List.countP_eq_zero] at h
  simpa using h p hp

theorem countP_set_grab {ws : List (WorkerPc α)} {w : Nat} (hw : ws[w]? = some .grabbing)
    (j : Option (Job α)) :
    (ws.set w (.running j)).countP WorkerPc.isBusy = ws.countP WorkerPc.isBusy + 1 ∧
      (ws.set w (.running j)).countP WorkerPc.holdsLock + 1 =
        ws.countP WorkerPc.holdsLock := by
  have hb := List.countP_set_add WorkerPc.isBusy (.running j) hw
  have hl := List.countP_set_add WorkerPc.holdsLock (.running j) hw
  simp only [WorkerPc.isBusy, WorkerPc.holdsLock, ite_true, Bool.false_eq_true, ite_false] at hb hl
  constructor <;> omega

theorem Inv.grabNextJob {s s' : Pool α} {w : Nat} (h : s.Inv) (hs : s.grabNextJob w = some s') :
    s'.Inv := by
  obtain ⟨hw, ⟨ht, rfl⟩ | ⟨-, job, rest, -, rfl⟩ | ⟨ht, hq, rfl⟩⟩ :=
    grabNextJob_eq_some hs
  · -- mTerminate is set: the no-op job, the queue and the history untouched
    obtain ⟨hb, hl⟩ := countP_set_grab hw none
    have h1 := h.lock_le_one
    exact { h with
      busy_eq := by show _ + 1 = _; rw [hb, h.busy_eq]; push_cast; rfl
      lock_le_one := by show (s.workers.set w _).countP _ ≤ 1; omega
      placed := fun p hp => by
        rcases List.mem_or_eq_of_mem_set hp with hp | rfl
        · exact h.placed p hp
        · exact ht
      joined_exited := fun k hk => joined_exited_set hw (by simp) (h.joined_exited k hk)
      history := fun v => by
        rw [List.bind_getElem?_set_of_eq WorkerPc.pending hw (b := .running none) rfl]
        exact h.history v
      lJob_taken := fun v j => by
        rw [List.bind_getElem?_set_of_eq WorkerPc.lJob hw (b := .running none) rfl]
        exact h.lJob_taken v j
      queued_awake := fun _ _ => ⟨_, List.mem_set_of_getElem? _ hw, rfl⟩
      drainer_blocked := fun _ => .inr (show 0 < s.numBusyThreads + 1 by
        have := h.busy_nonneg; omega) }
  · -- the front job is popped and logged
    obtain ⟨hb, hl⟩ := countP_set_grab hw (some job)
    have h1 := h.lock_le_one
    have hfree : (s.workers.set w (WorkerPc.running (some job))).countP WorkerPc.holdsLock = 0 := by
      omega
    exact { h with
      busy_eq := by show _ + 1 = _; rw [hb, h.busy_eq]; push_cast; rfl
      lock_le_one := by show (s.workers.set w _).countP _ ≤ 1; omega
      placed := fun p hp => by
        rcases List.mem_or_eq_of_mem_set hp with hp' | rfl
        · exact (h.placed p hp').of_not_holdsLock rfl (lockFree_of_countP hfree hp)
        · trivial
      joined_exited := fun k hk => joined_exited_set hw (by simp) (h.joined_exited k hk)
      history := fun v => by
        obtain ⟨done, hd⟩ := h.history v
        refine ⟨done, ?_⟩
        show (s.log ++ [Event.take w job]).filter (Event.byWorker v) = _ ++
          (((s.workers.set w (WorkerPc.running (some job)))[v]?.bind WorkerPc.pending).map
            (Event.take v)).toList
        by_cases hv : v = w
        · subst hv
          rw [List.bind_getElem?_set_self _ hw, List.filter_append, hd, hw]
          simp [Event.byWorker, WorkerPc.pending]
        · rw [List.getElem?_set_ne (Ne.symm hv), List.filter_append, hd]
          simp [Event.byWorker, Ne.symm hv]
      lJob_taken := fun v j hj => by
        show Event.take v j ∈ s.log ++ [Event.take w job]
        change (s.workers.set w (WorkerPc.running (some job)))[v]?.bind WorkerPc.lJob = some j at hj
        by_cases hv : v = w
        · subst hv
          rw [List.bind_getElem?_set_self _ hw] at hj
          simp only [WorkerPc.lJob, Option.some.injEq] at hj
          simp [hj]
        · rw [List.getElem?_set_ne (Ne.symm hv)] at hj
          exact List.mem_append_left _ (h.lJob_taken v j hj)
      queued_awake := fun _ _ => ⟨_, List.mem_set_of_getElem? _ hw, rfl⟩
      drainer_blocked := fun _ => .inr (show 0 < s.numBusyThreads + 1 by
        have := h.busy_nonneg; omega) }
  · have := h.placed _ (List.getElem?_mem hw)
    simp [Placed, ht, hq] at this

/-- A move of one worker inside the busy section that keeps its job. -/
theorem Inv.set_busy_same {s : Pool α} {w : Nat} {old new : WorkerPc α} (h : s.Inv)
    (hw : s.workers[w]? = some old) (ho : old.isBusy = true) (hn : new.isBusy = true)
    (hp : new.pending = old.pending) (hl : new.lJob = old.lJob) (hplaced : s.Placed new)
    (hbl : new.isBlocked = false) :
    ({ s with workers := s.workers.set w new } : Pool α).Inv :=
  have hlock : ∀ {p : WorkerPc α}, p.isBusy = true → p.holdsLock = false := by
    intro p; cases p <;> simp [WorkerPc.isBusy, WorkerPc.holdsLock]
  { h with
    busy_eq := by rw [List.countP_set_of_eq _ hw (hn.trans ho.symm)]; exact h.busy_eq
    lock_le_one := by
      rw [List.countP_set_of_eq _ hw ((hlock hn).trans (hlock ho).symm)]; exact h.lock_le_one
    placed := fun p hp' => by
      rcases List.mem_or_eq_of_mem_set hp' with hp' | rfl
      · exact h.placed p hp'
      · exact hplaced
    joined_exited := fun k hk => joined_exited_set hw (by rintro rfl; cases ho)
      (h.joined_exited k hk)
    history := fun v => by rw [List.bind_getElem?_set_of_eq _ hw hp]; exact h.history v
    lJob_taken := fun v j => by rw [List.bind_getElem?_set_of_eq _ hw hl]; exact h.lJob_taken v j
    queued_awake := fun _ _ => ⟨new, List.mem_set_of_getElem? new hw, hbl⟩ }

/-- `lJob()` of worker `w` returns: the worker moves to `finished` and the return is logged. -/
theorem Inv.set_return {s : Pool α} {w : Nat} {old : WorkerPc α} {job : Job α} (h : s.Inv)
    (hw : s.workers[w]? = some old) (ho : old.isBusy = true) (hp : old.pending = some job)
    (hl : old.lJob = some job) :
    ({ s with workers := s.workers.set w (.finished (some job)),
              log := s.log ++ [Event.ret w job] } : Pool α).Inv := by
  have hlock : old.holdsLock = false := by
    cases old <;> simp_all [WorkerPc.isBusy, WorkerPc.holdsLock]
  exact { h with
    busy_eq := by rw [List.countP_set_of_eq _ hw (ho.symm ▸ rfl)]; exact h.busy_eq
    lock_le_one := by rw [List.countP_set_of_eq _ hw hlock.symm]; exact h.lock_le_one
    placed := fun p hp' => by
      rcases List.mem_or_eq_of_mem_set hp' with hp' | rfl
      · exact h.placed p hp'
      · trivial
    joined_exited := fun k hk => joined_exited_set hw (by rintro rfl; cases ho)
      (h.joined_exited k hk)
    history := fun v => by
      obtain ⟨done, hd⟩ := h.history v
      show ∃ done, (s.log ++ [Event.ret w job]).filter (Event.byWorker v) = _ ++
        (((s.workers.set w (WorkerPc.finished (some job)))[v]?.bind WorkerPc.pending).map
          (Event.take v)).toList
      by_cases hv : v = w
      · subst hv
        refine ⟨done ++ [job], ?_⟩
        rw [List.bind_getElem?_set_self _ hw, List.filter_append, hd, hw, Option.some_bind, hp]
        simp [Event.byWorker, WorkerPc.pending]
      · refine ⟨done, ?_⟩
        rw [List.getElem?_set_ne (Ne.symm hv), List.filter_append, hd]
        simp [Event.byWorker, Ne.symm hv]
    lJob_taken := fun v j hj => by
      show Event.take v j ∈ s.log ++ [Event.ret w job]
      rw [List.bind_getElem?_set_of_eq _ hw (by simpa [WorkerPc.lJob] using hl.symm)] at hj
      exact List.mem_append_left _ (h.lJob_taken v j hj)
    queued_awake := fun _ _ => ⟨_, List.mem_set_of_getElem? _ hw, rfl⟩ }

theorem Inv.runJob {s s' : Pool α} {w : Nat} (h : s.Inv) (hs : s.runJob w = some s') :
    s'.Inv := by
  obtain ⟨hw, rfl⟩ | ⟨j, hw, rfl⟩ | ⟨e, j, x, hw, -, rfl⟩ := runJob_eq_some hs
  · exact h.set_busy_same hw rfl rfl rfl rfl
      (show s.terminate = true from h.placed _ (List.getElem?_mem hw)) rfl
  · exact h.set_return hw rfl rfl rfl
  · exact (h.set_busy_same hw rfl (rfl : (WorkerPc.wrapping e j).isBusy = true) rfl rfl trivial
      rfl).with_executors _

theorem Inv.finishWrapper {s s' : Pool α} {w : Nat} (h : s.Inv)
    (hs : s.finishWrapper w = some s') : s'.Inv := by
  obtain ⟨e, j, x, hw, -, rfl⟩ := finishWrapper_eq_some hs
  exact (h.set_return hw rfl rfl rfl).with_executors _

theorem Inv.jobDone {s s' : Pool α} {w : Nat} (h : s.Inv) (hs : s.jobDone w = some s') :
    s'.Inv := by
  obtain ⟨j, hw, -, rfl⟩ := jobDone_eq_some hs
  have hb := List.countP_set_add WorkerPc.isBusy WorkerPc.loop hw
  simp only [WorkerPc.isBusy, ite_true, Bool.false_eq_true, ite_false] at hb
  exact { h with
    busy_eq := by
      show _ - 1 = ((s.workers.set w WorkerPc.loop).countP WorkerPc.isBusy : Int)
      rw [h.busy_eq]; omega
    lock_le_one := by
      rw [List.countP_set_of_eq WorkerPc.holdsLock hw (b := WorkerPc.loop) rfl]
      exact h.lock_le_one
    placed := fun p hp => by
      rcases List.mem_or_eq_of_mem_set hp with hp | rfl
      · exact h.placed p hp
      · trivial
    joined_exited := fun k hk => joined_exited_set hw (by simp) (h.joined_exited k hk)
    history := fun v => by
      rw [List.bind_getElem?_set_of_eq WorkerPc.pending hw (b := WorkerPc.loop) rfl]
      exact h.history v
    lJob_taken := fun v j' hj => by
      change (s.workers.set w WorkerPc.loop)[v]?.bind WorkerPc.lJob = some j' at hj
      by_cases hv : v = w
      · subst hv; rw [List.bind_getElem?_set_self _ hw] at hj; cases hj
      · rw [List.getElem?_set_ne (Ne.symm hv)] at hj; exact h.lJob_taken v j' hj
    queued_awake := fun _ _ => ⟨_, List.mem_set_of_getElem? _ hw, rfl⟩
    drainer_blocked := fun hb' => absurd hb' (WaitPc.blocked_not_mem_map_notify _) }

/-! ## Pushes, drainers and the destructor -/

theorem Placed.notify {s : Pool α} {p : WorkerPc α} (h : s.Placed p) : s.Placed p.notify := by
  cases p <;> exact h

theorem Placed.of_terminate {s s' : Pool α} {p : WorkerPc α} (h : s.Placed p)
    (hq : s'.jobsQueue = s.jobsQueue) (ht : s'.terminate = true) : s'.Placed p := by
  cases p with
  | holding => exact hq.trans h
  | grabbing => exact .inr ht
  | running j | finished j => cases j <;> first | exact ht | trivial
  | _ => trivial

/-- Pushing a job under the lock keeps `Inv`, given a worker outside the wait set. -/
theorem Inv.push {s : Pool α} (h : s.Inv) (hfree : s.lockFree = true) (job : Job α)
    (hawake : s.workers ≠ [] → ∃ p ∈ s.workers, p.isBlocked = false) :
    ({ s with jobsQueue := s.jobsQueue ++ [job], log := s.log ++ [Event.add job] } : Pool α).Inv :=
  { h with
    placed := fun p hp => (h.placed p hp).of_not_holdsLock rfl
      (lockFree_of_countP (lockFree_iff.1 hfree) hp)
    history := fun v => by
      obtain ⟨done, hd⟩ := h.history v
      exact ⟨done, by simpa [List.filter_append, Event.byWorker] using hd⟩
    lJob_taken := fun v j hj => List.mem_append_left _ (h.lJob_taken v j hj)
    queued_awake := fun hne _ => hawake hne
    drainer_blocked := fun _ => .inl (by simp) }

theorem Inv.addJob {s s' : Pool α} {job : Job α} {wake : Option Nat} (h : s.Inv)
    (hs : s.addJob job wake = some s') : s'.Inv := by
  obtain ⟨hfree, ws, hws, rfl⟩ := addJob_eq_some hs
  rcases notifyOne_eq_some hws with ⟨hall, rfl⟩ | ⟨v, -, hv, rfl⟩
  · exact h.push hfree job fun hne => by
      obtain ⟨p, hp⟩ := List.exists_mem_of_ne_nil _ hne
      exact ⟨p, hp, hall p hp⟩
  · have h' := h.set_not_busy hv rfl (rfl : WorkerPc.waiting.isBusy = false) (by simp)
      (by simp [WorkerPc.holdsLock]) trivial (by simp [WorkerPc.isBlocked])
    have hfree' : ({ s with workers := s.workers.set v .waiting } : Pool α).lockFree = true := by
      rw [lockFree_iff]
      show (s.workers.set v WorkerPc.waiting).countP _ = 0
      rw [List.countP_set_of_eq WorkerPc.holdsLock hv (b := WorkerPc.waiting) rfl]
      exact lockFree_iff.1 hfree
    exact h'.push hfree' job fun _ => ⟨_, List.mem_set_of_getElem? _ hv, rfl⟩

theorem Inv.notifyAll {s s' : Pool α} (h : s.Inv) (hs : s.notifyAll = some s') : s'.Inv := by
  obtain ⟨-, rfl⟩ := notifyAll_eq_some hs
  have hmap : ∀ {β : Type} (f : WorkerPc α → β), f .waiting = f .blocked →
      f ∘ WorkerPc.notify = f := by
    intro β f hf; funext p; cases p <;> first | rfl | exact hf
  exact { h with
    busy_eq := by
      show _ = ((s.workers.map WorkerPc.notify).countP _ : Int)
      rw [List.countP_map, hmap WorkerPc.isBusy rfl]; exact h.busy_eq
    lock_le_one := by
      show (s.workers.map WorkerPc.notify).countP _ ≤ 1
      rw [List.countP_map, hmap WorkerPc.holdsLock rfl]; exact h.lock_le_one
    placed := fun p hp => by
      obtain ⟨q, hq, rfl⟩ := List.mem_map.1 hp
      exact (h.placed q hq).notify
    joined_exited := fun k hk i hi => by cases hk; omega
    history := fun v => by
      show ∃ done, _ = _ ++ (((s.workers.map WorkerPc.notify)[v]?.bind _).map _).toList
      rw [List.getElem?_map, Option.bind_map, hmap WorkerPc.pending rfl]; exact h.history v
    lJob_taken := fun v j hj => by
      change (s.workers.map WorkerPc.notify)[v]?.bind WorkerPc.lJob = some j at hj
      rw [List.getElem?_map, Option.bind_map, hmap WorkerPc.lJob rfl] at hj
      exact h.lJob_taken v j hj
    queued_awake := fun hne _ => by
      obtain ⟨p, hp⟩ := List.exists_mem_of_ne_nil _ hne
      obtain ⟨q, -, rfl⟩ := List.mem_map.1 hp
      exact ⟨_, hp, by cases q <;> rfl⟩ }

theorem Inv.waitForCompletion {s s' : Pool α} {d : Nat} (h : s.Inv)
    (hs : s.waitForCompletion d = some s') : s'.Inv := by
  obtain ⟨-, -, rfl⟩ := waitForCompletion_eq_some hs
  refine { h with drainer_blocked := fun hb => ?_ }
  rcases List.mem_or_eq_of_mem_set hb with hb | hb
  · exact h.drainer_blocked hb
  · split at hb
    · next hc => simpa [← List.length_pos] using hc
    · cases hb

theorem Inv.wakeDrainer {s s' : Pool α} {d : Nat} (h : s.Inv) (hs : s.wakeDrainer d = some s') :
    s'.Inv := by
  obtain ⟨-, rfl⟩ := wakeDrainer_eq_some hs
  refine { h with drainer_blocked := fun hb => ?_ }
  rcases List.mem_or_eq_of_mem_set hb with hb | hb
  · exact h.drainer_blocked hb
  · cases hb

theorem Inv.setTerminate {s s' : Pool α} (h : s.Inv) (hs : s.setTerminate = some s') :
    s'.Inv := by
  obtain ⟨-, rfl⟩ := setTerminate_eq_some hs
  exact { h with
    placed := fun p hp => (h.placed p hp).of_terminate rfl rfl
    joined_exited := fun k hk => by cases hk }

theorem Inv.join {s s' : Pool α} (h : s.Inv) (hs : s.join = some s') : s'.Inv := by
  obtain ⟨k, hk, hex, rfl⟩ := join_eq_some hs
  refine { h with joined_exited := fun k' hk' i hi => ?_ }
  cases hk'
  rcases Nat.lt_succ_iff_lt_or_eq.1 hi with hi | rfl
  · exact h.joined_exited k hk i hi
  · exact hex

/-- Once every worker has left `threadExecLoop`, none is busy. -/
theorem countP_isBusy_eq_zero {ws : List (WorkerPc α)}
    (h : ∀ i < ws.length, ws[i]? = some .exited) : ws.countP WorkerPc.isBusy = 0 := by
  rw [List.countP_eq_zero]
  intro p hp
  obtain ⟨i, hi⟩ := List.mem_iff_getElem?.1 hp
  rw [h i (List.getElem?_eq_some_iff.1 hi).1] at hi
  cases hi
  simp [WorkerPc.isBusy]

theorem Inv.assertIdle {s s' : Pool α} (h : s.Inv) (hs : s.assertIdle = some s') : s'.Inv := by
  obtain ⟨hk, ⟨-, rfl⟩ | ⟨hb, rfl⟩⟩ := assertIdle_eq_some hs
  · exact { h with joined_exited := fun k hk => by cases hk }
  · have := countP_isBusy_eq_zero (h.joined_exited _ hk)
    rw [h.busy_eq, this] at hb
    exact absurd rfl hb

/-- Every step keeps `Inv`. -/
theorem Inv.step {s s' : Pool α} {a : Action α} (h : s.Inv) (hs : s.step a = some s') :
    s'.Inv := by
  cases a with
  | addJob j wake => exact h.addJob hs
  | loopTest w => exact h.loopTest hs
  | testJobAvailable w => exact h.testJobAvailable hs
  | waitJobAvailable w => exact h.waitJobAvailable hs
  | wakeWorker w => exact h.wakeWorker hs
  | grabNextJob w => exact h.grabNextJob hs
  | runJob w => exact h.runJob hs
  | finishWrapper w => exact h.finishWrapper hs
  | jobDone w => exact h.jobDone hs
  | waitForCompletion d => exact h.waitForCompletion hs
  | wakeDrainer d => exact h.wakeDrainer hs
  | setTerminate => exact h.setTerminate hs
  | notifyAll => exact h.notifyAll hs
  | join => exact h.join hs
  | assertIdle => exact h.assertIdle hs
  | executorAddJob e j =>
    obtain ⟨x, -, rfl⟩ := executorAddJob_eq_some hs
    exact h.with_executors _
  | executorSubmit e k wake =>
    obtain ⟨x, j, s₁, -, -, h₁, rfl⟩ := executorSubmit_eq_some hs
    exact (h.addJob h₁).with_executors _
  | executorWait e t =>
    obtain ⟨x, c, -, -, rfl⟩ := executorWait_eq_some hs
    exact h.with_executors _
  | executorWake e t =>
    obtain ⟨x, c, -, -, rfl⟩ := executorWake_eq_some hs
    exact h.with_executors _

theorem inv_of_reachable {n d : Nat} {ex : List Nat} {s : Pool α}
    (hr : Reachable (init n d ex) s) : s.Inv :=
  hr.induction (inv_init n d ex) fun _ _ _ h hs => h.step hs

end Pool

end FbuThreadPool
