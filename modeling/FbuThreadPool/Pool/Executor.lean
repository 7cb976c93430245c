import FbuThreadPool.Pool.Invariant
/-!
# `ThreadPoolJobsExecutor` on a shared pool

Each executor counts its own jobs in `mNumJobs`: `++` under its mutex before `mTP.addJob`,
`--` in the wrapper after `pJob()` returns. A job of executor `e` is outstanding from its
increment to its wrapper's decrement: in flight between the two blocks of `addJob`, queued as
a wrapper, or inside a wrapper on a worker (`outstanding`).

`ExecInv` says that every executor agrees with the pool (`Agrees`): its counter tracks its
outstanding jobs, and its ghost lists of counted and returned jobs split into decremented and
outstanding ones. Every step keeps it (`ExecInv.step`), whatever the other executors and the
direct users of the pool do.
-/

namespace FbuThreadPool

theorem List.getElem?_set_eq_some {β : Type} {l : List β} {i j : Nat} {a b : β}
    (h : (l.set i a)[j]? = some b) : (j = i ∧ b = a) ∨ (j ≠ i ∧ l[j]? = some b) := by
  rw [List.getElem?_set] at h
  split at h
  · split at h
    · exact .inl ⟨by omega, (Option.some.inj h).symm⟩
    · cases h
  · exact .inr ⟨Ne.symm ‹_›, h⟩

namespace Pool

variable {α : Type}

/-! ## The jobs of one executor -/

/-- The jobs of executor `e` that the pool holds in a wrapper that has not done its
decrement: queued, or on a worker. -/
def inPool (s : Pool α) (e : Nat) : List α :=
  s.jobsQueue.filterMap (Job.wrappedOf e) ++ s.workers.filterMap (WorkerPc.wrapperOf e)

/-- The jobs of executor `e` whose wrapper has done its decrement, in order. -/
def decrementedFor (s : Pool α) (e : Nat) : List α :=
  s.log.filterMap fun ev => ev.returned.bind (Job.wrappedOf e)

/-- The jobs that `mNumJobs` of executor `e` counts: counted by its `addJob`, their wrapper's
decrement still to come. -/
def outstanding (s : Pool α) (e : Nat) (x : Executor α) : List α := x.inFlight ++ s.inPool e

/-- Executor `e`'s record `x` agrees with the pool. -/
structure Agrees (s : Pool α) (e : Nat) (x : Executor α) : Prop where
  /-- `mNumJobs` counts the outstanding jobs. -/
  tracks : x.completion.Tracks (s.outstanding e x).length
  /-- Every counted job has been decremented or is outstanding, once. -/
  submitted_perm : x.submitted.Perm (s.decrementedFor e ++ s.outstanding e x)
  /-- Every job whose `pJob()` returned has been decremented or is about to be. -/
  returned_perm :
    x.returned.Perm (s.decrementedFor e ++ s.workers.filterMap (WorkerPc.wrappingOf e))

/-- Every executor on the pool agrees with it. -/
def ExecInv (s : Pool α) : Prop := ∀ e x, s.executors[e]? = some x → s.Agrees e x

theorem execInv_init (n d : Nat) (ex : List Nat) : (init n d ex : Pool α).ExecInv := by
  intro e x hx
  simp only [init, List.getElem?_map, Option.map_eq_some'] at hx
  obtain ⟨k, -, rfl⟩ := hx
  exact ⟨by simpa [outstanding, inPool, init, List.filterMap_replicate, WorkerPc.wrapperOf]
      using Completion.tracks_init k,
    by simp [decrementedFor, outstanding, inPool, init, List.filterMap_replicate,
      WorkerPc.wrapperOf],
    by simp [decrementedFor, init, List.filterMap_replicate, WorkerPc.wrappingOf]⟩

/-- A change of the pool that keeps, up to order, each executor's jobs in the pool and in
wrappers about to decrement, and logs no decrement, keeps `Agrees`. -/
theorem Agrees.of_views {s s' : Pool α} {e : Nat} {x : Executor α} (h : s.Agrees e x)
    (hpool : (s'.inPool e).Perm (s.inPool e))
    (hwrap : (s'.workers.filterMap (WorkerPc.wrappingOf e)).Perm
      (s.workers.filterMap (WorkerPc.wrappingOf e)))
    (hdec : s'.decrementedFor e = s.decrementedFor e) : s'.Agrees e x where
  tracks := by
    have ho : (s'.outstanding e x).Perm (s.outstanding e x) := hpool.append_left x.inFlight
    rw [ho.length_eq]
    exact h.tracks
  submitted_perm := by
    rw [hdec]
    exact h.submitted_perm.trans ((hpool.append_left x.inFlight).append_left _).symm
  returned_perm := by
    rw [hdec]
    exact h.returned_perm.trans (hwrap.append_left _).symm

theorem ExecInv.of_views {s s' : Pool α} (h : s.ExecInv) (hx : s'.executors = s.executors)
    (hpool : ∀ e, (s'.inPool e).Perm (s.inPool e))
    (hwrap : ∀ e, (s'.workers.filterMap (WorkerPc.wrappingOf e)).Perm
      (s.workers.filterMap (WorkerPc.wrappingOf e)))
    (hdec : ∀ e, s'.decrementedFor e = s.decrementedFor e) : s'.ExecInv := fun e x hxe =>
  (h e x (hx ▸ hxe)).of_views (hpool e) (hwrap e) (hdec e)

/-- A step that replaces executor `e'`'s record keeps `ExecInv` when the new record agrees
with the new pool, and the other executors still agree with it. -/
theorem ExecInv.set {s s' : Pool α} {e' : Nat} {x' : Executor α} (h : s.ExecInv)
    (hx : s'.executors = s.executors.set e' x') (hown : s'.Agrees e' x')
    (hother : ∀ e x, e ≠ e' → s.Agrees e x → s'.Agrees e x) : s'.ExecInv := by
  intro e x hxe
  rw [hx] at hxe
  rcases List.getElem?_set_eq_some hxe with ⟨rfl, rfl⟩ | ⟨hne, hxe⟩
  · exact hown
  · exact hother e x hne (h e x hxe)

/-- A worker's move that changes neither its wrapper job nor its wrapping job, with the
executors and the queue untouched and no decrement logged, keeps `ExecInv`. -/
theorem ExecInv.move {s s' : Pool α} {w : Nat} {p q : WorkerPc α} (h : s.ExecInv)
    (hw : s.workers[w]? = some p) (hws : s'.workers = s.workers.set w q)
    (hview : ∀ e, q.wrapperOf e = p.wrapperOf e ∧ q.wrappingOf e = p.wrappingOf e)
    (hx : s'.executors = s.executors) (hq : s'.jobsQueue = s.jobsQueue)
    (hdec : ∀ e, s'.decrementedFor e = s.decrementedFor e) : s'.ExecInv :=
  h.of_views hx
    (fun e => .of_eq (by rw [inPool, inPool, hq, hws, List.filterMap_set_of_eq _ hw (hview e).1]))
    (fun e => .of_eq (by rw [hws, List.filterMap_set_of_eq _ hw (hview e).2]))
    hdec

/-- `Agrees` reads the pool only through its queue, its workers and its log. -/
theorem Agrees.of_pool_eq {s s' : Pool α} {e : Nat} {x : Executor α} (h : s.Agrees e x)
    (hq : s'.jobsQueue = s.jobsQueue) (hw : s'.workers = s.workers) (hl : s'.log = s.log) :
    s'.Agrees e x :=
  h.of_views (.of_eq (by rw [inPool, inPool, hq, hw])) (.of_eq (by rw [hw]))
    (by rw [decrementedFor, decrementedFor, hl])

/-! ## How the steps move an executor's jobs -/

theorem List.filterMap_set_perm_cons {β γ : Type} (f : β → Option γ) {l : List β} {i : Nat}
    {a b : β} {c : γ} (h : l[i]? = some a) (ha : f a = some c) (hb : f b = none) :
    (l.filterMap f).Perm (c :: (l.set i b).filterMap f) := by
  have := (List.filterMap_set_perm f b h).symm
  rw [ha, hb] at this
  simp only [Option.toList_some, Option.toList_none, List.append_nil] at this
  exact this.trans (List.perm_append_singleton c _)

theorem notifyOne_filterMap {β : Type} (f : WorkerPc α → Option β)
    (hf : f .waiting = f .blocked) {ws ws' : List (WorkerPc α)} {wake : Option Nat}
    (h : notifyOne ws wake = some ws') : ws'.filterMap f = ws.filterMap f := by
  rcases notifyOne_eq_some h with ⟨-, rfl⟩ | ⟨v, -, hv, rfl⟩
  · rfl
  · exact List.filterMap_set_of_eq f hv hf

theorem wrapperOf_running (e : Nat) (job : Job α) :
    (WorkerPc.running (some job)).wrapperOf e = job.wrappedOf e := by
  cases job <;> rfl

/-- `addJob` puts the job's user job, if it is one of `e`'s wrappers, in the pool. -/
theorem addJob_inPool {s s' : Pool α} {job : Job α} {wake : Option Nat} (e : Nat)
    (h : s.addJob job wake = some s') :
    s'.inPool e = s.jobsQueue.filterMap (Job.wrappedOf e) ++ (job.wrappedOf e).toList ++
      s.workers.filterMap (WorkerPc.wrapperOf e) := by
  obtain ⟨-, ws, hws, rfl⟩ := addJob_eq_some h
  rw [inPool, notifyOne_filterMap (WorkerPc.wrapperOf e) rfl hws, List.filterMap_append]
  cases hj : job.wrappedOf e <;> simp [List.filterMap_cons, hj]

theorem addJob_views {s s' : Pool α} {job : Job α} {wake : Option Nat}
    (h : s.addJob job wake = some s') :
    s'.executors = s.executors ∧
      (∀ e, s'.workers.filterMap (WorkerPc.wrappingOf e) =
        s.workers.filterMap (WorkerPc.wrappingOf e)) ∧
      ∀ e, s'.decrementedFor e = s.decrementedFor e := by
  obtain ⟨-, ws, hws, rfl⟩ := addJob_eq_some h
  exact ⟨rfl, fun e => notifyOne_filterMap (WorkerPc.wrappingOf e) rfl hws,
    fun _ => by simp [decrementedFor, Event.returned]⟩

/-! ## Each step keeps `ExecInv` -/

section Steps

variable {s s' : Pool α}

theorem ExecInv.addJob {job : α} {wake : Option Nat} (h : s.ExecInv)
    (hs : s.addJob (.plain job) wake = some s') : s'.ExecInv := by
  obtain ⟨hx, hwrap, hdec⟩ := addJob_views hs
  refine h.of_views hx (fun e => .of_eq ?_) (fun e => .of_eq (hwrap e)) hdec
  rw [addJob_inPool e hs]
  simp [inPool, Job.wrappedOf]

theorem ExecInv.loopTest {w : Nat} (h : s.ExecInv) (hs : s.loopTest w = some s') :
    s'.ExecInv := by
  obtain ⟨hw, rfl⟩ := loopTest_eq_some hs
  exact h.move hw rfl (fun _ => by split <;> exact ⟨rfl, rfl⟩) rfl rfl fun _ => rfl

theorem ExecInv.testJobAvailable {w : Nat} (h : s.ExecInv)
    (hs : s.testJobAvailable w = some s') : s'.ExecInv := by
  obtain ⟨hw, -, rfl⟩ := testJobAvailable_eq_some hs
  exact h.move hw rfl (fun _ => by split <;> exact ⟨rfl, rfl⟩) rfl rfl fun _ => rfl

theorem ExecInv.waitJobAvailable {w : Nat} (h : s.ExecInv)
    (hs : s.waitJobAvailable w = some s') : s'.ExecInv := by
  obtain ⟨hw, rfl⟩ := waitJobAvailable_eq_some hs
  exact h.move hw rfl (fun _ => ⟨rfl, rfl⟩) rfl rfl fun _ => rfl

theorem ExecInv.wakeWorker {w : Nat} (h : s.ExecInv) (hs : s.wakeWorker w = some s') :
    s'.ExecInv := by
  obtain ⟨hw, rfl⟩ := wakeWorker_eq_some hs
  exact h.move hw rfl (fun _ => ⟨rfl, rfl⟩) rfl rfl fun _ => rfl

/-- A pop moves the front job from the queue to the worker: each executor's jobs in the pool
are the same, up to order. -/
theorem ExecInv.grabNextJob {w : Nat} (h : s.ExecInv) (hs : s.grabNextJob w = some s') :
    s'.ExecInv := by
  obtain ⟨hw, ⟨-, rfl⟩ | ⟨-, job, rest, hq, rfl⟩ | ⟨-, -, rfl⟩⟩ :=
    grabNextJob_eq_some hs
  · exact h.move hw rfl (fun _ => ⟨rfl, rfl⟩) rfl rfl fun _ => rfl
  · refine h.of_views rfl (fun e => ?_)
      (fun e => .of_eq (List.filterMap_set_of_eq _ hw rfl))
      (fun e => by simp [decrementedFor, Event.returned])
    have hset := List.filterMap_set_perm (WorkerPc.wrapperOf e) (.running (some job)) hw
    rw [wrapperOf_running, show WorkerPc.wrapperOf e (.grabbing : WorkerPc α) = none from rfl,
      Option.toList_none, List.append_nil] at hset
    show (rest.filterMap _ ++ _).Perm (s.jobsQueue.filterMap _ ++ _)
    rw [hq]
    cases hj : job.wrappedOf e with
    | none => simpa [List.filterMap_cons, hj] using hset.append_left (rest.filterMap _)
    | some j =>
      simp only [List.filterMap_cons, hj, Option.toList_some, List.cons_append] at hset ⊢
      exact (hset.append_left _).trans
        (by rw [← List.append_assoc]; exact List.perm_append_singleton _ _)
  · exact h.of_views rfl (fun _ => .refl _) (fun _ => .refl _) fun _ => rfl

theorem ExecInv.jobDone {w : Nat} (h : s.ExecInv) (hs : s.jobDone w = some s') :
    s'.ExecInv := by
  obtain ⟨_, hw, -, rfl⟩ := jobDone_eq_some hs
  exact h.move hw rfl (fun _ => ⟨rfl, rfl⟩) rfl rfl fun _ => rfl

/-- `pJob()` returns inside a wrapper of executor `e'`: the job moves to `e'`'s returned
jobs and stays outstanding until the wrapper's decrement. -/
theorem ExecInv.runJob {w : Nat} (h : s.ExecInv) (hs : s.runJob w = some s') : s'.ExecInv := by
  obtain ⟨hw, rfl⟩ | ⟨j, hw, rfl⟩ | ⟨e', j, x, hw, hx, rfl⟩ := runJob_eq_some hs
  · exact h.move hw rfl (fun _ => ⟨rfl, rfl⟩) rfl rfl fun _ => rfl
  · exact h.move hw rfl (fun _ => ⟨rfl, rfl⟩) rfl rfl fun _ => by
      simp [decrementedFor, Event.returned, Job.wrappedOf]
  · have hws (e : Nat) : (s.workers.set w (.wrapping e' j)).filterMap (WorkerPc.wrapperOf e) =
        s.workers.filterMap (WorkerPc.wrapperOf e) := List.filterMap_set_of_eq _ hw rfl
    refine h.set rfl ?_ fun e y hne hy => hy.of_views (.of_eq (by simp only [inPool, hws]))
      (.of_eq (List.filterMap_set_of_eq _ hw (by simp [WorkerPc.wrappingOf, Ne.symm hne]))) rfl
    have ha := h e' x hx
    have hwrap := List.filterMap_set_perm (WorkerPc.wrappingOf e') (.wrapping e' j) hw
    simp only [WorkerPc.wrappingOf, ite_true, Option.toList_some, Option.toList_none,
      List.append_nil] at hwrap
    refine ⟨?_, ?_, ?_⟩ <;> simp only [outstanding, inPool, decrementedFor, hws]
    · exact ha.tracks
    · exact ha.submitted_perm
    · exact (ha.returned_perm.append_right [j]).trans
        (by rw [List.append_assoc]; exact (hwrap.append_left _).symm)

/-- The executor block of a wrapper of `e'`: `--mNumJobs` and the job leaves the outstanding
ones for the decremented ones. -/
theorem ExecInv.finishWrapper {w : Nat} (h : s.ExecInv) (hs : s.finishWrapper w = some s') :
    s'.ExecInv := by
  obtain ⟨e', j, x, hw, hx, rfl⟩ := finishWrapper_eq_some hs
  have hdec (e : Nat) : (s.log ++ [Event.ret w (Job.wrapped e' j)]).filterMap
      (fun ev : Event α => ev.returned.bind (Job.wrappedOf e)) =
      s.decrementedFor e ++ (if e' = e then [j] else []) := by
    split <;> simp [decrementedFor, Event.returned, Job.wrappedOf, *]
  refine h.set rfl ?_ fun e y hne hy => hy.of_views
    (.of_eq (by
      simp only [inPool]
      rw [List.filterMap_set_of_eq _ hw (by simp [WorkerPc.wrapperOf, Ne.symm hne])]))
    (.of_eq (List.filterMap_set_of_eq _ hw (by simp [WorkerPc.wrappingOf, Ne.symm hne])))
    ((hdec e).trans (by simp [Ne.symm hne]))
  have ha := h e' x hx
  have hheld := List.filterMap_set_perm_cons (WorkerPc.wrapperOf e')
    (b := .finished (some (.wrapped e' j))) (c := j) hw (by simp [WorkerPc.wrapperOf]) rfl
  have hwrap := List.filterMap_set_perm_cons (WorkerPc.wrappingOf e')
    (b := .finished (some (.wrapped e' j))) (c := j) hw (by simp [WorkerPc.wrappingOf]) rfl
  have hout := ((hheld.append_left (s.jobsQueue.filterMap (Job.wrappedOf e'))).trans
    List.perm_middle).append_left x.inFlight |>.trans List.perm_middle
  refine ⟨?_, ?_, ?_⟩ <;> simp only [outstanding, inPool, decrementedFor, hdec, ite_true]
  · have := ha.tracks
    rw [outstanding, inPool, hout.length_eq] at this
    exact this.decrement
  · simpa using ha.submitted_perm.trans (hout.append_left _)
  · simpa using ha.returned_perm.trans (hwrap.append_left _)

theorem ExecInv.notifyAll (h : s.ExecInv) (hs : s.notifyAll = some s') : s'.ExecInv := by
  obtain ⟨-, rfl⟩ := notifyAll_eq_some hs
  have hmap {β : Type} (f : WorkerPc α → Option β) (hf : f .waiting = f .blocked) :
      (s.workers.map WorkerPc.notify).filterMap f = s.workers.filterMap f := by
    rw [List.filterMap_map]
    congr 1
    funext p
    cases p <;> first | exact hf | rfl
  exact h.of_views rfl
    (fun e => .of_eq (congrArg (_ ++ ·) (hmap (WorkerPc.wrapperOf e) rfl)))
    (fun e => .of_eq (hmap (WorkerPc.wrappingOf e) rfl)) fun _ => rfl

/-- `ThreadPoolJobsExecutor::addJob`, first block: `++mNumJobs` and one more job in flight. -/
theorem ExecInv.executorAddJob {e' : Nat} {job : α} (h : s.ExecInv)
    (hs : s.executorAddJob e' job = some s') : s'.ExecInv := by
  obtain ⟨x, hx, rfl⟩ := executorAddJob_eq_some hs
  refine h.set rfl (Agrees.of_pool_eq (s := s) ?_ rfl rfl rfl) fun _ _ _ hy =>
    hy.of_pool_eq rfl rfl rfl
  have ha := h e' x hx
  have hout : s.outstanding e'
      { x with completion := x.completion.increment, inFlight := x.inFlight ++ [job],
               submitted := x.submitted ++ [job] } = x.inFlight ++ [job] ++ s.inPool e' := rfl
  have hlen := ha.tracks.increment
  rw [outstanding, List.length_append] at hlen
  refine ⟨?_, ?_, ha.returned_perm⟩
  · rwa [hout, List.length_append, List.length_append, List.length_singleton,
      Nat.add_right_comm]
  · rw [hout]
    refine (ha.submitted_perm.append_right [job]).trans ?_
    simp only [outstanding, List.append_assoc]
    exact (List.perm_append_comm.append_left _).append_left _

/-- The rest of `ThreadPoolJobsExecutor::addJob`: the job in flight goes to the pool as a
wrapper, still outstanding. -/
theorem ExecInv.executorSubmit {e' k : Nat} {wake : Option Nat} (h : s.ExecInv)
    (hs : s.executorSubmit e' k wake = some s') : s'.ExecInv := by
  obtain ⟨x, j, s₁, hx, hj, h₁, rfl⟩ := executorSubmit_eq_some hs
  obtain ⟨hx₁, hwrap, hdec⟩ := addJob_views h₁
  have hpool (e : Nat) := addJob_inPool e h₁
  have hq₁ (e : Nat) : s₁.inPool e = s.jobsQueue.filterMap (Job.wrappedOf e) ++
      (if e' = e then [j] else []) ++ s.workers.filterMap (WorkerPc.wrapperOf e) := by
    rw [hpool]; split <;> simp [Job.wrappedOf, *]
  have hother (e : Nat) (y : Executor α) (hne : e ≠ e') (hy : s.Agrees e y) :
      ({ s₁ with executors := s.executors.set e' { x with inFlight := x.inFlight.eraseIdx k } } :
        Pool α).Agrees e y :=
    hy.of_views (.of_eq (by simp only [inPool] at hq₁ ⊢; rw [hq₁, if_neg (Ne.symm hne),
      List.append_nil])) (.of_eq (hwrap e)) (hdec e)
  refine h.set rfl ?_ hother
  have ha := h e' x hx
  have hout : (s.outstanding e' x).Perm (x.inFlight.eraseIdx k ++ s₁.inPool e') := by
    rw [hq₁, if_pos rfl, outstanding, inPool, List.append_assoc, List.singleton_append]
    exact ((List.perm_cons_eraseIdx hj).symm.append_right _).trans
      ((List.perm_middle.append_left _).trans List.perm_middle).symm
  have htracks := ha.tracks
  have hsub := ha.submitted_perm.trans (hout.append_left _)
  have hret := ha.returned_perm
  rw [hout.length_eq] at htracks
  rw [← hdec e'] at hsub hret
  rw [← hwrap e'] at hret
  exact ⟨htracks, hsub, hret⟩

theorem ExecInv.executorWait {e' t : Nat} (h : s.ExecInv) (hs : s.executorWait e' t = some s') :
    s'.ExecInv := by
  obtain ⟨x, c, hx, hc, rfl⟩ := executorWait_eq_some hs
  have ha := h e' x hx
  exact h.set rfl (Agrees.of_pool_eq (s := s) ⟨ha.tracks.waitForCompletion hc, ha.submitted_perm,
    ha.returned_perm⟩ rfl rfl rfl) fun _ _ _ hy => hy.of_pool_eq rfl rfl rfl

theorem ExecInv.executorWake {e' t : Nat} (h : s.ExecInv) (hs : s.executorWake e' t = some s') :
    s'.ExecInv := by
  obtain ⟨x, c, hx, hc, rfl⟩ := executorWake_eq_some hs
  have ha := h e' x hx
  exact h.set rfl (Agrees.of_pool_eq (s := s) ⟨ha.tracks.wake hc, ha.submitted_perm,
    ha.returned_perm⟩ rfl rfl rfl) fun _ _ _ hy => hy.of_pool_eq rfl rfl rfl

/-- Every step keeps `ExecInv`. -/
theorem ExecInv.step {a : Action α} (h : s.ExecInv) (hs : s.step a = some s') : s'.ExecInv := by
  cases a with
  | addJob j wake => exact h.addJob hs
  | loopTest w => exact h.loopTest hs
  | testJobAvailable w => exact h.testJobAvailable hs
  | waitJobAvailable w => exact h.waitJobAvailable hs
  | wakeWorker w => exact h.wakeWorker hs
  | grabNextJob w => exact h.grabNextJob hs
  | runJob w => exact h.runJob hs
  | finishWrapper w => exact h.finishWrapper hs
  | jobDone w => exact h.jobDone hs
  | waitForCompletion t =>
    obtain ⟨-, -, rfl⟩ := waitForCompletion_eq_some hs
    exact fun e x hx => (h e x hx).of_pool_eq rfl rfl rfl
  | wakeDrainer t =>
    obtain ⟨-, rfl⟩ := wakeDrainer_eq_some hs
    exact fun e x hx => (h e x hx).of_pool_eq rfl rfl rfl
  | setTerminate =>
    obtain ⟨-, rfl⟩ := setTerminate_eq_some hs
    exact fun e x hx => (h e x hx).of_pool_eq rfl rfl rfl
  | notifyAll => exact h.notifyAll hs
  | join =>
    obtain ⟨_, -, -, rfl⟩ := join_eq_some hs
    exact fun e x hx => (h e x hx).of_pool_eq rfl rfl rfl
  | assertIdle =>
    obtain ⟨-, ⟨-, rfl⟩ | ⟨-, rfl⟩⟩ := assertIdle_eq_some hs <;>
      exact fun e x hx => (h e x hx).of_pool_eq rfl rfl rfl
  | executorAddJob e j => exact h.executorAddJob hs
  | executorSubmit e k wake => exact h.executorSubmit hs
  | executorWait e t => exact h.executorWait hs
  | executorWake e t => exact h.executorWake hs

theorem execInv_of_reachable {n d : Nat} {ex : List Nat} (hr : Reachable (init n d ex) s) :
    s.ExecInv :=
  hr.induction (execInv_init n d ex) fun _ _ _ h hs => h.step hs

end Steps

end Pool

end FbuThreadPool
