import FbuThreadPool.Pool.Step
/-!
# `fbu::ThreadPool` refines a FIFO job pool

What the pool is for, with no threads, locks or condition variables: jobs wait in
submission order, an idle worker takes the oldest, and a worker runs one job at a time until
it returns. `Spec` is that pool and `Spec.Step` its three moves; `Spec.Inv` is what the moves
keep: jobs are taken in submission order, and each taken job has returned or is being run,
once.

`Pool.abs` reads the abstract pool off a state of the model: the jobs pushed and popped (from
the ghost history), the queue, the job each worker runs, and the jobs that returned. Every
step of the model is one move of `Spec` or changes nothing `abs` shows (`step_refines`), so
every run of the code is a run of `Spec` (`refines_of_reachable`), and `Spec.Inv`, which every
run of `Spec` keeps (`Spec.Inv.of_reflTransGen`), holds in every reachable state of the code
(`specInv_of_reachable`). `abs_reachable` states both.
-/

namespace FbuThreadPool

theorem List.map_set_of_eq {β γ : Type} (f : β → γ) {l : List β} {i : Nat} {a b : β}
    (h : l[i]? = some a) (hf : f b = f a) : (l.set i b).map f = l.map f :=
  List.ext_getElem? fun j => by
    rw [List.getElem?_map, List.getElem?_map, List.getElem?_set]
    split
    · subst_vars
      rw [if_pos (List.getElem?_eq_some_iff.1 h).1, h]
      exact congrArg some hf
    · rfl

/-- A job pool: the jobs submitted and the jobs taken, in order, the jobs waiting, the job
each worker runs, and the jobs that returned, in order. -/
structure Spec (β : Type) where
  submitted : List β
  started : List β
  pending : List β
  running : List (Option β)
  finished : List β

namespace Spec

variable {β : Type}

/-- The moves of a job pool. -/
inductive Step : Spec β → Spec β → Prop
  /-- A job is submitted at the back. -/
  | submit (p : Spec β) (j : β) :
      Step p { p with submitted := p.submitted ++ [j], pending := p.pending ++ [j] }
  /-- An idle worker takes the front job. -/
  | start (p : Spec β) (w : Nat) (j : β) (rest : List β) (hp : p.pending = j :: rest)
      (hw : p.running[w]? = some none) :
      Step p { p with started := p.started ++ [j], pending := rest,
                      running := p.running.set w (some j) }
  /-- The job of a worker returns. -/
  | finish (p : Spec β) (w : Nat) (j : β) (hw : p.running[w]? = some (some j)) :
      Step p { p with running := p.running.set w none, finished := p.finished ++ [j] }

/-- What a job pool keeps. -/
structure Inv (p : Spec β) : Prop where
  /-- Jobs are taken in submission order. -/
  fifo : p.started ++ p.pending = p.submitted
  /-- Every job taken has returned or is run by a worker, once. -/
  started_perm : p.started.Perm (p.finished ++ p.running.filterMap id)

theorem Inv.step {p p' : Spec β} (h : p.Inv) (hs : Step p p') : p'.Inv := by
  cases hs with
  | submit j => exact ⟨by rw [← List.append_assoc, h.fifo], h.started_perm⟩
  | start w j rest hp hw =>
    have hrun := List.filterMap_set_perm id (some j) hw
    simp only [id, Option.toList_none, Option.toList_some, List.append_nil] at hrun
    refine ⟨by rw [List.append_assoc, List.singleton_append, ← hp, h.fifo], ?_⟩
    exact (h.started_perm.append_right [j]).trans
      (by rw [List.append_assoc]; exact (hrun.append_left _).symm)
  | finish w j hw =>
    have hrun := List.filterMap_set_perm id none hw
    simp only [id, Option.toList_none, Option.toList_some, List.append_nil] at hrun
    refine ⟨h.fifo, h.started_perm.trans ?_⟩
    exact ((hrun.symm.trans List.perm_append_comm).append_left _).trans
      (.of_eq (List.append_assoc _ _ _).symm)

/-- Every run of a job pool keeps `Inv`. -/
theorem Inv.of_reflTransGen {p p' : Spec β} (h : p.Inv) (hr : Relation.ReflTransGen Step p p') :
    p'.Inv := by
  induction hr with
  | refl => exact h
  | tail _ hs ih => exact ih.step hs

end Spec

namespace Pool

variable {α : Type} {s s' : Pool α}

/-- The job pool that a state of the model shows. -/
def abs (s : Pool α) : Spec (Job α) :=
  ⟨s.log.filterMap Event.added, s.log.filterMap Event.taken, s.jobsQueue,
    s.workers.map WorkerPc.pending, s.log.filterMap Event.returned⟩

theorem abs_eq (hq : s'.jobsQueue = s.jobsQueue) (hl : s'.log = s.log)
    (hw : s'.workers.map WorkerPc.pending = s.workers.map WorkerPc.pending) : s'.abs = s.abs := by
  rw [abs, abs, hq, hl, hw]

/-- A move of worker `w` that does not change the job it runs. -/
theorem abs_set {w : Nat} {p q : WorkerPc α} (hw : s.workers[w]? = some p)
    (hpq : q.pending = p.pending) :
    ({ s with workers := s.workers.set w q } : Pool α).abs = s.abs :=
  abs_eq rfl rfl (List.map_set_of_eq _ hw hpq)

theorem notifyOne_map_pending {ws ws' : List (WorkerPc α)} {wake : Option Nat}
    (h : notifyOne ws wake = some ws') : ws'.map WorkerPc.pending = ws.map WorkerPc.pending := by
  rcases notifyOne_eq_some h with ⟨-, rfl⟩ | ⟨v, -, hv, rfl⟩
  · rfl
  · exact List.map_set_of_eq _ hv rfl

/-- `addJob` submits its job to the abstract pool. -/
theorem addJob_refines {job : Job α} {wake : Option Nat} (hs : s.addJob job wake = some s') :
    Spec.Step s.abs s'.abs := by
  obtain ⟨-, ws, hws, rfl⟩ := addJob_eq_some hs
  have := Spec.Step.submit s.abs job
  simpa [abs, notifyOne_map_pending hws, Event.added, Event.taken, Event.returned] using this

/-- Every step of the model is a move of the abstract pool or leaves it as it is. -/
theorem step_refines {a : Action α} (hs : s.step a = some s') :
    s'.abs = s.abs ∨ Spec.Step s.abs s'.abs := by
  cases a with
  | addJob j wake => exact .inr (addJob_refines hs)
  | loopTest w =>
    obtain ⟨hw, rfl⟩ := loopTest_eq_some hs; exact .inl (abs_set hw (by split <;> rfl))
  | testJobAvailable w =>
    obtain ⟨hw, -, rfl⟩ := testJobAvailable_eq_some hs
    exact .inl (abs_set hw (by split <;> rfl))
  | waitJobAvailable w =>
    obtain ⟨hw, rfl⟩ := waitJobAvailable_eq_some hs; exact .inl (abs_set hw rfl)
  | wakeWorker w => obtain ⟨hw, rfl⟩ := wakeWorker_eq_some hs; exact .inl (abs_set hw rfl)
  | grabNextJob w =>
    obtain ⟨hw, ⟨-, rfl⟩ | ⟨-, job, rest, hq, rfl⟩ | ⟨-, -, rfl⟩⟩ :=
      grabNextJob_eq_some hs
    · exact .inl (abs_eq rfl rfl (List.map_set_of_eq _ hw rfl))
    · refine .inr ?_
      have := Spec.Step.start s.abs w job rest hq (by simp [abs, hw, WorkerPc.pending])
      simpa [abs, Event.added, Event.taken, Event.returned, WorkerPc.pending] using this
    · exact .inl rfl
  | runJob w =>
    obtain ⟨hw, rfl⟩ | ⟨j, hw, rfl⟩ | ⟨e, j, x, hw, -, rfl⟩ := runJob_eq_some hs
    · exact .inl (abs_set hw rfl)
    · refine .inr ?_
      have := Spec.Step.finish s.abs w (.plain j) (by simp [abs, hw, WorkerPc.pending])
      simpa [abs, Event.added, Event.taken, Event.returned, WorkerPc.pending] using this
    · exact .inl (abs_eq rfl rfl (List.map_set_of_eq _ hw rfl))
  | finishWrapper w =>
    obtain ⟨e, j, x, hw, -, rfl⟩ := finishWrapper_eq_some hs
    refine .inr ?_
    have := Spec.Step.finish s.abs w (.wrapped e j) (by simp [abs, hw, WorkerPc.pending])
    simpa [abs, Event.added, Event.taken, Event.returned, WorkerPc.pending] using this
  | jobDone w =>
    obtain ⟨_, hw, -, rfl⟩ := jobDone_eq_some hs
    exact .inl (abs_eq rfl rfl (List.map_set_of_eq _ hw rfl))
  | waitForCompletion t => obtain ⟨-, -, rfl⟩ := waitForCompletion_eq_some hs; exact .inl rfl
  | wakeDrainer t => obtain ⟨-, rfl⟩ := wakeDrainer_eq_some hs; exact .inl rfl
  | setTerminate => obtain ⟨-, rfl⟩ := setTerminate_eq_some hs; exact .inl rfl
  | notifyAll =>
    obtain ⟨-, rfl⟩ := notifyAll_eq_some hs
    refine .inl (abs_eq rfl rfl ?_)
    rw [List.map_map]
    congr 1
    funext p
    cases p <;> rfl
  | join => obtain ⟨_, -, -, rfl⟩ := join_eq_some hs; exact .inl rfl
  | assertIdle =>
    obtain ⟨-, ⟨-, rfl⟩ | ⟨-, rfl⟩⟩ := assertIdle_eq_some hs <;> exact .inl rfl
  | executorAddJob e j => obtain ⟨_, -, rfl⟩ := executorAddJob_eq_some hs; exact .inl rfl
  | executorSubmit e k wake =>
    obtain ⟨_, _, _, -, -, h₁, rfl⟩ := executorSubmit_eq_some hs
    have := addJob_refines h₁
    exact .inr this
  | executorWait e t => obtain ⟨_, _, -, -, rfl⟩ := executorWait_eq_some hs; exact .inl rfl
  | executorWake e t => obtain ⟨_, _, -, -, rfl⟩ := executorWake_eq_some hs; exact .inl rfl

theorem specInv_init (n d : Nat) (ex : List Nat) : (init n d ex : Pool α).abs.Inv :=
  ⟨rfl, by simp [abs, init, List.filterMap_replicate, WorkerPc.pending]⟩

/-- Every run of the model from a fresh pool is a run of the abstract job pool. -/
theorem refines_of_reachable {n d : Nat} {ex : List Nat} (hr : Reachable (init n d ex) s) :
    Relation.ReflTransGen Spec.Step (init n d ex : Pool α).abs s.abs :=
  hr.induction (P := fun s => Relation.ReflTransGen Spec.Step (init n d ex : Pool α).abs s.abs)
    .refl fun _ _ _ h hs => by
      rcases step_refines hs with he | hstep
      · rw [he]; exact h
      · exact h.tail hstep

/-- In every reachable state, jobs are popped in push order, and each popped job has
returned or is pending on a worker, once. -/
theorem specInv_of_reachable {n d : Nat} {ex : List Nat} (hr : Reachable (init n d ex) s) :
    s.abs.Inv :=
  (specInv_init n d ex).of_reflTransGen (refines_of_reachable hr)

/-- **`fbu::ThreadPool` refines a FIFO job pool.** Every run of the model from a fresh pool,
in every interleaving of its threads, executors and destructor, is a run of `Spec`, and the
state it reaches keeps what a job pool keeps: jobs are taken in submission order, and each
taken job has returned or is being run, once. -/
theorem abs_reachable {n d : Nat} {ex : List Nat} (hr : Reachable (init n d ex) s) :
    Relation.ReflTransGen Spec.Step (init n d ex : Pool α).abs s.abs ∧ s.abs.Inv :=
  ⟨refines_of_reachable hr, specInv_of_reachable hr⟩

/-- Two workers have popped jobs 7 and 8 in push order, and worker 1's job has returned. -/
theorem abs_reachable_two_workers :
    let s : Pool Nat := ⟨[.running (some (.plain 7)), .finished (some (.plain 8))], [], 2, false,
      [], .idle, [], [.add (.plain 7), .add (.plain 8), .take 0 (.plain 7), .take 1 (.plain 8),
        .ret 1 (.plain 8)], false⟩
    Reachable (init 2 0 []) s ∧
      (Relation.ReflTransGen Spec.Step (init 2 0 [] : Pool Nat).abs s.abs ∧ s.abs.Inv) := by
  intro s
  have hr := reachable_of_run (show (init 2 0 [] : Pool Nat).run [.addJob 7 none,
    .addJob 8 none, .loopTest 0, .testJobAvailable 0, .grabNextJob 0, .loopTest 1,
    .testJobAvailable 1, .grabNextJob 1, .runJob 1] = some s from rfl)
  exact ⟨hr, abs_reachable hr⟩

/-- Jobs are popped in push order: the popped jobs, then the queue, are the pushed jobs. -/
theorem fifo_of_reachable {n d : Nat} {ex : List Nat} (hr : Reachable (init n d ex) s) :
    s.log.filterMap Event.taken ++ s.jobsQueue = s.log.filterMap Event.added :=
  (specInv_of_reachable hr).fifo

/-- Every popped job has returned or is pending on a worker, once. -/
theorem taken_perm_of_reachable {n d : Nat} {ex : List Nat} (hr : Reachable (init n d ex) s) :
    (s.log.filterMap Event.taken).Perm
      (s.log.filterMap Event.returned ++ s.workers.filterMap WorkerPc.pending) := by
  simpa [abs, List.filterMap_map] using (specInv_of_reachable hr).started_perm

end Pool

end FbuThreadPool
