import FbuThreadPool.Pool.State
import FbuThreadPool.Transition
/-!
# The atomic steps of `fbu::ThreadPool`

A step is one critical section of one thread, or one action that touches no lock. All of
`addJob`, the busy-count block of `threadExecLoop` and each pass of `waitForCompletion`'s
loop run under `mJobsQueueMutex`, so each is one step, enabled when no worker holds the
mutex across steps. `mJobAvailableCV.wait(lLock, pred)` in `grabNextJob` is split where the
code lets other threads in: testing the predicate (lock held) and entering the wait set
(lock released) are two steps, and between them only lock-free actions can run: the
destructor's write of `mTerminate` and its `notify_all`, which take no lock.

`notify_one` picks the worker it unblocks; the action names it (`wake`), and must name one
whenever a worker is blocked. Condition variables may wake spuriously (`wakeWorker`,
`wakeDrainer`, `executorWake`). A job's body is one step (`runJob`), except a wrapper of
`ThreadPoolJobsExecutor`, whose executor block is a step of its own (`finishWrapper`);
`addJob` calls made by running jobs are `addJob` steps taken meanwhile.
-/

namespace FbuThreadPool

namespace Pool

variable {α : Type}

/-- No worker holds `mJobsQueueMutex` across steps, so another thread may take it. -/
def lockFree (s : Pool α) : Bool := s.workers.all fun w => !w.holdsLock

/-- `mJobAvailableCV.notify_one()`: `wake` is the blocked worker it unblocks; it is `none`
exactly when no worker is blocked. -/
def notifyOne (ws : List (WorkerPc α)) : Option Nat → Option (List (WorkerPc α))
  | none => if ws.all fun w => !w.isBlocked then some ws else none
  | some w =>
    match ws[w]? with
    | some .blocked => some (ws.set w .waiting)
    | _ => none

/-- `ThreadPool::addJob`: under the lock, push `job` at the back of `mJobsQueue`, then
`notify_one`. -/
def addJob (s : Pool α) (job : Job α) (wake : Option Nat) : Option (Pool α) :=
  if s.lockFree then
    (notifyOne s.workers wake).map fun ws =>
      { s with workers := ws, jobsQueue := s.jobsQueue ++ [job], log := s.log ++ [.add job] }
  else none

/-- The test `while (!mTerminate)` of worker `w` (no lock). -/
def loopTest (s : Pool α) (w : Nat) : Option (Pool α) :=
  match s.workers[w]? with
  | some .loop =>
    some { s with workers := s.workers.set w (if s.terminate then .exited else .waiting) }
  | _ => none

/-- `grabNextJob` takes the lock and tests `mJobsQueue.size() > 0 || mTerminate`. -/
def testJobAvailable (s : Pool α) (w : Nat) : Option (Pool α) :=
  match s.workers[w]? with
  | some .waiting =>
    if s.lockFree then
      let next := if 0 < s.jobsQueue.length || s.terminate then .grabbing else .holding
      some { s with workers := s.workers.set w next }
    else none
  | _ => none

/-- `mJobAvailableCV.wait(lLock)`: release the lock and enter the wait set. -/
def waitJobAvailable (s : Pool α) (w : Nat) : Option (Pool α) :=
  match s.workers[w]? with
  | some .holding => some { s with workers := s.workers.set w .blocked }
  | _ => none

/-- A spurious wakeup from `mJobAvailableCV`. -/
def wakeWorker (s : Pool α) (w : Nat) : Option (Pool α) :=
  match s.workers[w]? with
  | some .blocked => some { s with workers := s.workers.set w .waiting }
  | _ => none

/-- The rest of `grabNextJob`, lock still held: `++mNumBusyThreads`, then pop the front job,
or take the no-op `[]{}` when `mTerminate` is set; `assert(!mJobsQueue.empty())` guards the
pop. The read of `mTerminate` in `if (!mTerminate)` and the pop are one step, although
`~ThreadPool` writes `mTerminate` without the lock: that write touches neither the queue nor
the worker, so when it falls between a worker's read of `false` and its pop, the model takes
the pop first and the write after it. -/
def grabNextJob (s : Pool α) (w : Nat) : Option (Pool α) :=
  match s.workers[w]? with
  | some .grabbing =>
    if s.terminate then
      some { s with workers := s.workers.set w (.running none),
                    numBusyThreads := s.numBusyThreads + 1 }
    else
      match s.jobsQueue with
      | job :: rest =>
        some { s with workers := s.workers.set w (.running (some job)),
                      numBusyThreads := s.numBusyThreads + 1, jobsQueue := rest,
                      log := s.log ++ [.take w job] }
      | [] => some { s with numBusyThreads := s.numBusyThreads + 1, assertFailed := true }
  | _ => none

/-- `lJob()` returns on worker `w`. For a wrapper of an executor only `pJob()` has returned;
the wrapper goes on to the executor's block. -/
def runJob (s : Pool α) (w : Nat) : Option (Pool α) :=
  match s.workers[w]? with
  | some (.running none) => some { s with workers := s.workers.set w (.finished none) }
  | some (.running (some (.plain j))) =>
    some { s with workers := s.workers.set w (.finished (some (.plain j))),
                  log := s.log ++ [.ret w (.plain j)] }
  | some (.running (some (.wrapped e j))) =>
    match s.executors[e]? with
    | some x =>
      some { s with workers := s.workers.set w (.wrapping e j),
                    executors := s.executors.set e { x with returned := x.returned ++ [j] } }
    | none => none
  | _ => none

/-- The executor's block of a wrapper: `--mNumJobs; mCompletion.notify_all();` under the
executor's lock; then the wrapper, the pool's `lJob()`, returns. -/
def finishWrapper (s : Pool α) (w : Nat) : Option (Pool α) :=
  match s.workers[w]? with
  | some (.wrapping e j) =>
    match s.executors[e]? with
    | some x =>
      some { s with workers := s.workers.set w (.finished (some (.wrapped e j))),
                    executors := s.executors.set e { x with completion := x.completion.decrement },
                    log := s.log ++ [.ret w (.wrapped e j)] }
    | none => none
  | _ => none

/-- The block after `lJob()` in `threadExecLoop`: under the lock, `--mNumBusyThreads;
mCompletionCV.notify_all();`, then back to the loop test. -/
def jobDone (s : Pool α) (w : Nat) : Option (Pool α) :=
  match s.workers[w]? with
  | some (.finished _) =>
    if s.lockFree then
      some { s with workers := s.workers.set w .loop, numBusyThreads := s.numBusyThreads - 1,
                    drainers := s.drainers.map WaitPc.notify }
    else none
  | _ => none

/-- One pass of the loop of `ThreadPool::waitForCompletion` by thread `d`, on its call or
after a wakeup: under the lock, test `mJobsQueue.size() > 0 || mNumBusyThreads > 0` and wait
on `mCompletionCV` while it holds, else return. -/
def waitForCompletion (s : Pool α) (d : Nat) : Option (Pool α) :=
  match s.drainers[d]? with
  | some .idle | some .checking =>
    if s.lockFree then
      let next := if 0 < s.jobsQueue.length || 0 < s.numBusyThreads then .blocked else .idle
      some { s with drainers := s.drainers.set d next }
    else none
  | _ => none

/-- A spurious wakeup from `mCompletionCV`. -/
def wakeDrainer (s : Pool α) (d : Nat) : Option (Pool α) :=
  match s.drainers[d]? with
  | some .blocked => some { s with drainers := s.drainers.set d .checking }
  | _ => none

/-- `~ThreadPool` writes `mTerminate = true`, without the lock. -/
def setTerminate (s : Pool α) : Option (Pool α) :=
  match s.dtor with
  | .idle => some { s with terminate := true, dtor := .notifying }
  | _ => none

/-- `mJobAvailableCV.notify_all()` of `~ThreadPool`, without the lock. -/
def notifyAll (s : Pool α) : Option (Pool α) :=
  match s.dtor with
  | .notifying => some { s with workers := s.workers.map WorkerPc.notify, dtor := .joining 0 }
  | _ => none

/-- `t.join()` on the next thread returns once that worker has left `threadExecLoop`. -/
def join (s : Pool α) : Option (Pool α) :=
  match s.dtor with
  | .joining k =>
    match s.workers[k]? with
    | some .exited => some { s with dtor := .joining (k + 1) }
    | _ => none
  | _ => none

/-- After the last join, `assert(mNumBusyThreads == 0)`. -/
def assertIdle (s : Pool α) : Option (Pool α) :=
  match s.dtor with
  | .joining k =>
    if k = s.workers.length then
      if s.numBusyThreads = 0 then some { s with dtor := .done }
      else some { s with dtor := .done, assertFailed := true }
    else none
  | _ => none

/-- `ThreadPoolJobsExecutor::addJob` of executor `e`, first block: `++mNumJobs` under the
executor's lock. -/
def executorAddJob (s : Pool α) (e : Nat) (job : α) : Option (Pool α) :=
  match s.executors[e]? with
  | some x =>
    let x' := { x with completion := x.completion.increment, inFlight := x.inFlight ++ [job],
                       submitted := x.submitted ++ [job] }
    some { s with executors := s.executors.set e x' }
  | none => none

/-- The rest of `ThreadPoolJobsExecutor::addJob` for the `k`-th job in flight of executor
`e`: `mTP.addJob` of its wrapper. -/
def executorSubmit (s : Pool α) (e k : Nat) (wake : Option Nat) : Option (Pool α) :=
  match s.executors[e]? with
  | some x =>
    match x.inFlight[k]? with
    | some j =>
      (s.addJob (.wrapped e j) wake).map fun s' =>
        { s' with executors := s.executors.set e { x with inFlight := x.inFlight.eraseIdx k } }
    | none => none
  | none => none

/-- `ThreadPoolJobsExecutor::waitForCompletion` of executor `e`, one pass by thread `t`. -/
def executorWait (s : Pool α) (e t : Nat) : Option (Pool α) :=
  match s.executors[e]? with
  | some x =>
    (x.completion.waitForCompletion t).map fun c =>
      { s with executors := s.executors.set e { x with completion := c } }
  | none => none

/-- A spurious wakeup of thread `t` of executor `e`. -/
def executorWake (s : Pool α) (e t : Nat) : Option (Pool α) :=
  match s.executors[e]? with
  | some x =>
    (x.completion.wake t).map fun c =>
      { s with executors := s.executors.set e { x with completion := c } }
  | none => none

/-! ## One lemma per step: when it is enabled and what it leaves -/

section Inversion

variable {s s' : Pool α} {w : Nat}

theorem notifyOne_eq_some {ws ws' : List (WorkerPc α)} {wake : Option Nat}
    (h : notifyOne ws wake = some ws') :
    ((∀ p ∈ ws, p.isBlocked = false) ∧ ws' = ws) ∨
      ∃ v, wake = some v ∧ ws[v]? = some .blocked ∧ ws' = ws.set v .waiting := by
  unfold notifyOne at h
  split at h
  · split at h
    · rename_i hall
      exact .inl ⟨by simpa using hall, (Option.some.inj h).symm⟩
    · cases h
  · split at h
    · exact .inr ⟨_, rfl, ‹_›, (Option.some.inj h).symm⟩
    · cases h

theorem addJob_eq_some {job : Job α} {wake : Option Nat} (h : s.addJob job wake = some s') :
    s.lockFree = true ∧ ∃ ws, notifyOne s.workers wake = some ws ∧
      s' = { s with workers := ws, jobsQueue := s.jobsQueue ++ [job],
                    log := s.log ++ [.add job] } := by
  unfold addJob at h
  split at h
  · obtain ⟨ws, hws, rfl⟩ := Option.map_eq_some'.1 h
    exact ⟨‹_›, ws, hws, rfl⟩
  · cases h

theorem loopTest_eq_some (h : s.loopTest w = some s') :
    s.workers[w]? = some .loop ∧
      s' = { s with workers := s.workers.set w (if s.terminate then .exited else .waiting) } := by
  unfold loopTest at h
  split at h
  · exact ⟨‹_›, (Option.some.inj h).symm⟩
  · cases h

theorem testJobAvailable_eq_some (h : s.testJobAvailable w = some s') :
    s.workers[w]? = some .waiting ∧ s.lockFree = true ∧
      s' = { s with
        workers := s.workers.set w
          (if 0 < s.jobsQueue.length || s.terminate then .grabbing else .holding) } := by
  unfold testJobAvailable at h
  split at h
  · split at h
    · exact ⟨‹_›, ‹_›, (Option.some.inj h).symm⟩
    · cases h
  · cases h

theorem waitJobAvailable_eq_some (h : s.waitJobAvailable w = some s') :
    s.workers[w]? = some .holding ∧ s' = { s with workers := s.workers.set w .blocked } := by
  unfold waitJobAvailable at h
  split at h
  · exact ⟨‹_›, (Option.some.inj h).symm⟩
  · cases h

theorem wakeWorker_eq_some (h : s.wakeWorker w = some s') :
    s.workers[w]? = some .blocked ∧ s' = { s with workers := s.workers.set w .waiting } := by
  unfold wakeWorker at h
  split at h
  · exact ⟨‹_›, (Option.some.inj h).symm⟩
  · cases h

theorem grabNextJob_eq_some (h : s.grabNextJob w = some s') :
    s.workers[w]? = some .grabbing ∧
      ((s.terminate = true ∧
          s' = { s with workers := s.workers.set w (.running none),
                        numBusyThreads := s.numBusyThreads + 1 }) ∨
        (s.terminate = false ∧ ∃ job rest, s.jobsQueue = job :: rest ∧
          s' = { s with workers := s.workers.set w (.running (some job)),
                        numBusyThreads := s.numBusyThreads + 1, jobsQueue := rest,
                        log := s.log ++ [.take w job] }) ∨
        (s.terminate = false ∧ s.jobsQueue = [] ∧
          s' = { s with numBusyThreads := s.numBusyThreads + 1, assertFailed := true })) := by
  unfold grabNextJob at h
  split at h
  · refine ⟨‹_›, ?_⟩
    split at h
    · exact .inl ⟨‹_›, (Option.some.inj h).symm⟩
    · next ht =>
      have ht : s.terminate = false := by simpa using ht
      split at h
      · exact .inr (.inl ⟨ht, _, _, ‹_›, (Option.some.inj h).symm⟩)
      · exact .inr (.inr ⟨ht, ‹_›, (Option.some.inj h).symm⟩)
  · cases h

theorem runJob_eq_some (h : s.runJob w = some s') :
    (s.workers[w]? = some (.running none) ∧
        s' = { s with workers := s.workers.set w (.finished none) }) ∨
      (∃ j, s.workers[w]? = some (.running (some (.plain j))) ∧
        s' = { s with workers := s.workers.set w (.finished (some (.plain j))),
                      log := s.log ++ [.ret w (.plain j)] }) ∨
      (∃ e j x, s.workers[w]? = some (.running (some (.wrapped e j))) ∧
        s.executors[e]? = some x ∧
        s' = { s with
          workers := s.workers.set w (.wrapping e j),
          executors := s.executors.set e { x with returned := x.returned ++ [j] } }) := by
  unfold runJob at h
  split at h
  · exact .inl ⟨‹_›, (Option.some.inj h).symm⟩
  · exact .inr (.inl ⟨_, ‹_›, (Option.some.inj h).symm⟩)
  · split at h
    · exact .inr (.inr ⟨_, _, _, ‹_›, ‹_›, (Option.some.inj h).symm⟩)
    · cases h
  · cases h

theorem finishWrapper_eq_some (h : s.finishWrapper w = some s') :
    ∃ e j x, s.workers[w]? = some (.wrapping e j) ∧ s.executors[e]? = some x ∧
      s' = { s with workers := s.workers.set w (.finished (some (.wrapped e j))),
                    executors := s.executors.set e { x with completion := x.completion.decrement },
                    log := s.log ++ [.ret w (.wrapped e j)] } := by
  unfold finishWrapper at h
  split at h
  · split at h
    · exact ⟨_, _, _, ‹_›, ‹_›, (Option.some.inj h).symm⟩
    · cases h
  · cases h

theorem jobDone_eq_some (h : s.jobDone w = some s') :
    ∃ j, s.workers[w]? = some (.finished j) ∧ s.lockFree = true ∧
      s' = { s with workers := s.workers.set w .loop, numBusyThreads := s.numBusyThreads - 1,
                    drainers := s.drainers.map WaitPc.notify } := by
  unfold jobDone at h
  split at h
  · split at h
    · exact ⟨_, ‹_›, ‹_›, (Option.some.inj h).symm⟩
    · cases h
  · cases h

theorem waitForCompletion_eq_some {d : Nat} (h : s.waitForCompletion d = some s') :
    (s.drainers[d]? = some .idle ∨ s.drainers[d]? = some .checking) ∧ s.lockFree = true ∧
      s' = { s with drainers := s.drainers.set d
                      (if 0 < s.jobsQueue.length || 0 < s.numBusyThreads then .blocked
                       else .idle) } := by
  unfold waitForCompletion at h
  split at h
  · split at h
    · exact ⟨.inl ‹_›, ‹_›, (Option.some.inj h).symm⟩
    · cases h
  · split at h
    · exact ⟨.inr ‹_›, ‹_›, (Option.some.inj h).symm⟩
    · cases h
  · cases h

theorem wakeDrainer_eq_some {d : Nat} (h : s.wakeDrainer d = some s') :
    s.drainers[d]? = some .blocked ∧ s' = { s with drainers := s.drainers.set d .checking } := by
  unfold wakeDrainer at h
  split at h
  · exact ⟨‹_›, (Option.some.inj h).symm⟩
  · cases h

theorem setTerminate_eq_some (h : s.setTerminate = some s') :
    s.dtor = .idle ∧ s' = { s with terminate := true, dtor := .notifying } := by
  unfold setTerminate at h
  split at h
  · exact ⟨‹_›, (Option.some.inj h).symm⟩
  · cases h

theorem notifyAll_eq_some (h : s.notifyAll = some s') :
    s.dtor = .notifying ∧
      s' = { s with workers := s.workers.map WorkerPc.notify, dtor := .joining 0 } := by
  unfold notifyAll at h
  split at h
  · exact ⟨‹_›, (Option.some.inj h).symm⟩
  · cases h

theorem join_eq_some (h : s.join = some s') :
    ∃ k, s.dtor = .joining k ∧ s.workers[k]? = some .exited ∧
      s' = { s with dtor := .joining (k + 1) } := by
  unfold join at h
  split at h
  · split at h
    · exact ⟨_, ‹_›, ‹_›, (Option.some.inj h).symm⟩
    · cases h
  · cases h

theorem assertIdle_eq_some (h : s.assertIdle = some s') :
    s.dtor = .joining s.workers.length ∧
      ((s.numBusyThreads = 0 ∧ s' = { s with dtor := .done }) ∨
        (s.numBusyThreads ≠ 0 ∧ s' = { s with dtor := .done, assertFailed := true })) := by
  unfold assertIdle at h
  split at h
  · split at h
    · subst_vars
      refine ⟨‹_›, ?_⟩
      split at h
      · exact .inl ⟨‹_›, (Option.some.inj h).symm⟩
      · exact .inr ⟨‹_›, (Option.some.inj h).symm⟩
    · cases h
  · cases h

theorem executorAddJob_eq_some {e : Nat} {job : α} (h : s.executorAddJob e job = some s') :
    ∃ x, s.executors[e]? = some x ∧
      s' = { s with executors := s.executors.set e
                      { x with completion := x.completion.increment,
                               inFlight := x.inFlight ++ [job],
                               submitted := x.submitted ++ [job] } } := by
  unfold executorAddJob at h
  split at h
  · exact ⟨_, ‹_›, (Option.some.inj h).symm⟩
  · cases h

theorem executorSubmit_eq_some {e k : Nat} {wake : Option Nat}
    (h : s.executorSubmit e k wake = some s') :
    ∃ x j s₁, s.executors[e]? = some x ∧ x.inFlight[k]? = some j ∧
      s.addJob (.wrapped e j) wake = some s₁ ∧
      s' = { s₁ with
        executors := s.executors.set e { x with inFlight := x.inFlight.eraseIdx k } } := by
  unfold executorSubmit at h
  split at h
  · split at h
    · obtain ⟨s₁, h₁, rfl⟩ := Option.map_eq_some'.1 h
      exact ⟨_, _, _, ‹_›, ‹_›, h₁, rfl⟩
    · cases h
  · cases h

theorem executorWait_eq_some {e t : Nat} (h : s.executorWait e t = some s') :
    ∃ x c, s.executors[e]? = some x ∧ x.completion.waitForCompletion t = some c ∧
      s' = { s with executors := s.executors.set e { x with completion := c } } := by
  unfold executorWait at h
  split at h
  · obtain ⟨c, hc, rfl⟩ := Option.map_eq_some'.1 h
    exact ⟨_, _, ‹_›, hc, rfl⟩
  · cases h

theorem executorWake_eq_some {e t : Nat} (h : s.executorWake e t = some s') :
    ∃ x c, s.executors[e]? = some x ∧ x.completion.wake t = some c ∧
      s' = { s with executors := s.executors.set e { x with completion := c } } := by
  unfold executorWake at h
  split at h
  · obtain ⟨c, hc, rfl⟩ := Option.map_eq_some'.1 h
    exact ⟨_, _, ‹_›, hc, rfl⟩
  · cases h

end Inversion

/-- `ThreadPool::getNumThreads`. -/
def getNumThreads (s : Pool α) : Nat := s.workers.length

/-- `ThreadPool::getNumBusyThreads`, a lock-free read. -/
def getNumBusyThreads (s : Pool α) : Int := s.numBusyThreads

end Pool

/-- One atomic step of one thread. -/
inductive Action (α : Type) where
  | addJob (job : α) (wake : Option Nat)
  | loopTest (w : Nat)
  | testJobAvailable (w : Nat)
  | waitJobAvailable (w : Nat)
  | wakeWorker (w : Nat)
  | grabNextJob (w : Nat)
  | runJob (w : Nat)
  | finishWrapper (w : Nat)
  | jobDone (w : Nat)
  | waitForCompletion (d : Nat)
  | wakeDrainer (d : Nat)
  | setTerminate
  | notifyAll
  | join
  | assertIdle
  | executorAddJob (e : Nat) (job : α)
  | executorSubmit (e k : Nat) (wake : Option Nat)
  | executorWait (e t : Nat)
  | executorWake (e t : Nat)
  deriving DecidableEq, Repr

namespace Pool

variable {α : Type}

/-- The step of action `a`; `none` when `a` is not enabled. -/
def step (s : Pool α) : Action α → Option (Pool α)
  | .addJob j wake => s.addJob (.plain j) wake
  | .loopTest w => s.loopTest w
  | .testJobAvailable w => s.testJobAvailable w
  | .waitJobAvailable w => s.waitJobAvailable w
  | .wakeWorker w => s.wakeWorker w
  | .grabNextJob w => s.grabNextJob w
  | .runJob w => s.runJob w
  | .finishWrapper w => s.finishWrapper w
  | .jobDone w => s.jobDone w
  | .waitForCompletion d => s.waitForCompletion d
  | .wakeDrainer d => s.wakeDrainer d
  | .setTerminate => s.setTerminate
  | .notifyAll => s.notifyAll
  | .join => s.join
  | .assertIdle => s.assertIdle
  | .executorAddJob e j => s.executorAddJob e j
  | .executorSubmit e k wake => s.executorSubmit e k wake
  | .executorWait e t => s.executorWait e t
  | .executorWake e t => s.executorWake e t

/-- The states of the pool reachable from `s₀`: every interleaving of the threads' steps. -/
abbrev Reachable (s₀ s : Pool α) : Prop := FbuThreadPool.Reachable step s₀ s

/-- Run a schedule of the pool's threads. -/
abbrev run (s : Pool α) (as : List (Action α)) : Option (Pool α) := FbuThreadPool.run step s as

end Pool

end FbuThreadPool
