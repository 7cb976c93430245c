import FbuThreadPool.Pool.State
import FbuThreadPool.Transition
/-!
# The legacy pool of `cpp/thread_pool.hpp`

The older `ThreadPool` differs from `fbu::ThreadPool` in three places: `waitForCompletion`
waits while `mJobsQueue.size() > 0 && mNumBusyThreads > 0`, `threadExecLoop` decrements
`mNumBusyThreads` and notifies `mCompletionCV` without taking the mutex, and it has no
`assert`. Since the decrement and the notification take no lock, one pass of
`waitForCompletion` is two steps here, as the wait of `grabNextJob` is: testing the predicate
with the lock held, then entering the wait set. `mNumBusyThreads` is not initialised by the
constructor, so `initWith` takes its first value as a parameter; `init` starts it at `0`, the
one start from which it counts the busy workers exactly. Each step has an inversion lemma
(`addJob_eq_some`, ...) saying when it is enabled and what it leaves; `Legacy.Invariant` and
`Legacy.Progress` build on them.

* `legacy_wait_returns_with_queued_job`: `waitForCompletion` returns on a pool that holds a
  job it has not popped.
-/

namespace FbuThreadPool

namespace Legacy

/-- Where a worker is in `threadExecLoop` and `grabNextJob`. -/
inductive WorkerPc (α : Type) where
  | loop
  | waiting
  /-- The predicate was false: holding the lock, about to wait on `mJobAvailableCV`. -/
  | holding
  | blocked
  /-- The predicate was true: holding the lock, about to `++mNumBusyThreads`. -/
  | grabbing
  | running (lJob : Option α)
  /-- `lJob()` has returned: `--mNumBusyThreads` is next. -/
  | finished
  /-- `mCompletionCV.notify_all()` is next. -/
  | notifying
  | exited
  deriving DecidableEq, Repr

namespace WorkerPc

variable {α : Type}

/-- Holding `mJobsQueueMutex` across steps. -/
def holdsLock : WorkerPc α → Bool
  | .holding | .grabbing => true
  | _ => false

/-- In `mJobAvailableCV`'s wait set. -/
def isBlocked : WorkerPc α → Bool
  | .blocked => true
  | _ => false

/-- `notify_all` on `mJobAvailableCV`. -/
def notify : WorkerPc α → WorkerPc α
  | .blocked => .waiting
  | w => w

end WorkerPc

/-- Where a thread is in `waitForCompletion`. -/
inductive DrainPc where
  | idle
  | checking
  /-- The predicate held: holding the lock, about to wait on `mCompletionCV`. -/
  | holding
  | blocked
  deriving DecidableEq, Repr

/-- `notify_all` on `mCompletionCV`. -/
def DrainPc.notify : DrainPc → DrainPc
  | .blocked => .checking
  | d => d

/-- The legacy `ThreadPool` with its threads. -/
structure Pool (α : Type) where
  workers : List (WorkerPc α)
  jobsQueue : List α
  numBusyThreads : Int
  terminate : Bool
  drainers : List DrainPc
  dtor : DtorPc
  deriving DecidableEq, Repr

namespace Pool

variable {α : Type}

/-- A pool of `n` workers and `d` threads that may call `waitForCompletion`, whose
`mNumBusyThreads`, a member the constructor leaves uninitialised, holds `numBusyThreads`. -/
def initWith (numBusyThreads : Int) (n d : Nat) : Pool α :=
  ⟨List.replicate n .loop, [], numBusyThreads, false, List.replicate d .idle, .idle⟩

/-- The pool with `mNumBusyThreads` taken to start at `0`. -/
def init (n d : Nat) : Pool α := initWith 0 n d

/-- No thread holds `mJobsQueueMutex` across steps. -/
def lockFree (s : Pool α) : Bool :=
  (s.workers.all fun w => !w.holdsLock) && s.drainers.all (· != .holding)

/-- `ThreadPool::addJob`: under the lock, `emplace_back` then `notify_one`, which unblocks
worker `wake`, or none when none is blocked. -/
def addJob (s : Pool α) (job : α) (wake : Option Nat) : Option (Pool α) :=
  if s.lockFree then
    let s' := { s with jobsQueue := s.jobsQueue ++ [job] }
    match wake with
    | none => if s.workers.all fun w => !w.isBlocked then some s' else none
    | some w =>
      match s.workers[w]? with
      | some .blocked => some { s' with workers := s.workers.set w .waiting }
      | _ => none
  else none

/-- The test `while (!mTerminate)` of worker `w`. -/
def loopTest (s : Pool α) (w : Nat) : Option (Pool α) :=
  match s.workers[w]? with
  | some .loop =>
    some { s with workers := s.workers.set w (if s.terminate then .exited else .waiting) }
  | _ => none

/-- `grabNextJob` takes the lock and tests `mJobsQueue.size() || mTerminate`. -/
def testJobAvailable (s : Pool α) (w : Nat) : Option (Pool α) :=
  match s.workers[w]? with
  | some .waiting =>
    if s.lockFree then
      let next := if 0 < s.jobsQueue.length || s.terminate then .grabbing else .holding
      some { s with workers := s.workers.set w next }
    else none
  | _ => none

/-- `mJobAvailableCV.wait(lLock)`: release the lock and enter the wait set. -/
def waitJobAvailable (s : Pool α) (w : Nat) : Option (Pool α) :=
  match s.workers[w]? with
  | some .holding => some { s with workers := s.workers.set w .blocked }
  | _ => none

/-- A spurious wakeup from `mJobAvailableCV`. -/
def wakeWorker (s : Pool α) (w : Nat) : Option (Pool α) :=
  match s.workers[w]? with
  | some .blocked => some { s with workers := s.workers.set w .waiting }
  | _ => none

/-- The rest of `grabNextJob`, lock held: `++mNumBusyThreads`, then pop the front job, or
take the no-op when `mTerminate` is set. `front()` of an empty list is undefined: no step. The
read of `mTerminate` and the pop are one step, as in `FbuThreadPool.Pool.grabNextJob`: the
destructor's unlocked write touches neither the queue nor the worker. -/
def grabNextJob (s : Pool α) (w : Nat) : Option (Pool α) :=
  match s.workers[w]? with
  | some .grabbing =>
    if s.terminate then
      some { s with workers := s.workers.set w (.running none),
                    numBusyThreads := s.numBusyThreads + 1 }
    else
      match s.jobsQueue with
      | job :: rest =>
        some { s with workers := s.workers.set w (.running (some job)),
                      numBusyThreads := s.numBusyThreads + 1, jobsQueue := rest }
      | [] => none
  | _ => none

/-- `lJob()` returns on worker `w`. -/
def runJob (s : Pool α) (w : Nat) : Option (Pool α) :=
  match s.workers[w]? with
  | some (.running _) => some { s with workers := s.workers.set w .finished }
  | _ => none

/-- `--mNumBusyThreads`, without the lock. -/
def decrementBusy (s : Pool α) (w : Nat) : Option (Pool α) :=
  match s.workers[w]? with
  | some .finished =>
    some { s with workers := s.workers.set w .notifying, numBusyThreads := s.numBusyThreads - 1 }
  | _ => none

/-- `mCompletionCV.notify_all()`, without the lock; back to the loop test. -/
def notifyCompletion (s : Pool α) (w : Nat) : Option (Pool α) :=
  match s.workers[w]? with
  | some .notifying =>
    some { s with workers := s.workers.set w .loop,
                  drainers := s.drainers.map DrainPc.notify }
  | _ => none

/-- The test of `waitForCompletion`'s loop by thread `d`, under the lock:
`mJobsQueue.size() > 0 && mNumBusyThreads > 0`. -/
def waitForCompletion (s : Pool α) (d : Nat) : Option (Pool α) :=
  match s.drainers[d]? with
  | some .idle | some .checking =>
    if s.lockFree then
      let next := if 0 < s.jobsQueue.length && 0 < s.numBusyThreads then .holding else .idle
      some { s with drainers := s.drainers.set d next }
    else none
  | _ => none

/-- `mCompletionCV.wait(lLock)`: release the lock and enter the wait set. -/
def waitCompletion (s : Pool α) (d : Nat) : Option (Pool α) :=
  match s.drainers[d]? with
  | some .holding => some { s with drainers := s.drainers.set d .blocked }
  | _ => none

/-- A spurious wakeup from `mCompletionCV`. -/
def wakeDrainer (s : Pool α) (d : Nat) : Option (Pool α) :=
  match s.drainers[d]? with
  | some .blocked => some { s with drainers := s.drainers.set d .checking }
  | _ => none

/-- `~ThreadPool` writes `mTerminate = true`, without the lock. -/
def setTerminate (s : Pool α) : Option (Pool α) :=
  match s.dtor with
  | .idle => some { s with terminate := true, dtor := .notifying }
  | _ => none

/-- `mJobAvailableCV.notify_all()` of `~ThreadPool`, without the lock. -/
def notifyAll (s : Pool α) : Option (Pool α) :=
  match s.dtor with
  | .notifying =>
    some { s with workers := s.workers.map WorkerPc.notify, dtor := .joining 0 }
  | _ => none

/-- `t.join()` on the next thread returns once that worker has left `threadExecLoop`. -/
def join (s : Pool α) : Option (Pool α) :=
  match s.dtor with
  | .joining k =>
    match s.workers[k]? with
    | some .exited => some { s with dtor := .joining (k + 1) }
    | _ => none
  | _ => none

end Pool

/-- One atomic step of one thread of the legacy pool. -/
inductive Action (α : Type) where
  | addJob (job : α) (wake : Option Nat)
  | loopTest (w : Nat)
  | testJobAvailable (w : Nat)
  | waitJobAvailable (w : Nat)
  | wakeWorker (w : Nat)
  | grabNextJob (w : Nat)
  | runJob (w : Nat)
  | decrementBusy (w : Nat)
  | notifyCompletion (w : Nat)
  | waitForCompletion (d : Nat)
  | waitCompletion (d : Nat)
  | wakeDrainer (d : Nat)
  | setTerminate
  | notifyAll
  | join
  deriving DecidableEq, Repr

namespace Pool

variable {α : Type}

/-- The step of action `a`; `none` when `a` is not enabled. -/
def step (s : Pool α) : Action α → Option (Pool α)
  | .addJob j wake => s.addJob j wake
  | .loopTest w => s.loopTest w
  | .testJobAvailable w => s.testJobAvailable w
  | .waitJobAvailable w => s.waitJobAvailable w
  | .wakeWorker w => s.wakeWorker w
  | .grabNextJob w => s.grabNextJob w
  | .runJob w => s.runJob w
  | .decrementBusy w => s.decrementBusy w
  | .notifyCompletion w => s.notifyCompletion w
  | .waitForCompletion d => s.waitForCompletion d
  | .waitCompletion d => s.waitCompletion d
  | .wakeDrainer d => s.wakeDrainer d
  | .setTerminate => s.setTerminate
  | .notifyAll => s.notifyAll
  | .join => s.join

/-- The states of the legacy pool reachable from `s₀`. -/
abbrev Reachable (s₀ s : Pool α) : Prop := FbuThreadPool.Reachable step s₀ s

/-- Run a schedule of the legacy pool's threads. -/
abbrev run (s : Pool α) (as : List (Action α)) : Option (Pool α) := FbuThreadPool.run step s as

/-! ## One lemma per step: when it is enabled and what it leaves -/

section Inversion

variable {s s' : Pool α} {w d : Nat}

theorem addJob_eq_some {job : α} {wake : Option Nat} (h : s.addJob job wake = some s') :
    s.lockFree = true ∧
      ((wake = none ∧ (∀ p ∈ s.workers, p.isBlocked = false) ∧
          s' = { s with jobsQueue := s.jobsQueue ++ [job] }) ∨
        ∃ v, wake = some v ∧ s.workers[v]? = some .blocked ∧
          s' = { s with jobsQueue := s.jobsQueue ++ [job],
                        workers := s.workers.set v .waiting }) := by
  unfold addJob at h
  split at h
  · refine ⟨‹_›, ?_⟩
    split at h
    · split at h
      · rename_i hall
        exact .inl ⟨rfl, by simpa using hall, (Option.some.inj h).symm⟩
      · cases h
    · split at h
      · exact .inr ⟨_, rfl, ‹_›, (Option.some.inj h).symm⟩
      · cases h
  · cases h

theorem loopTest_eq_some (h : s.loopTest w = some s') :
    s.workers[w]? = some .loop ∧
      s' = { s with workers := s.workers.set w (if s.terminate then .exited else .waiting) } := by
  unfold loopTest at h
  split at h
  · exact ⟨‹_›, (Option.some.inj h).symm⟩
  · cases h

theorem testJobAvailable_eq_some (h : s.testJobAvailable w = some s') :
    s.workers[w]? = some .waiting ∧ s.lockFree = true ∧
      s' = { s with
        workers := s.workers.set w
          (if 0 < s.jobsQueue.length || s.terminate then .grabbing else .holding) } := by
  unfold testJobAvailable at h
  split at h
  · split at h
    · exact ⟨‹_›, ‹_›, (Option.some.inj h).symm⟩
    · cases h
  · cases h

theorem waitJobAvailable_eq_some (h : s.waitJobAvailable w = some s') :
    s.workers[w]? = some .holding ∧ s' = { s with workers := s.workers.set w .blocked } := by
  unfold waitJobAvailable at h
  split at h
  · exact ⟨‹_›, (Option.some.inj h).symm⟩
  · cases h

theorem wakeWorker_eq_some (h : s.wakeWorker w = some s') :
    s.workers[w]? = some .blocked ∧ s' = { s with workers := s.workers.set w .waiting } := by
  unfold wakeWorker at h
  split at h
  · exact ⟨‹_›, (Option.some.inj h).symm⟩
  · cases h

theorem grabNextJob_eq_some (h : s.grabNextJob w = some s') :
    s.workers[w]? = some .grabbing ∧
      ((s.terminate = true ∧
          s' = { s with workers := s.workers.set w (.running none),
                        numBusyThreads := s.numBusyThreads + 1 }) ∨
        (s.terminate = false ∧ ∃ job rest, s.jobsQueue = job :: rest ∧
          s' = { s with workers := s.workers.set w (.running (some job)),
                        numBusyThreads := s.numBusyThreads + 1, jobsQueue := rest })) := by
  unfold grabNextJob at h
  split at h
  · refine ⟨‹_›, ?_⟩
    split at h
    · exact .inl ⟨‹_›, (Option.some.inj h).symm⟩
    · next ht =>
      split at h
      · exact .inr ⟨by simpa using ht, _, _, ‹_›, (Option.some.inj h).symm⟩
      · cases h
  · cases h

theorem runJob_eq_some (h : s.runJob w = some s') :
    ∃ j, s.workers[w]? = some (.running j) ∧
      s' = { s with workers := s.workers.set w .finished } := by
  unfold runJob at h
  split at h
  · exact ⟨_, ‹_›, (Option.some.inj h).symm⟩
  · cases h

theorem decrementBusy_eq_some (h : s.decrementBusy w = some s') :
    s.workers[w]? = some .finished ∧
      s' = { s with workers := s.workers.set w .notifying,
                    numBusyThreads := s.numBusyThreads - 1 } := by
  unfold decrementBusy at h
  split at h
  · exact ⟨‹_›, (Option.some.inj h).symm⟩
  · cases h

theorem notifyCompletion_eq_some (h : s.notifyCompletion w = some s') :
    s.workers[w]? = some .notifying ∧
      s' = { s with workers := s.workers.set w .loop,
                    drainers := s.drainers.map DrainPc.notify } := by
  unfold notifyCompletion at h
  split at h
  · exact ⟨‹_›, (Option.some.inj h).symm⟩
  · cases h

theorem waitForCompletion_eq_some (h : s.waitForCompletion d = some s') :
    (s.drainers[d]? = some .idle ∨ s.drainers[d]? = some .checking) ∧ s.lockFree = true ∧
      s' = { s with
        drainers := s.drainers.set d
          (if 0 < s.jobsQueue.length && 0 < s.numBusyThreads then .holding else .idle) } := by
  unfold waitForCompletion at h
  split at h
  case h_3 => cases h
  all_goals
    split at h
    · exact ⟨by simp [*], ‹_›, (Option.some.inj h).symm⟩
    · cases h

theorem waitCompletion_eq_some (h : s.waitCompletion d = some s') :
    s.drainers[d]? = some .holding ∧ s' = { s with drainers := s.drainers.set d .blocked } := by
  unfold waitCompletion at h
  split at h
  · exact ⟨‹_›, (Option.some.inj h).symm⟩
  · cases h

theorem wakeDrainer_eq_some (h : s.wakeDrainer d = some s') :
    s.drainers[d]? = some .blocked ∧ s' = { s with drainers := s.drainers.set d .checking } := by
  unfold wakeDrainer at h
  split at h
  · exact ⟨‹_›, (Option.some.inj h).symm⟩
  · cases h

theorem setTerminate_eq_some (h : s.setTerminate = some s') :
    s.dtor = .idle ∧ s' = { s with terminate := true, dtor := .notifying } := by
  unfold setTerminate at h
  split at h
  · exact ⟨‹_›, (Option.some.inj h).symm⟩
  · cases h

theorem notifyAll_eq_some (h : s.notifyAll = some s') :
    s.dtor = .notifying ∧
      s' = { s with workers := s.workers.map WorkerPc.notify, dtor := .joining 0 } := by
  unfold notifyAll at h
  split at h
  · exact ⟨‹_›, (Option.some.inj h).symm⟩
  · cases h

theorem join_eq_some (h : s.join = some s') :
    ∃ k, s.dtor = .joining k ∧ s.workers[k]? = some .exited ∧
      s' = { s with dtor := .joining (k + 1) } := by
  unfold join at h
  split at h
  · split at h
    · exact ⟨_, ‹_›, ‹_›, (Option.some.inj h).symm⟩
    · cases h
  · cases h

end Inversion

/-! ## The drain test is a conjunction -/

/-- One pushed job, not yet popped: the test of `waitForCompletion` finds the busy count at
zero and returns, with the job still queued. -/
theorem legacy_wait_returns_with_queued_job :
    let s : Pool Nat :=
      ⟨[.loop], [7], 0, false, [.idle], .idle⟩
    Reachable (init 1 1) s ∧ s.waitForCompletion 0 = some s ∧ s.jobsQueue = [7] :=
  ⟨reachable_of_run (show FbuThreadPool.run step (init 1 1 : Pool Nat) [.addJob 7 none] = some _
    from rfl), rfl, rfl⟩

end Pool

end Legacy

end FbuThreadPool
