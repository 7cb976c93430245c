import FbuThreadPool.Completion
/-!
# The state of `fbu::ThreadPool` and the executors that share it

`include/fbu/thread_pool.hpp` as a transition system. The pool's shared state is its
fields (`mJobsQueue`, `mNumBusyThreads`, `mTerminate`); each thread is a program counter:
one per worker of `mThreads`, one per thread that may call `waitForCompletion`, and one for
the thread running `~ThreadPool`. Every `ThreadPoolJobsExecutor` on the pool is a
`Completion` counter plus the jobs its callers have counted but not yet handed to the pool.

Two ghost fields record what the code does not keep: `log`, the history of `addJob`
pushes, `grabNextJob` pops and returns of `lJob()`, and `assertFailed`, set when an `assert`
of the code fails.

`mNumBusyThreads` is an `std::atomic_int` kept here as an `Int`: it never leaves
`[0, numThreads]` (`FbuThreadPool.Pool.busy_count`), so the 32-bit counter never wraps as long
as the pool has fewer than `2^31` workers, which `numThreads` does not rule out.
-/

namespace FbuThreadPool

/-- A job as the pool stores it: a callable handed to `ThreadPool::addJob` directly, or the
wrapper lambda that `ThreadPoolJobsExecutor::addJob` of executor `e` hands it. -/
inductive Job (α : Type) where
  | plain (job : α)
  | wrapped (e : Nat) (job : α)
  deriving DecidableEq, Repr

/-- Where a worker is in `threadExecLoop` and `grabNextJob`. `lJob = none` is the no-op
`[]{}` that `grabNextJob` returns once `mTerminate` is set. -/
inductive WorkerPc (α : Type) where
  /-- At the test `while (!mTerminate)`. -/
  | loop
  /-- In `grabNextJob`, about to lock `mJobsQueueMutex` and test the wait predicate
  (first time, or after a wakeup). -/
  | waiting
  /-- The predicate was false: holding the lock, about to call `mJobAvailableCV.wait`. -/
  | holding
  /-- In `mJobAvailableCV`'s wait set. -/
  | blocked
  /-- The predicate was true: holding the lock, about to `++mNumBusyThreads`. -/
  | grabbing
  /-- Running `lJob()`. -/
  | running (lJob : Option (Job α))
  /-- In the wrapper of executor `e`: `pJob()` has returned, the executor's block is next. -/
  | wrapping (e : Nat) (job : α)
  /-- `lJob()` has returned: about to lock and `--mNumBusyThreads`. -/
  | finished (lJob : Option (Job α))
  /-- Out of `threadExecLoop`. -/
  | exited
  deriving DecidableEq, Repr

/-- Where the thread running `~ThreadPool` is. -/
inductive DtorPc where
  /-- Destruction has not begun. -/
  | idle
  /-- `mTerminate = true` is written: `mJobAvailableCV.notify_all()` is next. -/
  | notifying
  /-- Threads `0, …, k - 1` are joined: `mThreads[k].join()` is next. -/
  | joining (k : Nat)
  /-- Joins and `assert(mNumBusyThreads == 0)` are done. -/
  | done
  deriving DecidableEq, Repr

/-- An entry of the ghost history. -/
inductive Event (α : Type) where
  /-- `addJob` pushed `job`. -/
  | add (job : Job α)
  /-- Worker `w` popped `job` in `grabNextJob`. -/
  | take (w : Nat) (job : Job α)
  /-- `lJob()` returned on worker `w`. -/
  | ret (w : Nat) (job : Job α)
  deriving DecidableEq, Repr

/-- A `ThreadPoolJobsExecutor`: its counter and waiters, the jobs whose `++mNumJobs` is done
but whose wrapper is not yet in the pool, and two ghost lists of the jobs counted
(`submitted`) and of those whose `pJob()` has returned (`returned`). -/
structure Executor (α : Type) where
  completion : Completion
  inFlight : List α
  submitted : List α
  returned : List α
  deriving DecidableEq, Repr

/-- `fbu::ThreadPool` with its threads and the executors built on it. -/
structure Pool (α : Type) where
  workers : List (WorkerPc α)
  jobsQueue : List (Job α)
  numBusyThreads : Int
  terminate : Bool
  drainers : List WaitPc
  dtor : DtorPc
  executors : List (Executor α)
  log : List (Event α)
  assertFailed : Bool
  deriving DecidableEq, Repr

/-- The thread count of `ThreadPool(int pNumThreads, ...)`: `pNumThreads` converted to
`unsigned`, or `std::thread::hardware_concurrency()` when `pNumThreads` is `0`, or `2` when
that is `0` too. -/
def numThreads (pNumThreads : Int) (hardwareConcurrency : Nat) : Nat :=
  if pNumThreads ≠ 0 then (pNumThreads % 2 ^ 32).toNat
  else if hardwareConcurrency ≠ 0 then hardwareConcurrency else 2

/-- A pool of `n` workers at the start of `threadExecLoop`, `d` threads that may call
`waitForCompletion`, and one executor per entry of `ex`, the number of threads that may
call its `waitForCompletion`. -/
def Pool.init (n d : Nat) (ex : List Nat) : Pool α where
  workers := List.replicate n .loop
  jobsQueue := []
  numBusyThreads := 0
  terminate := false
  drainers := List.replicate d .idle
  dtor := .idle
  executors := ex.map fun k => ⟨Completion.init k, [], [], []⟩
  log := []
  assertFailed := false

/-! ## Views of a worker -/

namespace WorkerPc

variable {α : Type}

/-- Between `++mNumBusyThreads` in `grabNextJob` and `--mNumBusyThreads` in
`threadExecLoop`. -/
def isBusy : WorkerPc α → Bool
  | .running _ | .wrapping _ _ | .finished _ => true
  | _ => false

/-- Holding `mJobsQueueMutex` across steps. -/
def holdsLock : WorkerPc α → Bool
  | .holding | .grabbing => true
  | _ => false

/-- The job popped by this worker whose `lJob()` has not returned. -/
def pending : WorkerPc α → Option (Job α)
  | .running j => j
  | .wrapping e j => some (.wrapped e j)
  | _ => none

/-- The worker's `lJob` variable, from the pop to the next loop test. -/
def lJob : WorkerPc α → Option (Job α)
  | .running j | .finished j => j
  | .wrapping e j => some (.wrapped e j)
  | _ => none

/-- In `mJobAvailableCV`'s wait set. -/
def isBlocked : WorkerPc α → Bool
  | .blocked => true
  | _ => false

/-- `notify_all` on `mJobAvailableCV`. -/
def notify : WorkerPc α → WorkerPc α
  | .blocked => .waiting
  | w => w

/-- The user job of executor `e` whose wrapper runs on this worker and has not yet done its
decrement. -/
def wrapperOf (e : Nat) : WorkerPc α → Option α
  | .running (some (.wrapped e' j)) | .wrapping e' j => if e' = e then some j else none
  | _ => none

/-- The user job of executor `e` whose `pJob()` has returned on this worker, the wrapper's
decrement still to come. -/
def wrappingOf (e : Nat) : WorkerPc α → Option α
  | .wrapping e' j => if e' = e then some j else none
  | _ => none

end WorkerPc

/-- The user job of a wrapper of executor `e`. -/
def Job.wrappedOf {α : Type} (e : Nat) : Job α → Option α
  | .wrapped e' j => if e' = e then some j else none
  | .plain _ => none

namespace Event

variable {α : Type}

def added : Event α → Option (Job α)
  | .add j => some j
  | _ => none

def taken : Event α → Option (Job α)
  | .take _ j => some j
  | _ => none

def returned : Event α → Option (Job α)
  | .ret _ j => some j
  | _ => none

/-- Taken or returned by worker `w`. -/
def byWorker (w : Nat) : Event α → Bool
  | .take w' _ | .ret w' _ => w' = w
  | .add _ => false

end Event

/-! ## Updating one entry of a list -/

/-- Replacing the entry `a` at `i` by `b` is, up to order, taking `a` out and putting `b` in:
every count and every filter over the list changes by the two entries alone. -/
theorem List.set_append_perm {β : Type} {l : List β} {i : Nat} {a : β} (b : β)
    (h : l[i]? = some a) : (l.set i b ++ [a]).Perm (l ++ [b]) := by
  induction l generalizing i with
  | nil => simp at h
  | cons x l ih =>
    cases i with
    | zero =>
      simp only [List.getElem?_cons_zero, Option.some.injEq] at h
      subst h
      exact ((List.perm_append_singleton x l).cons b).trans
        ((List.Perm.swap x b l).trans ((List.perm_append_singleton b l).symm.cons x))
    | succ i => exact (ih (by simpa using h)).cons x

theorem List.countP_set_add {β : Type} (p : β → Bool) {l : List β} {i : Nat} {a : β} (b : β)
    (h : l[i]? = some a) :
    (l.set i b).countP p + (if p a then 1 else 0) = l.countP p + (if p b then 1 else 0) := by
  simpa [List.countP_append, List.countP_cons] using (List.set_append_perm b h).countP_eq p

theorem List.filterMap_set_perm {β γ : Type} (f : β → Option γ) {l : List β} {i : Nat}
    {a : β} (b : β) (h : l[i]? = some a) :
    ((l.set i b).filterMap f ++ (f a).toList).Perm (l.filterMap f ++ (f b).toList) := by
  have := (List.set_append_perm b h).filterMap f
  simp only [List.filterMap_append] at this
  cases ha : f a <;> cases hb : f b <;> simpa [ha, hb] using this

theorem List.perm_cons_eraseIdx {β : Type} {l : List β} {i : Nat} {a : β}
    (h : l[i]? = some a) : (a :: l.eraseIdx i).Perm l := by
  induction l generalizing i with
  | nil => simp at h
  | cons x l ih =>
    cases i with
    | zero =>
      simp only [List.getElem?_cons_zero, Option.some.injEq] at h
      subst h
      exact List.Perm.refl _
    | succ i => exact (List.Perm.swap x a _).trans ((ih (by simpa using h)).cons x)

end FbuThreadPool
