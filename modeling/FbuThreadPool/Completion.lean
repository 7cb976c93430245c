import Mathlib
/-!
# The completion counter shared by `ThreadPoolJobsExecutor` and `JobCounter`

Both classes of `include/fbu/thread_pool.hpp` hold the same triple: a `std::mutex mMutex`,
a `std::condition_variable mCompletion` and a `std::atomic_int mNumJobs`. Every access to
`mNumJobs` happens under `mMutex`, so each operation is one atomic step here:

* `increment` is `++mNumJobs`;
* `decrement` is `--mNumJobs; mCompletion.notify_all()`;
* `waitForCompletion` is one pass of `mCompletion.wait(lLock, [&]{ return mNumJobs == 0; })`
  by one thread: it tests the predicate and either returns or blocks, atomically with
  respect to the mutex;
* `wake` is a spurious wakeup, which `std::condition_variable` allows at any time.

`mNumJobs` is a 32-bit two's-complement `int` whose atomic `++`/`--` wrap, so it is a
`BitVec 32`. `Tracks c n` says that `c` counts `n` outstanding jobs: the counter is `n`
modulo `2^32`, and a blocked waiter only waits while a job is outstanding. The lemmas below
show that each operation keeps `Tracks`, what the counter reads while `n < 2^31`, and that it
reads zero only with no job outstanding while `n < 2^32`.
-/

namespace FbuThreadPool

/-- Where a thread is with respect to one `waitForCompletion` call. -/
inductive WaitPc where
  /-- Not inside `waitForCompletion` (never called, or returned). -/
  | idle
  /-- Woken by a notification or spuriously: about to relock and test the predicate. -/
  | checking
  /-- In the condition variable's wait set. -/
  | blocked
  deriving DecidableEq, Repr

/-- `notify_all` moves every blocked waiter out of the wait set. -/
def WaitPc.notify : WaitPc → WaitPc
  | .blocked => .checking
  | w => w

@[simp] theorem WaitPc.notify_ne_blocked (w : WaitPc) : w.notify ≠ .blocked := by
  cases w <;> simp [notify]

theorem WaitPc.blocked_not_mem_map_notify (ws : List WaitPc) :
    WaitPc.blocked ∉ ws.map WaitPc.notify := by
  simp

/-- The `mNumJobs`/`mCompletion` pair, with one place per thread that may wait on it. -/
structure Completion where
  numJobs : BitVec 32
  waiters : List WaitPc
  deriving DecidableEq, Repr

namespace Completion

/-- A counter at zero with `k` threads that may wait on it. -/
def init (k : Nat) : Completion := ⟨0, List.replicate k .idle⟩

/-- `++mNumJobs` under `mMutex`. -/
def increment (c : Completion) : Completion := { c with numJobs := c.numJobs + 1 }

/-- `--mNumJobs; mCompletion.notify_all();` under `mMutex`. -/
def decrement (c : Completion) : Completion :=
  { numJobs := c.numJobs - 1, waiters := c.waiters.map WaitPc.notify }

/-- One pass of `mCompletion.wait(lLock, [&]{ return mNumJobs == 0; })` by thread `t`,
entered on a call (`idle`) or after a wakeup (`checking`): the thread returns when the
counter is zero and blocks otherwise. -/
def waitForCompletion (c : Completion) (t : Nat) : Option Completion :=
  match c.waiters[t]? with
  | some .idle | some .checking =>
    some { c with waiters := c.waiters.set t (if c.numJobs = 0 then .idle else .blocked) }
  | _ => none

/-- A spurious wakeup of the blocked thread `t`. -/
def wake (c : Completion) (t : Nat) : Option Completion :=
  match c.waiters[t]? with
  | some .blocked => some { c with waiters := c.waiters.set t .checking }
  | _ => none

/-- `c` counts `n` outstanding jobs. -/
structure Tracks (c : Completion) (n : Nat) : Prop where
  numJobs_eq : c.numJobs = BitVec.ofNat 32 n
  blocked_pos : WaitPc.blocked ∈ c.waiters → 0 < n

theorem tracks_init (k : Nat) : (init k).Tracks 0 :=
  ⟨rfl, fun h => by simp [init, List.mem_replicate] at h⟩

theorem waitForCompletion_eq_some {c c' : Completion} {t : Nat} :
    c.waitForCompletion t = some c' ↔
      (c.waiters[t]? = some .idle ∨ c.waiters[t]? = some .checking) ∧
        c' = { c with waiters := c.waiters.set t (if c.numJobs = 0 then .idle else .blocked) } := by
  unfold waitForCompletion
  split <;> simp_all [eq_comm]

theorem wake_eq_some {c c' : Completion} {t : Nat} :
    c.wake t = some c' ↔
      c.waiters[t]? = some .blocked ∧ c' = { c with waiters := c.waiters.set t .checking } := by
  unfold wake
  split <;> simp_all [eq_comm]

/-- A pass of `waitForCompletion` returns only when the counter reads zero. -/
theorem numJobs_eq_zero_of_returns {c c' : Completion} {t : Nat}
    (h : c.waitForCompletion t = some c') (hret : c'.waiters[t]? = some .idle) :
    c.numJobs = 0 := by
  obtain ⟨hw, rfl⟩ := waitForCompletion_eq_some.1 h
  have ht : t < c.waiters.length := by
    rcases hw with hw | hw <;> exact (List.getElem?_eq_some_iff.1 hw).1
  by_contra hne
  simp [List.getElem?_set_self ht, hne] at hret
  exact hne hret

variable {c c' : Completion} {n : Nat} {t : Nat}

theorem Tracks.increment (h : c.Tracks n) : c.increment.Tracks (n + 1) :=
  ⟨by rw [Completion.increment, h.numJobs_eq, BitVec.ofNat_add]; rfl,
    fun _ => Nat.succ_pos n⟩

theorem Tracks.decrement (h : c.Tracks (n + 1)) : c.decrement.Tracks n :=
  ⟨by rw [Completion.decrement, h.numJobs_eq, BitVec.ofNat_add]; exact BitVec.add_sub_cancel _ _,
    fun hb => absurd hb (WaitPc.blocked_not_mem_map_notify _)⟩

theorem Tracks.waitForCompletion (h : c.Tracks n) (hs : c.waitForCompletion t = some c') :
    c'.Tracks n := by
  obtain ⟨-, rfl⟩ := waitForCompletion_eq_some.1 hs
  refine ⟨h.numJobs_eq, fun hb => ?_⟩
  rcases List.mem_or_eq_of_mem_set hb with hb | hb
  · exact h.blocked_pos hb
  · split at hb
    · cases hb
    · rename_i hne
      rw [h.numJobs_eq] at hne
      exact Nat.pos_of_ne_zero fun h0 => hne (by rw [h0]; rfl)

theorem Tracks.wake (h : c.Tracks n) (hs : c.wake t = some c') : c'.Tracks n := by
  obtain ⟨-, rfl⟩ := wake_eq_some.1 hs
  refine ⟨h.numJobs_eq, fun hb => ?_⟩
  rcases List.mem_or_eq_of_mem_set hb with hb | hb
  · exact h.blocked_pos hb
  · cases hb

/-- Below `2^31` outstanding jobs the signed counter reads exactly their number. -/
theorem Tracks.toInt_eq (h : c.Tracks n) (hn : n < 2 ^ 31) : c.numJobs.toInt = n := by
  rw [h.numJobs_eq, BitVec.toInt_eq_toNat_cond, BitVec.toNat_ofNat]
  have hmod : n % 2 ^ 32 = n := Nat.mod_eq_of_lt (by omega)
  rw [hmod, if_pos (by omega)]

/-- At `2^31` outstanding jobs the counter has wrapped to `INT_MIN`. -/
theorem Tracks.toInt_eq_intMin (h : c.Tracks (2 ^ 31)) : c.numJobs.toInt = -2 ^ 31 := by
  rw [h.numJobs_eq]
  decide

/-- Below `2^32` outstanding jobs a zero counter means that none is outstanding. -/
theorem Tracks.eq_zero (h : c.Tracks n) (hn : n < 2 ^ 32) (h0 : c.numJobs = 0) : n = 0 := by
  have h0' := congrArg BitVec.toNat (h.numJobs_eq.symm.trans h0)
  rwa [BitVec.toNat_ofNat, Nat.mod_eq_of_lt hn] at h0'

end Completion

end FbuThreadPool
