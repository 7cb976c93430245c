import FbuThreadPool.Completion
/-!
# `JobCounter` over every interleaving of its callers

`fbu::JobCounter` is the completion counter of `FbuThreadPool.Completion` with an
`assert(mNumJobs > 0)` in `decrement`. The model adds two ghost counts (increments and
decrements performed) and a flag for a fired assertion; an interleaving of calls from any
number of threads is a sequence of `Action`s, since every call is one critical section.

The callers' contract is `Matched`: a decrement is matched to an earlier increment. The model
is a build with assertions enabled, `NDEBUG` undefined: `decrement` evaluates
`assert(mNumJobs > 0)` on every call. Under the contract:

* `inv_of_reachable`: `mNumJobs` is the number of unmatched increments modulo `2^32`, and a
  blocked waiter only waits while one is unmatched;
* `waiters_of_matched`: with no bound on the count, a blocked waiter has an unmatched
  increment, whose decrement will notify it, and `waitForCompletion` returns only at zero;
* `counter_exact_below_intMax`: while fewer than `2^31` jobs are outstanding at every step,
  the counter reads that number, never goes negative, the assertion never fires, and blocked
  waiters see a positive count;
* `counter_wraps_at_intMax`: `2^31` matched increments wrap `mNumJobs` to `INT_MIN`, and the
  next matched decrement fires `assert(mNumJobs > 0)`;
* `decrement_past_zero_fails`: a decrement with no unmatched increment fires the assertion.
-/

namespace FbuThreadPool

/-- `fbu::JobCounter`, with ghost counts of the increments and decrements performed and a
flag that records a fired `assert`. -/
structure JobCounter where
  counter : Completion
  increments : Nat
  decrements : Nat
  assertFailed : Bool
  deriving DecidableEq, Repr

namespace JobCounter

/-- `JobCounter()`, with `k` threads that may call `waitForCompletion`. -/
def init (k : Nat) : JobCounter := ⟨Completion.init k, 0, 0, false⟩

/-- `JobCounter::increment`. -/
def increment (s : JobCounter) : JobCounter :=
  { s with counter := s.counter.increment, increments := s.increments + 1 }

/-- `JobCounter::decrement` in a build with assertions enabled: `assert(mNumJobs > 0)`, then
`--mNumJobs` and `notify_all`. A failed assertion aborts the process; the model only records
it. Under `NDEBUG` the assertion is compiled out and nothing stops the count going below `0`. -/
def decrement (s : JobCounter) : JobCounter :=
  if 0 < s.counter.numJobs.toInt then
    { s with counter := s.counter.decrement, decrements := s.decrements + 1 }
  else { s with assertFailed := true }

/-- `JobCounter::waitForCompletion`, one pass by thread `t`. -/
def waitForCompletion (s : JobCounter) (t : Nat) : Option JobCounter :=
  (s.counter.waitForCompletion t).map fun c => { s with counter := c }

/-- A spurious wakeup of thread `t`. -/
def wake (s : JobCounter) (t : Nat) : Option JobCounter :=
  (s.counter.wake t).map fun c => { s with counter := c }

/-- One critical section of some caller. -/
inductive Action where
  | increment
  | decrement
  | waitForCompletion (t : Nat)
  | wake (t : Nat)
  deriving DecidableEq, Repr

/-- The step a caller takes; `none` when the action is not enabled. -/
def step (s : JobCounter) : Action → Option JobCounter
  | .increment => some s.increment
  | .decrement => some s.decrement
  | .waitForCompletion t => s.waitForCompletion t
  | .wake t => s.wake t

/-- The callers' contract: a `decrement` is matched to an earlier `increment` that no other
decrement has matched. -/
def Matched (s : JobCounter) : Action → Prop
  | .decrement => s.decrements < s.increments
  | _ => True

/-- No increment brings `2^31` or more jobs outstanding. -/
def BelowIntMax (s : JobCounter) : Action → Prop
  | .increment => s.increments - s.decrements + 1 < 2 ^ 31
  | _ => True

/-- States reached from `s₀` by steps that the callers' discipline `ok` allows. -/
def ReachableUnder (ok : JobCounter → Action → Prop) (s₀ s : JobCounter) : Prop :=
  Relation.ReflTransGen (fun s s' => ∃ a, ok s a ∧ s.step a = some s') s₀ s

/-- The counter tracks the unmatched increments. -/
structure Inv (s : JobCounter) : Prop where
  decrements_le : s.decrements ≤ s.increments
  tracks : s.counter.Tracks (s.increments - s.decrements)

theorem inv_init (k : Nat) : (init k).Inv := ⟨Nat.le_refl 0, Completion.tracks_init k⟩

theorem Inv.increment {s : JobCounter} (h : s.Inv) : s.increment.Inv := by
  refine ⟨Nat.le_succ_of_le h.decrements_le, ?_⟩
  have hn : s.increments + 1 - s.decrements = s.increments - s.decrements + 1 := by
    have := h.decrements_le; omega
  simpa only [JobCounter.increment, hn] using h.tracks.increment

theorem Inv.decrement {s : JobCounter} (h : s.Inv) (hm : s.decrements < s.increments) :
    s.decrement.Inv := by
  unfold JobCounter.decrement
  split
  · have hn : s.increments - s.decrements = s.increments - (s.decrements + 1) + 1 := by omega
    exact ⟨hm, (hn ▸ h.tracks).decrement⟩
  · exact ⟨h.decrements_le, h.tracks⟩

theorem Inv.step {s s' : JobCounter} {a : Action} (h : s.Inv) (hm : s.Matched a)
    (hs : s.step a = some s') : s'.Inv := by
  cases a with
  | increment => cases hs; exact h.increment
  | decrement => cases hs; exact h.decrement hm
  | waitForCompletion t =>
    obtain ⟨c, hc, rfl⟩ := Option.map_eq_some'.1 hs
    exact ⟨h.decrements_le, h.tracks.waitForCompletion hc⟩
  | wake t =>
    obtain ⟨c, hc, rfl⟩ := Option.map_eq_some'.1 hs
    exact ⟨h.decrements_le, h.tracks.wake hc⟩

/-- Under the callers' contract the counter is the number of unmatched increments modulo
`2^32`, and a blocked waiter only waits while one is unmatched. -/
theorem inv_of_reachable {k : Nat} {s : JobCounter} (hr : ReachableUnder Matched (init k) s) :
    s.Inv := by
  induction hr with
  | refl => exact inv_init k
  | tail _ hstep ih =>
    obtain ⟨a, hm, hs⟩ := hstep
    exact ih.step hm hs

/-- What a caller keeping `Matched` and `BelowIntMax` can rely on. -/
structure Safe (s : JobCounter) : Prop where
  inv : s.Inv
  below : s.increments - s.decrements < 2 ^ 31
  no_fail : s.assertFailed = false

theorem Safe.step {s s' : JobCounter} {a : Action} (h : s.Safe) (hm : s.Matched a)
    (hb : s.BelowIntMax a) (hs : s.step a = some s') : s'.Safe := by
  have hinv := h.inv.step hm hs
  cases a with
  | increment =>
    cases hs
    exact ⟨hinv, by simp only [JobCounter.increment] at hinv ⊢; unfold BelowIntMax at hb; omega,
      h.no_fail⟩
  | decrement =>
    cases hs
    have hbelow := h.below
    have hpos : 0 < s.counter.numJobs.toInt := by
      rw [h.inv.tracks.toInt_eq hbelow]; unfold Matched at hm; omega
    simp only [JobCounter.decrement, if_pos hpos] at hinv ⊢
    exact ⟨hinv, show s.increments - (s.decrements + 1) < 2 ^ 31 by omega, h.no_fail⟩
  | waitForCompletion t =>
    obtain ⟨c, -, rfl⟩ := Option.map_eq_some'.1 hs
    exact ⟨hinv, h.below, h.no_fail⟩
  | wake t =>
    obtain ⟨c, -, rfl⟩ := Option.map_eq_some'.1 hs
    exact ⟨hinv, h.below, h.no_fail⟩

theorem safe_of_reachable {k : Nat} {s : JobCounter}
    (hr : ReachableUnder (fun s a => s.Matched a ∧ s.BelowIntMax a) (init k) s) : s.Safe := by
  induction hr with
  | refl => exact ⟨inv_init k, by simp [init], rfl⟩
  | tail _ hstep ih =>
    obtain ⟨a, ⟨hm, hb⟩, hs⟩ := hstep
    exact ih.step hm hb hs

/-- With no bound on the count, a thread blocked on `mCompletion` has an unmatched increment,
whose decrement will notify it, and a pass of `waitForCompletion` returns only when
`mNumJobs == 0`. -/
theorem waiters_of_matched {k : Nat} {s : JobCounter} (hr : ReachableUnder Matched (init k) s) :
    (WaitPc.blocked ∈ s.counter.waiters → s.decrements < s.increments) ∧
      ∀ t s', s.waitForCompletion t = some s' → s'.counter.waiters[t]? = some .idle →
        s.counter.numJobs = 0 := by
  refine ⟨fun hb => ?_, fun t s' h hret => ?_⟩
  · have := (inv_of_reachable hr).tracks.blocked_pos hb
    omega
  · obtain ⟨c, hc, rfl⟩ := Option.map_eq_some'.1 h
    exact Completion.numJobs_eq_zero_of_returns hc hret

/-- `JobCounter` for callers that match every decrement to an earlier increment and never
have `2^31` jobs outstanding: the counter reads the number of unmatched increments, which is
never negative; `assert(mNumJobs > 0)` never fires; and a blocked waiter sees a positive
count. -/
theorem counter_exact_below_intMax {k : Nat} {s : JobCounter}
    (hr : ReachableUnder (fun s a => s.Matched a ∧ s.BelowIntMax a) (init k) s) :
    s.counter.numJobs.toInt = (s.increments : Int) - s.decrements ∧
      0 ≤ s.counter.numJobs.toInt ∧ s.assertFailed = false ∧
      (WaitPc.blocked ∈ s.counter.waiters → 0 < s.counter.numJobs.toInt) := by
  have hs := safe_of_reachable hr
  have hle := hs.inv.decrements_le
  have hint := hs.inv.tracks.toInt_eq hs.below
  refine ⟨by omega, by omega, hs.no_fail, fun hb => ?_⟩
  have := hs.inv.tracks.blocked_pos hb
  omega

theorem reachable_iterate_increment {k : Nat} (s : JobCounter) :
    ReachableUnder Matched s (increment^[k] s) := by
  induction k with
  | zero => exact .refl
  | succ k ih =>
    rw [Function.iterate_succ_apply']
    exact ih.tail ⟨.increment, trivial, rfl⟩

@[simp] theorem increments_iterate (k : Nat) (s : JobCounter) :
    (increment^[k] s).increments = s.increments + k := by
  induction k with
  | zero => rfl
  | succ k ih => rw [Function.iterate_succ_apply', increment, ih]; rfl

@[simp] theorem decrements_iterate (k : Nat) (s : JobCounter) :
    (increment^[k] s).decrements = s.decrements := by
  induction k with
  | zero => rfl
  | succ k ih => rw [Function.iterate_succ_apply', increment, ih]

/-- `2^31` calls of `increment` with no decrement keep the callers' contract, yet leave
`mNumJobs` at `INT_MIN` while `2^31` increments are unmatched; the next (matched) decrement
fires `assert(mNumJobs > 0)`. -/
theorem counter_wraps_at_intMax :
    ReachableUnder Matched (init 0) (increment^[2 ^ 31] (init 0)) ∧
      (increment^[2 ^ 31] (init 0)).increments - (increment^[2 ^ 31] (init 0)).decrements =
        2 ^ 31 ∧
      (increment^[2 ^ 31] (init 0)).counter.numJobs.toInt = -2 ^ 31 ∧
      (increment^[2 ^ 31] (init 0)).Matched .decrement ∧
      (increment^[2 ^ 31] (init 0)).decrement.assertFailed = true := by
  have hr := reachable_iterate_increment (k := 2 ^ 31) (init 0)
  have hinv := inv_of_reachable hr
  have hn : (increment^[2 ^ 31] (init 0)).increments -
      (increment^[2 ^ 31] (init 0)).decrements = 2 ^ 31 := by
    rw [increments_iterate, decrements_iterate]; rfl
  have hmin := (hn ▸ hinv.tracks).toInt_eq_intMin
  refine ⟨hr, hn, hmin, ?_, ?_⟩
  · show _ < _
    rw [increments_iterate, decrements_iterate]
    decide
  · rw [decrement, if_neg (by rw [hmin]; decide)]

/-- A decrement with no unmatched increment fires the assertion: in a build with assertions
enabled, the contract violation of decrementing past zero is always flagged. -/
theorem decrement_past_zero_fails {k : Nat} {s : JobCounter}
    (hr : ReachableUnder Matched (init k) s) (h : s.decrements = s.increments) :
    s.decrement.assertFailed = true := by
  have ht := (inv_of_reachable hr).tracks.numJobs_eq
  rw [h, Nat.sub_self] at ht
  simp [decrement, ht]

/-- One job counted and decremented while a caller of `waitForCompletion` was blocked on
it: a second decrement fires the assertion. -/
theorem decrement_past_zero_fails_matched :
    let s : JobCounter := ⟨⟨0, [.checking]⟩, 1, 1, false⟩
    ReachableUnder Matched (init 1) s ∧ s.decrements = s.increments ∧
      s.decrement.assertFailed = true := by
  intro s
  have h₀ : ReachableUnder Matched (init 1) (init 1).increment :=
    .single ⟨.increment, trivial, rfl⟩
  have h₁ : ReachableUnder Matched (init 1) ⟨⟨1, [.blocked]⟩, 1, 0, false⟩ :=
    h₀.tail ⟨.waitForCompletion 0, trivial, rfl⟩
  have hr : ReachableUnder Matched (init 1) s := h₁.tail ⟨.decrement, Nat.one_pos, rfl⟩
  exact ⟨hr, rfl, decrement_past_zero_fails hr rfl⟩

end JobCounter

end FbuThreadPool
