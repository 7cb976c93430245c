import Mathlib
/-!
# Transition systems given by a partial step function

Each component of the library is modelled by a state type and a step function
`step : σ → β → Option σ`, where `step s a = none` when action `a` is not enabled in `s`.
`Reachable step s₀ s` holds when some schedule of enabled actions leads from `s₀` to `s`,
and `run` executes a given schedule. `exists_run_of_rank` is the progress argument: a rank
that some enabled action always lowers bounds the schedule to a goal.
-/

namespace FbuThreadPool

variable {σ β : Type} (step : σ → β → Option σ)

/-- `s'` follows `s` by one enabled action. -/
def Step (s s' : σ) : Prop := ∃ a, step s a = some s'

/-- The states reachable from `s₀`: every schedule of enabled actions. -/
def Reachable (s₀ s : σ) : Prop := Relation.ReflTransGen (Step step) s₀ s

/-- Run a schedule; `none` as soon as an action is not enabled. -/
def run : σ → List β → Option σ
  | s, [] => some s
  | s, a :: as => (step s a).bind fun s' => run s' as

variable {step}

@[simp] theorem run_nil (s : σ) : run step s [] = some s := rfl

@[simp] theorem run_cons (s : σ) (a : β) (as : List β) :
    run step s (a :: as) = (step s a).bind fun s' => run step s' as := rfl

theorem run_append (s : σ) (as bs : List β) :
    run step s (as ++ bs) = (run step s as).bind fun s' => run step s' bs := by
  induction as generalizing s with
  | nil => rfl
  | cons a as ih => simp [ih, Option.bind_assoc]

theorem reachable_of_run {s s' : σ} {as : List β} (h : run step s as = some s') :
    Reachable step s s' := by
  induction as generalizing s with
  | nil => cases h; exact .refl
  | cons a as ih =>
    obtain ⟨s₁, h₁, h₂⟩ := Option.bind_eq_some.1 h
    exact Relation.ReflTransGen.head ⟨a, h₁⟩ (ih h₂)

theorem Reachable.trans {s₀ s₁ s₂ : σ} (h₁ : Reachable step s₀ s₁)
    (h₂ : Reachable step s₁ s₂) : Reachable step s₀ s₂ :=
  Relation.ReflTransGen.trans h₁ h₂

/-- Every invariant kept by each step holds in every reachable state. -/
theorem Reachable.induction {P : σ → Prop} {s₀ s : σ} (h : Reachable step s₀ s)
    (h₀ : P s₀) (hstep : ∀ s s' a, P s → step s a = some s' → P s') : P s := by
  induction h with
  | refl => exact h₀
  | tail _ hs ih => obtain ⟨a, ha⟩ := hs; exact hstep _ _ a ih ha

/-- An enabled action allowed by `ok` that lowers `rank`. -/
theorem exists_step_of_isSome {ok : β → Bool} {rank : σ → Nat} {s : σ} {a : β}
    (ha : ok a = true) (he : (step s a).isSome = true)
    (hlt : ∀ s', step s a = some s' → rank s' < rank s) :
    ∃ a s', ok a = true ∧ step s a = some s' ∧ rank s' < rank s :=
  let ⟨s', hs'⟩ := Option.isSome_iff_exists.1 he
  ⟨a, s', ha, hs', hlt s' hs'⟩

/-- A ranking argument: if in every state of `P` outside `Q` some action allowed by `ok` is
enabled, keeps `P` and lowers `rank`, then from every state of `P` a schedule of such actions
reaches `Q`. -/
theorem exists_run_of_rank {P Q : σ → Prop} {ok : β → Prop} (rank : σ → Nat)
    (hprog : ∀ s, P s → ¬ Q s → ∃ a s', ok a ∧ step s a = some s' ∧ P s' ∧ rank s' < rank s)
    {s : σ} (hs : P s) : ∃ as s', (∀ a ∈ as, ok a) ∧ run step s as = some s' ∧ P s' ∧ Q s' := by
  obtain ⟨k, hk⟩ : ∃ k, rank s = k := ⟨_, rfl⟩
  induction k using Nat.strong_induction_on generalizing s with
  | _ k ih =>
    by_cases hq : Q s
    · exact ⟨[], s, nofun, rfl, hs, hq⟩
    obtain ⟨a, s₁, ha, h₁, hp, hlt⟩ := hprog s hs hq
    obtain ⟨as, s', has, hr, hq'⟩ := ih _ (hk ▸ hlt) hp rfl
    exact ⟨a :: as, s', List.forall_mem_cons.2 ⟨ha, has⟩, by simp [h₁, hr], hq'⟩

end FbuThreadPool
