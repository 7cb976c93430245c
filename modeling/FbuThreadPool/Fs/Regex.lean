import Mathlib.Logic.Basic
/-!
# `std::regex_match` on the patterns of `filesystem_utils.hpp`

The file-name checks of `fbu::fs` match a whole name, one `char` at a time, against a bracket
expression followed by a starred bracket expression. A `Char` here stands for one `char` of the
`std::string`. `Regex` is the syntax those patterns use,
`Matches` the meaning `std::regex_match` gives it (the whole string is matched, nothing left
over), and `Regex.accepts` an executable matcher by Brzozowski derivatives, so that a check
built on it can be evaluated.

* `Regex.nullable_iff`, `Regex.deriv_iff`: the two steps of the matcher, one case per
  constructor.
* `Regex.accepts_iff`: the matcher decides `Matches`, for every pattern and every string.
-/

namespace FbuThreadPool

namespace Fs

/-- A bracket expression `[...]`: a list of ranges `lo-hi`, a single character `c` being `c-c`.
Ranges compare character codes, as `std::regex` does without `regex::collate`. -/
abbrev Bracket := List (Char × Char)

/-- The character `c` is in the bracket expression. -/
def Bracket.contains (b : Bracket) (c : Char) : Bool :=
  b.any fun r => r.1.toNat ≤ c.toNat && c.toNat ≤ r.2.toNat

/-- The regular expressions the patterns are built from. -/
inductive Regex where
  | empty
  | eps
  | bracket (b : Bracket)
  | seq (r s : Regex)
  | alt (r s : Regex)
  | star (r : Regex)
  deriving DecidableEq, Repr

/-- `std::regex_match(s, r)`: the whole of `s` is matched by `r`. -/
inductive Matches : Regex → List Char → Prop
  | eps : Matches .eps []
  | bracket {b : Bracket} {c : Char} : b.contains c = true → Matches (.bracket b) [c]
  | seq {r s : Regex} {u v : List Char} : Matches r u → Matches s v → Matches (.seq r s) (u ++ v)
  | altLeft {r s : Regex} {w : List Char} : Matches r w → Matches (.alt r s) w
  | altRight {r s : Regex} {w : List Char} : Matches s w → Matches (.alt r s) w
  | starNil {r : Regex} : Matches (.star r) []
  | starCons {r : Regex} {u v : List Char} :
      Matches r u → Matches (.star r) v → Matches (.star r) (u ++ v)

namespace Regex

/-- `r` matches the empty string. -/
def nullable : Regex → Bool
  | .empty | .bracket _ => false
  | .eps | .star _ => true
  | .seq r s => r.nullable && s.nullable
  | .alt r s => r.nullable || s.nullable

/-- The Brzozowski derivative: what `r` must still match after the character `c`. -/
def deriv (c : Char) : Regex → Regex
  | .empty | .eps => .empty
  | .bracket b => if b.contains c then .eps else .empty
  | .seq r s => if r.nullable then .alt (.seq (r.deriv c) s) (s.deriv c) else .seq (r.deriv c) s
  | .alt r s => .alt (r.deriv c) (s.deriv c)
  | .star r => .seq (r.deriv c) (.star r)

/-- The matcher: take the derivative by each character in turn, then ask for the empty
string. -/
def accepts (r : Regex) (w : List Char) : Bool :=
  (w.foldl (fun r c => r.deriv c) r).nullable

end Regex

/-! ## Inversion of `Matches`, one lemma per constructor -/

namespace Matches

variable {r s : Regex} {b : Bracket} {c : Char} {w : List Char}

theorem not_empty : ¬ Matches .empty w := nofun

theorem eps_iff : Matches .eps w ↔ w = [] :=
  ⟨fun h => by cases h; rfl, fun h => h ▸ .eps⟩

theorem bracket_iff : Matches (.bracket b) w ↔ ∃ c, w = [c] ∧ b.contains c = true :=
  ⟨fun h => by cases h; exact ⟨_, rfl, ‹_›⟩, fun ⟨_, h, hc⟩ => h ▸ .bracket hc⟩

theorem seq_iff : Matches (.seq r s) w ↔ ∃ u v, w = u ++ v ∧ Matches r u ∧ Matches s v :=
  ⟨fun h => by cases h; exact ⟨_, _, rfl, ‹_›, ‹_›⟩, fun ⟨_, _, h, hu, hv⟩ => h ▸ .seq hu hv⟩

theorem alt_iff : Matches (.alt r s) w ↔ Matches r w ∨ Matches s w :=
  ⟨fun h => by cases h <;> simp_all, fun h => h.elim .altLeft .altRight⟩

/-- A match of `seq r s` on a nonempty string starts in `r`, or `r` matches nothing of it. -/
theorem seq_cons_iff :
    Matches (.seq r s) (c :: w) ↔
      (∃ u v, w = u ++ v ∧ Matches r (c :: u) ∧ Matches s v) ∨
        (Matches r [] ∧ Matches s (c :: w)) := by
  rw [seq_iff]
  constructor
  · rintro ⟨u, v, h, hu, hv⟩
    rcases List.cons_eq_append_iff.1 h with ⟨rfl, rfl⟩ | ⟨u', rfl, rfl⟩
    · exact .inr ⟨hu, hv⟩
    · exact .inl ⟨u', v, rfl, hu, hv⟩
  · rintro (⟨u, v, rfl, hu, hv⟩ | ⟨hu, hv⟩)
    · exact ⟨c :: u, v, rfl, hu, hv⟩
    · exact ⟨[], c :: w, rfl, hu, hv⟩

/-- A match of `star r` on a nonempty string has a first piece that is not empty: pieces
matching the empty string are skipped, by induction on the derivation. -/
theorem star_cons (h : Matches (.star r) (c :: w)) :
    ∃ u v, w = u ++ v ∧ Matches r (c :: u) ∧ Matches (.star r) v := by
  generalize hx : Regex.star r = x at h
  generalize hy : c :: w = y at h
  induction h generalizing w with
  | starNil => cases hy
  | @starCons _ u v hu hv _ ih =>
    cases hx
    cases u with
    | nil => exact ih rfl hy
    | cons c' u =>
      obtain ⟨rfl, rfl⟩ := List.cons.inj hy
      exact ⟨u, v, rfl, hu, hv⟩
  | _ => cases hx

theorem star_cons_iff :
    Matches (.star r) (c :: w) ↔
      ∃ u v, w = u ++ v ∧ Matches r (c :: u) ∧ Matches (.star r) v :=
  ⟨star_cons, fun ⟨u, _, h, hu, hv⟩ => h ▸ .starCons (u := c :: u) hu hv⟩

/-- A starred bracket expression matches exactly the strings of its characters. -/
theorem star_bracket_iff : Matches (.star (.bracket b)) w ↔ ∀ c ∈ w, b.contains c = true := by
  induction w with
  | nil => exact ⟨fun _ => nofun, fun _ => .starNil⟩
  | cons c w ih =>
    simp only [star_cons_iff, bracket_iff, List.cons.injEq, List.mem_cons, forall_eq_or_imp,
      ← ih]
    constructor
    · rintro ⟨u, v, rfl, ⟨_, ⟨rfl, rfl⟩, hc⟩, hv⟩
      exact ⟨hc, hv⟩
    · rintro ⟨hc, hv⟩
      exact ⟨[], w, rfl, ⟨c, ⟨rfl, rfl⟩, hc⟩, hv⟩

end Matches

/-! ## The matcher decides `Matches` -/

namespace Regex

variable {c : Char} {w : List Char}

theorem nullable_iff (r : Regex) : r.nullable = true ↔ Matches r [] := by
  induction r with
  | empty => exact ⟨nofun, nofun⟩
  | eps => exact ⟨fun _ => .eps, fun _ => rfl⟩
  | bracket b => simp [nullable, Matches.bracket_iff]
  | seq r s ihr ihs =>
    simp only [nullable, Bool.and_eq_true, ihr, ihs, Matches.seq_iff, List.nil_eq_append_iff]
    exact ⟨fun ⟨hr, hs⟩ => ⟨[], [], ⟨rfl, rfl⟩, hr, hs⟩, fun ⟨_, _, ⟨hu, hv⟩, hr, hs⟩ =>
      ⟨hu ▸ hr, hv ▸ hs⟩⟩
  | alt r s ihr ihs => simp only [nullable, Bool.or_eq_true, ihr, ihs, Matches.alt_iff]
  | star r => exact ⟨fun _ => .starNil, fun _ => rfl⟩

theorem deriv_iff (r : Regex) : Matches (r.deriv c) w ↔ Matches r (c :: w) := by
  induction r generalizing w with
  | empty => exact ⟨nofun, nofun⟩
  | eps => simp only [deriv, Matches.eps_iff]; exact ⟨nofun, nofun⟩
  | bracket b =>
    simp only [deriv, Matches.bracket_iff, List.cons.injEq]
    split
    · next hc =>
      rw [Matches.eps_iff]
      exact ⟨fun h => ⟨c, ⟨rfl, h⟩, hc⟩, fun ⟨_, ⟨_, h⟩, _⟩ => h⟩
    · next hc => exact ⟨nofun, fun ⟨_, ⟨he, _⟩, hc'⟩ => (hc (he ▸ hc')).elim⟩
  | seq r s ihr ihs =>
    have hseq : Matches (.seq (r.deriv c) s) w ↔
        ∃ u v, w = u ++ v ∧ Matches r (c :: u) ∧ Matches s v := by
      simp only [Matches.seq_iff, ihr]
    rw [Matches.seq_cons_iff, ← nullable_iff, ← ihs, ← hseq]
    by_cases hn : r.nullable = true
    · simp [deriv, hn, Matches.alt_iff]
    · simp [deriv, hn]
  | alt r s ihr ihs => simp only [deriv, Matches.alt_iff, ihr, ihs]
  | star r ihr => simp only [deriv, Matches.seq_iff, ihr, Matches.star_cons_iff]

/-- **The derivative matcher is `std::regex_match`**: it accepts exactly the strings the
pattern matches whole. -/
theorem accepts_iff (r : Regex) (w : List Char) : r.accepts w = true ↔ Matches r w := by
  induction w generalizing r with
  | nil => exact nullable_iff r
  | cons c w ih => exact (ih (r.deriv c)).trans (deriv_iff r)

end Regex

end Fs

end FbuThreadPool
