import FbuThreadPool.Fs.Regex
/-!
# The POSIX portable file-name checks of `filesystem_utils.hpp`

`isPOSIXFullyPortableFileName` and `isPOSIXFullyPortableFileNameRelaxed` differ only in their
length limit and their pattern, so both are `portableCheck` applied to the limit and the
pattern the source writes. A name is the `char`s of the C string before its terminating NUL,
one `Char` each. The comment above each check lists the rules it enforces; `Documented` states
them apart from any pattern, with `Char.isAlphanum` for "alphanumeric".

* `portableCheck_iff_documented`: a check of that shape accepts exactly the names that follow
  the rules, when its first bracket is its second without the characters barred from the
  front.
* `portable_names_documented`: each check accepts exactly the names its comment describes.
* `portable_name_relaxed`: every name the strict check accepts, the relaxed check accepts.
-/

namespace FbuThreadPool

namespace Fs

/-! ## The two checks -/

/-- The body both checks share: refuse `.`, `..` and names longer than `maxLength`, then
`std::regex_match(lFileName, r)`. -/
def portableCheck (maxLength : Nat) (r : Regex) (lFileName : List Char) : Bool :=
  if lFileName == ['.'] || lFileName == ['.', '.'] || lFileName.length > maxLength then false
  else r.accepts lFileName

/-- `isPOSIXFullyPortableFileName`: at most 14 characters, matching
`[a-zA-Z0-9._][a-zA-Z0-9._\-]*`. -/
def isPOSIXFullyPortableFileName (pFileName : List Char) : Bool :=
  portableCheck 14
    (.seq (.bracket [('a', 'z'), ('A', 'Z'), ('0', '9'), ('.', '.'), ('_', '_')])
      (.star (.bracket [('a', 'z'), ('A', 'Z'), ('0', '9'), ('.', '.'), ('_', '_'), ('-', '-')])))
    pFileName

/-- `isPOSIXFullyPortableFileNameRelaxed`: at most 254 characters, matching
`[a-zA-Z0-9._][a-zA-Z0-9._\-\ ]*`. -/
def isPOSIXFullyPortableFileNameRelaxed (pFileName : List Char) : Bool :=
  portableCheck 254
    (.seq (.bracket [('a', 'z'), ('A', 'Z'), ('0', '9'), ('.', '.'), ('_', '_')])
      (.star (.bracket
        [('a', 'z'), ('A', 'Z'), ('0', '9'), ('.', '.'), ('_', '_'), ('-', '-'), (' ', ' ')])))
    pFileName

/-! ## What a check of this shape accepts -/

theorem Bracket.contains_of_prefix {b b' : Bracket} (h : b <+: b') {c : Char}
    (hc : b.contains c = true) : b'.contains c = true := by
  obtain ⟨t, rfl⟩ := h
  simp [Bracket.contains, List.any_append] at hc ⊢
  exact .inl hc

/-- A name passes a check of this shape when it is not `.` nor `..`, fits the limit, and its
first character is in the first bracket and every other one in the second. -/
theorem portableCheck_iff {m : Nat} {first rest : Bracket} {name : List Char} :
    portableCheck m (.seq (.bracket first) (.star (.bracket rest))) name = true ↔
      name ≠ ['.'] ∧ name ≠ ['.', '.'] ∧ name.length ≤ m ∧
        ∃ c cs, name = c :: cs ∧ first.contains c = true ∧ ∀ x ∈ cs, rest.contains x = true := by
  unfold portableCheck
  split
  · next h =>
    simp only [Bool.or_eq_true, beq_iff_eq, decide_eq_true_eq] at h
    simp only [Bool.false_eq_true, false_iff]
    rintro ⟨h1, h2, h3, -⟩
    rcases h with (h | h) | h
    · exact h1 h
    · exact h2 h
    · omega
  · next h =>
    simp only [Bool.or_eq_true, beq_iff_eq, decide_eq_true_eq, not_or, Nat.not_lt] at h
    rw [Regex.accepts_iff, Matches.seq_iff]
    simp only [Matches.bracket_iff, Matches.star_bracket_iff]
    constructor
    · rintro ⟨_, v, hn, ⟨c, rfl, hc⟩, hv⟩
      exact ⟨h.1.1, h.1.2, h.2, c, v, hn, hc, hv⟩
    · rintro ⟨-, -, -, c, cs, hn, hc, hcs⟩
      exact ⟨[c], cs, hn, ⟨c, rfl, hc⟩, hcs⟩

/-! ## The documented rules -/

/-- The rules of the comments above the checks: not empty, not `.` nor `..`, at most
`maxLength` characters, each alphanumeric or one of `extra`, and the first not one of
`notFirst`. Unicity up to case is a property of a directory, not of one name. -/
structure Documented (maxLength : Nat) (extra notFirst : List Char) (name : List Char) :
    Prop where
  ne_nil : name ≠ []
  ne_dot : name ≠ ['.']
  ne_dotDot : name ≠ ['.', '.']
  length_le : name.length ≤ maxLength
  chars : ∀ c ∈ name, c.isAlphanum = true ∨ c ∈ extra
  first : ∀ c ∈ name.head?, c ∉ notFirst

theorem Char.eq_iff_toNat_eq {c d : Char} : c = d ↔ c.toNat = d.toNat :=
  ⟨congrArg _, fun h => Char.ext (UInt32.eq_of_toBitVec_eq (BitVec.eq_of_toNat_eq h))⟩

/-- `a-z`, `A-Z`, `0-9` and the characters of `extra`, in the order the patterns list them. -/
def alnumAnd (extra : List Char) : Bracket :=
  [('a', 'z'), ('A', 'Z'), ('0', '9')] ++ extra.map fun e => (e, e)

/-- The ranges `a-z`, `A-Z` and `0-9` are what `Char.isAlphanum` calls alphanumeric. -/
theorem contains_alnumAnd (extra : List Char) (c : Char) :
    (alnumAnd extra).contains c = true ↔ c.isAlphanum = true ∨ c ∈ extra := by
  have hext : ((extra.map fun e => (e, e)).any fun r =>
      decide (r.1.toNat ≤ c.toNat) && decide (c.toNat ≤ r.2.toNat)) = true ↔ c ∈ extra := by
    simp only [List.any_eq_true, List.mem_map, Bool.and_eq_true, decide_eq_true_eq]
    constructor
    · rintro ⟨_, ⟨e, he, rfl⟩, h1, h2⟩
      rwa [Char.eq_iff_toNat_eq.2 (Nat.le_antisymm h2 h1)]
    · exact fun h => ⟨(c, c), ⟨c, h, rfl⟩, Nat.le_refl _, Nat.le_refl _⟩
  simp only [alnumAnd, Bracket.contains, List.any_append, Bool.or_eq_true]
  refine Iff.or ?_ hext
  simp [Char.isAlphanum, Char.isAlpha, Char.isUpper, Char.isLower, Char.isDigit,
    UInt32.le_def, BitVec.le_def, Char.toNat, UInt32.toNat]
  omega

/-- A check whose first bracket is its second without the characters of `notFirst`, none of
them alphanumeric, accepts exactly the names that follow the documented rules. -/
theorem portableCheck_iff_documented (m : Nat) (start notFirst : List Char)
    (hnot : ∀ c ∈ notFirst, c.isAlphanum = false ∧ c ∉ start) (name : List Char) :
    portableCheck m
        (.seq (.bracket (alnumAnd start)) (.star (.bracket (alnumAnd (start ++ notFirst))))) name
        = true ↔
      Documented m (start ++ notFirst) notFirst name := by
  rw [portableCheck_iff]
  simp only [contains_alnumAnd]
  constructor
  · rintro ⟨hd, hdd, hl, c, cs, rfl, hc, hcs⟩
    refine ⟨List.cons_ne_nil _ _, hd, hdd, hl, fun x hx => ?_, fun x hx hnf => ?_⟩
    · rcases List.mem_cons.1 hx with rfl | hx
      · exact hc.imp_right (List.mem_append_left _)
      · exact hcs x hx
    · obtain rfl : c = x := Option.some.inj hx
      obtain ⟨ha, hs⟩ := hnot c hnf
      rcases hc with hc | hc
      · simp [ha] at hc
      · exact hs hc
  · rintro ⟨hne, hd, hdd, hl, hchars, hfirst⟩
    obtain ⟨c, cs, rfl⟩ := List.exists_cons_of_ne_nil hne
    refine ⟨hd, hdd, hl, c, cs, rfl, ?_, fun x hx => hchars x (List.mem_cons_of_mem _ hx)⟩
    rcases hchars c (List.mem_cons_self _ _) with h | h
    · exact .inl h
    · rcases List.mem_append.1 h with h | h
      · exact .inr h
      · exact absurd h (hfirst c rfl)

/-- **Each check accepts exactly the names its comment describes.** The strict check: not
empty, not `.` nor `..`, at most 14 characters, alphanumerics with `.`, `_` and `-`, the first
not a hyphen. The relaxed check: the same with at most 254 characters and spaces allowed, the
first neither a hyphen nor a space. -/
theorem portable_names_documented (name : List Char) :
    (isPOSIXFullyPortableFileName name = true ↔ Documented 14 ['.', '_', '-'] ['-'] name) ∧
      (isPOSIXFullyPortableFileNameRelaxed name = true ↔
        Documented 254 ['.', '_', '-', ' '] ['-', ' '] name) :=
  ⟨portableCheck_iff_documented 14 ['.', '_'] ['-'] (by decide) name,
    portableCheck_iff_documented 254 ['.', '_'] ['-', ' '] (by decide) name⟩

example : isPOSIXFullyPortableFileName ['-', 'r', 'f'] = false := by decide

example : isPOSIXFullyPortableFileName ['a', ' ', 'b'] = false ∧
    isPOSIXFullyPortableFileNameRelaxed ['a', ' ', 'b'] = true := by decide

/-- **The relaxed check only relaxes**: both share the first bracket, the second bracket of
the strict check is a prefix of the relaxed one's, and 14 is below 254. -/
theorem portable_name_relaxed {name : List Char} (h : isPOSIXFullyPortableFileName name = true) :
    isPOSIXFullyPortableFileNameRelaxed name = true := by
  obtain ⟨hd, hdd, hl, c, cs, hn, hc, hcs⟩ := portableCheck_iff.1 h
  exact portableCheck_iff.2 ⟨hd, hdd, by omega, c, cs, hn, hc,
    fun x hx => Bracket.contains_of_prefix ⟨[(' ', ' ')], rfl⟩ (hcs x hx)⟩

/-- `a.out` passes both checks. -/
theorem portable_name_relaxed_aout :
    isPOSIXFullyPortableFileName ['a', '.', 'o', 'u', 't'] = true ∧
      isPOSIXFullyPortableFileNameRelaxed ['a', '.', 'o', 'u', 't'] = true :=
  ⟨by decide, portable_name_relaxed (by decide)⟩

end Fs

end FbuThreadPool
