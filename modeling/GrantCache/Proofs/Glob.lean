import GrantCache.Glob
import Mathlib.Data.List.Forall2

/-!
# What a glob pattern matches

`matchFrom` remembers one star only. That is enough: the symbols after that star have taken the text
from the end of its piece on (`Tried`), so if some earlier star could take more and the whole would
fit, then it fits as well when the most recent star takes more instead (`splits_star_again`). Hence
each step keeps what there is to find out (`Meets`), and `matchesText` decides whether the text can
be cut into pieces for the symbols of the pattern (`matchesText_iff`).

A pattern of literal characters that ends in a star matches the texts that begin with the literals
(`splits_literals_star`).
-/

namespace GrantCache.Glob

variable {pattern : List Symbol} {ones : List One} {piece text rest : List Char} {s : One}
  {c : Char}

/-! ## Cutting a text -/

/-- Symbols have taken these characters, one each. -/
def Taken (ones : List One) (piece : List Char) : Prop :=
  List.Forall₂ (fun s c => s.accepts c = true) ones piece

theorem splits_one_iff :
    Splits (.one s :: pattern) (c :: rest) ↔ s.accepts c = true ∧ Splits pattern rest := by
  constructor
  · intro h
    cases h with
    | one hc h => exact ⟨hc, h⟩
  · exact fun ⟨hc, h⟩ => .one hc h

/-- What symbols have taken can be left out on both sides. -/
theorem splits_taken_iff (taken : Taken ones piece) :
    Splits (ones.map .one ++ pattern) (piece ++ rest) ↔ Splits pattern rest := by
  induction taken with
  | nil => rfl
  | cons hc _ ih =>
    rw [List.map_cons, List.cons_append, List.cons_append, splits_one_iff, ih]
    exact and_iff_right hc

theorem splits_star_iff :
    Splits (.star :: pattern) text ↔ ∃ rest, rest <:+ text ∧ Splits pattern rest := by
  constructor
  · intro h
    cases h with
    | @star _ piece rest h => exact ⟨rest, List.suffix_append piece rest, h⟩
  · rintro ⟨rest, ⟨piece, rfl⟩, h⟩
    exact .star h

/-- A star takes nothing, or at least one character. -/
theorem splits_star_cons :
    Splits (.star :: pattern) (c :: rest) ↔
      Splits pattern (c :: rest) ∨ Splits (.star :: pattern) rest := by
  simp only [splits_star_iff, List.suffix_cons_iff, or_and_right, exists_or, exists_eq_left]

/-- Symbols that take one character each and then a star leave at most what is left after as many
characters. -/
theorem splits_star_of_ones (h : Splits (ones.map .one ++ .star :: pattern) text) :
    Splits (.star :: pattern) (text.drop ones.length) := by
  induction ones generalizing text with
  | nil => exact h
  | cons s ones ih =>
    cases h with
    | one _ h => exact ih h

theorem length_le_of_splits (h : Splits (ones.map .one ++ pattern) text) :
    ones.length ≤ text.length := by
  induction ones generalizing text with
  | nil => exact Nat.zero_le _
  | cons s ones ih =>
    cases h with
    | one _ h => exact Nat.succ_le_succ (ih h)

/-- When another star is reached, only this one has to be tried again. -/
theorem splits_star_again (taken : Taken ones piece) :
    Splits (.star :: (ones.map .one ++ .star :: pattern)) (piece ++ text) ↔
      Splits (.star :: pattern) text := by
  constructor
  · intro h
    obtain ⟨found, ⟨skipped, same⟩, fits⟩ := splits_star_iff.1 h
    obtain ⟨rest, ⟨more, left⟩, h⟩ := splits_star_iff.1 (splits_star_of_ones fits)
    -- what is left is no longer than the text behind the piece
    refine splits_star_iff.2 ⟨rest, ?_, h⟩
    have suffix : rest <:+ piece ++ text :=
      ⟨skipped ++ found.take ones.length ++ more, by
        rw [List.append_assoc, left, List.append_assoc, List.take_append_drop, same]⟩
    have short : rest.length ≤ text.length := by
      have total := congrArg List.length same
      have part := congrArg List.length left
      have equal := taken.length_eq
      simp only [List.length_append, List.length_drop] at total part
      have long := length_le_of_splits fits
      omega
    exact List.suffix_of_suffix_length_le suffix (List.suffix_append piece text) short
  · intro h
    have at_ : Splits (ones.map .one ++ .star :: pattern) (piece ++ text) :=
      (splits_taken_iff taken).2 h
    exact splits_star_iff.2 ⟨_, List.suffix_refl _, at_⟩

/-! ## Reading a pattern -/

/-- A pattern that does not begin with a star begins with a symbol that stands for one character,
and what is left of it when that symbol has taken a character is the pattern after the symbol. -/
theorem symbols_one {pattern : List Char} (nonempty : pattern ≠ [])
    (other : ∀ rest, pattern ≠ '*' :: rest) :
    ∃ s after, symbols pattern = .one s :: symbols after ∧
      ∀ c, takes? pattern c = if s.accepts c then some after else none := by
  fun_cases symbols pattern with
  | case1 => exact absurd rfl nonempty
  | case2 rest => exact absurd rfl (other rest)
  | case3 rest => exact ⟨.anything, rest, rfl, fun c => rfl⟩
  | case4 rest s after reads =>
    exact ⟨s, after, rfl, fun c => by rw [takes?, reads]⟩
  | case5 rest reads =>
    refine ⟨.literal '[', rest, rfl, fun c => ?_⟩
    rw [takes?, reads]
    simp [One.accepts, eq_comm]
  | case6 x rest =>
    exact ⟨.literal x, rest, rfl, fun c => by simp [takes?, One.accepts]⟩
  | case7 x rest star question bracket escape =>
    refine ⟨.literal x, rest, rfl, fun c => ?_⟩
    rw [takes?]
    · simp [One.accepts]
    all_goals assumption

theorem all_star_iff {pattern : List Char} :
    pattern.all (· = '*') = true ↔ Splits (symbols pattern) [] := by
  induction pattern with
  | nil => exact iff_of_true rfl (by rw [symbols]; exact .nil)
  | cons x rest ih =>
    by_cases star : x = '*'
    · subst star
      rw [symbols, splits_star_iff]
      simpa using ih
    · obtain ⟨s, after, reads, -⟩ := symbols_one (List.cons_ne_nil x rest)
        fun rest' same => star (List.cons.inj same).1
      rw [reads]
      refine iff_of_false (by simp [star]) ?_
      intro h
      cases h

/-! ## One star at a time -/

/-- What there is to find out: whether what is left fits, or all that follows the most recent star
fits, with more for the star or without. -/
def Meets (pattern text : List Char) : Option Mark → Prop
  | none => Splits (symbols pattern) text
  | some star => Splits (.star :: symbols star.pattern) star.text

/-- What is left is left by symbols that stand for one character each, since the most recent star.
-/
def Tried (pattern text : List Char) : Option Mark → Prop
  | none => True
  | some star => ∃ ones piece, Taken ones piece ∧
      symbols star.pattern = ones.map .one ++ symbols pattern ∧ star.text = piece ++ text

theorem tried_star (pattern text : List Char) : Tried pattern text (some ⟨pattern, text⟩) :=
  ⟨[], [], .nil, rfl, rfl⟩

/-- At the end of the text only stars may be left, as every star before took all it could. -/
theorem meets_nil_iff {pattern : List Char} {star : Option Mark} (tried : Tried pattern [] star) :
    Meets pattern [] star ↔ Splits (symbols pattern) [] := by
  cases star with
  | none => rfl
  | some star =>
    obtain ⟨ones, piece, taken, reads, same⟩ := tried
    rw [Meets, reads, same]
    constructor
    · intro h
      obtain ⟨found, suffix, fits⟩ := splits_star_iff.1 h
      -- the symbols need the whole piece
      have long := length_le_of_splits fits
      have whole : found = piece ++ [] := suffix.eq_of_length_le (by
        rw [List.append_nil, ← taken.length_eq]
        exact long)
      rw [whole] at fits
      exact (splits_taken_iff taken).1 fits
    · intro h
      exact splits_star_iff.2 ⟨_, List.suffix_refl _, (splits_taken_iff taken).2 h⟩

theorem meets_star_iff {pattern text : List Char} {star : Option Mark}
    (tried : Tried ('*' :: pattern) text star) :
    Meets ('*' :: pattern) text star ↔ Meets pattern text (some ⟨pattern, text⟩) := by
  cases star with
  | none => rw [Meets, Meets, symbols]
  | some star =>
    obtain ⟨ones, piece, taken, reads, same⟩ := tried
    rw [Meets, Meets, reads, same, symbols]
    exact splits_star_again taken

/-- If what is left does not fit, the most recent star has to take more. -/
theorem meets_again_iff {pattern rest : List Char} {star : Mark}
    (tried : Tried pattern (c :: rest) (some star))
    (apart : ¬Splits (symbols pattern) (c :: rest)) :
    Meets pattern (c :: rest) (some star) ↔
      Meets star.pattern star.text.tail (some ⟨star.pattern, star.text.tail⟩) := by
  obtain ⟨ones, piece, taken, reads, same⟩ := tried
  have apart : ¬Splits (symbols star.pattern) star.text := by
    rw [reads, same, splits_taken_iff taken]
    exact apart
  obtain ⟨d, more, whole⟩ : ∃ d more, star.text = d :: more := by
    rw [same]
    cases piece with
    | nil => exact ⟨_, _, rfl⟩
    | cons d piece => exact ⟨_, _, rfl⟩
  rw [whole] at apart
  rw [Meets, Meets, whole, splits_star_cons]
  exact or_iff_right apart

/-- The symbols of a pattern that takes no further character do not fit. -/
theorem not_splits_of_takes? {pattern : List Char} (other : ∀ rest, pattern ≠ '*' :: rest)
    (h : takes? pattern c = none) : ¬Splits (symbols pattern) (c :: rest) := by
  intro fits
  by_cases none_ : pattern = []
  · subst none_
    rw [symbols] at fits
    cases fits
  · obtain ⟨s, after, reads, takes⟩ := symbols_one none_ other
    rw [reads, splits_one_iff] at fits
    rw [takes, if_pos fits.1] at h
    cases h

theorem symbols_of_takes? {pattern after : List Char} (other : ∀ rest, pattern ≠ '*' :: rest)
    (h : takes? pattern c = some after) :
    ∃ s, s.accepts c = true ∧ symbols pattern = .one s :: symbols after := by
  have nonempty : pattern ≠ [] := by
    rintro rfl
    cases h
  obtain ⟨s, after', reads, takes⟩ := symbols_one nonempty other
  rw [takes] at h
  split at h
  · rename_i accepts
    cases h
    exact ⟨s, accepts, reads⟩
  · cases h

theorem Tried.takes {pattern after : List Char} {star : Option Mark}
    (tried : Tried pattern (c :: rest) star) (accepts : s.accepts c = true)
    (reads : symbols pattern = .one s :: symbols after) : Tried after rest star := by
  cases star with
  | none => trivial
  | some star =>
    obtain ⟨ones, piece, taken, reads', same⟩ := tried
    refine ⟨ones ++ [s], piece ++ [c], List.rel_append taken (.cons accepts .nil), ?_, ?_⟩
    · rw [reads', reads, List.map_append, List.append_assoc]
      rfl
    · rw [same, List.append_assoc]
      rfl

/-- Each step keeps what there is to find out, so the last one tells it. -/
theorem matchFrom_iff {pattern text : List Char} {star : Option Mark}
    (tried : Tried pattern text star) :
    matchFrom pattern text star = true ↔ Meets pattern text star := by
  fun_induction matchFrom pattern text star with
  | case1 pattern star => rw [all_star_iff, meets_nil_iff tried]
  | case2 star c rest pattern ih => rw [ih (tried_star ..), meets_star_iff tried]
  | case3 star c rest pattern other after taken ih =>
    obtain ⟨s, accepts, reads⟩ := symbols_of_takes? other taken
    rw [ih (tried.takes accepts reads)]
    cases star with
    | none => rw [Meets, Meets, reads, splits_one_iff, and_iff_right accepts]
    | some star => rfl
  | case4 c rest pattern other taken =>
    exact iff_of_false Bool.false_ne_true (not_splits_of_takes? other taken)
  | case5 c rest pattern other taken next text ih =>
    rw [ih (tried_star ..), meets_again_iff tried (not_splits_of_takes? other taken)]

/-- A pattern matches a text exactly if the text can be cut into pieces for its symbols. -/
theorem matchesText_iff (pattern text : String) :
    matchesText pattern text = true ↔ Splits (symbols pattern.toList) text.toList :=
  matchFrom_iff trivial

/-! ## Literals followed by a star -/

/-- Literal characters and then a star match what begins with the literals. -/
theorem splits_literals_star {literals text : List Char} :
    Splits (literals.map (fun c => .one (.literal c)) ++ [.star]) text ↔ literals <+: text := by
  induction literals generalizing text with
  | nil =>
    constructor
    · exact fun _ => List.nil_prefix
    · intro _
      have whole : Splits [.star] (text ++ []) := .star .nil
      simpa using whole
  | cons c literals ih =>
    constructor
    · intro h
      cases h with
      | one hc h =>
        rename_i d rest
        obtain rfl : c = d := by simpa [One.accepts] using hc
        exact (List.prefix_cons_inj c).2 (ih.1 h)
    · rintro ⟨rest, rfl⟩
      exact .one (by simp [One.accepts]) (ih.2 (List.prefix_append literals rest))

end GrantCache.Glob
