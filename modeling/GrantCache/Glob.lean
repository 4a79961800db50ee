/-!
# Glob patterns

A pattern consists of symbols, each standing for a piece of the text: `*` for any piece, every other
symbol for exactly one character. `Glob.Splits` says what it means for a text to match: it can be
cut into consecutive pieces, one for each symbol. `matchesText` decides it by going through pattern
and text side by side. Where they do not fit, the most recent star takes one character more and all
that follows it is tried again; no earlier star is ever tried again.
-/

namespace GrantCache.Glob

/-! ### Symbols -/

/-- What a class lists: a character, or every character of a range. -/
inductive Item where
  | single (c : Char)
  | range (low high : Char)
deriving DecidableEq

/-- Whether a class item lists `c`. A range may be given in either order. -/
def Item.lists (c : Char) : Item → Bool
  | .single x => x = c
  | .range a b => (a ≤ c && c ≤ b) || (b ≤ c && c ≤ a)

/-- A symbol that stands for one character. -/
inductive One where
  | anything
  | literal (c : Char)
  | among (negated : Bool) (items : List Item)
deriving DecidableEq

/-- Whether a symbol may stand for `c`. -/
def One.accepts (c : Char) : One → Bool
  | .anything => true
  | .literal x => x = c
  | .among negated items => items.any (·.lists c) != negated

/-- A symbol of a pattern: a star, or one that stands for one character. -/
inductive Symbol where
  | star
  | one (s : One)
deriving DecidableEq

/-! ### Reading a pattern -/

/-- The items of a class up to the first `]` that stands where an item may start, and what follows
it. There is none when the pattern ends before. -/
def classItems : List Char → Option (List Item × List Char)
  | [] => none
  | c :: rest =>
    if c = ']' then some ([], rest)
    else
      match rest with
      | [] => none
      | x :: tail =>
        if c = '\\' then (classItems tail).map fun (items, after) => (.single x :: items, after)
        else
          match tail with
          | b :: more =>
            if x = '-' ∧ b ≠ ']' then
              (classItems more).map fun (items, after) => (.range c b :: items, after)
            else (classItems (x :: b :: more)).map fun (items, after) => (.single c :: items, after)
          | [] => (classItems [x]).map fun (items, after) => (.single c :: items, after)
termination_by cs => cs.length
decreasing_by all_goals (simp only [List.length_cons, List.length_nil]; omega)

def classOf : List Char → Option (One × List Char)
  | '^' :: rest => (classItems rest).map fun (items, after) => (.among true items, after)
  | cs => (classItems cs).map fun (items, after) => (.among false items, after)

theorem length_classItems {cs : List Char} {items : List Item} {after : List Char}
    (h : classItems cs = some (items, after)) : after.length < cs.length := by
  fun_induction classItems cs generalizing items after with
  | case1 => simp at h
  | case2 => simp_all
  | case3 => simp at h
  | case4 | case5 | case6 | case7 =>
    rename_i ih
    obtain ⟨⟨i, r⟩, hi, he⟩ := Option.map_eq_some_iff.1 h
    have := ih hi
    obtain ⟨-, rfl⟩ := Prod.mk.inj he
    simp only [List.length_cons] at this ⊢
    omega

theorem length_classOf {cs : List Char} {s : One} {after : List Char}
    (h : classOf cs = some (s, after)) : after.length < cs.length := by
  unfold classOf at h
  split at h
  · obtain ⟨⟨i, r⟩, hi, he⟩ := Option.map_eq_some_iff.1 h
    obtain ⟨-, rfl⟩ := Prod.mk.inj he
    exact Nat.lt_succ_of_lt (length_classItems hi)
  · obtain ⟨⟨i, r⟩, hi, he⟩ := Option.map_eq_some_iff.1 h
    obtain ⟨-, rfl⟩ := Prod.mk.inj he
    exact length_classItems hi

/-- The symbols of a pattern. A bracket that opens no complete class and a backslash at the end
stand for themselves. -/
def symbols : List Char → List Symbol
  | [] => []
  | '*' :: rest => .star :: symbols rest
  | '?' :: rest => .one .anything :: symbols rest
  | '[' :: rest =>
    match h : classOf rest with
    | some (s, after) =>
      have := length_classOf h
      .one s :: symbols after
    | none => .one (.literal '[') :: symbols rest
  | '\\' :: c :: rest => .one (.literal c) :: symbols rest
  | c :: rest => .one (.literal c) :: symbols rest
termination_by cs => cs.length
decreasing_by all_goals (simp_wf; try omega)

/-! ### Meaning -/

/-- The text can be cut into consecutive pieces, one for each symbol. -/
inductive Splits : List Symbol → List Char → Prop where
  | nil : Splits [] []
  | star {pattern : List Symbol} {piece rest : List Char} (h : Splits pattern rest) :
      Splits (.star :: pattern) (piece ++ rest)
  | one {s : One} {pattern : List Symbol} {c : Char} {rest : List Char} (hc : s.accepts c = true)
      (h : Splits pattern rest) : Splits (.one s :: pattern) (c :: rest)

/-! ### Deciding -/

/-- What is left of a pattern when its first symbol, which is no star, has taken the character. -/
def takes? : List Char → Char → Option (List Char)
  | [], _ => none
  | '?' :: rest, _ => some rest
  | '[' :: rest, c =>
    match classOf rest with
    | some (s, after) => if s.accepts c then some after else none
    | none => if c = '[' then some rest else none
  | '\\' :: x :: rest, c => if x = c then some rest else none
  | x :: rest, c => if x = c then some rest else none

theorem length_takes? {pattern after : List Char} {c : Char} (h : takes? pattern c = some after) :
    after.length < pattern.length := by
  unfold takes? at h
  split at h
  · cases h
  · cases h
    exact Nat.lt_succ_self _
  · split at h
    · rename_i reads
      have shorter := length_classOf reads
      split at h <;> cases h
      exact Nat.lt_succ_of_lt shorter
    · split at h <;> cases h
      exact Nat.lt_succ_self _
  · split at h <;> cases h
    exact Nat.lt_succ_of_lt (Nat.lt_succ_self _)
  · split at h <;> cases h
    exact Nat.lt_succ_self _

/-- The most recent star: the pattern after it, and the text after the piece that it has now. -/
structure Mark where
  pattern : List Char
  text : List Char

/-- A bound for the steps that are left: a try for each character that the star may still take, and
in each try one step for each symbol of the pattern. -/
def effort (pattern text : List Char) (star : Option Mark) : Nat :=
  let mark := star.getD ⟨[], []⟩
  max text.length mark.text.length * (max pattern.length mark.pattern.length + 2) + pattern.length

section Effort

variable {pattern after text rest : List Char} {c : Char} {star : Option Mark}

theorem effort_star :
    effort pattern text (some ⟨pattern, text⟩) < effort ('*' :: pattern) text star := by
  simp only [effort, Option.getD_some, Nat.max_self, List.length_cons]
  have product := Nat.mul_le_mul (Nat.le_max_left text.length (star.getD ⟨[], []⟩).text.length)
    (show pattern.length + 2 ≤ max (pattern.length + 1) (star.getD ⟨[], []⟩).pattern.length + 2 by
      omega)
  omega

theorem effort_takes (h : after.length < pattern.length) :
    effort after rest star < effort pattern (c :: rest) star := by
  simp only [effort, List.length_cons]
  have product := Nat.mul_le_mul
    (show max rest.length (star.getD ⟨[], []⟩).text.length ≤
      max (rest.length + 1) (star.getD ⟨[], []⟩).text.length by omega)
    (show max after.length (star.getD ⟨[], []⟩).pattern.length + 2 ≤
      max pattern.length (star.getD ⟨[], []⟩).pattern.length + 2 by omega)
  omega

theorem effort_again :
    effort after text.tail (some ⟨after, text.tail⟩) <
      effort pattern (c :: rest) (some ⟨after, text⟩) := by
  simp only [effort, Option.getD_some, Nat.max_self, List.length_cons]
  have product := Nat.mul_le_mul
    (show text.tail.length + 1 ≤ max (rest.length + 1) text.length by
      rw [List.length_tail]
      omega)
    (show after.length + 2 ≤ max pattern.length after.length + 2 by omega)
  rw [Nat.succ_mul] at product
  omega

end Effort

/-- Whether what is left of the text matches what is left of the pattern, or all of it matches when
the most recent star takes more. -/
def matchFrom (pattern text : List Char) (star : Option Mark) : Bool :=
  match text with
  | [] => pattern.all (· = '*')
  | c :: rest =>
    match pattern with
    | '*' :: pattern => matchFrom pattern (c :: rest) (some ⟨pattern, c :: rest⟩)
    | pattern =>
      match _taken : takes? pattern c with
      | some after => matchFrom after rest star
      | none =>
        match star with
        | none => false
        | some ⟨pattern, text⟩ => matchFrom pattern text.tail (some ⟨pattern, text.tail⟩)
termination_by effort pattern text star
decreasing_by
  · exact effort_star
  · exact effort_takes (length_takes? _taken)
  · exact effort_again

/-- Whether a pattern matches the whole of a text. -/
def matchesText (pattern text : String) : Bool :=
  matchFrom pattern.toList text.toList none

example : classOf "^b-d\\]]*".toList =
    some (.among true [.range 'b' 'd', .single ']'], ['*']) := by decide +kernel

end GrantCache.Glob
