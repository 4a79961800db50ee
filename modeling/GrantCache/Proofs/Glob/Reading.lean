import GrantCache.Proofs.Glob

/-!
# How a pattern is read

Which symbols a pattern consists of can be said without a program (`Reads`): from left to right, a
star, a question mark, a class, an escaped character, or a character for itself. A class goes up to
the first `]` that stands where an item may start (`Lists`); if there is none, its bracket is a
character like any other. Which pieces of a text a symbol takes is said alike (`Symbol.Takes`).

Every pattern can be read in exactly one way, which is how `symbols` reads it (`reads_iff`), and
matching goes by it: `matchesText_iff_pieces`.
-/

namespace GrantCache.Glob

/-! ## Classes -/

/-- The items of a class, up to its end, and what comes after the end. -/
inductive Lists : List Char → List Item → List Char → Prop
  | close {after : List Char} : Lists (']' :: after) [] after
  | escaped {c : Char} {rest after : List Char} {items : List Item}
      (others : Lists rest items after) : Lists ('\\' :: c :: rest) (.single c :: items) after
  | range {a b : Char} {rest after : List Char} {items : List Item} (noEnd : a ≠ ']')
      (noEscape : a ≠ '\\') (closed : b ≠ ']') (others : Lists rest items after) :
      Lists (a :: '-' :: b :: rest) (.range a b :: items) after
  | single {c : Char} {rest after : List Char} {items : List Item} (noEnd : c ≠ ']')
      (noEscape : c ≠ '\\') (noRange : ∀ b more, rest = '-' :: b :: more → b = ']')
      (others : Lists rest items after) : Lists (c :: rest) (.single c :: items) after

/-- What follows a bracket that opens a class. -/
inductive Classifies : List Char → One → List Char → Prop
  | negated {rest after : List Char} {items : List Item} (h : Lists rest items after) :
      Classifies ('^' :: rest) (.among true items) after
  | plain {rest after : List Char} {items : List Item} (other : ∀ more, rest ≠ '^' :: more)
      (h : Lists rest items after) : Classifies rest (.among false items) after

variable {cs after : List Char} {items : List Item} {s : One} {tokens : List Symbol}

theorem map_eq_some_iff {α : Type} {make : List Item → α} {a : α}
    {found : Option (List Item × List Char)} :
    (found.map fun (items, after) => (make items, after)) = some (a, after) ↔
      ∃ items, a = make items ∧ found = some (items, after) := by
  rw [Option.map_eq_some_iff]
  constructor
  · rintro ⟨⟨items, after⟩, rfl, ⟨⟩⟩
    exact ⟨items, rfl, rfl⟩
  · rintro ⟨items, rfl, rfl⟩
    exact ⟨_, rfl, rfl⟩

/-- Items are read in one way only. -/
theorem lists_iff : Lists cs items after ↔ classItems cs = some (items, after) := by
  fun_induction classItems cs generalizing items after with
  | case1 =>
    constructor
    · intro h
      cases h
    · intro h
      cases h
  | case2 tail =>
    constructor
    · intro h
      cases h with
      | close => rfl
      | range noEnd => exact absurd rfl noEnd
      | single noEnd => exact absurd rfl noEnd
    · intro h
      cases h
      exact .close
  -- One character is left and does not close the class, so that nothing can.
  | case3 c noEnd =>
    constructor
    · intro h
      cases h with
      | close => exact absurd rfl noEnd
      | single _ _ _ others => cases others
    · intro h
      cases h
  | case4 c tail noEnd ih =>
    rw [map_eq_some_iff]
    constructor
    · intro h
      cases h with
      | escaped others => exact ⟨_, rfl, ih.1 others⟩
      | range _ noEscape => exact absurd rfl noEscape
      | single _ noEscape => exact absurd rfl noEscape
    · rintro ⟨others, rfl, h⟩
      exact .escaped (ih.2 h)
  -- A character, a hyphen and another one that does not close the class. The constructor `single`
  -- would fit too but for its condition on what follows.
  | case5 a noEnd x noEscape b more isRange ih =>
    obtain ⟨dash, closed⟩ := isRange
    subst dash
    rw [map_eq_some_iff]
    constructor
    · intro h
      cases h with
      | close => exact absurd rfl noEnd
      | escaped => exact absurd rfl noEscape
      | range _ _ _ others => exact ⟨_, rfl, ih.1 others⟩
      | single _ _ noRange => exact absurd (noRange b more rfl) closed
    · rintro ⟨others, rfl, h⟩
      exact .range noEnd noEscape closed (ih.2 h)
  -- Two characters at least are left, and they do not make a range.
  | case6 c noEnd x noEscape b more noRange ih =>
    rw [map_eq_some_iff]
    constructor
    · intro h
      cases h with
      | close => exact absurd rfl noEnd
      | escaped => exact absurd rfl noEscape
      | range _ _ closed => exact absurd ⟨rfl, closed⟩ noRange
      | single _ _ _ others => exact ⟨_, rfl, ih.1 others⟩
    · rintro ⟨others, rfl, h⟩
      refine .single noEnd noEscape (fun b' more' same => ?_) (ih.2 h)
      cases same
      exact Decidable.not_not.1 fun closed => noRange ⟨rfl, closed⟩
  -- Too short for a range.
  | case7 c noEnd x noEscape ih =>
    rw [map_eq_some_iff]
    constructor
    · intro h
      cases h with
      | close => exact absurd rfl noEnd
      | escaped => exact absurd rfl noEscape
      | single _ _ _ others => exact ⟨_, rfl, ih.1 others⟩
    · rintro ⟨others, rfl, h⟩
      refine .single noEnd noEscape (fun b more short => ?_) (ih.2 h)
      cases short

theorem classifies_iff : Classifies cs s after ↔ classOf cs = some (s, after) := by
  fun_cases classOf cs with
  | case1 rest =>
    rw [map_eq_some_iff]
    constructor
    · intro h
      cases h with
      | negated h => exact ⟨_, rfl, lists_iff.1 h⟩
      | plain other => exact absurd rfl (other rest)
    · rintro ⟨items, rfl, h⟩
      exact .negated (lists_iff.2 h)
  | case2 cs other =>
    rw [map_eq_some_iff]
    constructor
    · intro h
      cases h with
      | negated => exact (other _ rfl).elim
      | plain _ h => exact ⟨_, rfl, lists_iff.1 h⟩
    · rintro ⟨items, rfl, h⟩
      exact .plain other (lists_iff.2 h)

/-! ## Patterns -/

/-- The symbols of a pattern, from left to right. -/
inductive Reads : List Char → List Symbol → Prop
  | nil : Reads [] []
  | star {rest : List Char} {tokens : List Symbol} (others : Reads rest tokens) :
      Reads ('*' :: rest) (.star :: tokens)
  | anything {rest : List Char} {tokens : List Symbol} (others : Reads rest tokens) :
      Reads ('?' :: rest) (.one .anything :: tokens)
  | among {rest after : List Char} {s : One} {tokens : List Symbol} (h : Classifies rest s after)
      (others : Reads after tokens) : Reads ('[' :: rest) (.one s :: tokens)
  | bracket {rest : List Char} {tokens : List Symbol}
      (unclosed : ∀ s after, ¬Classifies rest s after) (others : Reads rest tokens) :
      Reads ('[' :: rest) (.one (.literal '[') :: tokens)
  | escaped {c : Char} {rest : List Char} {tokens : List Symbol} (others : Reads rest tokens) :
      Reads ('\\' :: c :: rest) (.one (.literal c) :: tokens)
  | backslash : Reads ['\\'] [.one (.literal '\\')]
  | literal {c : Char} {rest : List Char} {tokens : List Symbol}
      (plain : c ≠ '*' ∧ c ≠ '?' ∧ c ≠ '[' ∧ c ≠ '\\') (others : Reads rest tokens) :
      Reads (c :: rest) (.one (.literal c) :: tokens)

theorem reads_symbols (cs : List Char) : Reads cs (symbols cs) := by
  fun_induction symbols cs with
  | case1 => exact .nil
  | case2 rest ih => exact .star ih
  | case3 rest ih => exact .anything ih
  | case4 rest s after reads _ ih => exact .among (classifies_iff.2 reads) ih
  | case5 rest reads ih =>
    refine .bracket (fun s after h => ?_) ih
    rw [classifies_iff.1 h] at reads
    cases reads
  | case6 c rest ih => exact .escaped ih
  | case7 c rest star question bracket escape ih =>
    by_cases backslash : c = '\\'
    · subst backslash
      -- there is nothing after it that it could escape
      cases rest with
      | nil =>
        rw [symbols]
        exact .backslash
      | cons x more => exact (escape x more rfl rfl).elim
    · exact .literal ⟨star, question, bracket, backslash⟩ ih

theorem symbols_among {rest : List Char} (h : Classifies rest s after) :
    symbols ('[' :: rest) = .one s :: symbols after := by
  rw [symbols]
  split
  · rename_i reads
    cases reads.symm.trans (classifies_iff.1 h)
    rfl
  · rename_i reads
    cases reads.symm.trans (classifies_iff.1 h)

theorem symbols_bracket {rest : List Char} (unclosed : ∀ s after, ¬Classifies rest s after) :
    symbols ('[' :: rest) = .one (.literal '[') :: symbols rest := by
  rw [symbols]
  split
  · rename_i reads
    exact absurd (classifies_iff.2 reads) (unclosed _ _)
  · rfl

/-- Every pattern is read in exactly one way. -/
theorem reads_iff : Reads cs tokens ↔ tokens = symbols cs := by
  constructor
  · intro h
    induction h with
    | nil => rw [symbols]
    | star others ih => rw [symbols, ih]
    | anything others ih => rw [symbols, ih]
    | among h others ih => rw [symbols_among h, ih]
    | bracket unclosed others ih => rw [symbols_bracket unclosed, ih]
    | escaped others ih => rw [symbols, ih]
    | backslash => rw [symbols, symbols] <;> simp
    | literal plain others ih =>
      obtain ⟨star, question, bracket, backslash⟩ := plain
      rw [symbols, ih]
      · exact star
      · exact question
      · exact bracket
      · exact fun _ _ same => absurd same backslash
  · rintro rfl
    exact reads_symbols cs

/-! ## Pieces -/

/-- An item stands for a character, or for all from one to another one, in either order. -/
def Item.Covers (c : Char) : Item → Prop
  | .single x => c = x
  | .range a b => a ≤ c ∧ c ≤ b ∨ b ≤ c ∧ c ≤ a

/-- The pieces of a text that a symbol takes. -/
def Symbol.Takes : Symbol → List Char → Prop
  | .star, _ => True
  | .one .anything, piece => ∃ c, piece = [c]
  | .one (.literal x), piece => piece = [x]
  | .one (.among false items), piece => ∃ c, piece = [c] ∧ ∃ item ∈ items, item.Covers c
  | .one (.among true items), piece => ∃ c, piece = [c] ∧ ¬∃ item ∈ items, item.Covers c

theorem lists_iff_covers {c : Char} {item : Item} : item.lists c = true ↔ item.Covers c := by
  cases item with
  | single x => simp [Item.lists, Item.Covers, eq_comm]
  | range a b => simp [Item.lists, Item.Covers]

theorem takes_one_iff {piece : List Char} :
    (Symbol.one s).Takes piece ↔ ∃ c, piece = [c] ∧ s.accepts c = true := by
  cases s with
  | anything => simp [Symbol.Takes, One.accepts]
  | literal x => simp [Symbol.Takes, One.accepts]
  | among negated items =>
    cases negated <;> simp [Symbol.Takes, One.accepts, ← lists_iff_covers]

theorem splits_iff_pieces {text : List Char} :
    Splits tokens text ↔
      ∃ pieces, pieces.flatten = text ∧ List.Forall₂ Symbol.Takes tokens pieces := by
  constructor
  · intro h
    induction h with
    | nil => exact ⟨[], rfl, .nil⟩
    | @star _ piece rest _ ih =>
      obtain ⟨pieces, rfl, takes⟩ := ih
      exact ⟨piece :: pieces, rfl, .cons trivial takes⟩
    | @one s _ c rest accepts _ ih =>
      obtain ⟨pieces, rfl, takes⟩ := ih
      exact ⟨[c] :: pieces, rfl, .cons (takes_one_iff.2 ⟨c, rfl, accepts⟩) takes⟩
  · rintro ⟨pieces, rfl, takes⟩
    induction takes with
    | nil => exact .nil
    | @cons token piece _ _ first _ ih =>
      cases token with
      | star => exact .star ih
      | one s =>
        obtain ⟨c, rfl, accepts⟩ := takes_one_iff.1 first
        exact .one accepts ih

/-- Each pattern consists of certain symbols, and it matches a text exactly if the text can be cut
into consecutive pieces that the symbols take, one each. -/
theorem matchesText_iff_pieces (pattern text : String) :
    ∃ tokens, (∀ others, Reads pattern.toList others ↔ others = tokens) ∧
      (matchesText pattern text = true ↔
        ∃ pieces, pieces.flatten = text.toList ∧ List.Forall₂ Symbol.Takes tokens pieces) :=
  ⟨symbols pattern.toList, fun _ => reads_iff,
    (matchesText_iff pattern text).trans splits_iff_pieces⟩

end GrantCache.Glob
