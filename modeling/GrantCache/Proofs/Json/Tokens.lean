import GrantCache.Json.Reader
import GrantCache.Json.Writer
import Mathlib.Data.List.TakeWhile
import Mathlib.Data.Option.Basic

/-!
# The tokens of written values

Written text is read in two stages, and so is the proof that it reads back. This module is about the
first one: `tokens` says which tokens a value consists of, and the text of a value is cut into just
these, whatever comes after it (`lexes_chars`). Only what follows a literal matters: a character that
could belong to the literal itself would prolong it (`Parted`).

`Whole` collects the values that the text stands for: integers are in one of the two 64-bit ranges,
there are no other numbers, and the fields of an object are filed in order, none twice.
-/

namespace GrantCache.Json

/-- A value whose numbers are integers of a 64-bit range. -/
inductive Whole : Json → Prop
  | null : Whole .null
  | bool (b : Bool) : Whole (.bool b)
  | int {n : Int} (h : IsInteger n) : Whole (.int n)
  | str (s : String) : Whole (.str s)
  | arr {items : List Json} (h : ∀ v ∈ items, Whole v) : Whole (.arr items)
  | obj {fields : List (String × Json)} (sorted : Catalog.Sorted fields)
      (h : ∀ e ∈ fields, Whole e.2) : Whole (.obj fields)

mutual

/-- The tokens that a value consists of. -/
def tokens : Json → List Token
  | .str s => [.text s]
  | .arr items => .openArray :: itemTokens items ++ [.closeArray]
  | .obj fields => .openObject :: fieldTokens fields ++ [.closeObject]
  | v => [.literal v]

def itemTokens : List Json → List Token
  | [] => []
  | [v] => tokens v
  | v :: rest => tokens v ++ .comma :: itemTokens rest

def fieldTokens : List (String × Json) → List Token
  | [] => []
  | [(k, v)] => .text k :: .colon :: tokens v
  | (k, v) :: rest => .text k :: .colon :: tokens v ++ .comma :: fieldTokens rest

end

/-- Text that does not go on with a character of which literals are made. -/
def Parted (rest : List Char) : Prop := ∀ c ∈ rest.head?, isBare c = false

/-- Reading these characters, and then what follows, gives the tokens and then those of what
follows. -/
def Lexes (cs : List Char) (ts : List Token) : Prop :=
  ∀ rest, Parted rest → lex .between (cs ++ rest) = (lex .between rest).map (ts ++ ·)

variable {c : Char} {cs more rest : List Char} {ts others : List Token} {rev : List Char}

/-- Reading takes one character after another. -/
theorem lex_cons (s : Scan) (c : Char) (rest : List Char) :
    lex s (c :: rest) =
      (s.step c).bind fun x => (lex x.1 rest).map (x.2 ++ ·) := by
  rw [lex]
  cases s.step c with
  | none => rfl
  | some x =>
    obtain ⟨next, ts⟩ := x
    simp only [Option.bind_eq_bind, Option.bind_some]
    cases lex next rest <;> rfl

theorem lex_of_step {s next : Scan} (h : s.step c = some (next, ts)) (rest : List Char) :
    lex s (c :: rest) = (lex next rest).map (ts ++ ·) := by
  rw [lex_cons, h, Option.bind_some]

/-- Within a token a character only changes the state. -/
theorem lex_within {s next : Scan} (h : s.step c = some (next, [])) (rest : List Char) :
    lex s (c :: rest) = lex next rest := by
  rw [lex_of_step h]
  cases lex next rest <;> rfl

/-! ## Literals -/

theorem not_isBlank_of_isBare (h : isBare c = true) : isBlank c = false := by
  rw [Bool.eq_false_iff]
  intro blank
  have which : c = ' ' ∨ c = '\n' ∨ c = '\r' ∨ c = '\t' := by
    simpa [isBlank, or_assoc] using blank
  rcases which with rfl | rfl | rfl | rfl <;> revert h <;> decide

theorem ne_quote_of_isBare (h : isBare c = true) : c ≠ '"' := by
  rintro rfl
  revert h
  decide

/-- In a literal further characters of literals are taken. -/
theorem lex_literal {v : Json} (bare : ∀ c ∈ cs, isBare c = true) (parted : Parted rest)
    (reads : literal? (rev.reverse ++ cs) = some v) :
    lex (.literal rev) (cs ++ rest) = (lex .between rest).map (.literal v :: ·) := by
  induction cs generalizing rev with
  | nil =>
    rw [List.append_nil] at reads
    cases rest with
    | nil => simp [lex, reads]
    | cons d more =>
      -- the character that ends the literal is the first of what follows
      have ended : (Scan.literal rev).step d =
          (Scan.between.step d).map fun x => (x.1, .literal v :: x.2) := by
        have apart : ¬ isBare d = true := by simp [parted d rfl]
        simp only [Scan.step, if_neg apart, reads, Option.bind_eq_bind, Option.bind_some]
        cases scanBetween d <;> rfl
      rw [List.nil_append, lex_cons, lex_cons, ended]
      cases Scan.between.step d with
      | none => rfl
      | some x => simp [Function.comp_def]
  | cons c cs ih =>
    obtain ⟨first, others⟩ := List.forall_mem_cons.1 bare
    have taken : (Scan.literal rev).step c = some (.literal (c :: rev), []) := if_pos first
    rw [List.cons_append, lex_within taken]
    exact ih others (by simpa using reads)

/-- Bare characters make one literal. -/
theorem lexes_literal {v : Json} (bare : ∀ c ∈ cs, isBare c = true) (nonempty : cs ≠ [])
    (reads : literal? cs = some v) : Lexes cs [.literal v] := by
  intro rest parted
  obtain ⟨c, cs, rfl⟩ := List.exists_cons_of_ne_nil nonempty
  obtain ⟨first, others⟩ := List.forall_mem_cons.1 bare
  have begun : Scan.between.step c = some (.literal [c], []) := by
    rw [Scan.step, scanBetween, if_neg (by simp [not_isBlank_of_isBare first]),
      if_neg (ne_quote_of_isBare first), if_pos first]
  rw [List.cons_append, lex_within begun]
  exact lex_literal others parted (by simpa using reads)

/-! ## Numbers -/

/-- Digits stand in literals. -/
theorem isBare_of_isDigit (h : Numeral.isDigit c = true) : isBare c = true := by
  simp [isBare, h]

/-- An integer is written with digits, and at most a minus sign. -/
theorem mem_intDigits {n : Int} (h : c ∈ Numeral.intDigits n) :
    c = '-' ∨ Numeral.isDigit c = true := by
  have digit {m : Nat} (h : c ∈ Numeral.digits m) : Numeral.isDigit c = true :=
    List.all_eq_true.1 (Numeral.all_isDigit_digits m) c h
  rw [Numeral.intDigits] at h
  split at h
  · exact (List.mem_cons.1 h).imp_right digit
  · exact Or.inr (digit h)

theorem intDigits_ne_nil (n : Int) : Numeral.intDigits n ≠ [] := by
  rw [Numeral.intDigits]
  split
  · exact List.cons_ne_nil _ _
  · exact Numeral.digits_ne_nil _

/-- A numeral has no leading zero, unless it is zero. -/
theorem head?_digits {n : Nat} (h : 0 < n) : (Numeral.digits n).head? ≠ some '0' := by
  induction n using Nat.strongRecOn with
  | ind n ih =>
    rw [Numeral.digits]
    split
    · rename_i small
      have all : ∀ d : Fin 10, 0 < d.val → [Numeral.digit d].head? ≠ some '0' := by decide
      exact all ⟨n, small⟩ h
    · rename_i large
      -- the first digit is that of the quotient
      obtain ⟨c, cs, hc⟩ := List.exists_cons_of_ne_nil (Numeral.digits_ne_nil (n / 10))
      have leads := ih (n / 10) (by omega) (by omega)
      rw [hc] at leads ⊢
      exact leads

/-- A numeral consists of digits only, and no zero leads it needlessly. -/
theorem whole_digits (n : Nat) :
    (Numeral.digits n).takeWhile Numeral.isDigit = Numeral.digits n ∧
      (Numeral.digits n).dropWhile Numeral.isDigit = [] ∧
      (!(Numeral.digits n).isEmpty &&
        ((Numeral.digits n).length = 1 || (Numeral.digits n).head? ≠ some '0')) = true := by
  have all : ∀ c ∈ Numeral.digits n, Numeral.isDigit c = true :=
    List.all_eq_true.1 (Numeral.all_isDigit_digits n)
  have led : (Numeral.digits n).length = 1 ∨ (Numeral.digits n).head? ≠ some '0' := by
    rcases Nat.eq_zero_or_pos n with rfl | h
    · exact Or.inl (by decide +kernel)
    · exact Or.inr (head?_digits h)
  exact ⟨List.takeWhile_eq_self_iff.2 all, List.dropWhile_eq_nil_iff.2 all,
    by simpa [Numeral.digits_ne_nil] using led⟩

/-- An integer of the unsigned range reads back as it was written. -/
theorem number?_digits {n : Nat} (h : n ≤ Nat.pow 2 64 - 1) :
    number? (Numeral.digits n) = some (.int n) := by
  obtain ⟨whole, rest, led⟩ := whole_digits n
  have unsigned (body : List Char) : Numeral.digits n ≠ '-' :: body := by
    intro same
    have all := Numeral.all_isDigit_digits n
    rw [same] at all
    cases all
  unfold number?
  split
  · rename_i negative body signed
    split at signed
    · rename_i same
      exact absurd same (unsigned _)
    · cases signed
      dsimp only
      rw [whole, rest, (Option.guard_eq_some' ()).2 led, Option.bind_eq_bind, Option.bind_some,
        Numeral.value_digits]
      exact (if_neg Bool.false_ne_true).trans (if_pos h)

theorem number?_negative {n : Nat} (pos : 0 < n) (h : n ≤ Nat.pow 2 63) :
    number? ('-' :: Numeral.digits n) = some (.int (-(n : Int))) := by
  obtain ⟨whole, rest, led⟩ := whole_digits n
  unfold number?
  split
  · rename_i negative body signed
    change (true, Numeral.digits n) = (negative, body) at signed
    cases signed
    dsimp only
    rw [whole, rest, (Option.guard_eq_some' ()).2 led, Option.bind_eq_bind, Option.bind_some,
      Numeral.value_digits]
    exact (if_pos rfl).trans (if_pos ⟨pos, h⟩)

/-- An integer of either range is read as itself, the extremes included. -/
theorem number?_intDigits {n : Int} (h : IsInteger n) :
    number? (Numeral.intDigits n) = some (.int n) := by
  obtain ⟨low, high⟩ := h
  have small : (minInteger : Int) = -((Nat.pow 2 63 : Nat) : Int) := rfl
  have large : (maxUnsigned : Int) = ((Nat.pow 2 64 - 1 : Nat) : Int) := rfl
  rw [Numeral.intDigits]
  split
  · rename_i negative
    rw [number?_negative (by omega) (by omega)]
    congr 2
    omega
  · rename_i natural
    rw [number?_digits (by omega)]
    congr 2
    omega

/-- An integer reads back as it was written. -/
theorem literal?_intDigits {n : Int} (h : IsInteger n) :
    literal? (Numeral.intDigits n) = some (.int n) := by
  have other {name : List Char} (letter : Char) (mem : letter ∈ name)
      (apart : letter ≠ '-' ∧ Numeral.isDigit letter = false) : Numeral.intDigits n ≠ name := by
    rintro rfl
    rcases mem_intDigits mem with same | digit
    · exact apart.1 same
    · simp [apart.2] at digit
  rw [literal?, if_neg (other 'u' (by decide) (by decide)),
    if_neg (other 'u' (by decide) (by decide)), if_neg (other 's' (by decide) (by decide)),
    number?_intDigits h]

/-! ## Texts -/

theorem hexValue?_hexDigit {d : Nat} (h : d < 16) : Numeral.hexValue? (hexDigit d) = some d := by
  have all : ∀ d : Fin 16, Numeral.hexValue? (hexDigit d) = some d.val := by decide
  exact all ⟨d, h⟩

/-- An escaped code below 256 is read as the character of that code. -/
theorem lex_code {n : Nat} (h : n < 256) (rev rest : List Char) :
    lex (.text rev) ('\\' :: 'u' :: '0' :: '0' :: hexDigit (n / 16) :: hexDigit (n % 16) :: rest) =
      lex (.text (Char.ofNat n :: rev)) rest := by
  have high : Numeral.hexValue? (hexDigit (n / 16)) = some (n / 16) := hexValue?_hexDigit (by omega)
  have low : Numeral.hexValue? (hexDigit (n % 16)) = some (n % 16) := hexValue?_hexDigit (by omega)
  have value : 16 * (n / 16) + n % 16 = n := by omega
  have opened : (Scan.text rev).step '\\' = some (.escape rev, []) := rfl
  have coded : (Scan.escape rev).step 'u' = some (.code rev none 3 0, []) := rfl
  have first : (Scan.code rev none 3 0).step '0' = some (.code rev none 2 0, []) := rfl
  have second : (Scan.code rev none 2 0).step '0' = some (.code rev none 1 0, []) := rfl
  have third : (Scan.code rev none 1 0).step (hexDigit (n / 16)) =
      some (.code rev none 0 (n / 16), []) := by
    simp [Scan.step, high]
  have fourth : (Scan.code rev none 0 (n / 16)).step (hexDigit (n % 16)) =
      some (.text (Char.ofNat n :: rev), []) := by
    -- no code below 256 is half of a pair
    have single : endCode rev none n = some (.text (Char.ofNat n :: rev)) := by
      rw [endCode, if_neg (by omega), if_neg (by omega)]
    simp [Scan.step, low, value, single]
  rw [lex_within opened, lex_within coded, lex_within first, lex_within second, lex_within third,
    lex_within fourth]

/-- What is escaped is read as the character that it stands for. -/
theorem lex_escape (c : Char) (rev rest : List Char) :
    lex (.text rev) (escape c ++ rest) = lex (.text (c :: rev)) rest := by
  -- Escapes by name, with the backslash and one letter.
  have named {e d : Char} (h : (Scan.escape rev).step e = some (.text (d :: rev), [])) :
      lex (.text rev) ('\\' :: e :: rest) = lex (.text (d :: rev)) rest := by
    have opened : (Scan.text rev).step '\\' = some (.escape rev, []) := rfl
    rw [lex_within opened, lex_within h]
  have whichever {n : Nat} (h : c.toNat = n) : c = Char.ofNat n := by
    rw [← h, Char.ofNat_toNat]
  -- Below the space: five control characters by name, and all others by number.
  unfold escape
  split_ifs with quote backslash control
  · subst quote
    exact named rfl
  · subst backslash
    exact named rfl
  · split
    · rename_i h
      exact whichever h ▸ named rfl
    · rename_i h
      exact whichever h ▸ named rfl
    · rename_i h
      exact whichever h ▸ named rfl
    · rename_i h
      exact whichever h ▸ named rfl
    · rename_i h
      exact whichever h ▸ named rfl
    · rw [List.cons_append, List.cons_append, List.cons_append, List.cons_append, List.cons_append,
        List.cons_append, List.nil_append, lex_code (by omega), Char.ofNat_toNat]
  · have taken : (Scan.text rev).step c = some (.text (c :: rev), []) := by
      rw [Scan.step, if_neg quote, if_neg backslash, if_neg control]
    exact lex_within taken rest

/-- What is escaped reads back as the characters it stands for. -/
theorem lex_escapes (cs rev rest : List Char) :
    lex (.text rev) (cs.flatMap escape ++ '"' :: rest) =
      (lex .between rest).map (.text (String.ofList (rev.reverse ++ cs)) :: ·) := by
  induction cs generalizing rev with
  | nil =>
    have closed : (Scan.text rev).step '"' =
        some (.between, [.text (String.ofList rev.reverse)]) := rfl
    rw [List.flatMap_nil, List.nil_append, lex_of_step closed, List.append_nil]
    rfl
  | cons c cs ih =>
    rw [List.flatMap_cons, List.append_assoc, lex_escape, ih]
    simp

theorem lexes_quoted (s : String) : Lexes (quoted s) [.text s] := by
  intro rest _
  have opened : Scan.between.step '"' = some (.text [], []) := rfl
  rw [quoted, List.append_assoc, List.cons_append, lex_within opened, List.singleton_append,
    lex_escapes]
  simp

/-! ## Containers -/

theorem lexes_nil : Lexes [] [] := by
  intro rest _
  cases h : lex .between rest <;> simp [h]

/-- A punctuation character is a token of its own. -/
theorem Lexes.punctuated {t : Token} (h : Lexes cs ts)
    (punctuation : Scan.between.step c = some (.between, [t])) : Lexes (c :: cs) (t :: ts) := by
  intro rest parted
  rw [List.cons_append, lex_of_step punctuation, h rest parted, Option.map_map]
  rfl

/-- A token ends before a character that literals are not made of. -/
theorem Lexes.append {d : Char} (first : Lexes cs ts) (apart : isBare d = false)
    (second : Lexes (d :: more) others) : Lexes (cs ++ d :: more) (ts ++ others) := by
  intro rest parted
  have ends : Parted (d :: more ++ rest) := by
    rintro _ ⟨⟩
    exact apart
  rw [List.append_assoc, first _ ends, second rest parted, Option.map_map]
  congr 1
  funext tokens
  simp

/-- Items with commas between them read as their tokens. -/
theorem lexes_itemChars {items : List Json} (h : ∀ v ∈ items, Lexes (chars v) (tokens v)) :
    Lexes (itemChars items) (itemTokens items) := by
  induction items with
  | nil => exact lexes_nil
  | cons v rest ih =>
    obtain ⟨first, others⟩ := List.forall_mem_cons.1 h
    cases rest with
    | nil => simpa only [itemChars, itemTokens] using first
    | cons w rest =>
      simp only [itemChars, itemTokens]
      exact first.append (by decide) ((ih others).punctuated rfl)

theorem lexes_field (name : String) {v : Json} (h : Lexes (chars v) (tokens v)) :
    Lexes (quoted name ++ ':' :: chars v) (.text name :: .colon :: tokens v) :=
  (lexes_quoted name).append (by decide) (h.punctuated rfl)

theorem lexes_fieldChars {fields : List (String × Json)}
    (h : ∀ e ∈ fields, Lexes (chars e.2) (tokens e.2)) :
    Lexes (fieldChars fields) (fieldTokens fields) := by
  induction fields with
  | nil => exact lexes_nil
  | cons e rest ih =>
    obtain ⟨name, v⟩ := e
    obtain ⟨first, others⟩ := List.forall_mem_cons.1 h
    cases rest with
    | nil =>
      simp only [fieldChars, fieldTokens]
      exact lexes_field name first
    | cons w rest =>
      simp only [fieldChars, fieldTokens]
      exact (lexes_field name first).append (by decide) ((ih others).punctuated rfl)

/-- Written text is cut into the tokens of the value. -/
theorem lexes_chars {v : Json} (h : v.Whole) : Lexes (chars v) (tokens v) := by
  induction h with
  | null => exact lexes_literal (List.all_eq_true.1 rfl) (List.cons_ne_nil _ _) rfl
  | bool b =>
    cases b with
    | true => exact lexes_literal (List.all_eq_true.1 rfl) (List.cons_ne_nil _ _) rfl
    | false => exact lexes_literal (List.all_eq_true.1 rfl) (List.cons_ne_nil _ _) rfl
  | @int n h =>
    refine lexes_literal (fun c mem => ?_) (intDigits_ne_nil n) (literal?_intDigits h)
    rcases mem_intDigits mem with rfl | digit
    · decide
    · exact isBare_of_isDigit digit
  | str s => exact lexes_quoted s
  | @arr items _ ih =>
    have closed : Lexes [']'] [.closeArray] := lexes_nil.punctuated rfl
    exact ((lexes_itemChars ih).append (by decide) closed).punctuated rfl
  | @obj fields _ _ ih =>
    have closed : Lexes ['\x7d'] [.closeObject] := lexes_nil.punctuated rfl
    exact ((lexes_fieldChars ih).append (by decide) closed).punctuated rfl

/-- A value that is written reads as its tokens. -/
theorem lex_chars {v : Json} (h : v.Whole) : lex .between (chars v) = some (tokens v) := by
  have read := lexes_chars h [] nofun
  rwa [List.append_nil, lex, Option.map_some, List.append_nil] at read

end GrantCache.Json
