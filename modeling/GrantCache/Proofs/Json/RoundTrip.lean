import GrantCache.Proofs.Json.Tokens

/-!
# Written values read back

The second stage of reading puts the tokens of a value together again (`run_tokens`), on whatever
containers are open around it, as long as there is room for the value's own (`depth`). With the
first stage, `lex_chars`, this makes reading undo writing (`parse?_compact`).
-/

namespace GrantCache

/-- What comes after everything that is filed is filed at the end. -/
theorem Catalog.insert_of_lt {α : Type} {c : Catalog α} {k : String} (h : ∀ e ∈ c, e.1 < k)
    (v : α) : c.insert k v = c ++ [(k, v)] := by
  induction c with
  | nil => rfl
  | cons e rest ih =>
    obtain ⟨first, others⟩ := List.forall_mem_cons.1 h
    rw [Catalog.insert, if_neg (String.lt_asymm first), if_neg (String.ne_of_lt first).symm,
      ih others]
    rfl

namespace Json

/-! ## Levels -/

mutual

/-- How many containers are open at the deepest place of a value. -/
def depth : Json → Nat
  | .arr items => itemsDepth items + 1
  | .obj fields => fieldsDepth fields + 1
  | _ => 0

def itemsDepth : List Json → Nat
  | [] => 0
  | v :: rest => max (depth v) (itemsDepth rest)

def fieldsDepth : List (String × Json) → Nat
  | [] => 0
  | (_, v) :: rest => max (depth v) (fieldsDepth rest)

end

/-- An item is no deeper than the list says. -/
theorem depth_le_itemsDepth {items : List Json} : ∀ v ∈ items, v.depth ≤ itemsDepth items := by
  induction items with
  | nil => nofun
  | cons w rest ih =>
    rw [itemsDepth]
    refine List.forall_mem_cons.2 ⟨Nat.le_max_left _ _, fun v mem => ?_⟩
    exact Nat.le_trans (ih v mem) (Nat.le_max_right _ _)

theorem depth_le_fieldsDepth {fields : List (String × Json)} :
    ∀ e ∈ fields, e.2.depth ≤ fieldsDepth fields := by
  induction fields with
  | nil => nofun
  | cons e rest ih =>
    obtain ⟨name, v⟩ := e
    rw [fieldsDepth]
    refine List.forall_mem_cons.2 ⟨Nat.le_max_left _ _, fun e mem => ?_⟩
    exact Nat.le_trans (ih e mem) (Nat.le_max_right _ _)

/-! ## Putting tokens together -/

open Builder

variable {v : Json} {stack : List Frame} {t : Token} {more : List Token}

theorem run_of_step {b next : Builder} (h : b.step t = some next) (more : List Token) :
    b.run (t :: more) = next.run more := by
  rw [run, h]
  rfl

/-- With these containers open around it, reading the tokens of the value gives the value to the
innermost of them. -/
def Gives (v : Json) (stack : List Frame) : Prop :=
  ∀ more, run ⟨.value, stack⟩ (tokens v ++ more) = run (give v stack) more

/-- The first item of an array is read like any other one. -/
theorem run_firstItem (v : Json) (stack : List Frame) (more : List Token) :
    run ⟨.firstItem, stack⟩ (tokens v ++ more) =
      run ⟨.value, .array [] :: stack⟩ (tokens v ++ more) := by
  cases v <;> simp only [tokens, List.cons_append, List.nil_append, run] <;> rfl

theorem run_firstItem_items (v : Json) (rest : List Json) (stack : List Frame) (more : List Token) :
    run ⟨.firstItem, stack⟩ (itemTokens (v :: rest) ++ more) =
      run ⟨.value, .array [] :: stack⟩ (itemTokens (v :: rest) ++ more) := by
  cases rest with
  | nil => exact run_firstItem v stack more
  | cons w rest =>
    rw [itemTokens, List.append_assoc]
    · exact run_firstItem v stack _
    · exact List.cons_ne_nil w rest

/-- Items are added to the list in the order in which they come. -/
theorem run_items {items : List Json} {rev : List Json} (nonempty : items ≠ [])
    (gives : ∀ v ∈ items, ∀ rev, Gives v (.array rev :: stack)) :
    run ⟨.value, .array rev :: stack⟩ (itemTokens items ++ .closeArray :: more) =
      run (give (.arr (rev.reverse ++ items)) stack) more := by
  induction items generalizing rev with
  | nil => exact absurd rfl nonempty
  | cons v rest ih =>
    obtain ⟨first, others⟩ := List.forall_mem_cons.1 gives
    cases rest with
    | nil =>
      have closed : step ⟨.afterItem (v :: rev), stack⟩ .closeArray =
          some (give (.arr (v :: rev).reverse) stack) := rfl
      rw [itemTokens, first rev, give, run_of_step closed, List.reverse_cons]
    | cons w rest =>
      have next : step ⟨.afterItem (v :: rev), stack⟩ .comma =
          some ⟨.value, .array (v :: rev) :: stack⟩ := rfl
      rw [itemTokens, List.append_assoc, List.cons_append, first rev, give, run_of_step next,
        ih (List.cons_ne_nil _ _) others, List.reverse_cons, List.append_assoc]
      · rfl
      · exact List.cons_ne_nil w rest

/-- A field whose name is greater than those before it is filed at the end. -/
theorem run_field {b : Builder} {name : String} {filed : Catalog Json}
    (begun : b.step (.text name) = some ⟨.colon filed name, stack⟩)
    (gives : Gives v (.object filed name :: stack)) (last : ∀ e ∈ filed, e.1 < name) :
    run b (.text name :: .colon :: tokens v ++ more) =
      run ⟨.afterField (filed ++ [(name, v)]), stack⟩ more := by
  have named : step ⟨.colon filed name, stack⟩ .colon =
      some ⟨.value, .object filed name :: stack⟩ := rfl
  rw [List.cons_append, run_of_step begun, List.cons_append, run_of_step named, gives, give,
    Catalog.insert_of_lt last]

/-- Fields are filed in the order in which they come, which is that of the catalog. -/
theorem run_fields {b : Builder} {e : String × Json} {rest : List (String × Json)}
    {filed : Catalog Json} (begun : b.step (.text e.1) = some ⟨.colon filed e.1, stack⟩)
    (gives : ∀ e' ∈ e :: rest, ∀ filed, Gives e'.2 (.object filed e'.1 :: stack))
    (sorted : Catalog.Sorted (filed ++ e :: rest)) :
    run b (fieldTokens (e :: rest) ++ .closeObject :: more) =
      run (give (.obj (filed ++ e :: rest)) stack) more := by
  induction rest generalizing b e filed with
  | nil =>
    obtain ⟨name, v⟩ := e
    have last : ∀ e ∈ filed, e.1 < name := fun e mem =>
      (List.pairwise_append.1 sorted).2.2 e mem (name, v) (List.mem_cons_self ..)
    rw [fieldTokens, run_field begun (gives _ (List.mem_cons_self ..) filed) last]
    exact run_of_step rfl more
  | cons e' rest ih =>
    obtain ⟨name, v⟩ := e
    obtain ⟨first, others⟩ := List.forall_mem_cons.1 gives
    have last : ∀ e ∈ filed, e.1 < name := fun e mem =>
      (List.pairwise_append.1 sorted).2.2 e mem (name, v) (List.mem_cons_self ..)
    have next : step ⟨.afterField (filed ++ [(name, v)]), stack⟩ .comma =
        some ⟨.name (filed ++ [(name, v)]), stack⟩ := rfl
    -- Once it is read, the first field counts among those filed before.
    have shifted : filed ++ (name, v) :: e' :: rest = (filed ++ [(name, v)]) ++ e' :: rest := by
      simp
    rw [fieldTokens, List.append_assoc, run_field begun (first filed) last, List.cons_append,
      run_of_step next, ih rfl others (shifted ▸ sorted), shifted]
    exact List.cons_ne_nil e' rest

/-- Reading the tokens of a value gives that value, if there is room for its containers. -/
theorem gives_of_depth (h : v.Whole) (room : stack.length + v.depth ≤ maxWaiting + 1) :
    Gives v stack := by
  induction h generalizing stack with
  | null => exact fun more => run_of_step rfl more
  | bool b => exact fun more => run_of_step rfl more
  | int h => exact fun more => run_of_step rfl more
  | str s => exact fun more => run_of_step rfl more
  -- Each container takes a place on the stack, and leaves one level less to its items.
  | @arr items _ ih =>
    intro more
    rw [depth] at room
    have fits : stack.length ≤ maxWaiting := by omega
    have opened : step ⟨.value, stack⟩ .openArray = some ⟨.firstItem, stack⟩ := if_pos fits
    have gives (v : Json) (mem : v ∈ items) (rev : List Json) : Gives v (.array rev :: stack) := by
      have level := depth_le_itemsDepth v mem
      exact ih v mem (by rw [List.length_cons]; omega)
    rw [tokens, List.append_assoc, List.cons_append, run_of_step opened]
    cases items with
    | nil => exact run_of_step rfl more
    | cons w rest =>
      exact (run_firstItem_items w rest stack _).trans (run_items (List.cons_ne_nil w rest) gives)
  | @obj fields sorted _ ih =>
    intro more
    rw [depth] at room
    have fits : stack.length ≤ maxWaiting := by omega
    have opened : step ⟨.value, stack⟩ .openObject = some ⟨.firstName, stack⟩ := if_pos fits
    have gives (e : String × Json) (mem : e ∈ fields) (filed : Catalog Json) :
        Gives e.2 (.object filed e.1 :: stack) := by
      have level := depth_le_fieldsDepth e mem
      exact ih e mem (by rw [List.length_cons]; omega)
    rw [tokens, List.append_assoc, List.cons_append, run_of_step opened]
    cases fields with
    | nil => exact run_of_step rfl more
    | cons e rest =>
      have begun : step ⟨.firstName, stack⟩ (.text e.1) = some ⟨.colon [] e.1, stack⟩ := rfl
      exact run_fields begun gives sorted

/-- What is written of a value with whole numbers and not too many levels reads back as it. -/
theorem parse?_compact (h : v.Whole) (levels : v.depth < 128) : parse? v.compact = some v := by
  have room : ([] : List Frame).length + v.depth ≤ maxWaiting + 1 := by
    rw [List.length_nil, maxWaiting]
    omega
  have built := gives_of_depth h room []
  rw [List.append_nil] at built
  rw [parse?, ofChars?, compact, String.toList_ofList, lex_chars h, Option.bind_some, ofTokens?,
    built]
  rfl

end Json

end GrantCache
