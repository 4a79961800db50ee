import GrantCache.Proofs.Grants.Live

/-!
# Index writes at work

A step of an index write adds its user to the set under its first key (`proceed_cases`). All that is
queued runs step by step (`drain_induction`), and then every write is done (`isDone_drain`).
-/

namespace GrantCache.Grants

variable {g : Grants} {id other : Nat}

/-! ## One step -/

/-- A write that is not done adds its user to the set under its first key; a write that is done does
nothing. -/
theorem proceed_cases (id : Nat) (g : Grants) :
    (g.proceed id = g ∧ g.upkeep.leftOf id = []) ∨
      ∃ w key rest events, g.upkeep.write? id = some w ∧ w.left = key :: rest ∧
        g.proceed id = ({ (g.ask (.addMembers key [w.user])).2 with
          upkeep := g.upkeep.proceed id } : Grants).note events := by
  rw [proceed, Upkeep.leftOf]
  cases hw : g.upkeep.write? id with
  | none => exact Or.inl ⟨rfl, rfl⟩
  | some w =>
    obtain ⟨number, user, left, seen⟩ := w
    cases left with
    | nil => exact Or.inl ⟨rfl, rfl⟩
    | cons key rest =>
      refine Or.inr ?_
      -- The store leaves the tracking alone, whatever it answers.
      have same := upkeep_ask (.addMembers key [user]) g
      rcases hr : g.ask (.addMembers key [user]) with ⟨response, t⟩
      obtain same : t.upkeep = g.upkeep := by rwa [hr] at same
      cases response with
      | fault f =>
        refine ⟨_, key, rest, [.notice (.indexNotUpdated key user f)], rfl, rfl, ?_⟩
        simp only [hr, same]
      | ok n => exact ⟨_, key, rest, [], rfl, rfl, by simp only [hr, same, note_nil]⟩
      | beyondClock => exact ⟨_, key, rest, [], rfl, rfl, by simp only [hr, same, note_nil]⟩

/-- A step of a write takes one key from what it has left. -/
theorem leftOf_proceed (id other : Nat) (g : Grants) :
    (g.proceed id).upkeep.leftOf other =
      if other = id then (g.upkeep.leftOf id).tail else g.upkeep.leftOf other := by
  rcases proceed_cases id g with ⟨same, done⟩ | ⟨w, key, rest, events, hw, hl, he⟩
  · rw [same]
    split
    · rename_i ho
      rw [ho, done, List.tail_nil]
    · rfl
  · rw [he]
    exact Upkeep.leftOf_proceed id other g.upkeep

theorem tidy_proceed (h : g.upkeep.Tidy) (id : Nat) : (g.proceed id).upkeep.Tidy := by
  rcases proceed_cases id g with ⟨same, -⟩ | ⟨w, key, rest, events, -, -, he⟩
  · rwa [same]
  · rw [he]
    exact h.proceed id

/-! ## All that is queued -/

theorem complete_induction {R : Grants → Grants → Prop} (refl : ∀ g, R g g)
    (trans : ∀ {a b c}, R a b → R b c → R a c) (step : ∀ g id, R g (g.proceed id)) (g : Grants)
    (w : IndexWrite) : R g (g.complete w) := by
  rw [complete]
  induction w.left generalizing g with
  | nil => exact refl g
  | cons key rest ih => exact trans (step g w.id) (ih _)

/-- What every step of a write keeps, the running of all that is queued keeps. -/
theorem drain_induction {R : Grants → Grants → Prop} (refl : ∀ g, R g g)
    (trans : ∀ {a b c}, R a b → R b c → R a c) (step : ∀ g id, R g (g.proceed id)) (g : Grants) :
    R g g.drain := by
  rw [drain]
  generalize g.upkeep.queued = queued
  induction queued generalizing g with
  | nil => exact refl g
  | cons w rest ih => exact trans (complete_induction refl trans step g w) (ih _)

theorem leftOf_complete (g : Grants) (w : IndexWrite) (id : Nat) :
    (g.complete w).upkeep.leftOf id =
      if id = w.id then (g.upkeep.leftOf id).drop w.left.length else g.upkeep.leftOf id := by
  rw [complete]
  induction w.left generalizing g with
  | nil => simp
  | cons key rest ih =>
    -- One step for each key that the write had when it was queued.
    rw [List.foldl_cons, ih, leftOf_proceed]
    split
    · rename_i hi
      rw [hi, List.drop_tail, List.length_cons]
    · rfl

/-- Writes that are completed leave no more to do than before. -/
theorem leftOf_completeAll (queued : List IndexWrite) (id : Nat) (g : Grants) :
    (queued.foldl complete g).upkeep.leftOf id <:+ g.upkeep.leftOf id := by
  induction queued generalizing g with
  | nil => exact List.suffix_refl _
  | cons w rest ih =>
    refine (ih _).trans ?_
    rw [leftOf_complete]
    split
    · exact List.drop_suffix ..
    · exact List.suffix_refl _

theorem leftOf_completeAll_of_mem {queued : List IndexWrite} {w : IndexWrite} (h : w ∈ queued)
    (hl : g.upkeep.leftOf w.id <:+ w.left) : (queued.foldl complete g).upkeep.leftOf w.id = [] := by
  induction queued generalizing g with
  | nil => cases h
  | cons first rest ih =>
    rw [List.foldl_cons]
    rcases List.mem_cons.1 h with rfl | h
    · -- its own turn leaves nothing
      have spent : (g.complete w).upkeep.leftOf w.id = [] := by
        rw [leftOf_complete, if_pos rfl, List.drop_eq_nil_of_le]
        exact hl.length_le
      have less := leftOf_completeAll rest w.id (g.complete w)
      rw [spent] at less
      exact List.suffix_nil.1 less
    · refine ih h ?_
      refine List.IsSuffix.trans ?_ hl
      rw [leftOf_complete]
      split
      · exact List.drop_suffix ..
      · exact List.suffix_refl _

/-- When all that is queued has run, every write is done. -/
theorem isDone_drain (g : Grants) (id : Nat) : g.drain.upkeep.isDone id = true := by
  rw [Upkeep.isDone_iff, drain]
  cases hw : g.upkeep.write? id with
  | none =>
    -- A number that was never given out owes nothing.
    have nothing : g.upkeep.leftOf id = [] := by rw [Upkeep.leftOf, hw]; rfl
    have less := leftOf_completeAll g.upkeep.queued id g
    rw [nothing] at less
    exact List.suffix_nil.1 less
  | some w =>
    have mem : w ∈ g.upkeep.writes := List.mem_of_find?_eq_some hw
    obtain rfl : w.id = id := by simpa using List.find?_some hw
    have left : g.upkeep.leftOf w.id = w.left := by rw [Upkeep.leftOf, hw]; rfl
    cases hd : w.isDone with
    | false =>
      have queued : w ∈ g.upkeep.queued := List.mem_filter.2 ⟨mem, by simp [hd]⟩
      exact leftOf_completeAll_of_mem queued (left ▸ List.suffix_refl _)
    | true =>
      have nothing : w.left = [] := List.isEmpty_iff.1 hd
      have less := leftOf_completeAll g.upkeep.queued w.id g
      rw [left, nothing] at less
      exact List.suffix_nil.1 less

/-! ## Waiting -/

/-- To wait is to note that a write is done, at once or when all that is queued has run. -/
theorem await_cases (id : Nat) (g : Grants) :
    g.upkeep.isDone id = true ∧ g.await id = { g with upkeep := g.upkeep.see id } ∨
      g.await id = { g.drain with upkeep := g.drain.upkeep.see id } := by
  rw [await]
  split
  · rename_i ready
    exact .inl ⟨(Bool.and_eq_true_iff.1 ready).1, rfl⟩
  · exact .inr rfl

theorem await_of_waits (h : g.upkeep.isDone id = false) :
    g.await id = { g.drain with upkeep := g.drain.upkeep.see id } := by
  rw [await, if_neg (by simp [h])]

/-- Nobody gives way who has not found writes done before. -/
theorem await_of_looks (h : g.upkeep.isDone id = true) (looks : g.upkeep.looks = 0) :
    g.await id = { g with upkeep := g.upkeep.see id } := by
  rw [await, if_pos]
  simp [h, Upkeep.givesWay, looks, Upkeep.patience]

/-- Where somebody has to wait, some write makes progress. -/
theorem looks_drain (h : g.upkeep.isDone id = false) : g.drain.upkeep.looks = 0 := by
  have progress : g.drain.upkeep.looks = 0 ∨ g.drain = g := by
    refine drain_induction (R := fun g g' => g'.upkeep.looks = 0 ∨ g' = g) (fun _ => .inr rfl)
      (fun first second => ?_) (fun g id => ?_) g
    · rcases second with zero | rfl
      · exact .inl zero
      · exact first
    · rcases proceed_cases id g with ⟨same, -⟩ | ⟨w, key, rest, events, -, -, he⟩
      · exact .inr same
      · rw [he]
        exact .inl rfl
  refine progress.resolve_right fun same => ?_
  rw [← same, isDone_drain] at h
  cases h

/-- What every step of a write keeps, and the note that a write is done, waiting keeps. -/
theorem await_induction {R : Grants → Grants → Prop} (refl : ∀ g, R g g)
    (trans : ∀ {a b c}, R a b → R b c → R a c) (step : ∀ g id, R g (g.proceed id))
    (seen : ∀ g id, g.upkeep.isDone id = true → R g { g with upkeep := g.upkeep.see id })
    (g : Grants) (id : Nat) : R g (g.await id) := by
  obtain ⟨done, waited⟩ | waited := await_cases id g
  · rw [waited]
    exact seen g id done
  · -- all that is queued runs, and then the write is done
    rw [waited]
    exact trans (drain_induction refl trans step g) (seen g.drain id (isDone_drain g id))

/-- Who waits for writes to be done waits only until all that is queued has run. -/
theorem wait_of_waits (e : Effect) (g : Grants) (h : waits e g = true) :
    waits e g.drain = false ∧ perform e g = perform e g.drain := by
  cases e with
  | await id =>
    have undone : g.upkeep.isDone id = false := by simpa [waits] using h
    refine ⟨by simp [waits, isDone_drain], ?_⟩
    rw [perform, perform, await_of_waits undone,
      await_of_looks (isDone_drain g id) (looks_drain undone)]
  | _ => cases h

end GrantCache.Grants
