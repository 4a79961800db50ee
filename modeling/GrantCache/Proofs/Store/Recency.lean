import GrantCache.Proofs.Store.Requests

/-!
# The order in which entries are evicted

The entries of a store are listed in order of use, and the last one is the one that is evicted. A key
that was written after another one therefore outlives it, for as long as the other one is not used
again. `Store.Ahead` says so of the set that a user was added to after the user's own entry was
written: the entry is not held any more, or the set is met before it and the user is in it. Writes of
other keys and additions to sets keep it so, whatever they evict.
-/

namespace GrantCache

/-! ## One key before another -/

namespace Catalog

variable {α : Type} {first second k : String} {P : α → Prop} {v : α} {c : Catalog α}

/-- Going through a catalog, `first` is met before `second`, and what it holds has `P`. Neither need
be met at all. -/
def Precedes (first second : String) (P : α → Prop) : Catalog α → Prop
  | [] => True
  | (k, v) :: rest => if k = first then P v else k ≠ second ∧ Precedes first second P rest

theorem precedes_cons_first (h : P v) : Precedes first second P ((first, v) :: c) := by
  rw [Precedes, if_pos rfl]
  exact h

/-- A third key at the front changes nothing about which of two comes first. -/
theorem precedes_cons_of_ne (hf : k ≠ first) (hs : k ≠ second) (h : Precedes first second P c) :
    Precedes first second P ((k, v) :: c) := by
  rw [Precedes, if_neg hf]
  exact ⟨hs, h⟩

/-- Removing a key other than the first of the two keeps the order. -/
theorem Precedes.erase (h : Precedes first second P c) (hk : k ≠ first) :
    Precedes first second P (c.erase k) := by
  induction c with
  | nil => exact h
  | cons e c ih =>
    obtain ⟨k', v'⟩ := e
    rw [Precedes] at h
    by_cases he : k' = k
    · -- the entry that goes stands before the rest
      rw [if_neg (he ▸ hk)] at h
      simpa [Catalog.erase, he] using ih h.2
    · have stays : Catalog.erase k ((k', v') :: c) = (k', v') :: Catalog.erase k c := by
        simp [Catalog.erase, he]
      rw [stays, Precedes]
      split
      · rename_i hf
        rwa [if_pos hf] at h
      · rename_i hf
        rw [if_neg hf] at h
        exact ⟨h.1, ih h.2⟩

/-- Dropping the last entry, as an eviction does, takes the second of the two keys before the first.
-/
theorem Precedes.dropLast (h : Precedes first second P c) : Precedes first second P c.dropLast := by
  -- The last entry comes after everything that the definition looks at, unless it is alone.
  induction c with
  | nil => exact h
  | cons e c ih =>
    cases c with
    | nil => trivial
    | cons e' c =>
      rw [List.dropLast_cons_cons, Precedes]
      rw [Precedes] at h
      split
      · rename_i hf
        rwa [if_pos hf] at h
      · rename_i hf
        rw [if_neg hf] at h
        exact ⟨h.1, ih h.2⟩

/-- Where `second` is held, `first` is held, too. -/
theorem Precedes.find? (h : Precedes first second P c) (hs : second ∈ c.keys) :
    ∃ v, c.find? first = some v ∧ P v := by
  induction c with
  | nil => cases hs
  | cons e c ih =>
    obtain ⟨k, v⟩ := e
    rw [Precedes] at h
    rw [find?_cons]
    split at h
    · rename_i hf
      exact ⟨v, if_pos hf, h⟩
    · rename_i hf
      rw [if_neg hf]
      exact ih h.2 ((List.mem_cons.1 hs).resolve_left fun he => h.1 he.symm)

end Catalog

namespace Store

variable {s : Store} {now : Nat} {entry index user key : String}

open Catalog (Precedes)

/-! ## The set before the entry -/

/-- A set that never expires and that the user is in. -/
def Shows (user : String) (e : Entry) : Prop := ∃ names, e = ⟨.set names, none⟩ ∧ user ∈ names

/-- The entry is not held any more, or the set that shows the user was used after it. -/
def Ahead (entry index user : String) (s : Store) : Prop :=
  entry ∉ s.entries.keys ∨ Precedes index entry (Shows user) s.entries

/-- Writing another key brings no removed key back. -/
theorem gone_hold (h : entry ∉ s.entries.keys) (he : key ≠ entry) (e : Entry) :
    entry ∉ (s.hold key e).entries.keys := by
  intro hm
  rcases List.mem_cons.1 hm with hm | hm
  · exact he hm.symm
  · exact h (Catalog.mem_keys_erase.1 hm).2

/-- Writing a third key, which moves to the front, keeps the index ahead of the entry. -/
theorem Ahead.hold (h : s.Ahead entry index user) (he : key ≠ entry) (hi : key ≠ index) (e : Entry) :
    (s.hold key e).Ahead entry index user := by
  rcases h with gone | before
  · exact Or.inl (gone_hold gone he e)
  · exact Or.inr (Catalog.precedes_cons_of_ne hi he (before.erase hi))

/-- To use the set makes it the one used last. -/
theorem ahead_hold_index {e : Entry} (h : Shows user e) : (s.hold index e).Ahead entry index user :=
  Or.inr (Catalog.precedes_cons_first h)

/-- Removing any key but the index keeps the index ahead of the entry. -/
theorem Ahead.drop (h : s.Ahead entry index user) (hi : key ≠ index) :
    (s.drop key).Ahead entry index user :=
  h.imp (fun gone hm => gone (Catalog.mem_keys_erase.1 hm).2) fun before => before.erase hi

/-- An eviction takes the entry before it takes the index. -/
theorem Ahead.evict (h : s.Ahead entry index user) : s.evict.1.Ahead entry index user := by
  unfold Store.evict
  split
  · exact h.imp (fun gone hm => gone (((List.dropLast_sublist _).map _).mem hm)) Precedes.dropLast
  · exact h

/-- Writing a third key, with the eviction that may follow, keeps the index ahead of the entry. -/
theorem Ahead.write (h : s.Ahead entry index user) (he : key ≠ entry) (hi : key ≠ index) (e : Entry) :
    (s.write key e).1.Ahead entry index user := by
  unfold Store.write
  split
  · exact h.hold he hi e
  · split
    · exact h.hold he hi e
    · exact h.evict.hold he hi e

/-- An index that was just written with the user in it is ahead of everything. -/
theorem ahead_write_index {e : Entry} (h : Shows user e) :
    (s.write index e).1.Ahead entry index user := by
  unfold Store.write
  split
  · exact ahead_hold_index h
  · split
    · exact ahead_hold_index h
    · exact ahead_hold_index h

theorem gone_evict (h : entry ∉ s.entries.keys) : entry ∉ s.evict.1.entries.keys := by
  unfold Store.evict
  split
  · exact fun hm => h (((List.dropLast_sublist _).map _).mem hm)
  · exact h

theorem gone_write (h : entry ∉ s.entries.keys) (he : key ≠ entry) (e : Entry) :
    entry ∉ (s.write key e).1.entries.keys := by
  unfold Store.write
  split
  · exact gone_hold h he e
  · split
    · exact gone_hold h he e
    · exact gone_hold (gone_evict h) he e

theorem gone_use (h : entry ∉ s.entries.keys) (he : key ≠ entry) (now : Nat) :
    entry ∉ (s.use now key).2.entries.keys := by
  unfold Store.use
  split
  · split
    · exact gone_hold h he _
    · exact fun hm => h (Catalog.mem_keys_erase.1 hm).2
  · exact h

/-! ## Caching and adding -/

theorem Ahead.use (h : s.Ahead entry index user) (he : key ≠ entry) (hi : key ≠ index) (now : Nat) :
    (s.use now key).2.Ahead entry index user := by
  unfold Store.use
  split
  · split
    · exact h.hold he hi _
    · exact h.drop hi
  · exact h

theorem Ahead.set (h : s.Ahead entry index user) (he : key ≠ entry) (hi : key ≠ index) (now : Nat)
    (value : Json) (ttl : Option Nat) : (s.set now key value ttl).state.Ahead entry index user := by
  unfold Store.set
  split
  · exact h
  · exact h.write he hi _

theorem Ahead.addMembers (h : s.Ahead entry index user) (he : key ≠ entry) (hi : key ≠ index)
    (now : Nat) (names : List String) :
    (s.addMembers now key names).state.Ahead entry index user := by
  have used := h.use he hi now
  unfold Store.addMembers
  split
  · rename_i hu
    rw [hu] at used
    exact used.hold he hi _
  · rename_i hu
    rwa [hu] at used
  · rename_i hu
    rw [hu] at used
    split
    · exact used
    · exact used.write he hi _

/-- Whoever is added to the set itself, the user stays in it, or the entry is gone. -/
theorem Ahead.addMembers_index (h : s.Ahead entry index user) (he : index ≠ entry) (now : Nat)
    (names : List String) : (s.addMembers now index names).state.Ahead entry index user := by
  -- While the entry is held the set is held before it; without the entry nothing is asked.
  by_cases hm : entry ∈ s.entries.keys
  · -- the set is held, and it shows the user
    rcases h with gone | before
    · exact absurd hm gone
    obtain ⟨_, hf, old, rfl, hu⟩ := before.find? hm
    have live : s.live? now index = some ⟨.set old, none⟩ := by
      rw [live?, hf]
      rfl
    rw [Store.addMembers, use_of_live live]
    exact ahead_hold_index ⟨_, rfl, Members.mem_union.2 (Or.inr hu)⟩
  · have gone := gone_use hm he now
    unfold Store.addMembers
    split
    · rename_i hu
      rw [hu] at gone
      exact Or.inl (gone_hold gone he _)
    · rename_i hu
      rw [hu] at gone
      exact Or.inl gone
    · rename_i hu
      rw [hu] at gone
      split
      · exact Or.inl gone
      · exact Or.inl (gone_write gone he _)

/-- Once the user is added to the set, the set is ahead. -/
theorem ahead_addMembers_self (sets : ∀ e, s.live? now index = some e → ∃ names, e = ⟨.set names, none⟩) :
    (s.addMembers now index [user]).state.Ahead entry index user := by
  have found := use_fst now index s
  unfold Store.addMembers
  split
  · rename_i old deadline t hu
    rw [hu] at found
    -- A set that is alive does not expire, so it stays one that shows the user.
    obtain ⟨names, hn⟩ := sets _ found.symm
    cases hn
    exact ahead_hold_index ⟨_, rfl, Members.mem_union.2 (Or.inl (List.mem_singleton_self user))⟩
  · rename_i v deadline t hu
    rw [hu] at found
    obtain ⟨names, hn⟩ := sets _ found.symm
    cases hn
  · simp only [List.isEmpty_cons, Bool.false_eq_true, if_false]
    exact ahead_write_index ⟨_, rfl, Members.mem_union.2 (Or.inl (List.mem_singleton_self user))⟩

end Store

end GrantCache
