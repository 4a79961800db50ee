import Mathlib.Data.Finset.Sort
import Mathlib.Data.String.Basic
import GrantCache.Store

/-!
# Sets of names

The names of a set are listed in strict order (`Listed`). Such a list is one of the set of its
names, the only one (`sort_toFinset`), and the changes that a store makes to it are those of the
set.
-/

namespace GrantCache.Members

/-- In strict order, so that no name comes twice. -/
def Listed (names : List String) : Prop := names.Pairwise (· < ·)

variable {names set : List String}

theorem Listed.nodup (h : Listed names) : names.Nodup := List.Pairwise.imp ne_of_lt h

/-- The list is as long as its set is large, so counting names is counting elements. -/
theorem Listed.length (h : Listed names) : names.length = names.toFinset.card :=
  (List.toFinset_card_of_nodup h.nodup).symm

/-- The list is the only one in order that has these names. -/
theorem Listed.sort_toFinset (h : Listed names) : names.toFinset.sort (· ≤ ·) = names :=
  (List.toFinset_sort (· ≤ ·) h.nodup).2 (List.Pairwise.imp le_of_lt h)

/-! ## Adding -/

/-- A name that is put in its place leaves the list in order. -/
theorem Listed.insert (h : Listed set) (name : String) : Listed (insert name set) := by
  induction set with
  | nil => exact List.pairwise_singleton _ _
  | cons x rest ih =>
    obtain ⟨below, sorted⟩ := List.pairwise_cons.1 h
    rw [Members.insert]
    split
    · rename_i before
      refine List.pairwise_cons.2 ⟨fun y hy => ?_, h⟩
      rcases List.mem_cons.1 hy with rfl | hy
      · exact before
      · exact lt_trans before (below y hy)
    · split
      · exact h
      · rename_i notBefore notSame
        refine List.pairwise_cons.2 ⟨fun y hy => ?_, ih sorted⟩
        rcases mem_insert.1 hy with rfl | hy
        · exact lt_of_le_of_ne (not_lt.1 notBefore) (Ne.symm notSame)
        · exact below y hy

/-- Names that are added one after another leave the list in order. -/
theorem Listed.union (h : Listed set) (names : List String) : Listed (union set names) := by
  unfold Members.union
  induction names generalizing set with
  | nil => exact h
  | cons n rest ih => exact ih (h.insert n)

/-- Adding names is the union of sets. -/
theorem toFinset_union (set names : List String) :
    (union set names).toFinset = set.toFinset ∪ names.toFinset := by
  ext x
  simp only [List.mem_toFinset, Finset.mem_union, mem_union]
  exact Or.comm

/-- How much longer the list gets is how many of the names were new. -/
theorem Listed.length_union (h : Listed set) (names : List String) :
    (Members.union set names).length - set.length = (names.toFinset \ set.toFinset).card := by
  rw [(h.union names).length, h.length, toFinset_union, Finset.union_comm,
    ← Finset.card_sdiff_add_card, Nat.add_sub_cancel]

theorem ofList_eq_union (names : List String) : ofList names = union [] names := rfl

/-! ## Taking out -/

theorem Listed.remove (h : Listed set) (names : List String) : Listed (remove set names) :=
  List.Pairwise.filter _ h

/-- Taking names out is the difference of sets. -/
theorem toFinset_remove (set names : List String) :
    (remove set names).toFinset = set.toFinset \ names.toFinset := by
  ext x
  simp [Members.remove]

/-- How much shorter the list gets is how many of the names were there. -/
theorem Listed.length_remove (h : Listed set) (names : List String) :
    set.length - (Members.remove set names).length = (set.toFinset ∩ names.toFinset).card := by
  rw [(h.remove names).length, h.length, toFinset_remove]
  have whole := Finset.card_sdiff_add_card_inter set.toFinset names.toFinset
  omega

theorem isEmpty_iff_toFinset (names : List String) :
    names.isEmpty = false ↔ names.toFinset.Nonempty := by
  rw [← Bool.not_eq_true, List.isEmpty_iff, List.toFinset_nonempty_iff]

end GrantCache.Members
