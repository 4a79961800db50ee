/-!
# Catalogs

A catalog files one value under each of a number of texts, in increasing order of text (by code
point, which is also the order of the UTF-8 bytes). `insert` replaces what was filed under the
same text. Reading after writing needs no order (`find?_insert`); `Sorted` is kept by every
operation and makes the entries' order canonical.
-/

namespace GrantCache

/-- Values filed under texts. -/
abbrev Catalog (α : Type) := List (String × α)

namespace Catalog

variable {α : Type}

/-- Strictly increasing texts: the order in which a catalog is listed. -/
def Sorted (c : Catalog α) : Prop := c.Pairwise fun a b => a.1 < b.1

/-- What is filed under a text. -/
def find? (k : String) : Catalog α → Option α
  | [] => none
  | (k', v) :: rest => if k' = k then some v else find? k rest

/-- File `v` under `k`, in place of what was there. -/
def insert (k : String) (v : α) : Catalog α → Catalog α
  | [] => [(k, v)]
  | (k', v') :: rest =>
    if k < k' then (k, v) :: (k', v') :: rest
    else if k = k' then (k, v) :: rest
    else (k', v') :: insert k v rest

def erase (k : String) (c : Catalog α) : Catalog α := c.filter fun e => e.1 ≠ k

def keys (c : Catalog α) : List String := c.map (·.1)

def holds (k : String) (c : Catalog α) : Bool := (c.find? k).isSome

/-- File one value after another; of two under one text the later stays. -/
def ofList (entries : List (String × α)) : Catalog α :=
  entries.foldl (fun c e => c.insert e.1 e.2) []

/-! ### Reading after writing -/

@[simp] theorem find?_nil (k : String) : find? k ([] : Catalog α) = none := rfl

@[simp] theorem find?_insert_self (k : String) (v : α) (c : Catalog α) :
    find? k (insert k v c) = some v := by
  induction c with
  | nil => simp [insert, find?]
  | cons e rest ih =>
    obtain ⟨k', v'⟩ := e
    rw [insert]
    split
    · simp [find?]
    · split
      · simp [find?]
      · rename_i h
        simp [find?, Ne.symm h, ih]

/-- Filing under one text leaves what is filed under another. -/
theorem find?_insert_of_ne {k k' : String} (h : k ≠ k') (v : α) (c : Catalog α) :
    find? k' (insert k v c) = find? k' c := by
  induction c with
  | nil => simp [insert, find?, h]
  | cons e rest ih =>
    obtain ⟨k'', v''⟩ := e
    rw [insert]
    split
    · simp [find?, h]
    · split
      · rename_i he
        subst he
        simp [find?, h]
      · simp [find?, ih]

/-- A write under `k` is seen under `k` and nowhere else. -/
theorem find?_insert (k k' : String) (v : α) (c : Catalog α) :
    find? k' (insert k v c) = if k = k' then some v else find? k' c := by
  split
  · rename_i h
    rw [← h, find?_insert_self]
  · rename_i h
    exact find?_insert_of_ne h v c

@[simp] theorem find?_erase_self (k : String) (c : Catalog α) : find? k (erase k c) = none := by
  induction c with
  | nil => rfl
  | cons e rest ih =>
    by_cases h : e.1 = k
    · simpa [erase, h] using ih
    · simpa [erase, h, find?] using ih

theorem find?_erase_of_ne {k k' : String} (h : k ≠ k') (c : Catalog α) :
    find? k' (erase k c) = find? k' c := by
  induction c with
  | nil => rfl
  | cons e rest ih =>
    obtain ⟨k'', v''⟩ := e
    by_cases he : k'' = k
    · subst he
      simpa [erase, find?, h] using ih
    · by_cases he' : k'' = k'
      · subst he'
        simp [erase, find?, he]
      · simpa [erase, find?, he, he'] using ih

/-! ### Order -/

theorem sorted_nil : Sorted ([] : Catalog α) := List.Pairwise.nil

/-- A catalog with one more entry lists that entry and what it listed before. -/
theorem mem_insert {k : String} {v : α} {e : String × α} {c : Catalog α} :
    e ∈ insert k v c → e = (k, v) ∨ e ∈ c := by
  induction c with
  | nil => simp [insert]
  | cons e' rest ih =>
    obtain ⟨k', v'⟩ := e'
    rw [insert]
    split
    · simp
    · split
      · simp only [List.mem_cons]
        rintro (h | h)
        · exact Or.inl h
        · exact Or.inr (Or.inr h)
      · simp only [List.mem_cons]
        rintro (h | h)
        · exact Or.inr (Or.inl h)
        · exact (ih h).imp_right Or.inr

theorem Sorted.insert {c : Catalog α} (h : Sorted c) (k : String) (v : α) :
    Sorted (c.insert k v) := by
  induction c with
  | nil => simp [Catalog.insert, Sorted]
  | cons e rest ih =>
    obtain ⟨k', v'⟩ := e
    obtain ⟨hlt, hrest⟩ := List.pairwise_cons.1 h
    rw [Catalog.insert]
    split
    · rename_i hk
      refine List.pairwise_cons.2 ⟨?_, h⟩
      rintro a ha
      rcases List.mem_cons.1 ha with rfl | ha
      · exact hk
      · exact String.lt_trans hk (hlt a ha)
    · split
      · rename_i hk
        subst hk
        exact List.pairwise_cons.2 ⟨hlt, hrest⟩
      · rename_i hnot hne
        refine List.pairwise_cons.2 ⟨?_, ih hrest⟩
        intro a ha
        rcases mem_insert ha with rfl | ha
        · exact String.not_le.1 fun hle => hne (String.le_antisymm hle (String.not_lt.1 hnot))
        · exact hlt a ha

theorem Sorted.erase {c : Catalog α} (h : Sorted c) (k : String) : Sorted (c.erase k) :=
  List.Pairwise.filter _ h

end Catalog

end GrantCache
