import GrantCache.Proofs.Grants.Invalidating

/-!
# Revoking several codes

What a number of invalidations leave, one after another, can be said of the codes that they are
about taken together (`View.Revokes`): the sets of these codes and the entries of everybody in one
of them are gone, every other set has lost those of these users whose entries listed its code, and
all else is as it was. This holds of one invalidation (`View.revokes_invalidated`) and of more if it
holds of the parts (`View.Revokes.trans`), since clearing a user for one code empties the user's
entries: of the sets of the others only those keep the user that the entries did not list.

How often a code is named, and in which order, does not show in what is left
(`View.Revokes.unique`). It shows in the number of users that are counted, which is never less than
the number of those who were in the sets.
-/

namespace GrantCache

open Store (lessMembers)

namespace View

variable {v w w' u : View} {xs ys : List (GrantKind × String)} {m n : Nat} {k kind : GrantKind}
  {c code user key : String}

/-- Everybody in the sets of some codes. -/
def holders (codes : List (GrantKind × String)) (v : View) : List String :=
  codes.flatMap fun x => v.users x.1 x.2

theorem mem_holders : user ∈ v.holders xs ↔ ∃ k c, (k, c) ∈ xs ∧ user ∈ v.users k c := by
  simp [holders]

/-- What is left when everybody in the sets of some codes was cleared, and how many were counted. -/
structure Revokes (codes : List (GrantKind × String)) (count : Nat) (v w : View) : Prop where
  now : w.now = v.now
  fails : w.fails = v.fails
  sets : ∀ k c, (k, c) ∈ codes → w.item? (k.indexKey c) = none
  entries : ∀ user ∈ v.holders codes, ∀ k, w.item? (GrantKind.entryKey user k) = none
  others : ∀ k c, (k, c) ∉ codes → w.item? (k.indexKey c) =
    lessMembers ((v.holders codes).filter fun user => c ∈ v.found k user) (v.item? (k.indexKey c))
  rest : ∀ key, (∀ k c, key ≠ GrantKind.indexKey c k) →
    (∀ user ∈ v.holders codes, ∀ k, key ≠ GrantKind.entryKey user k) → w.item? key = v.item? key
  counted : ∀ users : List String, users.Nodup → (∀ user ∈ users, user ∈ v.holders codes) →
    users.length ≤ count

/-! ## One code -/

theorem revokes_nil (typed : v.Typed) : Revokes [] 0 v v where
  now := rfl
  fails := rfl
  sets _ _ := nofun
  entries _ := nofun
  others k c _ := (Store.lessMembers_nil (typed k c)).symm
  rest _ _ _ := rfl
  counted users _ sub := by
    cases users with
    | nil => exact Nat.le_refl 0
    | cons user rest => cases sub user List.mem_cons_self

/-- The view after an invalidation. -/
theorem revokes_invalidated (typed : v.Typed) (works : ∀ key, v.fails key = false)
    (kind : GrantKind) (code : String) :
    Revokes [(kind, code)] (v.users kind code).length v (v.invalidated kind code) := by
  have holders : v.holders [(kind, code)] = v.users kind code := by simp [View.holders]
  refine ⟨now_serveAll _ v, fails_serveAll _ v, fun k c mem => ?_, fun user hu k => ?_,
    fun k c other => ?_, fun key noSet noEntry => ?_, fun users distinct sub => ?_⟩
  · cases List.mem_singleton.1 mem
    exact item?_invalidated_self (works _)
  · rw [holders] at hu
    exact item?_invalidated_entry hu (works _)
  · have apart : k.indexKey c ≠ kind.indexKey code := by
      intro same
      obtain ⟨rfl, rfl⟩ := GrantKind.indexKey_inj.1 same
      exact other (List.mem_singleton_self _)
    rw [holders, item?_invalidated_index typed (works _) apart]
  · rw [holders] at noEntry
    refine item?_invalidated_of_not_mem (noSet kind code) fun user hu own => ?_
    rcases mem_ownKeys.1 own with ⟨k, entry⟩ | ⟨k, c, -, set⟩
    · exact noEntry user hu k entry
    · exact noSet k c set
  · rw [holders] at sub
    exact (List.subperm_of_subset distinct sub).length_le

/-! ## More codes -/

/-- The entries of somebody who was not in the sets are as they were. -/
theorem Revokes.item?_entry (h : Revokes xs n v w) (apart : user ∉ v.holders xs) (k : GrantKind) :
    w.item? (k.entryKey user) = v.item? (k.entryKey user) := by
  refine h.rest _ (fun k' c => GrantKind.entryKey_ne_indexKey _ _ _ _) fun other mem k' same => ?_
  obtain ⟨-, rfl⟩ := GrantKind.entryKey_inj.1 same
  exact apart mem

theorem Revokes.found_of_not_mem (h : Revokes xs n v w) (apart : user ∉ v.holders xs) :
    w.found k user = v.found k user :=
  found_congr h.now h.fails (h.item?_entry apart k)

/-- Nothing is found for somebody who was in the sets. -/
theorem Revokes.found_of_mem (h : Revokes xs n v w) (mem : user ∈ v.holders xs) :
    w.found k user = [] := by
  have gone : w.live? (k.entryKey user) = none := by
    rw [live?, h.entries user mem k]
    rfl
  rw [found, listed, gone]
  exact ite_self []

theorem Revokes.mem_users (h : Revokes xs n v w) :
    user ∈ w.users k c ↔ (k, c) ∉ xs ∧ user ∈ v.users k c ∧
      ¬(user ∈ v.holders xs ∧ c ∈ v.found k user) := by
  rw [users]
  by_cases named : (k, c) ∈ xs
  · rw [h.sets k c named]
    simp [Store.namesOf, named]
  · rw [h.others k c named, Store.mem_namesOf_lessMembers]
    simp [named, users]

/-- Whoever is in one of the sets was in one of the first, or is still in one of the others. -/
theorem Revokes.mem_holders_append (h : Revokes xs n v w) :
    user ∈ v.holders (xs ++ ys) ↔ user ∈ v.holders xs ∨ user ∈ w.holders ys := by
  have both : user ∈ v.holders (xs ++ ys) ↔ user ∈ v.holders xs ∨ user ∈ v.holders ys := by
    simp [holders]
  rw [both]
  refine or_congr_right' fun apart => ?_
  simp only [mem_holders]
  constructor
  · rintro ⟨k, c, named, mem⟩
    have other : (k, c) ∉ xs := fun first => apart (mem_holders.2 ⟨k, c, first, mem⟩)
    exact ⟨k, c, named, h.mem_users.2 ⟨other, mem, fun both => apart both.1⟩⟩
  · rintro ⟨k, c, named, mem⟩
    exact ⟨k, c, named, (h.mem_users.1 mem).2.1⟩

/-- Of those who are found to list a code, some are in the first sets, and the others are still
found to list it. -/
theorem Revokes.trans (h : Revokes xs n v w) (h' : Revokes ys m w u) :
    Revokes (xs ++ ys) (n + m) v u where
  now := h'.now.trans h.now
  fails := h'.fails.trans h.fails
  sets k c mem := by
    by_cases second : (k, c) ∈ ys
    · exact h'.sets k c second
    · have first := (List.mem_append.1 mem).resolve_right second
      rw [h'.others k c second, h.sets k c first]
      rfl
  entries user hu k := by
    by_cases second : user ∈ w.holders ys
    · exact h'.entries user second k
    · have first := (h.mem_holders_append.1 hu).resolve_right second
      rw [h'.item?_entry second, h.entries user first k]
  others k c other := by
    obtain ⟨first, second⟩ := not_or.1 (mt List.mem_append.2 other)
    rw [h'.others k c second, h.others k c first, Store.lessMembers_lessMembers]
    refine Store.lessMembers_congr (fun user => ?_) _
    simp only [List.mem_append, List.mem_filter, decide_eq_true_eq, h.mem_holders_append]
    by_cases mem : user ∈ v.holders xs
    · simp [mem, h.found_of_mem mem]
    · simp [mem, h.found_of_not_mem mem]
  rest key noSet noEntry := by
    rw [h'.rest key noSet fun user hu => noEntry user (h.mem_holders_append.2 (Or.inr hu)),
      h.rest key noSet fun user hu => noEntry user (h.mem_holders_append.2 (Or.inl hu))]
  counted users distinct sub := by
    -- those in the first sets are counted there, and the others later
    have first := h.counted (users.filter fun user => decide (user ∈ v.holders xs))
      (distinct.filter _) fun user hu => of_decide_eq_true (List.mem_filter.1 hu).2
    have second := h'.counted (users.filter fun user => !decide (user ∈ v.holders xs))
      (distinct.filter _) fun user hu => by
        obtain ⟨mem, apart⟩ := List.mem_filter.1 hu
        exact (h.mem_holders_append.1 (sub user mem)).resolve_left (by simpa using apart)
    rw [List.length_eq_length_filter_add fun user => decide (user ∈ v.holders xs)]
    exact Nat.add_le_add first second

theorem holders_congr (same : ∀ x, x ∈ xs ↔ x ∈ ys) :
    user ∈ v.holders xs ↔ user ∈ v.holders ys := by
  simp only [mem_holders, same]

/-- Two lists of the same codes, in any order and with any repetitions, leave the same. -/
theorem Revokes.unique (h : Revokes xs n v w) (h' : Revokes ys m v w')
    (same : ∀ x, x ∈ xs ↔ x ∈ ys) (key : String) : w.item? key = w'.item? key := by
  by_cases set : ∃ k c, key = GrantKind.indexKey c k
  · obtain ⟨k, c, rfl⟩ := set
    by_cases named : (k, c) ∈ xs
    · rw [h.sets k c named, h'.sets k c ((same _).1 named)]
    · rw [h.others k c named, h'.others k c (mt (same _).2 named)]
      refine Store.lessMembers_congr (fun user => ?_) _
      simp only [List.mem_filter, holders_congr same]
  · have noSet (k : GrantKind) (c : String) : key ≠ k.indexKey c := fun e => set ⟨k, c, e⟩
    by_cases entry : ∃ user ∈ v.holders xs, ∃ k, key = GrantKind.entryKey user k
    · obtain ⟨user, hu, k, rfl⟩ := entry
      rw [h.entries user hu k, h'.entries user ((holders_congr same).1 hu) k]
    · have noEntry (user : String) (hu : user ∈ v.holders xs) (k : GrantKind) :
          key ≠ k.entryKey user := fun e => entry ⟨user, hu, k, e⟩
      rw [h.rest key noSet noEntry,
        h'.rest key noSet fun user hu => noEntry user ((holders_congr same).2 hu)]

end View

end GrantCache
