import GrantCache.Grants.Upkeep

/-!
# Index writes and how they are tracked

A write owes a user to the sets under its remaining keys (`Owes`). Progress takes the first of these
keys off and touches no other write; launching, tracking and taking leave every earlier write as it
is. Tracking is `Tidy` when each write is tracked under all the keys that are left to it: a launch
keeps it so, because only writes that are known to be done are no longer tracked.
-/

namespace GrantCache.Upkeep

variable {id other : Nat} {user key : String} {keys : List String} {u : Upkeep}

/-! ## What a write still has to do -/

/-- The keys that are left to a write, none if there is no such write. -/
def leftOf (id : Nat) (u : Upkeep) : List String := ((u.write? id).map (·.left)).getD []

/-- A write will add a user to the set under a key. -/
def Owes (id : Nat) (user key : String) (u : Upkeep) : Prop :=
  ∃ w, u.write? id = some w ∧ w.user = user ∧ key ∈ w.left

/-- A write is done when no key is left to it. -/
theorem isDone_iff : u.isDone id = true ↔ u.leftOf id = [] := by
  rw [isDone, leftOf]
  cases u.write? id with
  | none => simp
  | some w => simp [IndexWrite.isDone]

theorem Owes.mem_leftOf (h : u.Owes id user key) : key ∈ u.leftOf id := by
  obtain ⟨w, hw, -, hk⟩ := h
  rw [leftOf, hw]
  exact hk

/-- A write that owes something is not done. -/
theorem Owes.not_done (h : u.Owes id user key) : u.isDone id = false := by
  rw [Bool.eq_false_iff, Ne, isDone_iff]
  exact List.ne_nil_of_mem h.mem_leftOf

/-- What the writes of two states have in common. -/
theorem Owes.of_write? {v : Upkeep} (h : u.Owes id user key) (same : v.write? id = u.write? id) :
    v.Owes id user key := by
  obtain ⟨w, hw, rest⟩ := h
  exact ⟨w, same.trans hw, rest⟩

/-! ## Progress -/

/-- A change to the write of one number leaves the others as they are. -/
theorem write?_modify {f : IndexWrite → IndexWrite} (hf : ∀ w, (f w).id = w.id) (id other : Nat)
    (u : Upkeep) :
    (u.modify id f).write? other =
      if other = id then (u.write? id).map f else u.write? other := by
  rw [write?, write?, write?, modify]
  -- `f` keeps the numbers, so the search stops at the same write.
  induction u.writes with
  | nil => simp
  | cons w rest ih =>
    by_cases hw : w.id = id
    · by_cases ho : other = id
      · simp [hw, hf, ho]
      · have apart : ¬ id = other := fun h => ho h.symm
        simpa [hw, hf, ho, apart] using ih
    · by_cases ho : w.id = other
      · have apart : ¬ other = id := fun h => hw (ho.trans h)
        simp [ho, apart]
      · simpa [hw, ho] using ih

theorem write?_proceed (id other : Nat) (u : Upkeep) :
    (u.proceed id).write? other =
      if other = id then (u.write? id).map fun w => { w with left := w.left.tail }
      else u.write? other := write?_modify (by simp) id other u

theorem write?_see (id other : Nat) (u : Upkeep) :
    (u.see id).write? other =
      if other = id then (u.write? id).map fun w => { w with seen := true } else u.write? other :=
  write?_modify (by simp) id other u

/-- A step takes the first key off what is left to the write, and touches no other. -/
theorem leftOf_proceed (id other : Nat) (u : Upkeep) :
    (u.proceed id).leftOf other = if other = id then (u.leftOf id).tail else u.leftOf other := by
  rw [leftOf, write?_proceed]
  split
  · rw [leftOf]
    cases u.write? id <;> rfl
  · rfl

/-- Seeing that a write is done takes nothing off what is left to any. -/
theorem leftOf_see (id other : Nat) (u : Upkeep) : (u.see id).leftOf other = u.leftOf other := by
  rw [leftOf, write?_see]
  split
  · rename_i h
    rw [h, leftOf]
    cases u.write? id <;> rfl
  · rfl

/-- A write that makes progress owes what it owed, but for its first key. -/
theorem Owes.proceed (h : u.Owes other user key) (id : Nat) :
    (u.proceed id).Owes other user key ∨
      (other = id ∧ ∃ w, u.write? id = some w ∧ w.user = user ∧ w.left.head? = some key) := by
  obtain ⟨w, hw, hu, hk⟩ := h
  by_cases ho : other = id
  · subst ho
    -- The first of the keys is written, the others are left.
    cases hl : w.left with
    | nil => simp [hl] at hk
    | cons first rest =>
      rw [hl, List.mem_cons] at hk
      rcases hk with rfl | hk
      · exact Or.inr ⟨rfl, w, hw, hu, by rw [hl]; rfl⟩
      · refine Or.inl ⟨{ w with left := w.left.tail }, ?_, hu, by rw [hl]; exact hk⟩
        rw [write?_proceed, if_pos rfl, hw]
        rfl
  · refine Or.inl ⟨w, ?_, hu, hk⟩
    rw [write?_proceed, if_neg ho, hw]

/-- What a write owes it owes whoever has seen it. -/
theorem Owes.see (h : u.Owes other user key) (id : Nat) : (u.see id).Owes other user key := by
  obtain ⟨w, hw, hu, hk⟩ := h
  by_cases ho : other = id
  · subst ho
    refine ⟨{ w with seen := true }, ?_, hu, hk⟩
    rw [write?_see, if_pos rfl, hw]
    rfl
  · exact ⟨w, by rw [write?_see, if_neg ho, hw], hu, hk⟩

/-! ## Tracking -/

/-- The writes that are tracked under a key. -/
def tracked (key : String) (u : Upkeep) : List Nat := (u.pending.find? key).getD []

/-- Taking out the writes under a key leaves the other keys tracked. -/
theorem tracked_take (key other : String) (u : Upkeep) :
    (u.take key).2.tracked other = if key = other then [] else u.tracked other := by
  rw [tracked, take]
  split
  · rename_i h
    rw [← h, Catalog.find?_erase_self]
    rfl
  · rename_i h
    rw [Catalog.find?_erase_of_ne h]
    rfl

theorem write?_track (id other : Nat) (u : Upkeep) (key : String) :
    (u.track id key).write? other = u.write? other := rfl

/-- The writes that are tracked under a key and that nobody has seen done. -/
def unseen (key : String) (u : Upkeep) : List Nat := (u.tracked key).filter fun id => !u.isSeen id

/-- Tracking a write under a key keeps there those that nobody has seen done, and touches no other
key. -/
theorem tracked_track (id : Nat) (u : Upkeep) (key key' : String) :
    (u.track id key).tracked key' =
      if key = key' then u.unseen key' ++ [id] else u.tracked key' := by
  rw [tracked, track, Catalog.find?_insert]
  split
  · rename_i same
    subst same
    rfl
  · rfl

/-- A write is tracked from now on, and nothing is forgotten that is not known to be done. -/
theorem mem_tracked_track {id other : Nat} {u : Upkeep} {key key' : String} :
    other ∈ (u.track id key).tracked key' ↔
      (key = key' ∧ (other = id ∨ (other ∈ u.tracked key' ∧ u.isSeen other = false))) ∨
        (key ≠ key' ∧ other ∈ u.tracked key') := by
  rw [tracked_track]
  split
  · rename_i h
    simp [unseen, h, or_comm]
  · rename_i h
    simp [h]

theorem write?_foldl_track (id other : Nat) (keys : List String) (u : Upkeep) :
    (keys.foldl (track id) u).write? other = u.write? other := by
  induction keys generalizing u with
  | nil => rfl
  | cons key rest ih => exact (ih _).trans (write?_track id other u key)

theorem isSeen_of_write? {v : Upkeep} (h : v.write? id = u.write? id) : v.isSeen id = u.isSeen id := by
  rw [isSeen, isSeen, h]

/-- A write that nobody has seen done stays tracked while another is tracked under many keys. -/
theorem mem_tracked_foldl_track (h : other ∈ u.tracked key) (hs : u.isSeen other = false)
    (id : Nat) (keys : List String) : other ∈ (keys.foldl (track id) u).tracked key := by
  induction keys generalizing u with
  | nil => exact h
  | cons first rest ih =>
    refine ih (mem_tracked_track.2 ?_) ((isSeen_of_write? (write?_track ..)).trans hs)
    by_cases hk : first = key
    · exact Or.inl ⟨hk, Or.inr ⟨h, hs⟩⟩
    · exact Or.inr ⟨hk, h⟩

/-- A write that is tracked under many keys ends up tracked under each of them. -/
theorem mem_tracked_foldl_track_self (hs : u.isSeen id = false) (h : key ∈ keys) :
    id ∈ (keys.foldl (track id) u).tracked key := by
  induction keys generalizing u with
  | nil => cases h
  | cons first rest ih =>
    have unseen : (u.track id first).isSeen id = false :=
      (isSeen_of_write? (write?_track ..)).trans hs
    -- The keys that follow do not make it forgotten, since nobody has seen it done.
    rcases List.mem_cons.1 h with rfl | h
    · exact mem_tracked_foldl_track (mem_tracked_track.2 (Or.inl ⟨rfl, Or.inl rfl⟩)) unseen id rest
    · exact ih unseen h

/-! ## Launching -/

/-- Numbers are given out in order, and only a write that is done is known to be done. -/
structure Sound (u : Upkeep) : Prop where
  numbered : ∀ w ∈ u.writes, w.id < u.next
  seen : ∀ id w, u.write? id = some w → w.seen = true → w.left = []

theorem sound_empty : Sound {} := ⟨by simp, by simp [write?]⟩

/-- The number to be given out next belongs to no write. -/
theorem Sound.write?_next (h : u.Sound) : u.write? u.next = none := by
  rw [write?, List.find?_eq_none]
  intro w hw
  have := h.numbered w hw
  simp
  omega

/-- A launch adds the one write and leaves the others as they are. -/
theorem write?_launch (h : u.Sound) (user : String) (keys : List String) (id : Nat) :
    (u.launch user keys).2.write? id =
      if id = u.next then some { id := u.next, user, left := keys } else u.write? id := by
  rw [launch, write?_foldl_track, write?, List.find?_append]
  split
  · rename_i hi
    -- The search goes past all earlier writes: their numbers are smaller.
    have fresh := h.write?_next
    rw [← hi, write?] at fresh
    simp [hi ▸ fresh, hi]
  · rename_i hi
    have apart : ¬ u.next = id := fun he => hi he.symm
    cases he : u.writes.find? (·.id = id) with
    | none => simp [write?, he, apart]
    | some w => simp [write?, he]

/-- What was owed before a launch is owed after it. -/
theorem Owes.launch (h : u.Owes id user key) (hs : u.Sound) (name : String) (keys : List String) :
    (u.launch name keys).2.Owes id user key := by
  refine h.of_write? ?_
  rw [write?_launch hs, if_neg]
  rintro rfl
  obtain ⟨w, hw, -⟩ := h
  rw [hs.write?_next] at hw
  cases hw

/-- What is owed after a launch was owed before or is what was launched. -/
theorem Owes.of_launch {name : String} (h : (u.launch name keys).2.Owes id user key) (hs : u.Sound) :
    u.Owes id user key ∨ (name = user ∧ key ∈ keys) := by
  obtain ⟨w, hw, hu, hk⟩ := h
  rw [write?_launch hs] at hw
  split at hw
  · cases hw
    exact Or.inr ⟨hu, hk⟩
  · exact Or.inl ⟨w, hw, hu, hk⟩

/-- What was launched owes the user to each of its keys. -/
theorem owes_launch (hs : u.Sound) (user : String) (h : key ∈ keys) :
    (u.launch user keys).2.Owes u.next user key :=
  ⟨_, by rw [write?_launch hs, if_pos rfl], rfl, h⟩

/-- What was launched is tracked under each of its keys. -/
theorem tracked_launch (hs : u.Sound) (user : String) (h : key ∈ keys) :
    u.next ∈ (u.launch user keys).2.tracked key := by
  refine mem_tracked_foldl_track_self ?_ h
  have launched := write?_launch hs user keys u.next
  rw [launch, write?_foldl_track, if_pos rfl] at launched
  rw [isSeen, launched]
  rfl

/-- A write that owes something stays tracked where it was through a launch, since nobody can have
seen it done. -/
theorem Owes.tracked_launch (h : u.Owes id user key) (hs : u.Sound) {key' : String}
    (ht : id ∈ u.tracked key') (name : String) (keys : List String) :
    id ∈ (u.launch name keys).2.tracked key' := by
  obtain ⟨w, hw, -, hk⟩ := h
  -- something is left to the write, so nobody has seen it done
  have unseen : w.seen = false := by
    rw [Bool.eq_false_iff]
    intro seen
    rw [hs.seen id w hw seen] at hk
    cases hk
  have launched : (u.launch name keys).2.write? id = some w := by
    rw [write?_launch hs, if_neg, hw]
    rintro rfl
    rw [hs.write?_next] at hw
    cases hw
  rw [Upkeep.launch, write?_foldl_track] at launched
  rw [Upkeep.launch]
  refine mem_tracked_foldl_track ?_ ?_ _ _
  · exact ht
  · rw [isSeen, launched]
    simp [unseen]

/-! ## Soundness -/

theorem writes_foldl_track (id : Nat) (keys : List String) (u : Upkeep) :
    (keys.foldl (track id) u).writes = u.writes ∧ (keys.foldl (track id) u).next = u.next := by
  induction keys generalizing u with
  | nil => exact ⟨rfl, rfl⟩
  | cons key rest ih => exact ih _

/-- A launch adds its write as the last, and gives out one number. -/
theorem writes_launch (user : String) (keys : List String) (u : Upkeep) :
    (u.launch user keys).2.writes = u.writes ++ [{ id := u.next, user, left := keys }] ∧
      (u.launch user keys).2.next = u.next + 1 := writes_foldl_track ..

/-- A launch gives out a number that no write has. -/
theorem Sound.launch (h : u.Sound) (user : String) (keys : List String) :
    (u.launch user keys).2.Sound := by
  obtain ⟨hw, hn⟩ := writes_launch user keys u
  constructor
  · intro w hm
    rw [hw, List.mem_append, List.mem_singleton] at hm
    rw [hn]
    rcases hm with hm | rfl
    · have := h.numbered w hm
      omega
    · exact Nat.lt_succ_self _
  · intro id w hf hs
    rw [write?_launch h] at hf
    split at hf
    · cases hf
      cases hs
    · exact h.seen id w hf hs

theorem Sound.take (h : u.Sound) (key : String) : (u.take key).2.Sound := ⟨h.numbered, h.seen⟩

theorem Sound.proceed (h : u.Sound) (id : Nat) : (u.proceed id).Sound := by
  constructor
  · intro w hm
    obtain ⟨w', hm', rfl⟩ := List.mem_map.1 hm
    have := h.numbered w' hm'
    split <;> exact this
  · intro other w hf hs
    rw [write?_proceed] at hf
    split at hf
    · obtain ⟨w', hw', rfl⟩ := Option.map_eq_some_iff.1 hf
      have done := h.seen id w' hw' hs
      simp [done]
    · exact h.seen other w hf hs

/-- Only a write that is done may be seen done. -/
theorem Sound.see (h : u.Sound) (hd : u.isDone id = true) : (u.see id).Sound := by
  constructor
  · intro w hm
    obtain ⟨w', hm', rfl⟩ := List.mem_map.1 hm
    have := h.numbered w' hm'
    split <;> exact this
  · intro other w hf hs
    rw [write?_see] at hf
    split at hf
    · obtain ⟨w', hw', rfl⟩ := Option.map_eq_some_iff.1 hf
      rw [isDone_iff, leftOf, hw'] at hd
      exact hd
    · exact h.seen other w hf hs

/-! ## Tidy tracking -/

/-- Every write is tracked under each key that is left to it. -/
def Tidy (u : Upkeep) : Prop := ∀ id user key, u.Owes id user key → id ∈ u.tracked key

theorem tidy_empty : Tidy {} := by
  rintro id user key ⟨w, hw, -⟩
  simp [write?] at hw

/-- A launch leaves every write tracked under all the keys left to it. -/
theorem Tidy.launch (h : u.Tidy) (hs : u.Sound) (user : String) (keys : List String) :
    (u.launch user keys).2.Tidy := by
  rintro id name key ho
  -- Either the new write, tracked under all its keys, or one that was tracked before.
  by_cases hi : id = u.next
  · subst hi
    obtain ⟨w, hw, -, hk⟩ := ho
    rw [write?_launch hs, if_pos rfl] at hw
    cases hw
    exact tracked_launch hs user hk
  · have old : u.Owes id name key := by
      refine ho.of_write? ?_
      rw [write?_launch hs, if_neg hi]
    exact old.tracked_launch hs (h id name key old) user keys

/-- A write that makes progress owes nothing new. -/
theorem Owes.of_proceed (h : (u.proceed id).Owes other user key) : u.Owes other user key := by
  obtain ⟨w, hw, hu, hk⟩ := h
  rw [write?_proceed] at hw
  split at hw
  · rename_i ho
    obtain ⟨w', hw', rfl⟩ := Option.map_eq_some_iff.1 hw
    exact ⟨w', ho ▸ hw', hu, List.mem_of_mem_tail hk⟩
  · exact ⟨w, hw, hu, hk⟩

/-- Nobody owes more for having been seen. -/
theorem Owes.of_see (h : (u.see id).Owes other user key) : u.Owes other user key := by
  obtain ⟨w, hw, hu, hk⟩ := h
  rw [write?_see] at hw
  split at hw
  · rename_i ho
    obtain ⟨w', hw', rfl⟩ := Option.map_eq_some_iff.1 hw
    exact ⟨w', ho ▸ hw', hu, hk⟩
  · exact ⟨w, hw, hu, hk⟩

theorem Tidy.proceed (h : u.Tidy) (id : Nat) : (u.proceed id).Tidy :=
  fun other user key ho => h other user key ho.of_proceed

theorem Tidy.see (h : u.Tidy) (id : Nat) : (u.see id).Tidy :=
  fun other user key ho => h other user key ho.of_see

/-- Where all writes are done there is nothing to track. -/
theorem tidy_of_done (h : ∀ id, u.isDone id = true) : u.Tidy := by
  intro id user key ho
  have := ho.not_done
  rw [h id] at this
  cases this

end GrantCache.Upkeep
