import GrantCache.Store

/-!
# The live entries of a store

A store answers from its live entries only: an entry that is past its deadline is as good as gone,
whenever it is dropped. `Store.live?` is the view of a store that says which entry is alive under
which key, and `Store.item?` the one that shows the dead as well. This module and the next say what
every request does to both.

* Reading changes nothing (`live?_use`) but that it drops the dead (`item?_use`), and neither does a
  sweep (`live?_sweep`).
* Every other request changes the views under the keys that it touches and nowhere else, but for a key
  that is evicted to make room, which is then reported (`retains_serve`).

The keys of a store stay distinct (`Distinct`, `distinct_serve`).
-/

namespace GrantCache

/-! ## Keys that were evicted -/

namespace Event

/-- The key that an event says was evicted. -/
def evictedKey? : Event → Option String
  | notice (.evicted key) => some key
  | _ => none

/-- The keys whose eviction is reported, in order. -/
def evictions (events : List Event) : List String := events.filterMap evictedKey?

@[simp] theorem evictions_nil : evictions [] = [] := rfl

/-- Evictions of one list of events after another are those of both, in order. -/
@[simp] theorem evictions_append (xs ys : List Event) :
    evictions (xs ++ ys) = evictions xs ++ evictions ys := List.filterMap_append

@[simp] theorem evictions_count (c : Counter) (n : Nat) (events : List Event) :
    evictions (.count c n :: events) = evictions events := rfl

@[simp] theorem evictions_gauge (g : Gauge) (n : Nat) (events : List Event) :
    evictions (.gauge g n :: events) = evictions events := rfl

@[simp] theorem evictions_evicted (key : String) (events : List Event) :
    evictions (.notice (.evicted key) :: events) = key :: evictions events := rfl

end Event

open Event (evictions)

/-! ## Looking up in parts of a catalog -/

namespace Catalog

variable {α : Type}

theorem find?_cons (k k' : String) (v : α) (c : Catalog α) :
    find? k ((k', v) :: c) = if k' = k then some v else find? k c := rfl

/-- Of two catalogs in a row the first is searched first. -/
theorem find?_append (k : String) (c d : Catalog α) :
    find? k (c ++ d) = (find? k c).or (find? k d) := by
  induction c with
  | nil => rfl
  | cons e c ih =>
    rw [List.cons_append, find?, find?]
    split
    · rfl
    · exact ih

theorem find?_eq_none_iff {k : String} {c : Catalog α} : find? k c = none ↔ k ∉ c.keys := by
  induction c with
  | nil => simp [keys]
  | cons e c ih =>
    rw [find?, keys, List.map_cons, List.mem_cons, not_or]
    split
    · rename_i h
      simp [h]
    · rename_i h
      exact ⟨fun hf => ⟨Ne.symm h, ih.1 hf⟩, fun hf => ih.2 hf.2⟩

theorem mem_of_find? {k : String} {v : α} {c : Catalog α} (h : find? k c = some v) :
    (k, v) ∈ c := by
  induction c with
  | nil => cases h
  | cons e c ih =>
    rw [find?] at h
    split at h
    · rename_i he
      obtain rfl := Option.some.inj h
      rw [← he]
      exact List.mem_cons_self
    · exact List.mem_cons_of_mem _ (ih h)

/-- Where no key comes twice, what is in the catalog is what is found there. -/
theorem find?_of_mem {k : String} {v : α} {c : Catalog α} (hd : c.keys.Nodup)
    (h : (k, v) ∈ c) : find? k c = some v := by
  induction c with
  | nil => cases h
  | cons e c ih =>
    obtain ⟨hn, hd⟩ := List.nodup_cons.1 hd
    rw [find?]
    rcases List.mem_cons.1 h with rfl | h
    · simp
    · have other : e.1 ≠ k := by
        rintro rfl
        exact hn (List.mem_map.2 ⟨_, h, rfl⟩)
      rw [if_neg other]
      exact ih hd h

/-- Of the entries whose keys were picked, those under other keys are not found. -/
theorem find?_filter_keys (p : String → Bool) (k : String) (c : Catalog α) :
    find? k (c.filter fun e => p e.1) = if p k then find? k c else none := by
  induction c with
  | nil => simp
  | cons e c ih =>
    by_cases he : e.1 = k
    · subst he
      by_cases hp : p e.1
      · simp [find?, hp]
      · simpa [find?, hp] using ih
    · by_cases hp : p e.1
      · simp [find?, hp, he, ih]
      · simp [find?, hp, he, ih]

/-- The last entry, if any, is the only one that goes. -/
theorem find?_dropLast (k : String) (c : Catalog α) :
    find? k c.dropLast = find? k c ∨
      (find? k c.dropLast = none ∧ ∃ v, c.getLast? = some (k, v)) := by
  rcases List.eq_nil_or_concat c with rfl | ⟨front, last, rfl⟩
  · exact Or.inl rfl
  · rw [List.concat_eq_append, List.dropLast_concat, List.getLast?_concat, find?_append]
    -- The last entry is looked up only if the front does not hold the key.
    cases hf : find? k front with
    | some v => exact Or.inl rfl
    | none =>
      by_cases hk : last.1 = k
      · exact Or.inr ⟨rfl, last.2, by rw [← hk]⟩
      · exact Or.inl (by simp [find?, hk])

theorem nodup_keys_erase {c : Catalog α} (h : c.keys.Nodup) (k : String) :
    (c.erase k).keys.Nodup := h.sublist (List.filter_sublist.map _)

/-- Erasing a key takes away that key only. -/
theorem mem_keys_erase {k k' : String} {c : Catalog α} :
    k' ∈ (c.erase k).keys ↔ k' ≠ k ∧ k' ∈ c.keys := by
  simp only [keys, erase, List.mem_map, List.mem_filter, decide_eq_true_eq]
  constructor
  · rintro ⟨e, ⟨he, other⟩, rfl⟩
    exact ⟨other, e, he, rfl⟩
  · rintro ⟨other, e, he, rfl⟩
    exact ⟨e, ⟨he, other⟩, rfl⟩

theorem not_mem_keys_erase (k : String) (c : Catalog α) : k ∉ (c.erase k).keys :=
  find?_eq_none_iff.1 (find?_erase_self k c)

/-- Inserting under a key adds that key only. -/
theorem mem_keys_insert {k k' : String} {v : α} {c : Catalog α} :
    k' ∈ (c.insert k v).keys ↔ k' = k ∨ k' ∈ c.keys := by
  rw [← Decidable.not_iff_not, not_or, ← find?_eq_none_iff, ← find?_eq_none_iff, find?_insert]
  by_cases h : k = k'
  · simp [h]
  · simp [h, Ne.symm h]

end Catalog

namespace Store

/-! ## The views -/

/-- What a key holds, alive or dead. -/
def item? (key : String) (s : Store) : Option Entry := s.entries.find? key

/-- The entry under a key, if it is alive. -/
def live? (now : Nat) (key : String) (s : Store) : Option Entry :=
  (s.entries.find? key).filter fun e => e.isAlive now

theorem live?_eq (now : Nat) (key : String) (s : Store) :
    s.live? now key = (s.item? key).filter fun e => e.isAlive now := rfl

/-- What is alive is alive when it is looked at once more. -/
@[simp] theorem filter_live? (now : Nat) (key : String) (s : Store) :
    (s.live? now key).filter (fun e => e.isAlive now) = s.live? now key := by
  rw [live?, Option.filter_filter]
  congr 1
  funext e
  exact Bool.and_self _

/-- Holding a key gives that key its entry and leaves the others as they are. -/
theorem item?_hold (key other : String) (e : Entry) (s : Store) :
    (s.hold key e).item? other = if key = other then some e else s.item? other := by
  by_cases h : key = other
  · simp [item?, hold, Catalog.find?_cons, h]
  · simp [item?, hold, Catalog.find?_cons, h, Catalog.find?_erase_of_ne h]

/-- Dropping a key takes its entry away and leaves the others as they are. -/
theorem item?_drop (key other : String) (s : Store) :
    (s.drop key).item? other = if key = other then none else s.item? other := by
  by_cases h : key = other
  · simp [item?, drop, h]
  · simp [item?, drop, h, Catalog.find?_erase_of_ne h]

/-- The entry of a key that is held is found if it is alive. -/
theorem live?_hold (now : Nat) (key other : String) (e : Entry) (s : Store) :
    (s.hold key e).live? now other =
      if key = other then (some e).filter (fun e => e.isAlive now) else s.live? now other := by
  rw [live?_eq, item?_hold]
  split <;> rfl

theorem live?_drop (now : Nat) (key other : String) (s : Store) :
    (s.drop key).live? now other = if key = other then none else s.live? now other := by
  rw [live?_eq, item?_drop]
  split <;> rfl

/-- A use finds the entry that is alive. -/
theorem use_fst (now : Nat) (key : String) (s : Store) : (s.use now key).1 = s.live? now key := by
  unfold use live?
  split
  · rename_i e he
    by_cases ha : e.isAlive now <;> simp [he, ha, Option.filter]
  · rename_i he
    rw [he]
    rfl

/-- The use of a key drops what is dead there. -/
theorem item?_use (now : Nat) (key other : String) (s : Store) :
    (s.use now key).2.item? other = if key = other then s.live? now key else s.item? other := by
  unfold use
  split
  · rename_i e he
    split
    -- The entry that moves to the front is the one that was found.
    · rename_i ha
      rw [item?_hold, live?, he, Option.filter_some, if_pos ha]
    · rename_i ha
      rw [item?_drop, live?, he, Option.filter_some, if_neg ha]
  · rename_i he
    split
    · rename_i hk
      rw [← hk, item?, live?, he]
      rfl
    · rfl

/-- The use of a key changes no live entry. -/
theorem live?_use (now : Nat) (key other : String) (s : Store) :
    (s.use now key).2.live? now other = s.live? now other := by
  rw [live?_eq, item?_use]
  split
  · rename_i hk
    rw [← hk, filter_live?]
  · rfl

/-- A key that is used is, if it is alive, the one used last. -/
theorem use_of_live {now : Nat} {key : String} {s : Store} {e : Entry}
    (h : s.live? now key = some e) : s.use now key = (some e, s.hold key e) := by
  obtain ⟨hf, ha⟩ := Option.filter_eq_some_iff.1 h
  simp [use, hf, ha]

/-! ## Keys that a change leaves alone -/

/-- What a key holds stays, unless the key is evicted, which is reported. -/
def Retains (key : String) (s s' : Store) (events : List Event) : Prop :=
  s'.item? key = s.item? key ∨ (s'.item? key = none ∧ key ∈ evictions events)

/-- What is alive under a key stays, unless the key is evicted, which is reported. -/
def Spares (now : Nat) (key : String) (s s' : Store) (events : List Event) : Prop :=
  s'.live? now key = s.live? now key ∨ (s'.live? now key = none ∧ key ∈ evictions events)

/-- What keeps its entry stays as alive as it was. -/
theorem Retains.spares {key : String} {s s' : Store} {events : List Event}
    (h : Retains key s s' events) (now : Nat) : Spares now key s s' events := by
  rcases h with same | ⟨gone, evicted⟩
  · exact Or.inl (by rw [live?_eq, same, live?_eq])
  · exact Or.inr ⟨by rw [live?_eq, gone]; rfl, evicted⟩

/-- A key that keeps its entry twice keeps it, and one that is evicted on the way is named in the
events of both. -/
theorem Retains.trans {key : String} {s s' s'' : Store} {events more : List Event}
    (h : Retains key s s' events) (h' : Retains key s' s'' more) :
    Retains key s s'' (events ++ more) := by
  rcases h' with h' | ⟨h', hm⟩
  · rcases h with h | ⟨h, he⟩
    · exact Or.inl (h'.trans h)
    · exact Or.inr ⟨h'.trans h, by simp [he]⟩
  · exact Or.inr ⟨h', by simp [hm]⟩

/-- What is not held does not appear. -/
theorem Retains.absent {key : String} {s s' : Store} {events : List Event}
    (h : Retains key s s' events) (absent : s.item? key = none) : s'.item? key = none :=
  h.elim (·.trans absent) And.left

/-- An eviction takes away the key that it names. -/
theorem retains_evict (key : String) (s : Store) : Retains key s s.evict.1 s.evict.2 := by
  unfold evict
  split
  -- Either the key is not the last one, or its eviction is what the event reports.
  · rename_i last e he
    rcases Catalog.find?_dropLast key s.entries with h | ⟨h, v, hl⟩
    · exact Or.inl h
    · rw [he] at hl
      obtain ⟨rfl, -⟩ := Prod.mk.inj (Option.some.inj hl)
      exact Or.inr ⟨h, by simp⟩
  · exact Or.inl rfl

theorem item?_write_self (key : String) (e : Entry) (s : Store) :
    (s.write key e).1.item? key = some e := by
  unfold write
  split
  · simp [item?_hold]
  · split <;> simp [item?_hold]

theorem live?_write_self (now : Nat) (key : String) (e : Entry) (s : Store) :
    (s.write key e).1.live? now key = (some e).filter fun e => e.isAlive now := by
  rw [live?_eq, item?_write_self]

/-- Writing a key leaves every other one alone, unless it evicts it. -/
theorem retains_write {key other : String} (h : key ≠ other) (e : Entry) (s : Store) :
    Retains other s (s.write key e).1 (s.write key e).2 := by
  have held (t : Store) : (t.hold key e).item? other = t.item? other := by
    rw [item?_hold, if_neg h]
  unfold write
  split
  · exact Or.inl (held s)
  · split
    · exact Or.inl (held s)
    · -- room is made first
      exact (retains_evict other s).trans (Or.inl (held _))

theorem spares_write {key other : String} (h : key ≠ other) (now : Nat) (e : Entry) (s : Store) :
    Spares now other s (s.write key e).1 (s.write key e).2 := (retains_write h e s).spares now

/-! ## Distinct keys -/

/-- No key has two entries. -/
def Distinct (s : Store) : Prop := s.entries.keys.Nodup

theorem distinct_empty (limit : Nat) : (empty limit).Distinct := List.nodup_nil

theorem Distinct.hold {s : Store} (h : s.Distinct) (key : String) (e : Entry) :
    (s.hold key e).Distinct :=
  List.nodup_cons.2 ⟨Catalog.not_mem_keys_erase key s.entries, Catalog.nodup_keys_erase h key⟩

theorem Distinct.drop {s : Store} (h : s.Distinct) (key : String) : (s.drop key).Distinct :=
  Catalog.nodup_keys_erase h key

/-- Taking entries away leaves no key with two. -/
theorem Distinct.sublist {s : Store} (h : s.Distinct) {entries : Catalog Entry}
    (hs : entries.Sublist s.entries) : ({ s with entries } : Store).Distinct :=
  List.Nodup.sublist (hs.map _) h

theorem Distinct.use {s : Store} (h : s.Distinct) (now : Nat) (key : String) :
    (s.use now key).2.Distinct := by
  unfold Store.use
  split
  · split
    · exact h.hold key _
    · exact h.drop key
  · exact h

theorem Distinct.evict {s : Store} (h : s.Distinct) : s.evict.1.Distinct := by
  unfold Store.evict
  split
  · exact h.sublist (List.dropLast_sublist _)
  · exact h

theorem Distinct.write {s : Store} (h : s.Distinct) (key : String) (e : Entry) :
    (s.write key e).1.Distinct := by
  unfold Store.write
  split
  · exact h.hold key e
  · split
    · exact h.hold key e
    · exact h.evict.hold key e

/-- A sweep drops what is dead. -/
theorem item?_sweep {s : Store} (h : s.Distinct) (now : Nat) (key : String) :
    (s.sweep now).2.1.item? key = s.live? now key := by
  have distinct : (s.sweep now).2.1.Distinct := h.sublist List.filter_sublist
  rw [item?, live?]
  cases hf : s.entries.find? key with
  | none =>
    rw [Catalog.find?_eq_none_iff] at hf
    exact Catalog.find?_eq_none_iff.2 fun hm => hf ((List.filter_sublist.map _).mem hm)
  | some e =>
    have mem := Catalog.mem_of_find? hf
    by_cases ha : e.isAlive now
    · have stays : (key, e) ∈ (s.sweep now).2.1.entries := List.mem_filter.2 ⟨mem, ha⟩
      rw [Catalog.find?_of_mem distinct stays, Option.filter_some, if_pos ha]
    · rw [Option.filter_some, if_neg ha]
      cases hs : (s.sweep now).2.1.entries.find? key with
      | none => rfl
      -- Keys are distinct, so no other entry of the key can have been alive.
      | some e' =>
        obtain ⟨mem', ha'⟩ := List.mem_filter.1 (Catalog.mem_of_find? hs)
        obtain rfl : e' = e := by
          have := Catalog.find?_of_mem h mem'
          rw [hf] at this
          exact (Option.some.inj this).symm
        exact absurd ha' ha

/-- A sweep takes away the dead only. -/
theorem live?_sweep {s : Store} (h : s.Distinct) (now : Nat) (key : String) :
    (s.sweep now).2.1.live? now key = s.live? now key := by
  rw [live?_eq, item?_sweep h, filter_live?]

theorem Distinct.sweep {s : Store} (h : s.Distinct) (now : Nat) : (s.sweep now).2.1.Distinct :=
  h.sublist List.filter_sublist

end Store

end GrantCache
