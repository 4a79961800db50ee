import GrantCache.Proofs.Store.Uses

/-!
# What a stroke does to the keys

What a stroke does to the keys that are held is one of three things (`Stroke.Does`,
`Stroke.does_serve`): it writes nothing, it writes a key for which there is room, or it writes a new
key into a full store, and the last key of the list goes.

Requests that look up a key and write nothing are alike in this (`Looks`): a key that is alive is
put first, and one that is not is let go of. All writes are alike, too (`Stroke.does_of_write`).
-/

namespace GrantCache

open Event (evictions)

namespace Store

variable {now bound : Nat} {key other : String} {s t : Store} {e : Entry} {used : List String}
  {k : Stroke} {r : Request}

/-! ## The keys that are held -/

theorem size_eq (s : Store) : s.size = s.entries.keys.length := (List.length_map ..).symm

/-- A key that is dropped goes, and the others stay in their order. -/
theorem keys_drop (key : String) (s : Store) :
    (s.drop key).entries.keys = s.entries.keys.filter (· ≠ key) := by
  rw [drop, Catalog.keys, Catalog.keys, List.filter_map]
  rfl

/-- A key that is held anew comes first, and the others stay in their order. -/
theorem keys_hold (key : String) (e : Entry) (s : Store) :
    (s.hold key e).entries.keys = key :: s.entries.keys.filter (· ≠ key) :=
  congrArg (key :: ·) (keys_drop key s)

/-- Taking out a key that is there leaves fewer. -/
theorem length_filter_lt (h : key ∈ used) : (used.filter (· ≠ key)).length < used.length :=
  List.length_filter_lt_length_iff_exists.2 ⟨key, h, by simp⟩

theorem filter_of_not_mem (h : key ∉ used) : used.filter (· ≠ key) = used :=
  List.filter_eq_self.2 fun x hx => by
    have : x ≠ key := fun he => h (he ▸ hx)
    simpa using this

/-- A key whose entry is alive is held. -/
theorem mem_of_isSome (h : (s.live? now key).isSome = true) : key ∈ s.entries.keys := by
  obtain ⟨e, he⟩ := Option.isSome_iff_exists.1 h
  have mem := Catalog.mem_of_find? (Option.filter_eq_some_iff.1 he).1
  exact List.mem_map.2 ⟨_, mem, rfl⟩

theorem holds_iff : s.entries.holds key = true ↔ key ∈ s.entries.keys := by
  rw [Catalog.holds, Option.isSome_iff_ne_none, ne_eq, Catalog.find?_eq_none_iff, not_not]

/-- To use a key that is not alive is to let go of it. -/
theorem use_of_not_live (h : s.live? now key = none) : s.use now key = (none, s.drop key) := by
  rw [use]
  rw [live?] at h
  cases hf : s.entries.find? key with
  | none =>
    have absent : key ∉ s.entries.keys := Catalog.find?_eq_none_iff.1 hf
    have same : s.drop key = s := by
      rw [drop]
      congr 1
      refine List.filter_eq_self.2 fun x hx => ?_
      have : x.1 ≠ key := fun he => absent (List.mem_map.2 ⟨x, hx, he⟩)
      simpa using this
    exact congrArg (none, ·) same.symm
  | some e =>
    rw [hf] at h
    by_cases ha : e.isAlive now
    · simp [ha] at h
    · simp [ha]

/-- Writing does not change how many keys there is room for. -/
theorem capacity_write (key : String) (e : Entry) (s : Store) :
    (s.write key e).1.capacity = s.capacity := by
  have evict : s.evict.1.capacity = s.capacity := by
    rw [Store.evict]
    split <;> rfl
  rw [write]
  split
  · rfl
  · split
    · rfl
    · exact evict

/-- To hold a key twice is, for the order of the keys, to hold it once. -/
theorem keys_hold_hold (key : String) (e e' : Entry) (s : Store) :
    ((s.hold key e).hold key e').entries.keys = key :: s.entries.keys.filter (· ≠ key) := by
  rw [keys_hold, keys_hold]
  simp [List.filter_filter]

/-- To drop a key that was just put first is to drop it where it was. -/
theorem keys_drop_hold (key : String) (e : Entry) (s : Store) :
    ((s.hold key e).drop key).entries.keys = s.entries.keys.filter (· ≠ key) := by
  rw [keys_drop, keys_hold]
  simp [List.filter_filter]

/-! ## What a stroke does -/

/-- What becomes of an order of use when a key is used, if any is. -/
def touch : Option String → List String → List String
  | none, order => order
  | some key, order => key :: order.filter (· ≠ key)

/-- The order of use after one more use, if any, is the order before it with that key put first. -/
theorem recency_append (used : List String) (key? : Option String) :
    recency (used ++ key?.toList) = touch key? (recency used) := by
  cases key? with
  | none => exact congrArg recency (List.append_nil _)
  | some key => exact recency_concat used key

/-- Keys in the order of use are so after a further use, whatever keys have gone in between. -/
theorem touch_sublist {order order' : List String} (h : order.Sublist order')
    (key? : Option String) : (touch key? order).Sublist (touch key? order') := by
  cases key? with
  | none => exact h
  | some key => exact (h.filter _).cons_cons key

namespace Stroke

/-- The keys that the store held before a stroke. -/
def heldBefore (k : Stroke) : List String := k.before.entries.keys

/-- The keys that the store holds after a stroke. -/
def heldAfter (k : Stroke) : List String := k.after.entries.keys

/-- What a stroke does to the keys of a store with room for `bound` of them. -/
inductive Does (bound : Nat) (k : Stroke) : Prop where
  /-- Nothing is written, and only keys that the request is about can go. -/
  | reads (capacity : k.after.capacity = k.before.capacity) (writes : k.writes? = none)
      (evicted : evictions k.events = [])
      (order : k.heldAfter.Sublist (touch k.uses? k.heldBefore))
      (held : k.heldAfter ⊆ k.heldBefore)
      (stays : ∀ key ∈ k.heldBefore, key ∉ k.request.touched k.heldBefore → key ∈ k.heldAfter)
  /-- There is room for the key that is written. -/
  | fits {key : String} (capacity : k.after.capacity = k.before.capacity)
      (writes : k.writes? = some key) (uses : k.uses? = some key)
      (evicted : evictions k.events = [])
      (room : key ∈ k.heldBefore ∨ k.heldBefore.length < bound)
      (after : k.heldAfter = key :: k.heldBefore.filter (· ≠ key))
  /-- A new key takes the place of the last one. -/
  | evicts {key victim : String} {front : List String}
      (capacity : k.after.capacity = k.before.capacity) (writes : k.writes? = some key)
      (uses : k.uses? = some key) (evicted : evictions k.events = [victim])
      (new : key ∉ k.heldBefore) (full : k.heldBefore.length = bound)
      (before : k.heldBefore = front ++ [victim]) (after : k.heldAfter = key :: front)

/-! ### Requests about one key -/

/-- A stroke that looks up a key and writes nothing puts a key that is alive first, or lets go of
the key. -/
def Looks {α : Type} (now : Nat) (key : String) (s : Store) (served : Served Store α) : Prop :=
  evictions served.events = [] ∧ served.state.capacity = s.capacity ∧
    (((s.live? now key).isSome = true ∧
        served.state.entries.keys = key :: s.entries.keys.filter (· ≠ key)) ∨
      served.state.entries.keys = s.entries.keys.filter (· ≠ key))

variable {α : Type} {response : Response α} {events : List Event} {e : Entry}

/-- A look-up may find its key dead and drop it. -/
theorem Looks.dropped (none : evictions events = []) :
    Looks now key s ⟨response, s.drop key, events⟩ := ⟨none, rfl, Or.inr (keys_drop key s)⟩

/-- A look-up may find its key alive and put it first. -/
theorem Looks.held (live : s.live? now key = some e) (e' : Entry) (none : evictions events = []) :
    Looks now key s ⟨response, s.hold key e', events⟩ :=
  ⟨none, rfl, Or.inl ⟨Option.isSome_iff_exists.2 ⟨e, live⟩, keys_hold key e' s⟩⟩

/-- A key that was put first can be given another entry there. -/
theorem Looks.changed (live : s.live? now key = some e) (e' : Entry)
    (none : evictions events = []) :
    Looks now key s ⟨response, (s.hold key e).hold key e', events⟩ :=
  ⟨none, rfl, Or.inl ⟨Option.isSome_iff_exists.2 ⟨e, live⟩, keys_hold_hold key e e' s⟩⟩

theorem looks_get (now : Nat) (key : String) (s : Store) : Looks now key s (s.get now key) := by
  cases h : s.live? now key with
  | none =>
    rw [get, use_of_not_live h]
    exact .dropped rfl
  | some e =>
    obtain ⟨d, deadline⟩ := e
    rw [get, use_of_live h]
    cases d <;> exact .held h _ rfl

theorem looks_has (now : Nat) (key : String) (s : Store) : Looks now key s (s.has now key) := by
  cases h : s.live? now key with
  | none =>
    rw [has, use_of_not_live h]
    exact .dropped rfl
  | some e =>
    rw [has, use_of_live h]
    exact .held h _ rfl

theorem looks_ttl (now : Nat) (key : String) (s : Store) : Looks now key s (s.ttl now key) := by
  cases h : s.live? now key with
  | none =>
    rw [ttl, use_of_not_live h]
    exact .dropped rfl
  | some e =>
    rw [ttl, use_of_live h]
    exact .held h _ rfl

theorem looks_members (now : Nat) (key : String) (s : Store) :
    Looks now key s (s.members now key) := by
  cases h : s.live? now key with
  | none =>
    rw [members, use_of_not_live h]
    exact .dropped rfl
  | some e =>
    obtain ⟨d, deadline⟩ := e
    rw [members, use_of_live h]
    cases d <;> exact .held h _ rfl

theorem looks_expire (now : Nat) (key : String) (seconds : Nat) (s : Store) :
    Looks now key s (s.expire now key seconds) := by
  cases h : s.live? now key with
  | none =>
    rw [expire, use_of_not_live h]
    exact .dropped rfl
  | some e =>
    rw [expire, use_of_live h]
    simp only
    split
    · exact .changed h _ rfl
    · exact .held h _ rfl

theorem looks_removeMembers (now : Nat) (key : String) (names : List String) (s : Store) :
    Looks now key s (s.removeMembers now key names) := by
  cases h : s.live? now key with
  | none =>
    rw [removeMembers, use_of_not_live h]
    exact .dropped rfl
  | some e =>
    obtain ⟨d, deadline⟩ := e
    rw [removeMembers, use_of_live h]
    cases d with
    | scalar v => exact .held h _ rfl
    | set old =>
      simp only
      split
      -- the last name is gone, and the set with it
      · exact ⟨rfl, rfl, Or.inr (keys_drop_hold key _ s)⟩
      · exact .changed h _ rfl

/-- Counting under a live key is a look-up: no key is new. -/
theorem looks_adjust (h : (s.live? now key).isSome = true) (delta : Int) :
    Looks now key s (s.adjust now key delta) := by
  obtain ⟨⟨d, deadline⟩, he⟩ := Option.isSome_iff_exists.1 h
  rw [adjust, use_of_live he]
  cases d with
  | scalar v =>
    simp only
    split
    · exact .changed he _ rfl
    · exact .held he _ rfl
  | set old => exact .held he _ rfl

/-- Adding names to a live key, or no names at all, is a look-up. -/
theorem looks_addMembers {names : List String}
    (h : (s.live? now key).isSome = true ∨ names.isEmpty = true) :
    Looks now key s (s.addMembers now key names) := by
  cases he : s.live? now key with
  | none =>
    have empty : names.isEmpty = true := h.resolve_left (by simp [he])
    rw [addMembers, use_of_not_live he, empty]
    exact .dropped rfl
  | some e =>
    obtain ⟨d, deadline⟩ := e
    rw [addMembers, use_of_live he]
    cases d with
    | scalar v => exact .held he _ rfl
    | set old => exact .changed he _ rfl

/-- A stroke that looks up a key and writes none does what a look-up does. -/
theorem does_of_looks (looksUp : r.looksUp? = some key) (writes : (serve now r s).writes? = none)
    (touched : key ∈ r.touched s.entries.keys) (looks : Looks now key s (s.serve now r)) :
    (serve now r s).Does bound := by
  obtain ⟨evicted, capacity, after⟩ := looks
  have found : (serve now r s).uses? = if (s.live? now key).isSome then some key else none := by
    rw [uses?, writes, finds?, Option.or_none]
    change r.looksUp?.filter _ = _
    rw [looksUp]
    rfl
  have shorter := List.filter_sublist (l := s.entries.keys) (p := (· ≠ key))
  have mem : ∀ x ∈ s.entries.keys, x ∉ r.touched s.entries.keys →
      x ∈ s.entries.keys.filter (· ≠ key) := by
    intro x hx hn
    have : x ≠ key := fun he => hn (he ▸ touched)
    exact List.mem_filter.2 ⟨hx, by simpa using this⟩
  -- A live entry moves to the front. Else the key goes, if it was there at all.
  rcases after with ⟨alive, after⟩ | after
  · have here : key ∈ s.entries.keys := mem_of_isSome alive
    have held : (serve now r s).heldAfter = _ := after
    refine .reads capacity writes evicted ?_ ?_ fun x hx hn => ?_
    · rw [found, if_pos alive, held]
      exact .refl _
    · rw [held]
      exact List.cons_subset.2 ⟨here, shorter.subset⟩
    · rw [held]
      exact List.mem_cons_of_mem _ (mem x hx hn)
  · have held : (serve now r s).heldAfter = _ := after
    refine .reads capacity writes evicted ?_ ?_ fun x hx hn => ?_
    · rw [found, held]
      split
      · exact .cons _ (.refl _)
      · exact shorter
    · rw [held]
      exact shorter.subset
    · rw [held]
      exact mem x hx hn

/-- A stroke that only takes keys away does nothing to the order of the others. -/
theorem does_of_removal (capacity : k.after.capacity = k.before.capacity)
    (looksUp : k.request.looksUp? = none) (writes : k.writes? = none)
    (evicted : evictions k.events = []) (after : k.heldAfter.Sublist k.heldBefore)
    (stays : ∀ key ∈ k.heldBefore, key ∉ k.request.touched k.heldBefore → key ∈ k.heldAfter) :
    k.Does bound := by
  have none : k.uses? = none := by
    rw [uses?, writes, finds?, looksUp]
    rfl
  refine .reads capacity writes evicted ?_ after.subset stays
  rw [none]
  exact after

/-- A key is written into a store in which nothing has changed, or which has let go of the key. -/
theorem does_of_write (initial : k.before.capacity = bound) (capacity : t.capacity = bound)
    (positive : 0 < bound)
    (within : k.heldBefore.length ≤ bound) (writes : k.writes? = some key)
    (uses : k.uses? = some key) (after : k.after = (t.write key e).1)
    (events : evictions k.events = evictions (t.write key e).2)
    (same : t.entries.keys = k.heldBefore ∨ t.entries.keys = k.heldBefore.filter (· ≠ key)) :
    k.Does bound := by
  have sameCapacity : k.after.capacity = k.before.capacity := by
    rw [after, capacity_write, capacity, initial]
  have rest : t.entries.keys.filter (· ≠ key) = k.heldBefore.filter (· ≠ key) := by
    rcases same with same | same
    · rw [same]
    · simp only [same, List.filter_filter, Bool.and_self]
  have unchanged : key ∉ k.heldBefore → t.entries.keys = k.heldBefore := by
    intro new
    rcases same with same | same
    · exact same
    · rw [same, filter_of_not_mem new]
  have held : k.heldAfter = (t.write key e).1.entries.keys := congrArg (·.entries.keys) after
  rw [write] at held events
  by_cases here : key ∈ t.entries.keys
  · rw [if_pos (holds_iff.2 here)] at held events
    have before : key ∈ k.heldBefore := by
      rcases same with same | same
      · rwa [same] at here
      · rw [same] at here
        exact (List.mem_filter.1 here).1
    exact .fits sameCapacity writes uses events (Or.inl before) (by rw [held, keys_hold, rest])
  · rw [if_neg (mt holds_iff.1 here)] at held events
    by_cases room : t.size < t.capacity
    · rw [if_pos room] at held events
      refine .fits sameCapacity writes uses events ?_ (by rw [held, keys_hold, rest])
      by_cases before : key ∈ k.heldBefore
      · exact Or.inl before
      · rw [size_eq, unchanged before, capacity] at room
        exact Or.inr room
    · rw [if_neg room] at held events
      rw [size_eq, capacity] at room
      -- A key that was held has made room.
      have new : key ∉ k.heldBefore := by
        intro before
        rcases same with same | same
        · exact here (same ▸ before)
        · have fewer := length_filter_lt before
          rw [same] at room
          omega
      have full : k.heldBefore.length = bound := by
        rw [unchanged new] at room
        omega
      obtain ⟨front, ⟨victim, old⟩, split⟩ : ∃ front last, t.entries = front ++ [last] := by
        rcases List.eq_nil_or_concat t.entries with nil | ⟨front, last, he⟩
        · rw [nil] at room
          exact absurd positive room
        · exact ⟨front, last, by rw [he, List.concat_eq_append]⟩
      have evict : t.evict = ({ t with entries := front },
          [.count .evictions 1, .notice (.evicted victim)]) := by
        rw [Store.evict, split, List.getLast?_concat, List.dropLast_concat]
      have before : k.heldBefore = Catalog.keys front ++ [victim] := by
        rw [← unchanged new, split, Catalog.keys, List.map_append]
        rfl
      rw [evict] at held events
      refine .evicts sameCapacity writes uses events new full before ?_
      rw [held, keys_hold]
      refine congrArg (key :: ·) (filter_of_not_mem fun mem => new ?_)
      rw [before]
      exact List.mem_append_left _ mem

/-- A key that is not found alive is used by writing it. -/
theorem uses_of_new (looksUp : r.looksUp? = some key) (gone : s.live? now key = none)
    (writes : (serve now r s).writes? = some key) : (serve now r s).uses? = some key := by
  have finds : (serve now r s).finds? = none := by
    rw [finds?]
    change r.looksUp?.filter (fun key => (s.live? now key).isSome) = none
    rw [looksUp, Option.filter_some, gone]
    rfl
  rw [uses?, finds, writes]
  rfl

/-- Counting looks up a live key and writes a new one. -/
theorem does_adjust (capacity : s.capacity = bound) (positive : 0 < bound)
    (within : s.entries.keys.length ≤ bound) (looksUp : r.looksUp? = some key)
    (touched : r.touched s.entries.keys = [key]) (delta : Int)
    (served : (s.serve now r).state = (s.adjust now key delta).state ∧
      (s.serve now r).events = (s.adjust now key delta).events)
    (writes : (serve now r s).writes? = if (s.live? now key).isSome then none else some key) :
    (serve now r s).Does bound := by
  obtain ⟨state, events⟩ := served
  by_cases alive : (s.live? now key).isSome = true
  · rw [if_pos alive] at writes
    refine does_of_looks looksUp writes (touched ▸ List.mem_singleton_self key) ?_
    rw [Looks, state, events]
    exact looks_adjust alive delta
  · have gone : s.live? now key = none := by simpa using alive
    rw [if_neg alive] at writes
    have uses := uses_of_new looksUp gone writes
    rw [adjust, use_of_not_live gone] at state events
    exact does_of_write (t := s.drop key) capacity capacity positive within writes uses state
      (congrArg evictions events) (Or.inr (keys_drop key s))

/-- A request that keeps the keys of which `p` holds, and looks none up, if `p` holds of all that it
does not touch. -/
theorem does_of_filter {p : String → Bool} (capacity : k.after.capacity = k.before.capacity)
    (looksUp : k.request.looksUp? = none) (writes : k.writes? = none)
    (evicted : evictions k.events = []) (after : k.heldAfter = k.heldBefore.filter p)
    (stays : ∀ key ∈ k.heldBefore, key ∉ k.request.touched k.heldBefore → p key = true) :
    k.Does bound := by
  refine does_of_removal capacity looksUp writes evicted ?_ fun key hk hn => ?_
  · rw [after]
    exact List.filter_sublist
  · rw [after]
    exact List.mem_filter.2 ⟨hk, stays key hk hn⟩

/-- Setting a key writes it, unless the deadline is beyond the end of the clock. -/
theorem does_set (capacity : s.capacity = bound) (positive : 0 < bound)
    (within : s.entries.keys.length ≤ bound) (now : Nat) (key : String) (value : Json)
    (ttl : Option Nat) : (serve now (.set key value ttl) s).Does bound := by
  cases h : ttlDeadline? now ttl with
  | none =>
    have unchanged : s.serve now (.set key value ttl) = ⟨.beyondClock, s, []⟩ := by
      rw [Store.serve, Store.set, h]
    have none : (serve now (.set key value ttl) s).writes? = none := by
      rw [writes?, serve]
      simp [h]
    have state : (serve now (.set key value ttl) s).after = s := congrArg (·.state) unchanged
    refine does_of_removal (congrArg (·.state.capacity) unchanged) rfl none
      (congrArg (evictions ·.events) unchanged) ?_ ?_
    · rw [heldAfter, state]
      exact .refl _
    · intro key hk _
      rw [heldAfter, state]
      exact hk
  | some deadline =>
    have written : s.serve now (.set key value ttl) =
        ⟨.ok (), (s.write key ⟨.scalar value, deadline⟩).1,
          (s.write key ⟨.scalar value, deadline⟩).2⟩ := by
      rw [Store.serve, Store.set, h]
    have writes : (serve now (.set key value ttl) s).writes? = some key := by
      rw [writes?, serve]
      simp [h]
    -- A set does not look at what the key holds, so that the write alone uses it.
    have uses : (serve now (.set key value ttl) s).uses? = some key := by
      rw [uses?, writes]
      rfl
    exact does_of_write (t := s) capacity capacity positive within writes uses
      (congrArg (·.state) written) (congrArg (evictions ·.events) written) (Or.inl rfl)

theorem does_delete (now : Nat) (key : String) : (serve now (.delete key) s).Does bound := by
  refine does_of_filter rfl rfl rfl rfl (keys_drop key s) fun x _ hn => ?_
  have : x ≠ key := fun he => hn (List.mem_singleton.2 he)
  simpa using this

theorem does_deletePattern (now : Nat) (pattern : String) :
    (serve now (.deletePattern pattern) s).Does bound := by
  have held : (serve now (.deletePattern pattern) s).heldAfter =
      s.entries.keys.filter fun x => !Glob.matchesText pattern x := by
    change (s.deletePattern now pattern).state.entries.keys = _
    rw [entries_deletePattern, Catalog.keys, Catalog.keys, List.filter_map]
    rfl
  refine does_of_filter rfl rfl rfl rfl held fun x hx hn => ?_
  rw [Bool.not_eq_true']
  by_contra hm
  exact hn (List.mem_filter.2 ⟨hx, by simpa using hm⟩)

/-- Adding names looks up a live key and writes a new one, unless there are no names. -/
theorem does_addMembers (capacity : s.capacity = bound) (positive : 0 < bound)
    (within : s.entries.keys.length ≤ bound) (now : Nat) (key : String) (names : List String) :
    (serve now (.addMembers key names) s).Does bound := by
  by_cases h : (s.live? now key).isSome = true ∨ names.isEmpty = true
  · have none : (serve now (.addMembers key names) s).writes? = none :=
      if_pos (Bool.or_eq_true_iff.2 h)
    exact does_of_looks rfl none (List.mem_singleton_self key) (looks_addMembers h)
  · obtain ⟨dead, named⟩ := not_or.1 h
    have gone : s.live? now key = none := by simpa using dead
    have writes : (serve now (.addMembers key names) s).writes? = some key :=
      if_neg (mt Bool.or_eq_true_iff.1 h)
    have written : s.serve now (.addMembers key names) =
        ⟨.ok (Members.ofList names).length,
          ((s.drop key).write key ⟨.set (Members.ofList names), none⟩).1,
          ((s.drop key).write key ⟨.set (Members.ofList names), none⟩).2⟩ := by
      rw [Store.serve, addMembers, use_of_not_live gone]
      exact if_neg named
    exact does_of_write (t := s.drop key) capacity capacity positive within writes
      (uses_of_new rfl gone writes) (congrArg (·.state) written)
      (congrArg (evictions ·.events) written) (Or.inr (keys_drop key s))

/-- What a request about a single key or pattern does. -/
theorem does_serve (single : r.parts = [r]) (capacity : s.capacity = bound) (positive : 0 < bound)
    (within : s.entries.keys.length ≤ bound) (now : Nat) : (serve now r s).Does bound := by
  cases r with
  | get key => exact does_of_looks rfl rfl (List.mem_singleton_self key) (looks_get now key s)
  | set key value ttl => exact does_set capacity positive within now key value ttl
  | delete key => exact does_delete now key
  | deletePattern pattern => exact does_deletePattern now pattern
  | has key => exact does_of_looks rfl rfl (List.mem_singleton_self key) (looks_has now key s)
  | ttl key => exact does_of_looks rfl rfl (List.mem_singleton_self key) (looks_ttl now key s)
  -- Of the two requests about many keys none is a part of its own.
  | getMany keys =>
    obtain ⟨_, -, other⟩ := List.map_eq_singleton_iff.1 single
    cases other
  | setMany entries ttl =>
    obtain ⟨_, -, other⟩ := List.map_eq_singleton_iff.1 single
    cases other
  | increment key => exact does_adjust capacity positive within rfl rfl 1 ⟨rfl, rfl⟩ rfl
  | decrement key => exact does_adjust capacity positive within rfl rfl (-1) ⟨rfl, rfl⟩ rfl
  | expire key seconds =>
    exact does_of_looks rfl rfl (List.mem_singleton_self key) (looks_expire now key seconds s)
  | addMembers key names => exact does_addMembers capacity positive within now key names
  | members key =>
    exact does_of_looks rfl rfl (List.mem_singleton_self key) (looks_members now key s)
  | removeMembers key names =>
    exact does_of_looks rfl rfl (List.mem_singleton_self key) (looks_removeMembers now key names s)

end Stroke

/-! ## What the metric counts -/

/-- The metric counts every eviction that is reported, and nothing else. -/
def Counted (events : List Event) : Prop :=
  Event.total .evictions events = (evictions events).length

theorem Counted.append {xs ys : List Event} (h : Counted xs) (h' : Counted ys) :
    Counted (xs ++ ys) := by
  rw [Counted, Event.total_append, Event.evictions_append, List.length_append, h, h']

/-- An eviction is counted once and named once. -/
theorem counted_evict (s : Store) : Counted s.evict.2 := by
  rw [evict]
  split <;> rfl

theorem counted_write (key : String) (e : Entry) (s : Store) : Counted (s.write key e).2 := by
  rw [write]
  split
  · rfl
  · split
    · rfl
    · exact (counted_evict s).append rfl

theorem counted_getMany (now : Nat) (keys : List String) (s : Store) :
    Counted (s.getMany now keys).2.2 := by
  induction keys generalizing s with
  | nil => rfl
  | cons key rest ih =>
    have reading (hit : Bool) : Counted [.count (.reads .inProcess "mget" hit) 1] := rfl
    exact (reading _).append (ih (s.use now key).2)

theorem counted_writeMany (deadline : Option Nat) (entries : List (String × Json)) (s : Store) :
    Counted (s.writeMany deadline entries).2 := by
  induction entries generalizing s with
  | nil => rfl
  | cons e rest ih => exact (counted_write e.1 _ s).append (ih _)

theorem counted_adjust (now : Nat) (key : String) (delta : Int) (s : Store) :
    Counted (s.adjust now key delta).events := by
  rw [adjust]
  split
  · rfl
  · split <;> rfl
  · exact counted_write key _ _

/-- Every request counts as many evictions as it names keys. -/
theorem counted_serve (now : Nat) (r : Request) (s : Store) : Counted (s.serve now r).events := by
  cases r with
  | get key =>
    rw [serve, get]
    split <;> rfl
  | set key value ttl =>
    rw [serve, set]
    split
    · rfl
    · exact counted_write key _ s
  | delete key => rfl
  | deletePattern pattern => rfl
  | has key =>
    rw [serve, has]
    split <;> rfl
  | ttl key =>
    rw [serve, ttl]
    split <;> rfl
  | getMany keys => exact counted_getMany now keys s
  | setMany entries ttl =>
    rw [serve, setMany]
    split
    · rfl
    · exact counted_writeMany _ entries s
  | increment key => exact counted_adjust now key 1 s
  | decrement key => exact counted_adjust now key (-1) s
  | expire key seconds =>
    rw [serve, expire]
    split
    · split <;> rfl
    · rfl
  | addMembers key names =>
    rw [serve, addMembers]
    split
    · rfl
    · rfl
    · split
      · rfl
      · exact counted_write key _ _
  | members key =>
    rw [serve, members]
    split <;> rfl
  | removeMembers key names =>
    rw [serve, removeMembers]
    split
    · simp only
      split <;> rfl
    · rfl
    · rfl

end Store

end GrantCache
