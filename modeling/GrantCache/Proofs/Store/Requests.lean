import GrantCache.Proofs.Store.Live

/-!
# What a request does to the entries

For each request about a single key: what becomes of the key's entry, and what is answered. For all
requests at once: the keys that a request does not touch are left alone (`retains_serve`).
-/

namespace GrantCache

open Event (evictions)

/-! ## What a request touches -/

namespace Request

/-- The keys that a request touches in a store that holds the given keys. -/
def touched (held : List String) : Request → List String
  | .deletePattern pattern => held.filter fun key => Glob.matchesText pattern key
  | r => r.keys

end Request

namespace Store

variable {now : Nat} {key other : String} {s : Store}

/-! ## Reads -/

/-- A reading drops its key if the entry is dead, and leaves all other keys as they are. -/
theorem item?_get (now : Nat) (key other : String) (s : Store) :
    (s.get now key).state.item? other =
      if key = other then s.live? now key else s.item? other := by
  have used := item?_use now key other s
  unfold get
  split <;> simp_all

/-- What drops only the dead changes no live entry. -/
theorem live?_of_dropsDead {s' : Store}
    (h : s'.item? other = if key = other then s.live? now key else s.item? other) :
    s'.live? now other = s.live? now other := by
  rw [live?_eq, h]
  split
  · rename_i hk
    rw [← hk, filter_live?]
  · rfl

/-- A reading changes no live entry. -/
theorem live?_get (now : Nat) (key other : String) (s : Store) :
    (s.get now key).state.live? now other = s.live? now other :=
  live?_of_dropsDead (item?_get now key other s)

/-- A reading answers with the live value, and finds fault with a set. -/
theorem response_get (now : Nat) (key : String) (s : Store) :
    (s.get now key).response =
      match s.live? now key with
      | some ⟨.scalar v, _⟩ => .ok (some v)
      | some ⟨.set _, _⟩ => .fault (.wrongType key)
      | none => .ok none := by
  rw [← use_fst]
  unfold get
  split <;> simp_all

theorem item?_members (now : Nat) (key other : String) (s : Store) :
    (s.members now key).state.item? other =
      if key = other then s.live? now key else s.item? other := by
  have used := item?_use now key other s
  unfold members
  split <;> simp_all

theorem live?_members (now : Nat) (key other : String) (s : Store) :
    (s.members now key).state.live? now other = s.live? now other :=
  live?_of_dropsDead (item?_members now key other s)

/-- The reading of a set answers with its names, none if there is no set, and finds fault with a
value. -/
theorem response_members (now : Nat) (key : String) (s : Store) :
    (s.members now key).response =
      match s.live? now key with
      | some ⟨.set names, _⟩ => .ok names
      | some ⟨.scalar _, _⟩ => .fault (.wrongType key)
      | none => .ok [] := by
  rw [← use_fst]
  unfold members
  split <;> simp_all

/-! ## Removals -/

/-- A removal takes away the entry of its key, dead or alive. -/
theorem item?_delete (now : Nat) (key other : String) (s : Store) :
    (s.delete now key).state.item? other = if key = other then none else s.item? other :=
  item?_drop key other s

theorem live?_delete (now : Nat) (key other : String) (s : Store) :
    (s.delete now key).state.live? now other = if key = other then none else s.live? now other :=
  live?_drop now key other s

/-- A removal by pattern answers with how many of the keys that match were alive. -/
theorem response_deletePattern (now : Nat) (pattern : String) (s : Store) :
    (s.deletePattern now pattern).response =
      .ok (s.entries.countP fun e => Glob.matchesText pattern e.1 && e.2.isAlive now) := by
  simp only [deletePattern, List.partition_eq_filter_filter, List.countP_eq_length_filter,
    List.filter_filter, Bool.and_comm]

/-- A removal by pattern keeps the entries whose keys do not match, in their order. -/
theorem state_deletePattern (now : Nat) (pattern : String) (s : Store) :
    (s.deletePattern now pattern).state =
      { s with entries := s.entries.filter fun e => !Glob.matchesText pattern e.1 } := by
  simp only [deletePattern, List.partition_eq_filter_filter, Function.comp_def]

theorem entries_deletePattern (now : Nat) (pattern : String) (s : Store) :
    (s.deletePattern now pattern).state.entries =
      s.entries.filter fun e => !Glob.matchesText pattern e.1 := by rw [state_deletePattern]

/-- A removal by pattern takes away all keys that match, dead or alive. -/
theorem item?_deletePattern (now : Nat) (pattern other : String) (s : Store) :
    (s.deletePattern now pattern).state.item? other =
      if Glob.matchesText pattern other then none else s.item? other := by
  rw [item?, entries_deletePattern,
    Catalog.find?_filter_keys (fun k => !Glob.matchesText pattern k)]
  by_cases hm : Glob.matchesText pattern other
  · simp [hm]
  · simp [hm, item?]

/-- What is alive under a key that does not match stays. -/
theorem live?_deletePattern (now : Nat) (pattern other : String) (s : Store) :
    (s.deletePattern now pattern).state.live? now other =
      if Glob.matchesText pattern other then none else s.live? now other := by
  rw [live?_eq, item?_deletePattern]
  split <;> rfl

/-- What is left of a set when names are taken out; a set without names is gone. -/
def lessMembers (names : List String) : Option Entry → Option Entry
  | some ⟨.set old, deadline⟩ =>
    if (Members.remove old names).isEmpty then none
    else some ⟨.set (Members.remove old names), deadline⟩
  | e => e

/-- Names are taken out of the live set under the key. A dead entry goes, and a value stays. -/
theorem item?_removeMembers (now : Nat) (key other : String) (names : List String) (s : Store) :
    (s.removeMembers now key names).state.item? other =
      if key = other then lessMembers names (s.live? now key) else s.item? other := by
  have used := item?_use now key other s
  have found := use_fst now key s
  unfold removeMembers
  split
  · rename_i old deadline t he
    rw [he] at used found
    rw [← found, lessMembers]
    simp only at used ⊢
    split
    · rw [item?_drop, used]
      split <;> rfl
    · rw [item?_hold, used]
      split <;> rfl
  -- A value, or no entry: nothing is taken out.
  · rename_i v deadline t he
    rw [he] at used found
    rw [used, ← found, lessMembers]
    simp
  · rename_i t he
    rw [he] at used found
    rw [used, ← found, lessMembers]
    simp

/-- What is left of a set is as alive as the set was. -/
theorem isAlive_of_lessMembers {names : List String} {e : Entry}
    (h : lessMembers names (s.live? now key) = some e) : e.isAlive now = true := by
  have alive : ∀ e, s.live? now key = some e → e.isAlive now = true := fun e he =>
    (Option.filter_eq_some_iff.1 he).2
  unfold lessMembers at h
  split at h
  · rename_i old deadline he
    split at h
    · cases h
    · cases h
      exact alive ⟨.set old, deadline⟩ he
  · exact alive e h

/-- What is left of the set is found from now on, and the other keys as before. -/
theorem live?_removeMembers (now : Nat) (key other : String) (names : List String) (s : Store) :
    (s.removeMembers now key names).state.live? now other =
      if key = other then lessMembers names (s.live? now key) else s.live? now other := by
  rw [live?_eq, item?_removeMembers]
  split
  · cases h : lessMembers names (s.live? now key) with
    | none => rfl
    | some e => rw [Option.filter_some, if_pos (isAlive_of_lessMembers h)]
  · rfl

/-! ## Writes -/

/-- Nothing is written under a deadline beyond the end of the clock. -/
theorem item?_set (now : Nat) (key : String) (value : Json) (ttl : Option Nat) (s : Store) :
    (s.set now key value ttl).state.item? key =
      match ttlDeadline? now ttl with
      | some deadline => some ⟨.scalar value, deadline⟩
      | none => s.item? key := by
  unfold set
  cases ttlDeadline? now ttl with
  | none => rfl
  | some deadline => exact item?_write_self key _ s

/-- What is written is alive, unless its deadline has come already; nothing is written under a
deadline beyond the end of the clock. -/
theorem live?_set (now : Nat) (key : String) (value : Json) (ttl : Option Nat) (s : Store) :
    (s.set now key value ttl).state.live? now key =
      match ttlDeadline? now ttl with
      | some deadline => (some ⟨.scalar value, deadline⟩).filter fun e => e.isAlive now
      | none => s.live? now key := by
  rw [live?_eq, item?_set]
  split <;> rfl

/-- A value is written unless its deadline lies beyond the end of the clock. -/
theorem response_set (now : Nat) (key : String) (value : Json) (ttl : Option Nat) (s : Store) :
    (s.set now key value ttl).response =
      if (ttlDeadline? now ttl).isSome then .ok () else .beyondClock := by
  unfold set
  split
  · rename_i h
    simp [h]
  · rename_i h
    simp [h]

/-- What becomes of a set when names are added; a key without an entry gets a new set. -/
def moreMembers (names : List String) : Option Entry → Option Entry
  | some ⟨.set old, deadline⟩ => some ⟨.set (Members.union old names), deadline⟩
  | some e => some e
  | none => if names.isEmpty then none else some ⟨.set (Members.ofList names), none⟩

/-- Names are added to the live set under the key, or make up a new one that never expires. A value
stays. -/
theorem item?_addMembers (now : Nat) (key : String) (names : List String) (s : Store) :
    (s.addMembers now key names).state.item? key = moreMembers names (s.live? now key) := by
  have used := item?_use now key key s
  have found := use_fst now key s
  unfold addMembers
  split
  · rename_i old deadline t he
    rw [he] at found
    rw [← found, moreMembers, item?_hold, if_pos rfl]
  · rename_i v deadline t he
    rw [he] at used found
    rw [used, if_pos rfl, ← found, moreMembers]
    simp
  · rename_i t he
    rw [he] at used found
    rw [← found, moreMembers]
    split
    · rw [used, if_pos rfl, ← found]
    · rw [item?_write_self]

/-- The set with the new names is found from now on. -/
theorem live?_addMembers (now : Nat) (key : String) (names : List String) (s : Store) :
    (s.addMembers now key names).state.live? now key = moreMembers names (s.live? now key) := by
  have alive : ∀ e, s.live? now key = some e → e.isAlive now = true := fun e he =>
    (Option.filter_eq_some_iff.1 he).2
  rw [live?_eq, item?_addMembers]
  unfold moreMembers
  split
  · rename_i old deadline he
    have still : (⟨.set (Members.union old names), deadline⟩ : Entry).isAlive now = true :=
      alive ⟨.set old, deadline⟩ he
    rw [Option.filter_some, if_pos still]
  · rename_i e _ he
    rw [Option.filter_some, if_pos (alive e he)]
  · split <;> rfl

/-! ## Keys that a request does not touch -/

section Frame

variable {other : String}

/-- A request that only uses a key, or changes what it found there, leaves every other key alone. -/
theorem Retains.of_use {s' : Store} {events : List Event} (h : key ≠ other)
    (same : s'.item? other = (s.use now key).2.item? other) : Retains other s s' events :=
  Or.inl (by rw [same, item?_use, if_neg h])

theorem retains_getMany (now : Nat) (keys : List String) (s : Store) (h : other ∉ keys) :
    Retains other s (s.getMany now keys).2.1 (s.getMany now keys).2.2 := by
  induction keys generalizing s with
  | nil => exact Or.inl rfl
  | cons key rest ih =>
    rw [List.mem_cons, not_or] at h
    have first : Retains other s (s.use now key).2 [] := .of_use (Ne.symm h.1) rfl
    exact first.trans (ih (s.use now key).2 h.2)

/-- Writing several keys leaves the others alone, unless it evicts them. -/
theorem retains_writeMany (deadline : Option Nat) {entries : List (String × Json)}
    (h : other ∉ entries.map (·.1)) (s : Store) :
    Retains other s (s.writeMany deadline entries).1 (s.writeMany deadline entries).2 := by
  induction entries generalizing s with
  | nil => exact Or.inl rfl
  | cons e rest ih =>
    rw [List.map_cons, List.mem_cons, not_or] at h
    have first := retains_write (Ne.symm h.1) ⟨.scalar e.2, deadline⟩ s
    exact first.trans (ih h.2 _)

/-- Counting under a key leaves the others alone, unless a new count evicts one. -/
theorem retains_adjust (h : key ≠ other) (now : Nat) (delta : Int) (s : Store) :
    Retains other s (s.adjust now key delta).state (s.adjust now key delta).events := by
  have read : Retains other s (s.use now key).2 [] := .of_use h rfl
  unfold adjust
  split
  · rename_i he
    exact .of_use h (by rw [he])
  · rename_i he
    split
    · exact .of_use h (by rw [he, item?_hold, if_neg h])
    · exact .of_use h (by rw [he])
  · rename_i he
    rw [he] at read
    -- Only a new key is written, and may evict another.
    exact read.trans (retains_write h _ _)

theorem retains_expire (h : key ≠ other) (now seconds : Nat) (s : Store) :
    Retains other s (s.expire now key seconds).state (s.expire now key seconds).events := by
  unfold expire
  split
  · rename_i he
    split
    · exact .of_use h (by rw [he, item?_hold, if_neg h])
    · exact .of_use h (by rw [he])
  · rename_i he
    exact .of_use h (by rw [he])

/-- Adding names to a set leaves the other keys alone, unless a new set evicts one. -/
theorem retains_addMembers (h : key ≠ other) (now : Nat) (names : List String) (s : Store) :
    Retains other s (s.addMembers now key names).state (s.addMembers now key names).events := by
  have read : Retains other s (s.use now key).2 [] := .of_use h rfl
  unfold addMembers
  split
  · rename_i he
    exact .of_use h (by rw [he, item?_hold, if_neg h])
  · rename_i he
    exact .of_use h (by rw [he])
  · rename_i he
    rw [he] at read
    split
    · exact .of_use h (by rw [he])
    -- A new set is written, and may evict another key.
    · exact read.trans (retains_write h _ _)

theorem retains_set (h : key ≠ other) (now : Nat) (value : Json) (ttl : Option Nat) (s : Store) :
    Retains other s (s.set now key value ttl).state (s.set now key value ttl).events := by
  unfold set
  split
  · exact Or.inl rfl
  · exact retains_write h _ s

/-- Every request leaves the keys that it does not touch alone, unless it evicts them. -/
theorem retains_serve (now : Nat) (s : Store) (r : Request)
    (h : other ∉ r.touched s.entries.keys) :
    Retains other s (s.serve now r).state (s.serve now r).events := by
  cases r with
  | get key =>
    have apart : key ≠ other := by simpa [Request.touched, Request.keys, eq_comm] using h
    exact Or.inl (by rw [serve, item?_get, if_neg apart])
  | set key value ttl =>
    exact retains_set (by simpa [Request.touched, Request.keys, eq_comm] using h) now value ttl s
  | delete key =>
    have apart : key ≠ other := by simpa [Request.touched, Request.keys, eq_comm] using h
    exact Or.inl (by rw [serve, item?_delete, if_neg apart])
  | deletePattern pattern =>
    refine Or.inl ?_
    rw [serve, item?_deletePattern]
    split
    · rename_i hm
      -- the key is not held at all
      have absent : other ∉ s.entries.keys := fun hk => h (List.mem_filter.2 ⟨hk, hm⟩)
      exact (Catalog.find?_eq_none_iff.2 absent).symm
    · rfl
  | has key =>
    have apart : key ≠ other := by simpa [Request.touched, Request.keys, eq_comm] using h
    have used : (s.has now key).state = (s.use now key).2 := by rw [has]; split <;> simp_all
    exact .of_use apart (congrArg (Store.item? other) used)
  | ttl key =>
    have apart : key ≠ other := by simpa [Request.touched, Request.keys, eq_comm] using h
    have used : (s.ttl now key).state = (s.use now key).2 := by rw [ttl]; split <;> simp_all
    exact .of_use apart (congrArg (Store.item? other) used)
  | getMany keys => exact retains_getMany now keys s h
  | setMany entries ttl =>
    rw [serve, setMany]
    split
    · exact Or.inl rfl
    · exact retains_writeMany _ h s
  | increment key =>
    exact retains_adjust (by simpa [Request.touched, Request.keys, eq_comm] using h) now 1 s
  | decrement key =>
    exact retains_adjust (by simpa [Request.touched, Request.keys, eq_comm] using h) now (-1) s
  | expire key seconds =>
    exact retains_expire (by simpa [Request.touched, Request.keys, eq_comm] using h) now seconds s
  | addMembers key names =>
    exact retains_addMembers (by simpa [Request.touched, Request.keys, eq_comm] using h) now names s
  | members key =>
    have apart : key ≠ other := by simpa [Request.touched, Request.keys, eq_comm] using h
    exact Or.inl (by rw [serve, item?_members, if_neg apart])
  | removeMembers key names =>
    have apart : key ≠ other := by simpa [Request.touched, Request.keys, eq_comm] using h
    exact Or.inl (by rw [serve, item?_removeMembers, if_neg apart])

/-- What is alive under a key that a request does not touch stays alive, unless the key is evicted. -/
theorem spares_serve (now : Nat) (s : Store) (r : Request) (h : other ∉ r.touched s.entries.keys) :
    Spares now other s (s.serve now r).state (s.serve now r).events :=
  (retains_serve now s r h).spares now

end Frame

/-! ## Distinct keys -/

theorem Distinct.getMany {s : Store} (h : s.Distinct) (now : Nat) (keys : List String) :
    (s.getMany now keys).2.1.Distinct := by
  induction keys generalizing s with
  | nil => exact h
  | cons key rest ih => exact ih (h.use now key)

theorem Distinct.writeMany {s : Store} (h : s.Distinct) (deadline : Option Nat)
    (entries : List (String × Json)) : (s.writeMany deadline entries).1.Distinct := by
  induction entries generalizing s with
  | nil => exact h
  | cons e rest ih => exact ih (h.write e.1 _)

theorem Distinct.adjust {s : Store} (h : s.Distinct) (now : Nat) (key : String) (delta : Int) :
    (s.adjust now key delta).state.Distinct := by
  have used := h.use now key
  unfold Store.adjust
  split
  · rename_i he
    rwa [he] at used
  · rename_i he
    rw [he] at used
    split
    · exact used.hold key _
    · exact used
  · rename_i he
    rw [he] at used
    exact used.write key _

/-- No request leaves a key with two entries. -/
theorem Distinct.serve {s : Store} (h : s.Distinct) (now : Nat) (r : Request) :
    (s.serve now r).state.Distinct := by
  -- Every request about a single key uses it first.
  have used (key : String) : (s.use now key).2.Distinct := h.use now key
  cases r with
  | get key =>
    have := used key
    rw [Store.serve, Store.get]
    split <;> simp_all
  | set key value ttl =>
    rw [Store.serve, Store.set]
    split
    · exact h
    · exact h.write key _
  | delete key => exact h.drop key
  | deletePattern pattern =>
    show (s.deletePattern now pattern).state.entries.keys.Nodup
    rw [entries_deletePattern]
    exact List.Nodup.sublist (List.filter_sublist.map _) h
  | has key =>
    have := used key
    rw [Store.serve, Store.has]
    split <;> simp_all
  | ttl key =>
    have := used key
    rw [Store.serve, Store.ttl]
    split <;> simp_all
  | getMany keys => exact h.getMany now keys
  | setMany entries ttl =>
    rw [Store.serve, Store.setMany]
    split
    · exact h
    · exact h.writeMany _ entries
  | increment key => exact h.adjust now key 1
  | decrement key => exact h.adjust now key (-1)
  | expire key seconds =>
    have := used key
    rw [Store.serve, Store.expire]
    split
    · rename_i he
      rw [he] at this
      split
      · exact this.hold key _
      · exact this
    · rename_i he
      rwa [he] at this
  | addMembers key names =>
    have := used key
    rw [Store.serve, Store.addMembers]
    split
    · rename_i he
      rw [he] at this
      exact this.hold key _
    · rename_i he
      rwa [he] at this
    · rename_i he
      rw [he] at this
      split
      · exact this
      · exact this.write key _
  | members key =>
    have := used key
    rw [Store.serve, Store.members]
    split <;> simp_all
  | removeMembers key names =>
    have := used key
    rw [Store.serve, Store.removeMembers]
    split
    · rename_i he
      rw [he] at this
      simp only
      split
      · exact this.drop key
      · exact this.hold key _
    · rename_i he
      rwa [he] at this
    · rename_i he
      rwa [he] at this

end Store

end GrantCache
