import GrantCache.Grants
import GrantCache.Proofs.Key
import GrantCache.Proofs.Store.Requests
import GrantCache.Proofs.Upkeep

/-!
# What a cache of grants holds

The view of a cache of grants over a bounded store: which entry is alive under which key
(`Grants.live?`), and which keys have been evicted so far (`Grants.evicted`). The lemmas of
`Proofs.Store.Requests` say what a request does to the store; here they are said of the cache.

`Sound` collects what holds whenever only grants have been written under the keys of grants: a user's
key holds a list of codes, a code's key holds a set that never expires, and index writes go to keys of
sets.
-/

namespace GrantCache.Grants

open Event (evictions)

variable {g g' g'' : Grants} {s : Store} {kind : GrantKind} {key other user code : String}

/-! ## The view -/

/-- The bounded store that the cache is over, if it is over one. -/
def store? (g : Grants) : Option Store :=
  match g.host.backend with
  | .bounded s => some s
  | _ => none

/-- The entry under a key that is found now. -/
def live? (key : String) (g : Grants) : Option Entry :=
  g.store?.bind fun s => s.live? g.host.now key

/-- The keys that were evicted so far, in order. -/
def evicted (g : Grants) : List String := evictions g.journal

/-- The codes that are cached for a user, as a reading finds them. -/
def codes? (kind : GrantKind) (user : String) (g : Grants) : Option (List String) :=
  (g.live? (kind.entryKey user)).bind fun e =>
    match e.data with
    | .scalar v => v.texts?
    | .set _ => none

/-- The users in the set of a code, none if there is no set. -/
def users (kind : GrantKind) (code : String) (g : Grants) : List String :=
  match g.live? (kind.indexKey code) with
  | some ⟨.set names, _⟩ => names
  | _ => []

theorem live?_of_store (h : g.store? = some s) (key : String) :
    g.live? key = s.live? g.host.now key := by rw [live?, h, Option.bind_some]

/-! ### Requests -/

/-- A request changes the store and the record, and nothing else of the cache. -/
theorem ask_of_store (h : g.store? = some s) (r : Request) :
    g.ask r = ((s.serve g.host.now r).response,
      { g with
        host := { g.host with backend := .bounded (s.serve g.host.now r).state }
        journal := g.journal ++ (s.serve g.host.now r).events }) := by
  obtain ⟨⟨now, breaker, backend⟩, upkeep, ttl, size, journal⟩ := g
  cases backend with
  | bounded t =>
    cases h
    rfl
  | faulty t => cases h
  | remote t => cases h

theorem store?_ask (h : g.store? = some s) (r : Request) :
    (g.ask r).2.store? = some (s.serve g.host.now r).state := by rw [ask_of_store h]; rfl

theorem now_ask (h : g.store? = some s) (r : Request) : (g.ask r).2.host.now = g.host.now := by
  rw [ask_of_store h]

/-- What is alive after a request is what is alive in the store that the request leaves. -/
theorem live?_ask (h : g.store? = some s) (r : Request) (key : String) :
    (g.ask r).2.live? key = (s.serve g.host.now r).state.live? g.host.now key := by
  rw [live?_of_store (store?_ask h r), now_ask h]

/-- A request adds the keys that it evicts to those evicted so far. -/
theorem evicted_ask (h : g.store? = some s) (r : Request) :
    (g.ask r).2.evicted = g.evicted ++ evictions (s.serve g.host.now r).events := by
  rw [ask_of_store h, evicted, evicted, Event.evictions_append]

/-- No request has anything to do with index writes. -/
@[simp] theorem upkeep_ask (r : Request) (g : Grants) : (g.ask r).2.upkeep = g.upkeep := rfl

/-! ### Events -/

theorem evicted_note (events : List Event) (g : Grants) :
    (g.note events).evicted = g.evicted ++ evictions events := Event.evictions_append ..

/-! ## Keys that are left alone -/

/-- What is alive under a key stays, unless the key is evicted. -/
def Spares (key : String) (g g' : Grants) : Prop :=
  g'.live? key = g.live? key ∨ (g'.live? key = none ∧ key ∈ g'.evicted)

/-- What is alive under a key stays or goes, but is not replaced. -/
def Fades (key : String) (g g' : Grants) : Prop :=
  g'.live? key = g.live? key ∨ g'.live? key = none

/-- A key that is left alone but for evictions is not given another entry. -/
theorem Spares.fades (h : Spares key g g') : Fades key g g' := h.imp_right And.left

theorem Fades.refl (key : String) (g : Grants) : Fades key g g := Or.inl rfl

theorem Fades.trans (h : Fades key g g') (h' : Fades key g' g'') : Fades key g g'' := by
  rcases h' with h' | h'
  · rcases h with h | h
    · exact Or.inl (h'.trans h)
    · exact Or.inr (h'.trans h)
  · exact Or.inr h'

theorem Fades.none (h : Fades key g g') (hn : g.live? key = none) : g'.live? key = none :=
  h.elim (·.trans hn) id

/-- What is found later was found before. -/
theorem Fades.some {e : Entry} (h : Fades key g g') (he : g'.live? key = some e) :
    g.live? key = some e := by
  rcases h with h | h
  · exact h.symm.trans he
  · cases h.symm.trans he

/-- The keys that a store holds, dead ones included. -/
def held (g : Grants) : List String := (g.store?.map fun s => s.entries.keys).getD []

/-- A request leaves the keys that it does not touch alone, unless it evicts them. -/
theorem spares_ask (h : g.store? = some s) (r : Request) (hk : key ∉ r.touched g.held) :
    Spares key g (g.ask r).2 := by
  rw [held, h] at hk
  rw [Spares, live?_ask h, evicted_ask h, live?_of_store h]
  refine (Store.spares_serve g.host.now s r hk).imp_right ?_
  rintro ⟨gone, he⟩
  exact ⟨gone, List.mem_append_right _ he⟩

/-! ## The clock and the dead -/

def pass (ms : Nat) (g : Grants) : Grants := { g with host.now := g.host.now + ms }

/-- As time passes, entries go when their deadlines come, and nothing else happens to them. -/
theorem live?_pass (ms : Nat) (key : String) (g : Grants) :
    (g.pass ms).live? key = (g.live? key).filter fun e => e.isAlive (g.host.now + ms) := by
  cases hs : g.store? with
  | none =>
    rw [live?, live?, hs, show (g.pass ms).store? = none from hs]
    rfl
  | some s =>
    rw [live?_of_store hs, live?_of_store (show (g.pass ms).store? = some s from hs), Store.live?,
      Store.live?, Option.filter_filter]
    congr 1
    funext e
    -- what is alive later is alive now
    obtain ⟨data, deadline⟩ := e
    cases deadline with
    | none => rfl
    | some d =>
      by_cases hd : g.host.now + ms < d
      · have now : g.host.now < d := by omega
        simp [Entry.isAlive, pass, hd, now]
      · simp [Entry.isAlive, pass, hd]

/-- Time does not give a key another entry. -/
theorem fades_pass (ms : Nat) (key : String) (g : Grants) : Fades key g (g.pass ms) := by
  rw [Fades, live?_pass]
  cases g.live? key with
  | none => exact Or.inl rfl
  | some e =>
    rw [Option.filter_some]
    split
    · exact Or.inl rfl
    · exact Or.inr rfl

/-- A purge sweeps the store and puts on record what the sweep reports. -/
theorem purge_of_store (h : g.store? = some s) :
    g.purge.2 = ({ g with
      host := { g.host with backend := .bounded (s.sweep g.host.now).2.1 } } : Grants).note
        (s.sweep g.host.now).2.2 := by
  obtain ⟨⟨now, breaker, backend⟩, upkeep, ttl, size, journal⟩ := g
  cases backend with
  | bounded t =>
    cases h
    rfl
  | faulty t => cases h
  | remote t => cases h

theorem store?_purge (h : g.store? = some s) :
    g.purge.2.store? = some (s.sweep g.host.now).2.1 := by rw [purge_of_store h]; rfl

/-- A purge takes away the dead only, so the view does not change. -/
theorem live?_purge (h : g.store? = some s) (hd : s.Distinct) (key : String) :
    g.purge.2.live? key = g.live? key := by
  rw [live?_of_store (store?_purge h), live?_of_store h, purge_of_store h]
  exact Store.live?_sweep hd _ key

/-- A purge evicts nothing: keys of dead entries are not counted as evicted. -/
theorem evicted_purge (h : g.store? = some s) : g.purge.2.evicted = g.evicted := by
  rw [purge_of_store h, evicted_note]
  exact List.append_nil _

/-! ## Sound caches -/

/-- What a key may hold: a set that never expires if it is the key of a code, a list of codes if it is
the key of a user. -/
structure Fits (key : String) (e : Entry) : Prop where
  set : ∀ kind code, key = GrantKind.indexKey code kind → ∃ names, e = ⟨.set names, none⟩
  codes : ∀ kind user, key = GrantKind.entryKey user kind →
    ∃ codes deadline, e = ⟨.scalar (.texts codes), deadline⟩

theorem fits_set (kind : GrantKind) (code : String) (names : List String) :
    Fits (kind.indexKey code) ⟨.set names, none⟩ :=
  ⟨fun _ _ _ => ⟨names, rfl⟩, fun _ _ h =>
    (GrantKind.entryKey_ne_indexKey _ _ _ _ h.symm).elim⟩

theorem fits_codes (kind : GrantKind) (user : String) (codes : List String) (deadline : Option Nat) :
    Fits (kind.entryKey user) ⟨.scalar (.texts codes), deadline⟩ :=
  ⟨fun _ _ h => (GrantKind.entryKey_ne_indexKey _ _ _ _ h).elim, fun _ _ _ =>
    ⟨codes, deadline, rfl⟩⟩

/-- Anything fits a key that is none of grants. -/
theorem fits_of_not_grantKey (h : Key.isGrantKey key = false) (e : Entry) : Fits key e := by
  -- Both conditions are about keys of grants.
  constructor
  · rintro kind code rfl
    rw [GrantKind.isGrantKey_indexKey] at h
    cases h
  · rintro kind user rfl
    rw [GrantKind.isGrantKey_entryKey] at h
    cases h

/-- Only grants are held under the keys of grants, and index writes go to the keys of codes. -/
structure Sound (g : Grants) : Prop where
  store : ∃ s, g.store? = some s ∧ s.Distinct
  fits : ∀ key e, g.live? key = some e → Fits key e
  upkeep : g.upkeep.Sound
  targets : ∀ w ∈ g.upkeep.writes, ∀ key ∈ w.left, ∃ kind code, key = GrantKind.indexKey code kind

/-- What is found under the key of a code is a set that never expires. -/
theorem Sound.set (h : Sound g) {e : Entry} (he : g.live? (kind.indexKey code) = some e) :
    ∃ names, e = ⟨.set names, none⟩ := (h.fits _ e he).set kind code rfl

theorem Sound.codes (h : Sound g) {e : Entry} (he : g.live? (kind.entryKey user) = some e) :
    ∃ codes deadline, e = ⟨.scalar (.texts codes), deadline⟩ := (h.fits _ e he).codes kind user rfl

/-- A request keeps a cache sound if it leaves nothing unfitting under the keys that it touches. -/
theorem Sound.ask (h : Sound g) (r : Request)
    (good : ∀ key ∈ r.touched g.held, ∀ e, (g.ask r).2.live? key = some e → Fits key e) :
    Sound (g.ask r).2 := by
  obtain ⟨s, hs, distinct⟩ := h.store
  refine ⟨⟨_, store?_ask hs r, distinct.serve _ r⟩, ?_, h.upkeep, h.targets⟩
  intro key e he
  -- What is alive under an untouched key was alive there before.
  by_cases hk : key ∈ r.touched g.held
  · exact good key hk e he
  · exact h.fits key e ((spares_ask hs r hk).fades.some he)

/-- What gives no key another entry keeps a cache sound, as long as it leaves the index writes alone.
-/
theorem Sound.of_fades (h : Sound g) (store : ∃ s, g'.store? = some s ∧ s.Distinct)
    (fades : ∀ key, Fades key g g') (upkeep : g'.upkeep = g.upkeep) : Sound g' where
  store
  fits := fun key e he => h.fits key e ((fades key).some he)
  upkeep := upkeep ▸ h.upkeep
  targets := upkeep ▸ h.targets

theorem Sound.note (h : Sound g) (events : List Event) : Sound (g.note events) :=
  h.of_fades h.store (fun key => .refl key g) rfl

/-! ## The requests of plans -/

section Requests

/-- A reading changes the view under no key. -/
theorem Sound.live?_get (h : Sound g) (key other : String) :
    (g.ask (.get key)).2.live? other = g.live? other := by
  obtain ⟨s, hs, -⟩ := h.store
  rw [live?_ask hs, live?_of_store hs]
  exact Store.live?_get _ key other s

theorem Sound.live?_members (h : Sound g) (key other : String) :
    (g.ask (.members key)).2.live? other = g.live? other := by
  obtain ⟨s, hs, -⟩ := h.store
  rw [live?_ask hs, live?_of_store hs]
  exact Store.live?_members _ key other s

/-- A removal takes away the one key. -/
theorem Sound.live?_delete (h : Sound g) (key other : String) :
    (g.ask (.delete key)).2.live? other = if key = other then none else g.live? other := by
  obtain ⟨s, hs, -⟩ := h.store
  rw [live?_ask hs, live?_of_store hs]
  exact Store.live?_delete _ key other s

/-- A removal by pattern takes away the keys that match. -/
theorem Sound.live?_deletePattern (h : Sound g) (pattern other : String) :
    (g.ask (.deletePattern pattern)).2.live? other =
      if Glob.matchesText pattern other then none else g.live? other := by
  obtain ⟨s, hs, -⟩ := h.store
  rw [live?_ask hs, live?_of_store hs]
  exact Store.live?_deletePattern _ pattern other s

/-- Names are taken out of the one set, which goes when it has none left. -/
theorem Sound.live?_removeMembers (h : Sound g) (key other : String) (names : List String) :
    (g.ask (.removeMembers key names)).2.live? other =
      if key = other then Store.lessMembers names (g.live? key) else g.live? other := by
  obtain ⟨s, hs, -⟩ := h.store
  rw [live?_ask hs, live?_of_store hs, live?_of_store hs]
  exact Store.live?_removeMembers _ key other names s

/-- Names are added to what is found under the key. -/
theorem Sound.live?_addMembers (h : Sound g) (key : String) (names : List String) :
    (g.ask (.addMembers key names)).2.live? key = Store.moreMembers names (g.live? key) := by
  obtain ⟨s, hs, -⟩ := h.store
  rw [live?_ask hs, live?_of_store hs]
  exact Store.live?_addMembers _ key names s

/-- A value is found from now on until its deadline. Under a deadline beyond the end of the clock
nothing is written. -/
theorem Sound.live?_set (h : Sound g) (key : String) (value : Json) (ttl : Option Nat) :
    (g.ask (.set key value ttl)).2.live? key =
      match ttlDeadline? g.host.now ttl with
      | some deadline => (some ⟨.scalar value, deadline⟩).filter fun e => e.isAlive g.host.now
      | none => g.live? key := by
  obtain ⟨s, hs, -⟩ := h.store
  rw [live?_ask hs, live?_of_store hs]
  exact Store.live?_set _ key value ttl s

/-- The reading of codes finds those that are cached. -/
theorem Sound.get_eq (h : Sound g) (kind : GrantKind) (user : String) :
    g.get kind user = (some (g.codes? kind user), (g.ask (.get (kind.entryKey user))).2) := by
  obtain ⟨s, hs, -⟩ := h.store
  have response : (g.ask (.get (kind.entryKey user))).1 = .ok ((g.codes? kind user).map .texts) := by
    rw [ask_of_store hs]
    show (s.get g.host.now (kind.entryKey user)).response = _
    rw [Store.response_get, ← live?_of_store hs, codes?]
    cases he : g.live? (kind.entryKey user) with
    | none => rfl
    | some e =>
      obtain ⟨codes, deadline, rfl⟩ := h.codes he
      simp
  rw [get, run, Plan.read, Plan.ask]
  simp only [Program.perform_bind, Program.run, perform]
  -- The plan goes by the response, so its notices about faults are not reached.
  rcases hr : g.ask (.get (kind.entryKey user)) with ⟨answer, t⟩
  rw [hr] at response
  cases response
  cases g.codes? kind user with
  | none => rfl
  | some codes =>
    simp only [Option.map_some, Program.done_bind, Json.texts?_texts]
    rfl

/-- The reading of the set of a code finds the users in it, and never fails. -/
theorem Sound.members_eq (h : Sound g) (kind : GrantKind) (code : String) :
    (g.ask (.members (kind.indexKey code))).1 = .ok (g.users kind code) := by
  obtain ⟨s, hs, -⟩ := h.store
  rw [ask_of_store hs]
  show (s.members g.host.now (kind.indexKey code)).response = _
  rw [Store.response_members, ← live?_of_store hs, users]
  cases he : g.live? (kind.indexKey code) with
  | none => rfl
  | some e =>
    obtain ⟨names, rfl⟩ := h.set he
    rfl

end Requests

end GrantCache.Grants
