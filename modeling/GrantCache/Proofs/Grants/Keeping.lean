import GrantCache.Proofs.Grants.Work

/-!
# What everybody keeps to about a grant

A grant is a code that a user has. It is listed in the user's entry, and the user is to be in the set
of the code, so that whoever invalidates the code finds the user there. The grant is

* `Loose` when the entry does not list it (or the set was evicted, and all is lost);
* `Found` when it is loose or the user is in the set;
* `Covered` when it is found or an index write is due that will add the user.

`Keeps` says that a change lets the entry only fade, undoes none of the first two, and spends a due
write only for the grant to be found. Everything that the cache does keeps to this, with two
provisos: the user is taken out of the set, and the set is removed, only when the grant is loose; and
nothing is cached anew for the user.
-/

namespace GrantCache

/-- A code that is granted to a user. -/
structure Grant where
  kind : GrantKind
  user : String
  code : String
deriving DecidableEq

open Grants

namespace Grant

variable {x : Grant} {g g' g'' : Grants} {id : Nat} {kind : GrantKind} {key user code : String}

def entryKey (x : Grant) : String := x.kind.entryKey x.user

def indexKey (x : Grant) : String := x.kind.indexKey x.code

theorem entryKey_ne_indexKey (x : Grant) (kind : GrantKind) (code : String) :
    x.entryKey ≠ kind.indexKey code := GrantKind.entryKey_ne_indexKey _ _ _ _

theorem indexKey_ne_entryKey (x : Grant) (kind : GrantKind) (user : String) :
    x.indexKey ≠ kind.entryKey user := (GrantKind.entryKey_ne_indexKey _ _ _ _).symm

/-! ## How far a grant is covered -/

/-- The user's entry lists the code. -/
def Listed (x : Grant) (g : Grants) : Prop :=
  ∃ codes, g.codes? x.kind x.user = some codes ∧ x.code ∈ codes

instance (x : Grant) (g : Grants) : Decidable (x.Listed g) :=
  inferInstanceAs (Decidable (∃ codes ∈ g.codes? x.kind x.user, x.code ∈ codes))

/-- The user is in the set of the code. -/
def Indexed (x : Grant) (g : Grants) : Prop :=
  ∃ names deadline, g.live? x.indexKey = some ⟨.set names, deadline⟩ ∧ x.user ∈ names

/-- A user in the set of a code is among those that an invalidation finds. -/
theorem Indexed.mem_users (h : x.Indexed g) : x.user ∈ g.users x.kind x.code := by
  obtain ⟨names, deadline, hi, hu⟩ := h
  rw [users, show g.live? (x.kind.indexKey x.code) = _ from hi]
  exact hu

/-- Nothing needs to find the grant, or nothing can. -/
def Loose (x : Grant) (g : Grants) : Prop := x.indexKey ∈ g.evicted ∨ ¬ x.Listed g

/-- The set of the code shows the grant, if that is needed. -/
def Found (x : Grant) (g : Grants) : Prop := x.Loose g ∨ x.Indexed g

/-- An index write will add the user to the set of the code. -/
def Due (x : Grant) (id : Nat) (g : Grants) : Prop := g.upkeep.Owes id x.user x.indexKey

/-- The set of the code shows the grant or will show it. -/
def Covered (x : Grant) (g : Grants) : Prop := x.Found g ∨ ∃ id, x.Due id g

theorem not_listed (h : g.live? x.entryKey = none) : ¬ x.Listed g := by
  rintro ⟨codes, hc, -⟩
  rw [codes?, show g.live? (x.kind.entryKey x.user) = none from h] at hc
  cases hc

theorem loose_of_none (h : g.live? x.entryKey = none) : x.Loose g := Or.inr (not_listed h)

/-- A code that a read returns is listed. -/
theorem listed_of_get (hs : g.Sound) {codes : List String}
    (h : (g.get kind user).1 = some (some codes)) (hc : code ∈ codes) :
    Listed ⟨kind, user, code⟩ g := by
  rw [hs.get_eq] at h
  exact ⟨codes, Option.some.inj h, hc⟩

/-- What an entry lists after fading it listed before. -/
theorem Listed.of_fades (h : x.Listed g') (fades : Fades x.entryKey g g') : x.Listed g := by
  rcases fades with same | gone
  · obtain ⟨codes, hc, hm⟩ := h
    refine ⟨codes, ?_, hm⟩
    rw [codes?, show g'.live? (x.kind.entryKey x.user) = _ from same] at hc
    exact hc
  · exact absurd h (not_listed gone)

/-! ## Keeping to it -/

/-- The entry only fades; what was found is found; what was due is due or found. -/
structure Keeps (x : Grant) (g g' : Grants) : Prop where
  sound : g'.Sound
  evicted : x.indexKey ∈ g.evicted → x.indexKey ∈ g'.evicted
  entry : Fades x.entryKey g g'
  found : x.Found g → x.Found g'
  due : ∀ id, x.Due id g → x.Due id g' ∨ x.Found g'

/-- A change to a sound cache that keeps to it. -/
def Respects (x : Grant) (g g' : Grants) : Prop := g.Sound → x.Keeps g g'

theorem Keeps.loose (h : x.Keeps g g') (hl : x.Loose g) : x.Loose g' :=
  hl.imp h.evicted fun unlisted listed => unlisted (listed.of_fades h.entry)

theorem Keeps.covered (h : x.Keeps g g') (hc : x.Covered g) : x.Covered g' := by
  rcases hc with found | ⟨id, due⟩
  · exact Or.inl (h.found found)
  · exact (h.due id due).symm.imp_right fun due => ⟨id, due⟩

theorem Respects.refl (x : Grant) (g : Grants) : x.Respects g g := fun hs =>
  ⟨hs, id, .refl .., id, fun _ => Or.inl⟩

theorem Respects.trans (h : x.Respects g g') (h' : x.Respects g' g'') : x.Respects g g'' := by
  intro hs
  have first := h hs
  have second := h' first.sound
  refine ⟨second.sound, second.evicted ∘ first.evicted, first.entry.trans second.entry,
    second.found ∘ first.found, fun id due => ?_⟩
  rcases first.due id due with due | found
  · exact second.due id due
  · exact Or.inr (second.found found)

/-- A change that leaves the set alone and takes nothing off from the index writes. -/
theorem Keeps.of_spares (sound : g'.Sound) (evicted : ∀ key ∈ g.evicted, key ∈ g'.evicted)
    (entry : Fades x.entryKey g g') (index : Spares x.indexKey g g')
    (due : ∀ id, x.Due id g → x.Due id g') : x.Keeps g g' where
  sound
  evicted := evicted _
  entry
  due := fun id h => Or.inl (due id h)
  found := by
    rintro (loose | ⟨names, deadline, hi, hu⟩)
    · exact Or.inl (loose.imp (evicted _) fun unlisted listed => unlisted (listed.of_fades entry))
    -- The set is as it was, or its eviction makes the grant loose.
    · rcases index with same | ⟨-, gone⟩
      · exact Or.inr ⟨names, deadline, same.trans hi, hu⟩
      · exact Or.inl (Or.inl gone)

/-- A change that may spoil the set, when the grant is loose. -/
theorem Keeps.of_loose (sound : g'.Sound) (evicted : ∀ key ∈ g.evicted, key ∈ g'.evicted)
    (entry : Fades x.entryKey g g') (loose : x.Loose g) : x.Keeps g g' := by
  have still : x.Loose g' :=
    loose.imp (evicted _) fun unlisted listed => unlisted (listed.of_fades entry)
  exact ⟨sound, evicted _, entry, fun _ => Or.inl still, fun _ _ => Or.inr (Or.inl still)⟩

/-- A change to the tracking alone keeps to it, as long as what was due stays due. -/
theorem Keeps.of_upkeep (hs : g.Sound) {upkeep : Upkeep} (sound : upkeep.Sound)
    (targets : ∀ w ∈ upkeep.writes, ∀ key ∈ w.left, ∃ kind code, key = GrantKind.indexKey code kind)
    (due : ∀ id, x.Due id g → upkeep.Owes id x.user x.indexKey) : x.Keeps g { g with upkeep } :=
  .of_spares ⟨hs.store, hs.fits, sound, targets⟩ (fun _ h => h) (.refl ..) (Or.inl rfl) due

/-! ## Requests -/

theorem evicted_subset_ask (hs : g.Sound) (r : Request) :
    ∀ key ∈ g.evicted, key ∈ (g.ask r).2.evicted := by
  obtain ⟨s, hs, -⟩ := hs.store
  intro key hk
  rw [evicted_ask hs]
  exact List.mem_append_left _ hk

/-- A request that touches neither the entry nor the set keeps to it. -/
theorem Keeps.ask (hs : g.Sound) {r : Request} (sound : (g.ask r).2.Sound)
    (entry : x.entryKey ∉ r.touched g.held) (index : x.indexKey ∉ r.touched g.held) :
    x.Keeps g (g.ask r).2 := by
  obtain ⟨s, store, -⟩ := hs.store
  exact .of_spares sound (evicted_subset_ask hs r) (spares_ask store r entry).fades
    (spares_ask store r index) fun _ h => h

/-- A request that changes no live entry. -/
theorem Keeps.read (hs : g.Sound) {r : Request}
    (same : ∀ key, (g.ask r).2.live? key = g.live? key) : x.Keeps g (g.ask r).2 := by
  obtain ⟨s, store, distinct⟩ := hs.store
  have sound : (g.ask r).2.Sound :=
    hs.of_fades ⟨_, store?_ask store r, distinct.serve _ r⟩ (fun key => Or.inl (same key)) rfl
  exact .of_spares sound (evicted_subset_ask hs r) (Or.inl (same _)) (Or.inl (same _)) fun _ h => h

theorem respects_get (x : Grant) (g : Grants) (key : String) :
    x.Respects g (g.ask (.get key)).2 := fun hs => .read hs (hs.live?_get key)

theorem respects_members (x : Grant) (g : Grants) (key : String) :
    x.Respects g (g.ask (.members key)).2 := fun hs => .read hs (hs.live?_members key)

theorem sound_delete (hs : g.Sound) (key : String) : (g.ask (.delete key)).2.Sound := by
  refine hs.ask _ fun k _ e he => ?_
  rw [hs.live?_delete] at he
  split at he
  · cases he
  · exact hs.fits k e he

theorem fades_delete (hs : g.Sound) (key other : String) :
    Fades other g (g.ask (.delete key)).2 := by
  rw [Fades, hs.live?_delete]
  split
  · exact Or.inr rfl
  · exact Or.inl rfl

/-- To delete an entry, the one of the grant or another, keeps to it: an entry may go at any time. -/
theorem respects_delete_entry (x : Grant) (g : Grants) (kind : GrantKind) (user : String) :
    x.Respects g (g.ask (.delete (kind.entryKey user))).2 := by
  intro hs
  refine .of_spares (sound_delete hs _) (evicted_subset_ask hs _) (fades_delete hs _ _) ?_
    fun _ h => h
  exact Or.inl (by rw [hs.live?_delete, if_neg (x.indexKey_ne_entryKey kind user).symm])

/-- Removing the set of a code, when no grant of it needs to be found. -/
theorem respects_delete_index (x : Grant) (g : Grants) {kind : GrantKind} {code : String}
    (loose : kind.indexKey code = x.indexKey → x.Loose g) :
    x.Respects g (g.ask (.delete (kind.indexKey code))).2 := by
  intro hs
  by_cases hk : kind.indexKey code = x.indexKey
  · exact .of_loose (sound_delete hs _) (evicted_subset_ask hs _) (fades_delete hs _ _) (loose hk)
  · refine .of_spares (sound_delete hs _) (evicted_subset_ask hs _) (fades_delete hs _ _) ?_
      fun _ h => h
    exact Or.inl (by rw [hs.live?_delete, if_neg hk])

theorem mem_remove {name : String} {names : List String} (h : user ∈ names) (hn : name ≠ user) :
    user ∈ Members.remove names [name] := by
  rw [Members.remove, List.mem_filter]
  exact ⟨h, by simpa using Ne.symm hn⟩

theorem sound_removeMembers (hs : g.Sound) (kind : GrantKind) (code : String) (names : List String) :
    (g.ask (.removeMembers (kind.indexKey code) names)).2.Sound := by
  refine hs.ask _ fun k hk e he => ?_
  obtain rfl : k = kind.indexKey code := by simpa [Request.touched, Request.keys] using hk
  rw [hs.live?_removeMembers, if_pos rfl] at he
  cases ho : g.live? (kind.indexKey code) with
  | none => rw [ho] at he; cases he
  | some old =>
    -- what is left of a set is a set that never expires
    obtain ⟨names, rfl⟩ := hs.set ho
    rw [ho, Store.lessMembers] at he
    split at he
    · cases he
    · cases he
      exact fits_set ..

/-- Taking a user out of a set. The user of the grant leaves the set of the code only when the grant is
loose. -/
theorem respects_removeMembers (x : Grant) (g : Grants) (kind : GrantKind) (code : String)
    {name : String} (loose : kind.indexKey code = x.indexKey → name = x.user → x.Loose g) :
    x.Respects g (g.ask (.removeMembers (kind.indexKey code) [name])).2 := by
  intro hs
  have view := fun other => hs.live?_removeMembers (kind.indexKey code) other [name]
  have sound := sound_removeMembers hs kind code [name]
  have entry : Fades x.entryKey g (g.ask (.removeMembers (kind.indexKey code) [name])).2 :=
    Or.inl (by rw [view, if_neg (Ne.symm (x.entryKey_ne_indexKey kind code))])
  by_cases hk : kind.indexKey code = x.indexKey
  · by_cases hn : name = x.user
    · exact .of_loose sound (evicted_subset_ask hs _) entry (loose hk hn)
    -- Somebody else leaves the set, so the user stays in it and it is not removed.
    · refine ⟨sound, evicted_subset_ask hs _ _, entry, ?_, fun _ h => Or.inl h⟩
      rintro (hl | ⟨names, deadline, hi, hu⟩)
      · exact Or.inl (hl.imp (evicted_subset_ask hs _ _) fun unlisted listed =>
          unlisted (listed.of_fades entry))
      · have stays := mem_remove hu hn
        refine Or.inr ⟨Members.remove names [name], deadline, ?_, stays⟩
        rw [view, if_pos hk, hk, hi, Store.lessMembers, if_neg]
        rw [List.isEmpty_iff]
        exact List.ne_nil_of_mem stays
  · refine .of_spares sound (evicted_subset_ask hs _) entry (Or.inl ?_) fun _ h => h
    rw [view, if_neg hk]

theorem sound_set (hs : g.Sound) (kind : GrantKind) (user : String) (codes : List String)
    (ttl : Option Nat) : (g.ask (.set (kind.entryKey user) (.texts codes) ttl)).2.Sound := by
  refine hs.ask _ fun k hk e he => ?_
  obtain rfl : k = kind.entryKey user := by simpa [Request.touched, Request.keys] using hk
  rw [hs.live?_set] at he
  split at he
  · obtain ⟨he, -⟩ := Option.filter_eq_some_iff.1 he
    cases he
    exact fits_codes ..
  · exact hs.fits _ e he

/-- Caching codes for somebody else, or of the other kind, keeps to it. -/
theorem respects_set (x : Grant) (g : Grants) {kind : GrantKind} {user : String}
    (hx : kind.entryKey user ≠ x.entryKey) (codes : List String) (ttl : Option Nat) :
    x.Respects g (g.ask (.set (kind.entryKey user) (.texts codes) ttl)).2 := by
  intro hs
  refine .ask hs (sound_set hs kind user codes ttl) ?_ ?_
  · simpa [Request.touched, Request.keys] using hx.symm
  · simpa [Request.touched, Request.keys] using x.indexKey_ne_entryKey kind user

theorem fades_deletePattern (hs : g.Sound) (pattern key : String) :
    Fades key g (g.ask (.deletePattern pattern)).2 := by
  rw [Fades, hs.live?_deletePattern]
  split
  · exact Or.inr rfl
  · exact Or.inl rfl

theorem sound_deletePattern (hs : g.Sound) (pattern : String) :
    (g.ask (.deletePattern pattern)).2.Sound := by
  obtain ⟨s, store, distinct⟩ := hs.store
  exact hs.of_fades ⟨_, store?_ask store _, distinct.serve _ _⟩ (fades_deletePattern hs pattern) rfl

/-- Removing a family of keys. That of the set goes only when the grant is loose. -/
theorem respects_deleteFamily (x : Grant) (g : Grants) {family : String}
    (hf : family ∈ Key.families) (loose : family = x.kind.indexFamily → x.Loose g) :
    x.Respects g (g.ask (.deletePattern (Key.familyPattern family))).2 := by
  intro hs
  have fades := fades_deletePattern hs (Key.familyPattern family)
  have sound := sound_deletePattern hs (Key.familyPattern family)
  by_cases hx : family = x.kind.indexFamily
  · exact .of_loose sound (evicted_subset_ask hs _) (fades _) (loose hx)
  · refine .of_spares sound (evicted_subset_ask hs _) (fades _) (Or.inl ?_) fun _ h => h
    rw [hs.live?_deletePattern, Key.matches_familyPattern hf, indexKey, GrantKind.indexKey_eq,
      Key.inFamily_member_of_ne hf (GrantKind.indexFamily_mem _) hx]
    rfl

/-- A request of somebody else that stays away from the keys of grants keeps to it. -/
theorem respects_foreign (x : Grant) (g : Grants) {r : Request}
    (foreign : ∀ key ∈ r.touched g.held, Key.isGrantKey key = false) : x.Respects g (g.ask r).2 := by
  intro hs
  refine .ask hs (hs.ask r fun key hk e _ => fits_of_not_grantKey (foreign key hk) e) ?_ ?_
  · intro hk
    have := foreign _ hk
    rw [entryKey, GrantKind.isGrantKey_entryKey] at this
    cases this
  · intro hk
    have := foreign _ hk
    rw [indexKey, GrantKind.isGrantKey_indexKey] at this
    cases this

/-! ## Events, the clock and the dead -/

theorem respects_note (x : Grant) (g : Grants) (events : List Event) :
    x.Respects g (g.note events) := fun hs =>
  .of_spares (hs.note events) (fun key hk => by rw [evicted_note]; exact List.mem_append_left _ hk)
    (.refl ..) (Or.inl rfl) fun _ h => h

/-- A sweep removes nothing that is alive. -/
theorem respects_purge (x : Grant) (g : Grants) : x.Respects g g.purge.2 := by
  intro hs
  obtain ⟨s, store, distinct⟩ := hs.store
  have same := live?_purge store distinct
  exact .of_spares (hs.of_fades ⟨_, store?_purge store, distinct.sweep _⟩ (fun k => Or.inl (same k)) rfl)
    (fun key hk => by rw [evicted_purge store]; exact hk) (Or.inl (same _)) (Or.inl (same _))
    fun _ h => h

/-- Sets do not die. -/
theorem respects_pass (x : Grant) (g : Grants) (ms : Nat) : x.Respects g (g.pass ms) := by
  intro hs
  refine .of_spares (hs.of_fades hs.store (fades_pass ms · g) rfl) (fun _ h => h) (fades_pass ..) ?_
    fun _ h => h
  refine Or.inl ?_
  rw [live?_pass]
  cases he : g.live? x.indexKey with
  | none => rfl
  | some e =>
    obtain ⟨names, rfl⟩ := hs.set he
    rfl

/-! ## Index writes -/

theorem respects_take (x : Grant) (g : Grants) (key : String) :
    x.Respects g { g with upkeep := (g.upkeep.take key).2 } := fun hs =>
  .of_upkeep hs (hs.upkeep.take key) hs.targets fun _ h => h

/-- To notice that a write is done forgets nothing that is due. -/
theorem respects_see (x : Grant) (g : Grants) (hd : g.upkeep.isDone id = true) :
    x.Respects g { g with upkeep := g.upkeep.see id } := by
  intro hs
  refine .of_upkeep hs (hs.upkeep.see hd) ?_ fun _ h => h.see id
  intro w hw
  obtain ⟨w', hw', rfl⟩ := List.mem_map.1 hw
  have := hs.targets w' hw'
  split <;> exact this

/-- A new write owes what no other write owed. -/
theorem respects_launch (x : Grant) (g : Grants) (user : String) {keys : List String}
    (targets : ∀ key ∈ keys, ∃ kind code, key = GrantKind.indexKey code kind) :
    x.Respects g { g with upkeep := (g.upkeep.launch user keys).2 } := by
  intro hs
  refine .of_upkeep hs (hs.upkeep.launch user keys) ?_ fun _ h => h.launch hs.upkeep user keys
  intro w hw
  rw [(Upkeep.writes_launch user keys g.upkeep).1, List.mem_append, List.mem_singleton] at hw
  rcases hw with hw | rfl
  · exact hs.targets w hw
  · exact targets

/-- A user who is added to a set joins those who are in it. -/
theorem live?_addMember (hs : g.Sound) (kind : GrantKind) (code name : String) :
    ∃ names, (g.ask (.addMembers (kind.indexKey code) [name])).2.live? (kind.indexKey code) =
        some ⟨.set names, none⟩ ∧ name ∈ names ∧
      ∀ old deadline, g.live? (kind.indexKey code) = some ⟨.set old, deadline⟩ →
        ∀ user ∈ old, user ∈ names := by
  have added := hs.live?_addMembers (kind.indexKey code) [name]
  cases ho : g.live? (kind.indexKey code) with
  | none =>
    rw [ho] at added
    exact ⟨_, added, Members.mem_union.2 (Or.inl (List.mem_singleton_self name)), by simp⟩
  | some e =>
    obtain ⟨old, rfl⟩ := hs.set ho
    rw [ho] at added
    refine ⟨_, added, Members.mem_union.2 (Or.inl (List.mem_singleton_self name)), ?_⟩
    rintro _ _ h user hu
    cases h
    exact Members.mem_union.2 (Or.inr hu)

theorem respects_addMember (x : Grant) (g : Grants) (kind : GrantKind) (code name : String) :
    x.Respects g (g.ask (.addMembers (kind.indexKey code) [name])).2 := by
  intro hs
  obtain ⟨names, added, -, grown⟩ := live?_addMember hs kind code name
  have sound : (g.ask (.addMembers (kind.indexKey code) [name])).2.Sound := by
    refine hs.ask _ fun k hk e he => ?_
    obtain rfl : k = kind.indexKey code := by simpa [Request.touched, Request.keys] using hk
    rw [added] at he
    cases he
    exact fits_set ..
  have entry : x.entryKey ∉ (Request.addMembers (kind.indexKey code) [name]).touched g.held := by
    simpa [Request.touched, Request.keys] using x.entryKey_ne_indexKey kind code
  by_cases hx : kind.indexKey code = x.indexKey
  · obtain ⟨s, store, -⟩ := hs.store
    have fades := (spares_ask store _ entry).fades
    -- The set of the grant grows; only the entry may be evicted for it.
    refine ⟨sound, evicted_subset_ask hs _ _, fades, ?_, fun _ h => Or.inl h⟩
    rintro (hl | ⟨old, deadline, hi, hu⟩)
    · exact Or.inl (hl.imp (evicted_subset_ask hs _ _) fun unlisted listed =>
        unlisted (listed.of_fades fades))
    · rw [hx] at added grown
      exact Or.inr ⟨names, none, by rw [hx]; exact added, grown old deadline hi _ hu⟩
  · exact .ask hs sound entry (by simpa [Request.touched, Request.keys] using Ne.symm hx)

/-- Once its user is added to the set, a grant is indexed. -/
theorem indexed_addMember (hs : g.Sound) (x : Grant) :
    x.Indexed (g.ask (.addMembers x.indexKey [x.user])).2 := by
  obtain ⟨names, added, mem, -⟩ := live?_addMember hs x.kind x.code x.user
  exact ⟨names, none, added, mem⟩

/-- A step of an index write adds a user to a set. If that is the grant, it is found from now on. -/
theorem respects_proceed (x : Grant) (g : Grants) (id : Nat) : x.Respects g (g.proceed id) := by
  rcases proceed_cases id g with ⟨same, -⟩ | ⟨w, key, rest, events, hw, hl, he⟩
  · rw [same]
    exact .refl x g
  rw [he]
  refine Respects.trans (fun hs => ?_) (respects_note x _ events)
  have targets := hs.targets w (List.mem_of_find?_eq_some hw)
  obtain ⟨kind, code, rfl⟩ := targets key (by simp [hl])
  have added := respects_addMember x g kind code w.user hs
  refine ⟨⟨added.sound.store, added.sound.fits, hs.upkeep.proceed id, ?_⟩, added.evicted,
    added.entry, added.found, ?_⟩
  · intro w' hw' key' hk'
    obtain ⟨w'', hw'', rfl⟩ := List.mem_map.1 hw'
    split at hk'
    · exact hs.targets w'' hw'' key' (List.mem_of_mem_tail hk')
    · exact hs.targets w'' hw'' key' hk'
  · intro other due
    -- The write owes less by one key, and no other write owes less.
    rcases Upkeep.Owes.proceed due id with still | ⟨-, w', hw', hu, hh⟩
    · exact Or.inl still
    · -- the key that was written is that of the grant
      obtain rfl : w = w' := Option.some.inj (hw.symm.trans hw')
      rw [hl, List.head?_cons, Option.some.injEq] at hh
      rw [hh, hu]
      exact Or.inr (Or.inr (indexed_addMember hs x))

theorem respects_drain (x : Grant) (g : Grants) : x.Respects g g.drain :=
  drain_induction (.refl x) .trans (respects_proceed x) g

theorem respects_await (x : Grant) (g : Grants) (id : Nat) : x.Respects g (g.await id) :=
  await_induction (.refl x) .trans (respects_proceed x) (fun t _ hd => respects_see x t hd) g id

end Grant

end GrantCache
