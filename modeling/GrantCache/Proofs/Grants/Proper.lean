import GrantCache.Proofs.Grants.Moves
import GrantCache.Proofs.Grants.View

/-!
# What the keys of codes hold

Over a store of this process, faulty or not, the key of a code holds a set that does not expire, with
at least one name and none twice: `Grants.Proper`. It is enough that nobody but the cache of grants
writes under such keys. Every move keeps it (`Grants.Proper.move`), whichever keys fail, and so does
every choice of the keys that are to fail.
-/

namespace GrantCache

open Grants

namespace Store

variable {e : Option Entry}

/-- A set to which a name is added has at least that name. -/
theorem isIndex_moreMembers (index : ∀ x ∈ e, x.IsIndex) (name : String) :
    ∀ x ∈ moreMembers [name] e, x.IsIndex := by
  cases e with
  | none =>
    intro x hx
    cases hx
    exact ⟨[name], rfl, List.cons_ne_nil _ _, List.pairwise_singleton _ _⟩
  | some x =>
    obtain ⟨old, rfl, -, listed⟩ := index x rfl
    intro y hy
    cases hy
    have mem : name ∈ Members.union old [name] :=
      Members.mem_union.2 (Or.inl (List.mem_singleton_self name))
    exact ⟨_, rfl, List.ne_nil_of_mem mem, listed.union _⟩

end Store

namespace Grants

variable {g g' : Grants} {r : Request}

/-- A store of this process whose keys are distinct, and where the keys of codes hold sets. -/
structure Proper (g : Grants) : Prop where
  store : ∃ s, g.inner? = some s ∧ s.Distinct
  typed : g.view.Typed

theorem Proper.inner (h : g.Proper) : g.inner?.isSome := by
  obtain ⟨s, hs, -⟩ := h.store
  rw [hs]
  rfl

/-- Nothing but the backend matters. -/
theorem Proper.of_backend (h : g.Proper) (same : g'.host.backend = g.host.backend) : g'.Proper := by
  have inner : g'.inner? = g.inner? := by rw [inner?, inner?, same]
  refine ⟨inner ▸ h.store, fun kind code e he => h.typed kind code e ?_⟩
  rwa [show g'.view.item? _ = _ from congrArg (Option.bind · _) inner] at he

/-! ## Requests -/

theorem store_ask (h : ∃ s, g.inner? = some s ∧ s.Distinct) (r : Request) :
    ∃ s, (g.ask r).2.inner? = some s ∧ s.Distinct := by
  obtain ⟨s, hs, distinct⟩ := h
  rcases ask_cases hs r with ⟨-, -, inner, -⟩ | ⟨-, -, inner, -⟩
  · exact ⟨s, inner, distinct⟩
  · exact ⟨_, inner, distinct.serve _ r⟩

/-- A request that only takes away leaves sets where there were sets. -/
theorem Proper.reduces (h : g.Proper) (reduces : r.Reduces) : (g.ask r).2.Proper :=
  ⟨store_ask h.store r, view_ask h.inner reduces ▸ h.typed.serve reduces⟩

/-- A request that leaves sets under the keys of codes that it touches. -/
theorem Proper.ask (h : g.Proper) (good : ∀ s, g.inner? = some s → ∀ kind code,
      (∀ e ∈ s.item? (GrantKind.indexKey code kind), e.IsIndex) →
      GrantKind.indexKey code kind ∈ r.touched s.entries.keys →
      ∀ e ∈ (s.serve g.host.now r).state.item? (GrantKind.indexKey code kind), e.IsIndex) :
    (g.ask r).2.Proper := by
  refine ⟨store_ask h.store r, ?_⟩
  obtain ⟨s, hs, -⟩ := h.store
  rcases ask_cases hs r with ⟨-, -, -, view⟩ | ⟨-, -, -, view⟩
  · rw [view]
    exact h.typed
  · rw [view]
    intro kind code
    have index : ∀ e ∈ s.item? (kind.indexKey code), e.IsIndex := by
      rw [← item?_of_inner hs]
      exact h.typed kind code
    by_cases touched : kind.indexKey code ∈ r.touched s.entries.keys
    · exact good s hs kind code index touched
    -- What is not touched stays or is evicted.
    · show ∀ e ∈ (s.serve g.host.now r).state.item? (kind.indexKey code), e.IsIndex
      rcases Store.retains_serve g.host.now s r touched with same | ⟨gone, -⟩
      · rwa [same]
      · rw [gone]
        nofun

/-- A request about no key of a code. -/
theorem Proper.apart (h : g.Proper) (apart : ∀ s, g.inner? = some s → ∀ kind code,
      GrantKind.indexKey code kind ∉ r.touched s.entries.keys) : (g.ask r).2.Proper :=
  h.ask fun s hs kind code _ touched => absurd touched (apart s hs kind code)

theorem Proper.deletePattern (h : g.Proper) (pattern : String) :
    (g.ask (.deletePattern pattern)).2.Proper := by
  refine h.ask fun s _ kind code index _ => ?_
  rw [Store.serve, Store.item?_deletePattern]
  split
  · intro x hx
    cases hx
  · exact index

theorem Proper.addMember (h : g.Proper) (key name : String) :
    (g.ask (.addMembers key [name])).2.Proper := by
  refine h.ask fun s _ kind code index touched => ?_
  obtain rfl : kind.indexKey code = key := List.mem_singleton.1 touched
  rw [Store.serve, Store.item?_addMembers, Store.live?_eq, Store.filter_isAlive_index index]
  exact Store.isIndex_moreMembers index name

/-- The key of an entry is not the key of a code, so that the value under it does not matter. -/
theorem Proper.setEntry (h : g.Proper) (kind : GrantKind) (user : String) (value : Json)
    (ttl : Option Nat) : (g.ask (.set (kind.entryKey user) value ttl)).2.Proper :=
  h.apart fun _ _ _ _ mem => GrantKind.entryKey_ne_indexKey _ _ _ _ (List.mem_singleton.1 mem).symm

/-- Over a bounded store nobody else asks about the keys of grants. -/
theorem Proper.foreign (h : g.Proper) (hs : g.Sound) (lawful : Move.Lawful (.raw r) g) :
    (g.ask r).2.Proper := by
  refine h.apart fun s inner kind code mem => ?_
  obtain ⟨t, ht, -⟩ := hs.store
  obtain rfl : t = s := Option.some.inj ((inner?_of_store ht).symm.trans inner)
  have foreign := lawful (kind.indexKey code) (by rw [held, ht]; exact mem)
  rw [GrantKind.isGrantKey_indexKey] at foreign
  cases foreign

theorem Proper.purge (h : g.Proper) : g.purge.2.Proper := by
  obtain ⟨s, hs, distinct⟩ := h.store
  obtain ⟨inner, view⟩ := purge_of_inner hs
  refine ⟨⟨_, inner, distinct.sweep _⟩, ?_⟩
  rw [view]
  intro kind code e he
  -- Sets are alive, so the sweep leaves them.
  have stays : s.live? g.host.now (kind.indexKey code) = some e :=
    (Store.item?_sweep distinct _ _).symm.trans he
  have index := h.typed kind code
  refine index e ?_
  rw [← Store.filter_isAlive_index index g.host.now]
  exact (live?_view hs _).trans stays

/-! ## Effects -/

/-- Index writes only add to the sets of codes. -/
theorem Proper.proceed (h : g.Proper) (id : Nat) : (g.proceed id).Proper := by
  rcases proceed_cases id g with ⟨same, -⟩ | ⟨w, key, rest, events, -, -, he⟩
  · rwa [same]
  · rw [he]
    exact (h.addMember key w.user).of_backend rfl

theorem Proper.await (h : g.Proper) (id : Nat) : (g.await id).Proper :=
  await_induction (R := fun g g' => g.Proper → g'.Proper) (fun _ => fun h => h)
    (fun h h' => h' ∘ h) (fun _ id h => h.proceed id) (fun _ _ _ h => h.of_backend rfl) g id h

/-! ## Moves -/

/-- What holds of waiting, and of every request that only takes away, holds of all that clearing is
made of. -/
theorem common_of_reduces {P : Effect → Prop} (patient : Plan.Patient P)
    (reduces : ∀ r : Request, r.Reduces → P (.ask r)) : Plan.Common P where
  toPatient := patient
  get _ := reduces _ trivial
  deleteEntry _ _ := reduces _ trivial
  removeMember _ _ _ := reduces _ trivial
  members _ _ := reduces _ trivial
  deleteIndex _ _ := reduces _ trivial

/-- All that moves are made of keeps a cache proper, but for what somebody else asks. -/
theorem upheld_proper : Upheld Proper where
  toCommon := common_of_reduces
    { report := fun _ _ h => h.of_backend rfl
      take := fun _ _ h => h.of_backend rfl
      await := fun id _ h => h.await id }
    fun _ reduces => upholds_ask fun _ h => h.reduces reduces
  family _ _ := upholds_ask fun _ h => h.deletePattern _
  proceed _ id h := h.proceed id
  purge _ h := h.purge
  pass _ _ h := h.of_backend rfl

/-- A move keeps a cache proper when a request of somebody else does. -/
theorem Proper.move (h : g.Proper) {m : Move} (lawful : ∀ r, m = .raw r → (g.ask r).2.Proper) :
    (g.move m).2.Proper := by
  refine upheld_proper.move h (fun kind user codes ttl _ _ => ?_) lawful
  exact upheld_proper.set (upholds_ask fun _ hg => hg.setEntry kind user _ _)
    (fun _ hg => hg.of_backend rfl) h

end Grants

/-! ## Runs -/

theorem Grants.item?_start {backend : Backend} {limit : Nat}
    (empty : backend.store? = some (.empty limit)) (now : Nat) (breaker : Breaker) (ttl size : Nat)
    (key : String) : (Grants.start ⟨now, breaker, backend⟩ ttl size).item? key = none :=
  item?_of_inner (g := .start ⟨now, breaker, backend⟩ ttl size) empty key

theorem Grants.proper_start (now : Nat) (breaker : Breaker) {backend : Backend} {limit : Nat}
    (empty : backend.store? = some (.empty limit)) (ttl size : Nat) :
    (Grants.start ⟨now, breaker, backend⟩ ttl size).Proper := by
  refine ⟨⟨_, empty, Store.distinct_empty limit⟩, fun kind code e he => ?_⟩
  cases (item?_start empty now breaker ttl size _).symm.trans he

/-- A cache is proper all along a run. -/
theorem Runs.proper {steps : List Step} {g g' : Grants} (run : Runs g steps g') (ho : g.Orderly)
    (h : g.Proper) : g'.Proper := by
  induction run with
  | done g => exact h
  | step lawful _ ih =>
    exact ih (orderly_move ho lawful) (h.move fun _ hr => h.foreign ho.sound (hr ▸ lawful))

/-- Choose the keys that are to fail from now on, in a store of this process. -/
def Grants.choose (failing : List String) (g : Grants) : Grants :=
  match g.host.backend with
  | .faulty s => { g with host.backend := .faulty { s with failing } }
  | .bounded store => { g with host.backend := .faulty { store, failing } }
  | .remote _ => g

/-- A run in which the keys that are to fail are chosen at any time, and nobody else asks for
anything. -/
inductive TroubledRuns : Grants → Grants → Prop
  | done (g : Grants) : TroubledRuns g g
  | move {g g' : Grants} {m : Move} (own : ∀ r, m ≠ .raw r) (rest : TroubledRuns (g.move m).2 g') :
    TroubledRuns g g'
  | choose {g g' : Grants} (failing : List String) (rest : TroubledRuns (g.choose failing) g') :
    TroubledRuns g g'

/-- To choose which keys fail changes nothing that is held, and nothing about index writes. -/
theorem Grants.choose_spec {g : Grants} {s : Store} (h : g.inner? = some s) (failing : List String) :
    (g.choose failing).inner? = some s ∧ (g.choose failing).upkeep = g.upkeep ∧
      (g.choose failing).view = ⟨g.host.now, failing.contains, (g.item? ·)⟩ := by
  obtain ⟨⟨now, breaker, backend⟩, upkeep, ttl, size, journal⟩ := g
  cases backend with
  | faulty t => exact ⟨h, rfl, rfl⟩
  | bounded t => exact ⟨h, rfl, rfl⟩
  | remote t => cases h

theorem Grants.Proper.choose {g : Grants} (h : g.Proper) (failing : List String) :
    (g.choose failing).Proper := by
  obtain ⟨⟨s, hs, distinct⟩, typed⟩ := h
  obtain ⟨inner, -, view⟩ := Grants.choose_spec hs failing
  exact ⟨⟨s, inner, distinct⟩, view ▸ typed⟩

theorem TroubledRuns.proper {g g' : Grants} (run : TroubledRuns g g') (h : g.Proper) : g'.Proper := by
  induction run with
  | done g => exact h
  | move own _ ih => exact ih (h.move fun r hr => absurd hr (own r))
  | choose failing _ ih => exact ih (h.choose failing)

end GrantCache
