import GrantCache.Proofs.Grants.Flushing
import GrantCache.Proofs.Grants.Proper

/-!
# What a flush removes

A flush removes the keys of grants and leaves every other key as it was when the index writes had run.
The writes that were launched before are done by then and stay so (`Runs.spent`), and nothing else but
caching brings a key of grants back (`Runs.bare`).
-/

namespace GrantCache

open Grants

variable {g g' t : Grants} {m : Move} {n : Nat}

namespace Grants

/-! ## Writes from before -/

/-- The first so many writes were launched and are done. -/
structure Spent (n : Nat) (g : Grants) : Prop where
  sound : g.upkeep.Sound
  launched : n ≤ g.upkeep.next
  done : ∀ id < n, g.upkeep.leftOf id = []

theorem Spent.of_upkeep (h : Spent n g) (same : t.upkeep = g.upkeep) : Spent n t := by
  obtain ⟨sound, launched, done⟩ := h
  rw [← same] at sound launched done
  exact ⟨sound, launched, done⟩

theorem Spent.proceed (h : Spent n g) (id : Nat) : Spent n (g.proceed id) := by
  rcases proceed_cases id g with ⟨same, -⟩ | ⟨w, key, rest, events, -, -, he⟩
  · rwa [same]
  · refine ⟨?_, ?_, fun other lt => ?_⟩
    · rw [he]
      exact h.sound.proceed id
    · rw [he]
      exact h.launched
    · rw [leftOf_proceed]
      split
      · rename_i same
        rw [← same, h.done other lt, List.tail_nil]
      · exact h.done other lt

theorem Spent.await (h : Spent n g) (id : Nat) : Spent n (g.await id) :=
  await_induction (R := fun g g' => Spent n g → Spent n g') (fun _ => fun h => h)
    (fun h h' => h' ∘ h) (fun _ id h => h.proceed id)
    (fun _ _ done h => ⟨h.sound.see done, h.launched,
      fun other lt => (Upkeep.leftOf_see ..).trans (h.done other lt)⟩) g id h

/-- A new write has a number of its own, past those that are spent. -/
theorem Spent.launch (h : Spent n g) (user : String) (keys : List String) :
    Spent n { g with upkeep := (g.upkeep.launch user keys).2 } := by
  have next := (Upkeep.writes_launch user keys g.upkeep).2
  refine ⟨h.sound.launch user keys, ?_, fun id lt => ?_⟩
  · exact h.launched.trans (next ▸ Nat.le_succ _)
  -- The new write has a number of its own.
  · have apart : id ≠ g.upkeep.next := (lt.trans_le h.launched).ne
    rw [Upkeep.leftOf, Upkeep.write?_launch h.sound, if_neg apart]
    exact h.done id lt

theorem upheld_spent (n : Nat) : Upheld (Spent n) where
  get _ := upholds_ask fun g h => h.of_upkeep (upkeep_ask _ g)
  report _ := fun _ h => h.of_upkeep rfl
  take key := fun _ h => ⟨h.sound.take key, h.launched, h.done⟩
  await id := fun _ h => h.await id
  deleteEntry _ _ := upholds_ask fun g h => h.of_upkeep (upkeep_ask _ g)
  removeMember _ _ _ := upholds_ask fun g h => h.of_upkeep (upkeep_ask _ g)
  members _ _ := upholds_ask fun g h => h.of_upkeep (upkeep_ask _ g)
  deleteIndex _ _ := upholds_ask fun g h => h.of_upkeep (upkeep_ask _ g)
  family _ _ := upholds_ask fun g h => h.of_upkeep (upkeep_ask _ g)
  proceed _ id h := h.proceed id
  purge _ h := h.of_upkeep rfl
  pass _ _ h := h.of_upkeep rfl

theorem Spent.move (h : Spent n g) (m : Move) : Spent n (g.move m).2 := by
  refine (upheld_spent n).move h (fun kind user codes ttl _ _ => ?_)
    fun r _ => h.of_upkeep (upkeep_ask r g)
  exact (upheld_spent n).set (upholds_ask fun g h => h.of_upkeep (upkeep_ask _ g))
    (fun g h => h.launch user _) h

/-- A spent write does nothing when its turn comes. -/
theorem Spent.proceed_eq (h : Spent n g) {id : Nat} (lt : id < n) : g.proceed id = g := by
  rcases proceed_cases id g with ⟨same, -⟩ | ⟨w, key, rest, events, hw, hl, -⟩
  · exact same
  · have nothing := h.done id lt
    rw [Upkeep.leftOf, hw] at nothing
    cases hl.symm.trans nothing

/-! ## No key of grants -/

/-- No key of grants is held, and no index write is queued that could bring one back. -/
structure Bare (g : Grants) : Prop where
  proper : g.Proper
  done : g.AllDone
  empty : ∀ key, Key.isGrantKey key = true → g.item? key = none

theorem Bare.of_upkeep (h : Bare g) {upkeep : Upkeep}
    (done : ∀ id, upkeep.leftOf id = g.upkeep.leftOf id) : Bare { g with upkeep } :=
  ⟨h.proper.of_backend rfl,
    fun id => Upkeep.isDone_iff.2 ((done id).trans (Upkeep.isDone_iff.1 (h.done id))), h.empty⟩

/-- A request keeps a cache bare when no key of a grant appears by it. -/
theorem Bare.ask (h : Bare g) {r : Request} (proper : (g.ask r).2.Proper)
    (empty : ∀ s, g.inner? = some s → ∀ key, Key.isGrantKey key = true → s.item? key = none →
      (s.serve g.host.now r).state.item? key = none) : Bare (g.ask r).2 := by
  refine ⟨proper, fun id => (congrArg (Upkeep.isDone id) (upkeep_ask r g)).trans (h.done id),
    fun key hk => ?_⟩
  obtain ⟨s, hs, -⟩ := h.proper.store
  have before := h.empty key hk
  rcases ask_cases hs r with ⟨-, -, inner, -⟩ | ⟨-, -, inner, -⟩
  · rwa [item?_of_inner inner, ← item?_of_inner hs]
  · rw [item?_of_inner hs] at before
    rw [item?_of_inner inner]
    exact empty s hs key hk before

theorem Bare.reduces (h : Bare g) {r : Request} (reduces : r.Reduces) : Bare (g.ask r).2 := by
  refine ⟨h.proper.reduces reduces,
    fun id => (congrArg (Upkeep.isDone id) (upkeep_ask r g)).trans (h.done id), fun key hk => ?_⟩
  have nothing : (g.view.serve r).item? key = none := View.item?_serve_of_none (h.empty key hk) r
  exact (congrArg (View.item? · key) (view_ask h.proper.inner reduces)).trans nothing

theorem Bare.deletePattern (h : Bare g) (pattern : String) :
    Bare (g.ask (.deletePattern pattern)).2 := by
  refine h.ask (h.proper.deletePattern pattern) fun s _ key _ none => ?_
  rw [Store.serve, Store.item?_deletePattern, none, ite_self]

theorem Bare.purge (h : Bare g) : Bare g.purge.2 := by
  refine ⟨h.proper.purge, h.done, fun key hk => ?_⟩
  obtain ⟨s, hs, distinct⟩ := h.proper.store
  have before := h.empty key hk
  rw [item?_of_inner hs] at before
  rw [item?_of_inner (purge_of_inner hs).1, Store.item?_sweep distinct, Store.live?_eq, before]
  rfl

/-- All that moves are made of, but for caching and for what somebody else asks, keeps a cache bare.
-/
theorem upheld_bare : Upheld Bare where
  toCommon := common_of_reduces
    { report := fun _ _ h => ⟨h.proper.of_backend rfl, h.done, h.empty⟩
      take := fun _ _ h => h.of_upkeep fun _ => rfl
      await := fun id g h => by
        rw [perform, await_of_allDone h.done]
        exact h.of_upkeep fun other => Upkeep.leftOf_see .. }
    fun _ reduces => upholds_ask fun _ h => h.reduces reduces
  family _ _ := upholds_ask fun _ h => h.deletePattern _
  proceed _ id h := (proceed_of_allDone h.done id).symm ▸ h
  purge _ h := h.purge
  pass _ _ h := ⟨h.proper.of_backend rfl, h.done, h.empty⟩

/-- Codes that would last beyond the end of the clock are not cached. -/
theorem Bare.halted (h : Bare g) (hs : g.Sound) {kind : GrantKind} {user : String}
    {codes : List String} {ttl : Option Nat} (halted : g.deadline? ttl = none) :
    Bare (g.set kind user codes ttl).2 := by
  rcases set_cases hs kind user codes ttl with ⟨-, he⟩ | ⟨some, -⟩ | ⟨some, -⟩
  · rw [he]
    refine h.ask (h.proper.setEntry kind user _ _) fun s _ key _ none => ?_
    by_cases same : kind.entryKey user = key
    · subst same
      rw [Store.serve, Store.item?_set, show ttlDeadline? g.host.now _ = _ from halted]
      exact none
    · refine (Store.retains_serve g.host.now s _ ?_).absent none
      exact fun touched => same (List.mem_singleton.1 touched).symm
  · rw [halted] at some
    cases some
  · rw [halted] at some
    cases some

/-- A request of somebody else that stays away from the keys of grants keeps a cache bare. -/
theorem Bare.foreign (h : Bare g) (hs : g.Sound) {r : Request} (lawful : Move.Lawful (.raw r) g) :
    Bare (g.ask r).2 := by
  refine h.ask (h.proper.foreign hs lawful) fun s inner key hk none => ?_
  obtain ⟨t, ht, -⟩ := hs.store
  obtain rfl : t = s := Option.some.inj ((inner?_of_store ht).symm.trans inner)
  refine (Store.retains_serve g.host.now t r fun touched => ?_).absent none
  have foreign := lawful key (by rw [held, ht]; exact touched)
  rw [hk] at foreign
  cases foreign

/-- Every move but a set keeps a cache bare. -/
theorem Bare.move (h : Bare g) (ho : g.Orderly) (lawful : m.Lawful g)
    (other : ∀ kind user, ¬ ((g.move m).1 = true ∧ m.Sets kind user)) : Bare (g.move m).2 := by
  refine upheld_bare.move h (fun kind user codes ttl wait hm => ?_) fun r hm =>
    h.foreign ho.sound (hm ▸ lawful)
  subst hm
  refine h.halted ho.sound ?_
  have halted := other kind user
  rw [move_set_fst, isSome_set ho.sound] at halted
  exact Option.not_isSome_iff_eq_none.1 fun some => halted ⟨some, rfl, rfl⟩

/-- After a flush no key of a grant is stored, and no queued write can bring one back. -/
theorem bare_flush (ho : g.Orderly) (proper : g.Proper) : Bare g.flush.2 := by
  obtain ⟨s, t, -, -, flushed, store, -, done, -⟩ := run_flush ho
  have kept : (g.move .flush).2.Proper := proper.move nofun
  rw [show (g.move .flush).2 = g.flush.2 from rfl, flushed] at kept
  rw [flushed]
  refine ⟨kept, done, fun key hk => ?_⟩
  rw [item?_of_inner (inner?_of_store store), Store.item?_withoutGrants, if_pos hk]

/-- After a flush every write that was launched before is spent. -/
theorem spent_flush (ho : g.Orderly) : Spent g.upkeep.next g.flush.2 := by
  obtain ⟨s, t, -, -, flushed, -, -, done, next⟩ := run_flush ho
  have sound := (Grant.respects_flush ⟨.role, "", ""⟩ g ho.sound).sound.upkeep
  rw [flushed] at sound ⊢
  exact ⟨sound, next.ge, fun id _ => Upkeep.isDone_iff.1 (done id)⟩

end Grants

/-- Writes that were done stay done, whatever is launched after them. -/
theorem Runs.spent {steps : List Step} (run : Runs g steps g') (h : Spent n g) : Spent n g' := by
  induction run with
  | done g => exact h
  | step _ _ ih => exact ih (h.move _)

/-- Unless codes are cached, no key of grants comes back. -/
theorem Runs.bare {steps : List Step} (run : Runs g steps g') (ho : g.Orderly) (h : Bare g)
    (other : ∀ s ∈ steps, ∀ kind user, ¬ s.Caches kind user) : Bare g' := by
  induction run with
  | done g => exact h
  | step lawful _ ih =>
    have first := h.move ho lawful (other _ List.mem_cons_self)
    exact ih (orderly_move ho lawful) first fun s hs => other s (List.mem_cons_of_mem _ hs)

/-! ## Flushing -/

/-- Flush removes the keys of grants and no others, for good. All that is queued runs first. What is
counted are the keys of grants that are alive then. Any other key holds what it held, unless it was
evicted while the queued writes ran. Later, no write from before the flush does anything any more,
and unless codes are cached again no key of grants is held. For this the pattern of a family matches
a key exactly when the key belongs to the family, and a key of one of the four families determines
the family and the user or code. -/
theorem flush_removes_grants {now limit ttl size : Nat} {breaker : Breaker} {steps : List Step}
    (run : Runs (.start ⟨now, breaker, .bounded (.empty limit)⟩ ttl size) steps g) :
    (∃ s t, g.drain.store? = some s ∧ s.entries.keys.Nodup ∧
      g.flush = (some (s.entries.countP fun e =>
        Key.isGrantKey e.1 && e.2.isAlive g.drain.host.now), t) ∧
      (∀ key, Key.isGrantKey key = true → t.item? key = none) ∧
      (∃ lost, g.drain.evicted = g.evicted ++ lost ∧ t.evicted = g.drain.evicted ∧
        ∀ key, Key.isGrantKey key = false →
          t.item? key = g.item? key ∨ (t.item? key = none ∧ key ∈ lost)) ∧
      ∀ more g', Runs t more g' →
        (∀ id < g.upkeep.next, g'.proceed id = g') ∧
        ((∀ s ∈ more, ∀ kind user, ¬ s.Caches kind user) →
          ∀ key, Key.isGrantKey key = true → g'.item? key = none)) ∧
    (∀ family ∈ Key.families, ∀ key, Glob.matchesText (Key.familyPattern family) key = true ↔
      ∃ name, key = Key.member family name) ∧
    ∀ family ∈ Key.families, ∀ other ∈ Key.families, ∀ name name',
      Key.member family name = Key.member other name' → family = other ∧ name = name' := by
  have ho := run.orderly (orderly_start ..)
  have proper := run.proper (orderly_start ..) (proper_start now breaker rfl ttl size)
  have bare := bare_flush ho proper
  have spent := spent_flush ho
  refine ⟨?_, fun family hf key => ?_, fun family hf other hother name name' same => ?_⟩
  · obtain ⟨s, t, store, distinct, flushed, left, evicted, -, -⟩ := run_flush ho
    have after : g.flush.2 = t := by rw [flushed]
    rw [after] at bare spent
    refine ⟨s, t, store, distinct, flushed, bare.empty, ?_, fun more g' later => ⟨?_, ?_⟩⟩
    -- The writes touch keys of codes, and the flush keys of grants.
    · have apart : ∀ key, Key.isGrantKey key = false → ∀ kind code,
          key ≠ GrantKind.indexKey code kind := by
        rintro _ foreign kind code rfl
        rw [GrantKind.isGrantKey_indexKey] at foreign
        cases foreign
      obtain ⟨lost, drained, held⟩ := retains_drain ho.sound apart
      refine ⟨lost, drained, evicted, fun key hk => ?_⟩
      have same : t.item? key = g.drain.item? key := by
        rw [item?_of_inner (inner?_of_store left), item?_of_inner (inner?_of_store store),
          Store.item?_withoutGrants, hk, if_neg Bool.false_ne_true]
      rw [same]
      exact held key hk
    · exact fun id lt => (later.spent spent).proceed_eq lt
    · have orderly : t.Orderly := after ▸ orderly_move (m := .flush) ho trivial
      exact fun other => (later.bare orderly bare other).empty
  · rw [Key.matches_familyPattern hf]
    exact Key.inFamily_iff
  · by_cases hk : family = other
    · subst hk
      exact ⟨rfl, Key.member_injective same⟩
    · exact absurd same (Key.member_ne_member hf hother hk name name')

/-- The write that adds the user to the set is still queued, and the names are full of characters
that mean something in patterns. -/
theorem flush_removes_grants_with_queued_write :
    ∃ g, Runs (.start ⟨0, {}, .bounded (.empty 8)⟩ 3600 100)
        [⟨.raw (.set "role:user" (.str "kept") none), 0, true⟩,
          ⟨.set .role "*:[" ["a\\"] none false, 0, true⟩] g ∧
      g.upkeep.queued ≠ [] ∧
      ∃ t, g.flush = (some 2, t) ∧ t.item? (GrantKind.role.entryKey "*:[") = none ∧
        t.item? (GrantKind.role.indexKey "a\\") = none ∧ (t.item? "role:user").isSome ∧
        t.proceed 0 = t := by
  have run : Runs (.start ⟨0, {}, .bounded (.empty 8)⟩ 3600 100)
      [⟨.raw (.set "role:user" (.str "kept") none), 0, true⟩,
        ⟨.set .role "*:[" ["a\\"] none false, 0, true⟩] _ :=
    .step (fun key hk => by obtain rfl := List.mem_singleton.1 hk; decide +kernel)
      (.step trivial (.done _))
  obtain ⟨⟨s, t, store, -, flushed, bare, ⟨lost, drained, -, others⟩, later⟩, -, -⟩ :=
    flush_removes_grants run
  refine ⟨_, run, by decide +kernel, t, ?_, bare _ (by decide +kernel), bare _ (by decide +kernel), ?_,
    (later [] t (.done t)).1 0 (by decide +kernel)⟩
  · have count : _ = some 2 := (congrArg Prod.fst flushed).symm.trans (by decide +kernel)
    exact flushed.trans (congrArg (·, t) count)
  · have kept := (others "role:user" (by decide +kernel)).resolve_right fun h => by
      have mem := drained ▸ List.mem_append_right _ h.2
      exact absurd mem (by decide +kernel)
    rw [kept]
    decide +kernel

end GrantCache
