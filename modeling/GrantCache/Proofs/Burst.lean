import GrantCache.Proofs.Grants.Moves
import GrantCache.Proofs.Store.Recency

/-!
# Caching in a small store

A store that is too small evicts entries and sets while codes are being cached. Invalidation right
after a burst of caching still clears everybody who was given the code: a user is added to the set of
the code after the user's entry was written, so the store evicts the entry before the set
(`Grant.Ahead`). Until the index write has got there it is tracked, and the invalidation waits for it
(`Grant.Behind`).
-/

namespace GrantCache

open Grants

namespace Grant

variable {x : Grant} {g g' g'' : Grants} {id : Nat} {kind : GrantKind} {user : String}

/-! ## Ahead or on the way -/

/-- The user's entry is evicted before the set that shows the user. -/
def Ahead (x : Grant) (g : Grants) : Prop :=
  ∃ s, g.store? = some s ∧ s.Ahead x.entryKey x.indexKey x.user

/-- What happens during a burst: the set stays ahead, and a write that is due gets there. -/
structure Carries (x : Grant) (g g' : Grants) : Prop where
  sound : g'.Sound
  ahead : x.Ahead g → x.Ahead g'
  due : ∀ id, x.Due id g → x.Due id g' ∨ x.Ahead g'

/-- A change to a sound cache that carries a grant on. -/
def Conveys (x : Grant) (g g' : Grants) : Prop := g.Sound → x.Carries g g'

theorem Conveys.refl (x : Grant) (g : Grants) : x.Conveys g g :=
  fun hs => ⟨hs, id, fun _ => Or.inl⟩

theorem Conveys.trans (h : x.Conveys g g') (h' : x.Conveys g' g'') : x.Conveys g g'' := by
  intro hs
  have first := h hs
  have second := h' first.sound
  refine ⟨second.sound, second.ahead ∘ first.ahead, fun id due => ?_⟩
  rcases first.due id due with due | ahead
  · exact second.due id due
  · exact Or.inr (second.ahead ahead)

theorem ahead_ask {s : Store} (h : g.store? = some s) {r : Request}
    (ha : (s.serve g.host.now r).state.Ahead x.entryKey x.indexKey x.user) : x.Ahead (g.ask r).2 :=
  ⟨_, store?_ask h r, ha⟩

/-- Adding a user to any set keeps the set of the grant ahead of the entry. -/
theorem Ahead.ask_addMember (h : x.Ahead g) (kind : GrantKind) (code name : String) :
    x.Ahead (g.ask (.addMembers (kind.indexKey code) [name])).2 := by
  obtain ⟨s, hs, ha⟩ := h
  refine ahead_ask hs ?_
  have apart := (x.entryKey_ne_indexKey kind code).symm
  by_cases hx : kind.indexKey code = x.indexKey
  · rw [hx] at apart ⊢
    exact ha.addMembers_index apart _ _
  · exact ha.addMembers apart hx _ _

/-- Once the user is added to it, the set is ahead of the entry. -/
theorem ahead_addMember_self (hs : g.Sound) (x : Grant) :
    x.Ahead (g.ask (.addMembers x.indexKey [x.user])).2 := by
  obtain ⟨s, store, -⟩ := hs.store
  refine ahead_ask store (Store.ahead_addMembers_self fun e he => ?_)
  rw [← live?_of_store store] at he
  exact hs.set he

/-! ## Index writes -/

/-- A step of a queued write carries a grant on. -/
theorem conveys_proceed (x : Grant) (g : Grants) (id : Nat) : x.Conveys g (g.proceed id) := by
  intro hs
  have sound := (respects_proceed x g id hs).sound
  rcases proceed_cases id g with ⟨same, -⟩ | ⟨w, key, rest, events, hw, hl, he⟩
  · rw [same]
    exact Conveys.refl x g hs
  · rw [he] at sound ⊢
    -- A write goes to the set of some code, never to an entry.
    obtain ⟨kind, code, rfl⟩ :=
      hs.targets w (List.mem_of_find?_eq_some hw) key (by simp [hl])
    refine ⟨sound, fun ahead => ahead.ask_addMember kind code w.user, fun other due => ?_⟩
    rcases Upkeep.Owes.proceed due id with still | ⟨-, w', hw', hu, hh⟩
    · exact Or.inl still
    · -- the write has got to the set of the code
      obtain rfl : w = w' := Option.some.inj (hw.symm.trans hw')
      rw [hl, List.head?_cons, Option.some.injEq] at hh
      rw [hh, hu]
      exact Or.inr (ahead_addMember_self hs x)

theorem conveys_see (x : Grant) (g : Grants) (hd : g.upkeep.isDone id = true) :
    x.Conveys g { g with upkeep := g.upkeep.see id } := fun hs =>
  ⟨(respects_see x g hd hs).sound, fun ahead => ahead,
    fun _ due => Or.inl (Upkeep.Owes.see due id)⟩

theorem conveys_await (x : Grant) (g : Grants) (id : Nat) : x.Conveys g (g.await id) :=
  await_induction (Conveys.refl x) .trans (conveys_proceed x) (fun t _ hd => conveys_see x t hd) g id

/-! ## Caching for others -/

/-- The set is ahead, or a write that will put it there is tracked. -/
def Behind (x : Grant) (g : Grants) : Prop :=
  x.Ahead g ∨ ∃ id ∈ g.upkeep.tracked x.indexKey, x.Due id g

/-- A change that carries a grant on keeps the set behind it, if no write that is due is taken out of
the tracking. -/
theorem Behind.of_carries (h : x.Behind g) (hc : x.Carries g g')
    (tracked : ∀ id, x.Due id g → id ∈ g.upkeep.tracked x.indexKey →
      id ∈ g'.upkeep.tracked x.indexKey) : x.Behind g' := by
  rcases h with ahead | ⟨id, hi, due⟩
  · exact Or.inl (hc.ahead ahead)
  · exact (hc.due id due).symm.imp_right fun still => ⟨id, tracked id due hi, still⟩

theorem Behind.await (h : x.Behind g) (hs : g.Sound) (id : Nat) : x.Behind (g.await id) := by
  refine h.of_carries (conveys_await x g id hs) fun other _ hi => ?_
  rw [Upkeep.tracked, (sheds_await g id).pending]
  exact hi

theorem Behind.proceed (h : x.Behind g) (hs : g.Sound) (id : Nat) : x.Behind (g.proceed id) := by
  refine h.of_carries (conveys_proceed x g id hs) fun other _ hi => ?_
  rw [Upkeep.tracked, (sheds_proceed g id).pending]
  exact hi

/-- Writing somebody else's entry keeps the set ahead. -/
theorem Ahead.written (h : x.Ahead g) {codes : List String} {ttl : Option Nat}
    (other : kind.entryKey user ≠ x.entryKey ∨ g.deadline? ttl = none) :
    x.Ahead (g.written kind user codes ttl) := by
  obtain ⟨s, hs, ha⟩ := h
  refine ahead_ask hs ?_
  rcases other with apart | halted
  · exact ha.set apart (x.indexKey_ne_entryKey kind user).symm _ _ _
  · rw [Store.serve, Store.set, show ttlDeadline? g.host.now (some (ttl.getD g.defaultTtl)) = _ from halted]
    exact ha

/-- Caching for somebody else keeps the set behind a grant. -/
theorem Behind.set (h : x.Behind g) (hs : g.Sound) {codes : List String} {ttl : Option Nat}
    (other : kind.entryKey user ≠ x.entryKey ∨ g.deadline? ttl = none) :
    x.Behind (g.set kind user codes ttl).2 := by
  have wrote : x.Behind (g.written kind user codes ttl) := h.imp_left (·.written other)
  rcases set_cases hs kind user codes ttl with ⟨-, he⟩ | ⟨-, -, he⟩ | ⟨-, he⟩
  · rwa [he]
  · rwa [he]
  · rw [he]
    refine wrote.imp id fun ⟨id, hi, due⟩ => ⟨id, ?_, ?_⟩
    · exact Upkeep.Owes.tracked_launch due hs.upkeep hi user _
    · exact Upkeep.Owes.launch due hs.upkeep user _

end Grant

/-! ## A burst -/

open Grant

/-- The moves of a burst: codes are cached, time passes, and index writes run at any point. -/
def Move.Queues : Move → Prop
  | .set .. | .pass _ | .work _ | .await _ => True
  | _ => False

variable {x : Grant} {g g' : Grants} {kind : GrantKind} {user code : String}

/-- A move of a burst keeps the set behind a grant. -/
theorem behind_move {m : Move} (h : x.Behind g) (hs : g.Sound) (hm : m.Queues)
    (other : ¬ ((g.move m).1 = true ∧ m.Sets x.kind x.user)) : x.Behind (g.move m).2 := by
  cases m with
  | set kind user codes ttl wait =>
    have wrote : x.Behind (g.set kind user codes ttl).2 := h.set hs (other_of_not_caching hs other)
    rcases move_set_snd kind user codes ttl wait g with same | ⟨id, waited⟩
    · rwa [same]
    · rw [waited]
      exact wrote.await (sound_set_op hs ..) id
  | pass ms => exact h
  | work id => exact h.proceed hs id
  | await id => exact h.await hs id
  | _ => exact hm.elim

/-- A burst keeps the set behind a grant. -/
theorem Runs.behind {steps : List Step} (h : Runs g steps g') (ho : g.Orderly) (hb : x.Behind g)
    (queues : ∀ s ∈ steps, s.move.Queues) (other : ∀ s ∈ steps, ¬ s.Caches x.kind x.user) :
    x.Behind g' := by
  induction h with
  | done g => exact hb
  | step lawful _ ih =>
    refine ih (orderly_move ho lawful) ?_ (fun s hs => queues s (List.mem_cons_of_mem _ hs))
      fun s hs => other s (List.mem_cons_of_mem _ hs)
    exact behind_move hb ho.sound (queues _ List.mem_cons_self) (other _ List.mem_cons_self)

/-- From the moment at which a user's codes are cached the sets of these codes are behind them. -/
theorem Runs.behind_of_caching {codes : List String} {ttl : Option Nat} {wait : Bool} {time : Nat}
    {after : List Step} (h : Runs g (⟨.set x.kind x.user codes ttl wait, time, true⟩ :: after) g')
    (ho : g.Orderly) (hc : x.code ∈ codes) (queues : ∀ s ∈ after, s.move.Queues)
    (other : ∀ s ∈ after, ¬ s.Caches x.kind x.user) : x.Behind g' := by
  obtain ⟨lawful, -, ended, rest⟩ := h.head
  refine rest.behind (orderly_move ho lawful) ?_ queues other
  rw [move_set_fst, isSome_set ho.sound] at ended
  obtain ⟨due, tracked⟩ := due_set x ho.sound ended.symm hc
  have cached : x.Behind (g.set x.kind x.user codes ttl).2 := Or.inr ⟨_, tracked, due⟩
  rcases move_set_snd x.kind x.user codes ttl wait g with same | ⟨id, waited⟩
  · rwa [same]
  · rw [waited]
    exact cached.await (sound_set_op ho.sound ..) id

/-! ## The invalidation after it -/

/-- Who has waited for all the writes that may be due finds the set ahead. -/
theorem ahead_awaitAll {ids : List Nat} (hs : g.Sound) (h : x.Ahead g ∨ ∃ id ∈ ids, x.Due id g) :
    x.Ahead (g.run (ids.forM Plan.await)).2 := by
  induction ids generalizing g with
  | nil => exact h.resolve_right fun ⟨id, hi, _⟩ => nomatch hi
  | cons id rest ih =>
    have step := conveys_await x g id hs
    refine ih (g := g.await id) step.sound ?_
    rcases h with ahead | ⟨other, hi, due⟩
    · exact Or.inl (step.ahead ahead)
    · rcases step.due other due with still | ahead
      · rcases List.mem_cons.1 hi with rfl | hi
        · -- the write that was waited for is done
          have := still.not_done
          rw [isDone_await] at this
          cases this
        · exact Or.inr ⟨other, hi, still⟩
      · exact Or.inl ahead

/-- Once the writes of a code are settled, its set is ahead of the entry. -/
theorem ahead_settled (hs : g.Sound) (h : x.Behind g) : x.Ahead (g.settled x.indexKey) :=
  ahead_awaitAll (respects_take x g x.indexKey hs).sound h

/-- Where the set is ahead it shows the user, or the user has no entry. -/
theorem Grant.Ahead.seen (h : x.Ahead g) : x.user ∈ g.users x.kind x.code ∨ x.Cleared g := by
  obtain ⟨s, hs, gone | before⟩ := h
  · right
    rw [Cleared, live?_of_store hs, Store.live?, Catalog.find?_eq_none_iff.2 gone]
    rfl
  -- Where the entry is held the set before it is held, too.
  · by_cases held : x.entryKey ∈ s.entries.keys
    · obtain ⟨_, hf, names, rfl, hu⟩ := before.find? held
      left
      have live : g.live? (x.kind.indexKey x.code) = some ⟨.set names, none⟩ := by
        rw [live?_of_store hs, Store.live?, show s.entries.find? (x.kind.indexKey x.code) = _ from hf]
        rfl
      rw [users, live]
      exact hu
    · right
      rw [Cleared, live?_of_store hs, Store.live?, Catalog.find?_eq_none_iff.2 held]
      rfl

/-- Clearing a code leaves the user without an entry, whether the set shows the user or there is no
entry. -/
theorem cleared_clearIndex (hs : g.Sound) (size : Nat)
    (seen : x.user ∈ g.users x.kind x.code ∨ x.Cleared g) :
    x.Cleared (g.runWide (Plan.clearIndex size x.kind x.code)).2 := by
  rcases seen with mem | cleared
  · exact cleared_of_mem hs size mem
  · exact ((assures_clearIndex size x.kind x.code hs fun _ => Or.inl cleared.loose).run.1 hs).cleared
      cleared

/-- An invalidation of the code waits for what is on the way and clears whom it finds. -/
theorem Grant.Behind.cleared_invalidate (h : x.Behind g) (hs : g.Sound) :
    x.Cleared (g.invalidate x.kind x.code).2 := by
  have seen := (ahead_settled hs h).seen
  have sound := (respects_settled x g x.indexKey hs).sound
  rw [invalidate, runWide_invalidate hs.bounded]
  exact cleared_clearIndex sound g.batchSize seen

/-- Whatever ran before over a store of whatever size: once codes have been cached for a user, and
while nothing happens but that codes are cached for others, or of the other kind, time passes and
index writes run, the invalidation of one of these codes comes to its end and leaves the user without
an entry. That the store has evicted entries or sets meanwhile does not matter. -/
theorem invalidated_after_burst {now limit ttl size time : Nat} {breaker : Breaker}
    {before burst : List Step} {codes : List String} {seconds : Option Nat} {wait : Bool}
    (h : Runs (.start ⟨now, breaker, .bounded (.empty limit)⟩ ttl size)
      (before ++ ⟨.set kind user codes seconds wait, time, true⟩ :: burst) g)
    (listed : code ∈ codes) (queues : ∀ s ∈ burst, s.move.Queues)
    (last : ∀ s ∈ burst, ¬ s.Caches kind user) :
    (g.invalidate kind code).1.isSome ∧
      ((g.invalidate kind code).2.get kind user).1 = some none := by
  have fresh := orderly_start now breaker limit ttl size
  have ho := h.orderly fresh
  obtain ⟨t, earlier, rest⟩ := h.split
  have behind : Grant.Behind ⟨kind, user, code⟩ g :=
    rest.behind_of_caching (earlier.orderly fresh) listed queues last
  have cleared := behind.cleared_invalidate ho.sound
  have sound := (assured_invalidate ho.sound ho.tidy (ho.covered ⟨kind, user, code⟩) g.batchSize
    kind code).1.sound
  exact ⟨isSome_runInvalidate ho.sound.bounded _ kind code, cleared.get sound⟩

/-- In a store for one key, caching for Bob evicts what was cached for Ann. -/
theorem invalidated_after_burst_for_one_key :
    ∃ g, Runs (.start ⟨0, {}, .bounded (.empty 1)⟩ 3600 100)
        ([] ++ ⟨.set .role "ann" ["admin"] none false, 0, true⟩ ::
          [⟨.set .role "bob" ["admin"] none false, 0, true⟩]) g ∧
      GrantKind.role.entryKey "ann" ∈ g.evicted ∧
      (g.invalidate .role "admin").1.isSome ∧
      ((g.invalidate .role "admin").2.get .role "ann").1 = some none := by
  have run : Runs (.start ⟨0, {}, .bounded (.empty 1)⟩ 3600 100)
      ([] ++ ⟨.set .role "ann" ["admin"] none false, 0, true⟩ ::
        [⟨.set .role "bob" ["admin"] none false, 0, true⟩]) _ :=
    .step trivial (.step trivial (.done _))
  refine ⟨_, run, by decide +kernel, invalidated_after_burst run (by decide) ?_ ?_⟩
  · simp [Move.Queues]
  · simp [Step.Caches, Move.Sets]

end GrantCache
