import GrantCache.Proofs.Grants.Retention
import GrantCache.Proofs.Grants.Moves
import GrantCache.Proofs.Grants.Settling

/-!
# What a flush comes to

A flush lets all that is queued run and then removes the keys of the four families one after another,
whatever characters users and codes have: it counts those that are alive and leaves the rest of the
store as it is (`run_flush`).
-/

namespace GrantCache

open Grants

variable {g : Grants} {s : Store}

/-! ## The families one after another -/

/-- Whether a key belongs to one of some families. -/
def Key.inAny (families : List String) (key : String) : Bool :=
  families.any fun family => Key.inFamily family key

/-- How many keys of grants a store holds alive. -/
def Store.countGrants (now : Nat) (s : Store) : Nat :=
  s.entries.countP fun e => Key.isGrantKey e.1 && e.2.isAlive now

/-- A store without the keys of grants. -/
def Store.withoutGrants (s : Store) : Store :=
  { s with entries := s.entries.filter fun e => !Key.isGrantKey e.1 }

theorem Store.item?_withoutGrants (key : String) (s : Store) :
    s.withoutGrants.item? key = if Key.isGrantKey key then none else s.item? key := by
  rw [item?, withoutGrants, Catalog.find?_filter_keys fun key => !Key.isGrantKey key]
  cases Key.isGrantKey key <;> rfl

namespace Grants

/-- Removing a family answers how many of its keys are alive, and removes all of them. -/
theorem ask_deleteFamily (hs : g.store? = some s) {family : String} (hf : family ∈ Key.families) :
    (g.ask (.deletePattern (Key.familyPattern family))).1 =
        .ok (s.entries.countP fun e => Key.inFamily family e.1 && e.2.isAlive g.host.now) ∧
      (g.ask (.deletePattern (Key.familyPattern family))).2.store? =
        some { s with entries := s.entries.filter fun e => !Key.inFamily family e.1 } ∧
      (g.ask (.deletePattern (Key.familyPattern family))).2.evicted = g.evicted := by
  have pattern := Key.matches_familyPattern hf
  refine ⟨?_, ?_, ?_⟩
  · rw [ask_of_store hs]
    exact (Store.response_deletePattern ..).trans (by simp only [pattern])
  · rw [store?_ask hs, Store.serve, Store.state_deletePattern]
    simp only [pattern]
  · rw [evicted_ask hs]
    exact List.append_nil _

/-- Those that belong to a family, and of the others those that belong to one of the rest. -/
theorem countP_inAny_cons (family : String) (rest : List String) (alive : Entry → Bool)
    (entries : Catalog Entry) :
    (entries.countP fun e => Key.inFamily family e.1 && alive e.2) +
        ((entries.filter fun e => !Key.inFamily family e.1).countP fun e =>
          Key.inAny rest e.1 && alive e.2) =
      entries.countP fun e => Key.inAny (family :: rest) e.1 && alive e.2 := by
  induction entries with
  | nil => rfl
  | cons e entries ih =>
    have any : Key.inAny (family :: rest) e.1 = (Key.inFamily family e.1 || Key.inAny rest e.1) := rfl
    rw [List.filter_cons, List.countP_cons, List.countP_cons, ← ih, any]
    cases Key.inFamily family e.1 with
    | true => simp [Nat.add_right_comm]
    | false => simp [List.countP_cons, Nat.add_assoc]

/-- Removing several families answers how many of their keys are alive, and removes all of them. -/
theorem run_flushFamilies {families : List String} (hf : ∀ family ∈ families, family ∈ Key.families)
    (hs : g.store? = some s) :
    ∃ t, g.run (Plan.flushFamilies families) =
        (some (s.entries.countP fun e => Key.inAny families e.1 && e.2.isAlive g.host.now), t) ∧
      t.store? = some { s with entries := s.entries.filter fun e => !Key.inAny families e.1 } ∧
      t.evicted = g.evicted ∧ t.upkeep = g.upkeep := by
  induction families generalizing g s with
  | nil =>
    refine ⟨g, ?_, ?_, rfl, rfl⟩
    · simp [Plan.flushFamilies, Key.inAny, run, Program.run]
    · simp [Key.inAny, hs]
  | cons family rest ih =>
    obtain ⟨own, others⟩ := List.forall_mem_cons.1 hf
    obtain ⟨response, store, evicted⟩ := ask_deleteFamily hs own
    obtain ⟨t, ran, store', evicted', upkeep⟩ := ih others store
    refine ⟨t, ?_, ?_, evicted'.trans evicted, upkeep⟩
    -- Each family is counted among the keys that those before it have left.
    · rw [Plan.flushFamilies, run_bind_of (run_ask response)]
      refine (run_bind_of ran _).trans ?_
      rw [now_ask hs, ← countP_inAny_cons family rest fun e => e.isAlive g.host.now]
      rfl
    · rw [store', List.filter_filter]
      simp [Key.inAny, Bool.and_comm]

theorem store?_of_host {t : Grants} (same : t.host = g.host) : t.store? = g.store? := by
  rw [store?, store?, same]

/-- A flush removes the keys of grants from the store as it is when all that was queued has run. -/
theorem run_flush (ho : g.Orderly) :
    ∃ s t, g.drain.store? = some s ∧ s.Distinct ∧
      g.flush = (some (s.countGrants g.drain.host.now), t) ∧ t.store? = some s.withoutGrants ∧
      t.evicted = g.drain.evicted ∧ t.AllDone ∧ t.upkeep.next = g.upkeep.next := by
  obtain ⟨s, store, distinct⟩ := (Grant.respects_drain ⟨.role, "", ""⟩ g ho.sound).sound.store
  obtain ⟨g₁, settled, alike, done⟩ := run_settleAll ho.sound.bounded ho.tidy
  have every : ∀ family ∈ Key.families, family ∈ Key.families := fun _ hf => hf
  obtain ⟨g₂, removed, store₂, evicted, upkeep⟩ :=
    run_flushFamilies every ((store?_of_host alike.host).trans store)
  let n := s.countGrants g₁.host.now
  have flushed : g.flush =
      (some n, (g₂.note [.notice (.flushed n)]).note [.count (.invalidatedUsers "flush") n]) :=
    (run_bind_of settled _).trans (run_bind_of removed _)
  rw [← alike.host]
  refine ⟨s, _, store, distinct, flushed, store₂, ?_, fun id => ?_, ?_⟩
  · rw [evicted_note, evicted_note, evicted, Grants.evicted, alike.journal]
    exact (List.append_nil _).trans (List.append_nil _)
  · exact (congrArg (Upkeep.isDone id) upkeep).trans (done id)
  · exact (congrArg Upkeep.next upkeep).trans (alike.next.trans (next_drain g))

end Grants

end GrantCache
