import GrantCache.Proofs.Grants.Moves

/-!
# Every cached grant is found

Invalidation finds users through the set of a code, and the set is written later than the entries
that list the code. Still, in every state that a sequential run reaches, whoever has an entry that
lists a code is in the set of the code, or an index write that is tracked there will add the user
(`indexed_or_pending`). So an invalidation leaves nobody with an entry that lists the code. The one
thing that can spoil this is the eviction of the set itself.
-/

namespace GrantCache

open Grants

variable {g : Grants} {kind : GrantKind} {user code : String}

/-- What covers a grant that is listed: the set of the code, or a write that is tracked there. -/
theorem Grant.Covered.indexed_or_pending {x : Grant} (h : x.Covered g) (ho : g.Orderly)
    (kept : x.indexKey ∉ g.evicted) (listed : x.Listed g) :
    x.user ∈ g.users x.kind x.code ∨
      ∃ id ∈ g.upkeep.tracked x.indexKey, g.upkeep.Owes id x.user x.indexKey := by
  -- The set was not evicted and the entry lists the code, so the grant is not loose.
  rcases h with (loose | indexed) | ⟨id, due⟩
  · exact (loose.elim kept fun unlisted => unlisted listed).elim
  · exact Or.inl indexed.mem_users
  · exact Or.inr ⟨id, ho.tidy id _ _ due, due⟩

/-- In every state that a run from an empty store reaches: whoever has an entry that lists a code is
in the set of the code, or an unfinished index write that is tracked under the key of the set will add
the user. And an invalidation comes to its end, and then nobody has an entry that lists the code. Both
hold as long as the set in question was never evicted; entries may be. -/
theorem index_covers {now limit ttl size : Nat} {breaker : Breaker} {steps : List Step}
    (h : Runs (.start ⟨now, breaker, .bounded (.empty limit)⟩ ttl size) steps g) :
    (∀ (kind : GrantKind) (user code : String) (codes : List String),
      kind.indexKey code ∉ g.evicted →
      (g.get kind user).1 = some (some codes) → code ∈ codes →
      (∃ users, (g.ask (.members (kind.indexKey code))).1 = .ok users ∧ user ∈ users) ∨
        ∃ id ∈ (g.upkeep.take (kind.indexKey code)).1, ∃ w, g.upkeep.write? id = some w ∧
          w.isDone = false ∧ w.user = user ∧ kind.indexKey code ∈ w.left) ∧
    ∀ (kind : GrantKind) (code : String),
      (g.invalidate kind code).1.isSome ∧
      (kind.indexKey code ∉ (g.invalidate kind code).2.evicted →
        ∀ (user : String) (codes : List String),
          ((g.invalidate kind code).2.get kind user).1 = some (some codes) → code ∉ codes) := by
  have ho := h.orderly (orderly_start now breaker limit ttl size)
  have hs := ho.sound
  constructor
  -- An orderly state says where a user is found whose entry lists a code.
  · intro kind user code codes kept read hc
    have listed := Grant.listed_of_get hs read hc
    rcases (ho.covered ⟨kind, user, code⟩).indexed_or_pending ho kept listed with mem | ⟨id, hi, owes⟩
    · exact Or.inl ⟨_, hs.members_eq kind code, mem⟩
    · obtain ⟨w, hw, hu, hk⟩ := owes
      refine Or.inr ⟨id, hi, w, hw, ?_, hu, hk⟩
      rw [IndexWrite.isDone, List.isEmpty_eq_false_iff]
      exact List.ne_nil_of_mem hk
  -- The invalidation leaves the grant loose: the set was evicted, or no entry lists the code.
  · intro kind code
    refine ⟨isSome_runInvalidate hs.bounded g.batchSize kind code, fun kept user codes read hc => ?_⟩
    obtain ⟨keeps, loose⟩ := Grant.assured_invalidate hs ho.tidy (ho.covered ⟨kind, user, code⟩)
      g.batchSize kind code
    have listed := Grant.listed_of_get keeps.sound read hc
    exact (loose rfl).elim kept fun unlisted => unlisted listed

/-- Ann's codes are cached and the index write is queued. -/
theorem index_covers_while_queued :
    ∃ g, Runs (.start ⟨0, {}, .bounded (.empty 8)⟩ 3600 100)
        [⟨.set .role "ann" ["admin"] none false, 0, true⟩] g ∧
      (g.get .role "ann").1 = some (some ["admin"]) ∧
      ((∃ users, (g.ask (.members (GrantKind.role.indexKey "admin"))).1 = .ok users ∧ "ann" ∈ users) ∨
        ∃ id ∈ (g.upkeep.take (GrantKind.role.indexKey "admin")).1, ∃ w, g.upkeep.write? id = some w ∧
          w.isDone = false ∧ w.user = "ann" ∧ GrantKind.role.indexKey "admin" ∈ w.left) ∧
      ∀ (user : String) (codes : List String),
        ((g.invalidate .role "admin").2.get .role user).1 = some (some codes) → "admin" ∉ codes := by
  have run : Runs (.start ⟨0, {}, .bounded (.empty 8)⟩ 3600 100)
      [⟨.set .role "ann" ["admin"] none false, 0, true⟩] _ := .step trivial (.done _)
  obtain ⟨covered, invalidated⟩ := index_covers run
  refine ⟨_, run, by decide +kernel, ?_, (invalidated .role "admin").2 (by decide +kernel)⟩
  exact covered .role "ann" "admin" ["admin"] (by decide +kernel) (by decide +kernel) (by decide)

end GrantCache
