import GrantCache.Proofs.Grants.Invalidating
import GrantCache.Proofs.Grants.Proper

/-!
# The exact effect of an invalidation

When no index write is queued, the invalidation of a code counts everybody in the set of the code,
removes the entries of these users and the set, and takes each of them out of the sets of the codes
that the user's live entries list. Under every other key it leaves what was there, dead entries
included; and how many users are cleared at once makes no difference (`invalidation_exact`).
-/

namespace GrantCache

open Grants
open Store (lessMembers)

variable {g t : Grants} {kind : GrantKind} {user code : String}

namespace Grants

/-- Over a store where nothing is made to fail a reading finds what the live entry lists. -/
theorem mem_found_view {s : Store} (hs : g.store? = some s) :
    code ∈ g.view.found kind user ↔ Grant.Listed ⟨kind, user, code⟩ g := by
  have works : g.view.fails (kind.entryKey user) = false := fails_of_store hs _
  have live : g.view.live? (kind.entryKey user) = g.live? (kind.entryKey user) := by
    rw [live?_view (inner?_of_store hs), live?_of_store hs]
  rw [View.found, works, View.listed, live, Grant.Listed, codes?]
  cases g.live? (kind.entryKey user) with
  | none => simp
  | some e =>
    obtain ⟨⟨value⟩ | ⟨names⟩, deadline⟩ := e
    · cases hv : value.texts? <;> simp [hv]
    · simp

theorem clears_view {s : Store} (hs : g.store? = some s) (user : String) :
    g.view.clears user = true :=
  List.all_eq_true.2 fun key _ => congrArg (!·) (fails_of_store hs key)

/-- In a state that a run over a bounded store reaches, when no index write is queued. -/
theorem idle_of_runs {now limit ttl size : Nat} {breaker : Breaker} {steps : List Step}
    (run : Runs (.start ⟨now, breaker, .bounded (.empty limit)⟩ ttl size) steps g)
    (settled : g.upkeep.queued = []) : g.Idle := by
  have start := orderly_start now breaker limit ttl size
  have proper := run.proper start (proper_start now breaker rfl ttl size)
  exact ⟨proper.inner, allDone_of_queued settled, proper.typed⟩

/-- Where nothing is made to fail an invalidation counts everybody in the set. -/
theorem invalidate_of_idle (h : g.Idle) {s : Store} (hs : g.store? = some s) (kind : GrantKind)
    (code : String) (batch : Nat) :
    ∃ t, ({ g with batchSize := batch } : Grants).invalidate kind code =
        (some (g.view.users kind code).length, t) ∧
      t.Idle ∧ t.view = g.view.invalidated kind code := by
  have idle : ({ g with batchSize := batch } : Grants).Idle := ⟨h.inner, h.done, h.typed⟩
  obtain ⟨t, ran, serves⟩ := runWide_invalidate_of_idle idle batch (fails_of_store hs _)
  refine ⟨t, ran.trans ?_, serves.idle, serves.view⟩
  have all : (g.view.users kind code).countP (View.clears · g.view) =
      (g.view.users kind code).length := List.countP_eq_length.2 fun user _ => clears_view hs user
  exact congrArg (some · , t) all

end Grants

/-- In every state that a run from an empty store reaches, when no index write is queued, for any
number of users that are cleared at once: with the users that are in the set of a code, its
invalidation returns how many they are, and afterwards

* their entries and the set are gone;
* every other set has lost those of the users whose live entry of its kind listed its code, and is
  gone if that leaves nobody;
* every key that is neither that of the set, nor that of an entry of such a user, nor that of the set
  of a code listed there, holds what it held, the dead included.

The count and what is left do not depend on how many are cleared at once, and when the invalidation
is repeated it returns zero. -/
theorem invalidation_exact {now limit ttl size : Nat} {breaker : Breaker} {steps : List Step}
    (run : Runs (.start ⟨now, breaker, .bounded (.empty limit)⟩ ttl size) steps g)
    (settled : g.upkeep.queued = []) (kind : GrantKind) (code : String) (batch : Nat) :
    ∃ users t, (g.ask (.members (kind.indexKey code))).1 = .ok users ∧ users.Nodup ∧
      ({ g with batchSize := batch } : Grants).invalidate kind code = (some users.length, t) ∧
      (∀ user ∈ users, ∀ k, t.item? (GrantKind.entryKey user k) = none) ∧
      t.item? (kind.indexKey code) = none ∧
      (∀ k c, GrantKind.indexKey c k ≠ kind.indexKey code →
        t.item? (k.indexKey c) =
          lessMembers (users.filter fun user => Grant.Listed ⟨k, user, c⟩ g)
            (g.item? (k.indexKey c))) ∧
      (∀ key, key ≠ kind.indexKey code →
        (∀ user ∈ users, ∀ k, key ≠ GrantKind.entryKey user k ∧
          ∀ c, Grant.Listed ⟨k, user, c⟩ g → key ≠ k.indexKey c) →
        t.item? key = g.item? key) ∧
      (∀ other, ∃ t', ({ g with batchSize := other } : Grants).invalidate kind code =
          (some users.length, t') ∧ ∀ key, t'.item? key = t.item? key) ∧
      ∀ other, (({ t with batchSize := other } : Grants).invalidate kind code).1 = some 0 := by
  have h := idle_of_runs run settled
  obtain ⟨s, hs, -⟩ := (run.orderly (orderly_start now breaker limit ttl size)).sound.store
  have works (key : String) : g.view.fails key = false := fails_of_store hs key
  obtain ⟨t, ran, idle, view⟩ := invalidate_of_idle h hs kind code batch
  have left (key : String) : t.item? key = (g.view.invalidated kind code).item? key :=
    congrFun (congrArg View.item? view) key
  refine ⟨g.view.users kind code, t, response_members h.inner h.typed (fails_of_store hs _),
    h.typed.users_nodup kind code, ran, fun user hu k => ?_, ?_, fun k c other => ?_,
    fun key other apart => ?_, fun other => ?_, fun other => ?_⟩
  · rw [left, View.item?_invalidated_entry hu (works _)]
  · rw [left, View.item?_invalidated_self (works _)]
  · rw [left, View.item?_invalidated_index h.typed (works _) other]
    simp only [mem_found_view hs]
    rfl
  · rw [left]
    refine View.item?_invalidated_of_not_mem other fun user hu own => ?_
    rcases View.mem_ownKeys.1 own with ⟨k, entry⟩ | ⟨k, c, found, index⟩
    · exact (apart user hu k).1 entry
    · exact (apart user hu k).2 c ((mem_found_view hs).1 found) index
  · obtain ⟨t', ran', -, view'⟩ := invalidate_of_idle h hs kind code other
    refine ⟨t', ran', fun key => ?_⟩
    rw [left]
    exact congrFun (congrArg View.item? view') key
  · -- Nobody is left in the set.
    have again : ({ t with batchSize := other } : Grants).Idle := ⟨idle.inner, idle.done, idle.typed⟩
    have still : t.view.fails (kind.indexKey code) = false := by
      rw [view, View.invalidated, View.fails_serveAll, works]
    obtain ⟨u, ran', -⟩ := runWide_invalidate_of_idle again other still
    have nobody : t.view.users kind code = [] := by
      rw [View.users, view, View.item?_invalidated_self (works _)]
      rfl
    refine (congrArg Prod.fst ran').trans ?_
    show some ((t.view.users kind code).countP (View.clears · t.view)) = some 0
    rw [nobody]
    rfl

/-- Ann and Bob are administrators, and Bob is the only developer. -/
theorem invalidation_exact_for_two_holders :
    ∃ g, Runs (.start ⟨0, {}, .bounded (.empty 8)⟩ 3600 100)
        [⟨.set .role "ann" ["admin"] none true, 0, true⟩,
          ⟨.set .role "bob" ["admin", "dev"] none true, 0, true⟩] g ∧
      g.upkeep.queued = [] ∧
      ∃ t, ({ g with batchSize := 1 } : Grants).invalidate .role "admin" = (some 2, t) ∧
        (∀ user ∈ ["ann", "bob"], ∀ k, t.item? (GrantKind.entryKey user k) = none) ∧
        t.item? (GrantKind.role.indexKey "admin") = none ∧
        (g.item? (GrantKind.role.indexKey "dev")).isSome ∧
        t.item? (GrantKind.role.indexKey "dev") = none := by
  have run : Runs (.start ⟨0, {}, .bounded (.empty 8)⟩ 3600 100)
      [⟨.set .role "ann" ["admin"] none true, 0, true⟩,
        ⟨.set .role "bob" ["admin", "dev"] none true, 0, true⟩] _ :=
    .step trivial (.step trivial (.done _))
  obtain ⟨users, t, asked, -, cleared, entries, index, others, -⟩ :=
    invalidation_exact run (by decide +kernel) .role "admin" 1
  obtain rfl : users = ["ann", "bob"] := Response.ok.inj (asked.symm.trans (by decide +kernel))
  refine ⟨_, run, by decide +kernel, t, cleared, entries, index, by decide +kernel, ?_⟩
  rw [others .role "dev" (by decide +kernel)]
  decide +kernel

end GrantCache
