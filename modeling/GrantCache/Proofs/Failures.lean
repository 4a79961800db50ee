import GrantCache.Proofs.Grants.Invalidating
import GrantCache.Proofs.Grants.Proper

/-!
# Invalidation while keys fail

Over a store in which every request about a chosen key fails and touches nothing, the invalidation of
a code whose own key works goes on whatever fails: everything goes that is not itself under a failing
key, and exactly those users are counted none of whose own keys fails
(`invalidation_despite_failures`). The own keys of a user are those of the user's entries and of the
sets of the codes that can be read there (`View.ownKeys`). What becomes of a user depends on which of
these fail and not on the keys of others.
-/

namespace GrantCache

open Grants

variable {g t : Grants} {kind k : GrantKind} {user code c : String}

namespace View

variable {v w : View}

/-- What is found for a user depends on whether the user's own keys fail and on none of the others. -/
theorem found_of_agree (now : w.now = v.now) (entries : w.item? = v.item?)
    (agree : ∀ key ∈ v.ownKeys user, w.fails key = v.fails key) (k : GrantKind) :
    w.found k user = v.found k user := by
  have own : k.entryKey user ∈ v.ownKeys user := mem_ownKeys.2 (Or.inl ⟨k, rfl⟩)
  rw [found, found, listed, listed, live?, live?, now, entries, agree _ own]

/-- What an invalidation leaves of a user depends on whether the user's own keys fail and on none of the
others. -/
theorem invalidated_of_agree (typed : v.Typed) (now : w.now = v.now) (entries : w.item? = v.item?)
    (works : v.fails (kind.indexKey code) = false) (works' : w.fails (kind.indexKey code) = false)
    (hu : user ∈ v.users kind code)
    (agree : ∀ key ∈ v.ownKeys user, w.fails key = v.fails key) (k : GrantKind) :
    (w.invalidated kind code).item? (k.entryKey user) =
        (v.invalidated kind code).item? (k.entryKey user) ∧
      ∀ c, user ∈ (w.invalidated kind code).users k c ↔
        user ∈ (v.invalidated kind code).users k c := by
  have typed' : w.Typed := fun kind code => entries ▸ typed kind code
  have users (k : GrantKind) (c : String) : w.users k c = v.users k c := by
    rw [View.users, View.users, entries]
  have found := found_of_agree now entries agree k
  constructor
  · have own : k.entryKey user ∈ v.ownKeys user := mem_ownKeys.2 (Or.inl ⟨k, rfl⟩)
    cases fails : v.fails (k.entryKey user) with
    | true =>
      rw [invalidated, invalidated, item?_serveAll_of_fails fails,
        item?_serveAll_of_fails ((agree _ own).trans fails), entries]
    | false =>
      rw [item?_invalidated_entry hu fails,
        item?_invalidated_entry (users kind code ▸ hu) ((agree _ own).trans fails)]
  · intro c
    rw [mem_users_invalidated typed works, mem_users_invalidated typed' works', users, users, found]
    -- The key of the set is the user's own if its code was found.
    by_cases hc : c ∈ v.found k user
    · rw [agree _ (mem_ownKeys.2 (Or.inr ⟨k, c, hc, rfl⟩))]
    · simp [hc]

end View

/-- In every state that a run reaches in which keys were made to fail at any time, when no index write
is queued, for every choice of keys that fail now but for that of the set of a code, and any number of
users that are cleared at once: with the users that are in the set, the invalidation of the code
returns how many of them have no failing key among their own, and afterwards

* the entries of the users are gone, but for those whose keys fail;
* each user has left the sets of the codes that were found in the user's entries, but for those whose
  keys fail;
* the set of the code is gone.

With other keys failing, that of the set not among them, the same becomes of every user whose own
keys fail or work as they did. -/
theorem invalidation_despite_failures {now limit ttl size : Nat} {breaker : Breaker}
    {failing : List String}
    (run : TroubledRuns
      (.start ⟨now, breaker, .faulty { store := .empty limit, failing := failing }⟩ ttl size) g)
    (settled : g.upkeep.queued = []) (kind : GrantKind) (code : String)
    (works : g.fails (kind.indexKey code) = false) (batch : Nat) :
    ∃ users t, (g.ask (.members (kind.indexKey code))).1 = .ok users ∧ users.Nodup ∧
      ({ g with batchSize := batch } : Grants).invalidate kind code =
        (some (users.countP fun user => (g.view.ownKeys user).all fun key => !g.fails key), t) ∧
      (∀ user ∈ users, ∀ k, g.fails (GrantKind.entryKey user k) = false →
        t.item? (k.entryKey user) = none) ∧
      (∀ user ∈ users, ∀ k, ∀ c ∈ g.view.found k user,
        g.fails (GrantKind.indexKey c k) = false → user ∉ t.view.users k c) ∧
      t.item? (kind.indexKey code) = none ∧
      ∀ failing', kind.indexKey code ∉ failing' → ∀ other, ∃ n t',
        ({ g.choose failing' with batchSize := other } : Grants).invalidate kind code = (some n, t') ∧
        ∀ user ∈ users, (∀ key ∈ g.view.ownKeys user, key ∈ failing' ↔ g.fails key = true) → ∀ k,
          t'.item? (GrantKind.entryKey user k) = t.item? (k.entryKey user) ∧
          ∀ c, user ∈ t'.view.users k c ↔ user ∈ t.view.users k c := by
  have empty : (Backend.faulty { store := .empty limit, failing }).store? = some (.empty limit) := rfl
  have proper := run.proper (proper_start now breaker empty ttl size)
  obtain ⟨s, hs, -⟩ := proper.store
  have h : g.Idle := ⟨proper.inner, allDone_of_queued settled, proper.typed⟩
  have batched : ({ g with batchSize := batch } : Grants).Idle := ⟨h.inner, h.done, h.typed⟩
  obtain ⟨t, ran, serves⟩ := runWide_invalidate_of_idle batched batch works
  have view : t.view = g.view.invalidated kind code := serves.view
  have left (key : String) : t.item? key = (g.view.invalidated kind code).item? key :=
    congrFun (congrArg View.item? view) key
  refine ⟨g.view.users kind code, t, response_members h.inner h.typed works,
    h.typed.users_nodup kind code, ran, fun user hu k fine => ?_, fun user hu k c hc fine mem => ?_, ?_,
    fun failing' fine other => ?_⟩
  · rw [left, View.item?_invalidated_entry hu fine]
  · rw [view] at mem
    exact ((View.mem_users_invalidated h.typed works).1 mem).2.2 ⟨hu, hc, fine⟩
  · rw [left, View.item?_invalidated_self works]
  -- The same state, but for the keys that fail.
  · obtain ⟨inner, upkeep, chosen⟩ := choose_spec hs failing'
    have proper' := proper.choose failing'
    have batched' : ({ g.choose failing' with batchSize := other } : Grants).Idle :=
      ⟨proper'.inner, fun id => by rw [upkeep]; exact h.done id, proper'.typed⟩
    have works' : (g.choose failing').view.fails (kind.indexKey code) = false := by
      rw [chosen]
      simpa using fine
    obtain ⟨t', ran', serves'⟩ := runWide_invalidate_of_idle batched' other works'
    have view' : t'.view = (g.choose failing').view.invalidated kind code := serves'.view
    refine ⟨_, t', ran', fun user hu agree k => ?_⟩
    have same : ∀ key ∈ g.view.ownKeys user, (g.choose failing').view.fails key = g.view.fails key := by
      intro key own
      rw [chosen, Bool.eq_iff_iff, List.contains_iff_mem]
      exact agree key own
    rw [view, view', left, show t'.item? (k.entryKey user) = t'.view.item? (k.entryKey user) from rfl,
      view']
    exact View.invalidated_of_agree h.typed (by rw [chosen]; rfl) (by rw [chosen]; rfl) works works' hu
      same k

/-- Ann and Bob are administrators, and Ann's entry fails: Bob is cleared. -/
theorem invalidation_despite_one_failing_entry :
    ∃ g, TroubledRuns (.start ⟨0, {}, .faulty { store := .empty 8 }⟩ 3600 100) g ∧
      g.upkeep.queued = [] ∧ g.fails (GrantKind.role.entryKey "ann") = true ∧
      ∃ t, ({ g with batchSize := 2 } : Grants).invalidate .role "admin" = (some 1, t) ∧
        t.item? (GrantKind.role.entryKey "bob") = none ∧
        "bob" ∉ t.view.users .role "dev" ∧
        t.item? (GrantKind.role.indexKey "admin") = none := by
  have run : TroubledRuns (.start ⟨0, {}, .faulty { store := .empty 8 }⟩ 3600 100) _ :=
    .move (m := .set .role "ann" ["admin"] none true) nofun
      (.move (m := .set .role "bob" ["admin", "dev"] none true) nofun
        (.choose [GrantKind.role.entryKey "ann"] (.done _)))
  obtain ⟨users, t, asked, -, cleared, entries, sets, index, -⟩ :=
    invalidation_despite_failures run (by decide +kernel) .role "admin" (by decide +kernel) 2
  obtain rfl : users = ["ann", "bob"] := Response.ok.inj (asked.symm.trans (by decide +kernel))
  refine ⟨_, run, by decide +kernel, by decide +kernel, t, ?_, ?_, ?_, index⟩
  · exact cleared.trans (congrArg (some · , t) (by decide +kernel))
  · exact entries "bob" (by decide) .role (by decide +kernel)
  · exact sets "bob" (by decide) .role "dev" (by decide +kernel) (by decide +kernel)

end GrantCache
