import GrantCache.Proofs.Exactness
import GrantCache.Proofs.Grants.Revoking

/-!
# Invalidations in any order

Several invalidations, of one code or of several at once, are made one after another. When no index
write is queued, what they leave depends on the set of codes only that they name between them
(`revocations_commute`). This is because what a single one leaves is known exactly, and what two of
them leave, one after the other, is what is left by the codes of both (`View.Revokes.trans`).
-/

namespace GrantCache

/-- A call that clears everybody who has a code, or one of several codes of a kind. -/
inductive Revocation where
  | one (kind : GrantKind) (code : String)
  | several (kind : GrantKind) (codes : List String)

namespace Revocation

/-- The codes that a call names. -/
def codes : Revocation → List (GrantKind × String)
  | one kind code => [(kind, code)]
  | several kind codes => codes.map (kind, ·)

def run : Revocation → Grants → Option Nat × Grants
  | one kind code, g => g.invalidate kind code
  | several kind codes, g => g.invalidateAll kind codes

end Revocation

namespace Grants

/-- Make one call after another: how many users were cleared, a user as often as it was. -/
def revoke : List Revocation → Grants → Option Nat × Grants
  | [], g => (some 0, g)
  | r :: rest, g =>
    match r.run g with
    | (none, g) => (none, g)
    | (some n, g) =>
      match revoke rest g with
      | (none, g) => (none, g)
      | (some m, g) => (some (n + m), g)

variable {g t u : Grants} {xs ys : List (GrantKind × String)} {m n : Nat}

/-- Everybody in the sets of some codes was cleared, and so many were counted. -/
structure Revoked (codes : List (GrantKind × String)) (count : Nat) (g t : Grants) : Prop where
  idle : t.Idle
  view : g.view.Revokes codes count t.view

theorem Revoked.trans (h : Revoked xs n g t) (h' : Revoked ys m t u) :
    Revoked (xs ++ ys) (n + m) g u :=
  ⟨h'.idle, h.view.trans h'.view⟩

theorem Revoked.works (h : Revoked xs n g t) (works : ∀ key, g.view.fails key = false)
    (key : String) : t.view.fails key = false := by
  rw [h.view.fails]
  exact works key

/-! ## Calls -/

theorem revoked_invalidate (h : g.Idle) (works : ∀ key, g.view.fails key = false) (size : Nat)
    (kind : GrantKind) (code : String) :
    ∃ n t, g.runWide (Plan.invalidate size kind code) = (some n, t) ∧
      Revoked [(kind, code)] n g t := by
  obtain ⟨t, ran, serves⟩ := runWide_invalidate_of_idle h size (works (kind.indexKey code))
  have all : (g.view.users kind code).countP (View.clears · g.view) =
      (g.view.users kind code).length :=
    List.countP_eq_length.2 fun user _ => List.all_eq_true.2 fun key _ => congrArg (!·) (works key)
  rw [all] at ran
  refine ⟨_, t, ran, serves.idle, ?_⟩
  rw [serves.view]
  exact View.revokes_invalidated h.typed works kind code

theorem revoked_invalidateAll (h : g.Idle) (works : ∀ key, g.view.fails key = false) (size : Nat)
    (kind : GrantKind) (codes : List String) :
    ∃ n t, g.runWide (Plan.invalidateAll size kind codes) = (some n, t) ∧
      Revoked (codes.map (kind, ·)) n g t := by
  induction codes generalizing g with
  | nil => exact ⟨0, g, rfl, h, View.revokes_nil h.typed⟩
  | cons code rest ih =>
    obtain ⟨n, t, ran, first⟩ := revoked_invalidate h works size kind code
    obtain ⟨m, u, ran', second⟩ := ih first.idle (first.works works)
    refine ⟨n + m, u, ?_, first.trans second⟩
    rw [Plan.invalidateAll, runWide_bind_of ran, runWide_bind_of ran']
    rfl

theorem revoked_run (h : g.Idle) (works : ∀ key, g.view.fails key = false) (r : Revocation) :
    ∃ n t, r.run g = (some n, t) ∧ Revoked r.codes n g t := by
  cases r with
  | one kind code => exact revoked_invalidate h works g.batchSize kind code
  | several kind codes => exact revoked_invalidateAll h works g.batchSize kind codes

/-- Calls one after another clear everybody in the sets of all codes that they name. -/
theorem revoked_revoke (h : g.Idle) (works : ∀ key, g.view.fails key = false)
    (calls : List Revocation) :
    ∃ n t, g.revoke calls = (some n, t) ∧ Revoked (calls.flatMap Revocation.codes) n g t := by
  induction calls generalizing g with
  | nil => exact ⟨0, g, rfl, h, View.revokes_nil h.typed⟩
  | cons r rest ih =>
    obtain ⟨n, t, ran, first⟩ := revoked_run h works r
    obtain ⟨m, u, ran', second⟩ := ih first.idle (first.works works)
    refine ⟨n + m, u, ?_, ?_⟩
    · rw [revoke, ran]
      simp only [ran']
    · rw [List.flatMap_cons]
      exact first.trans second

end Grants

open Grants

/-- In every state that a run from an empty store reaches, when no index write is queued: two lists
of invalidations that name the same codes, in any order and with any repetitions, of single codes or
of several at once, leave the same under every key, with the same deadlines. Each of them counts at
least as many users as there were in the sets of these codes, though it may count a user twice. -/
theorem revocations_commute {g : Grants} {now limit ttl size : Nat} {breaker : Breaker}
    {steps : List Step}
    (run : Runs (.start ⟨now, breaker, .bounded (.empty limit)⟩ ttl size) steps g)
    (settled : g.upkeep.queued = []) {calls others : List Revocation}
    (same : ∀ x, x ∈ calls.flatMap Revocation.codes ↔ x ∈ others.flatMap Revocation.codes) :
    ∃ n t m t', g.revoke calls = (some n, t) ∧ g.revoke others = (some m, t') ∧
      (∀ key, t.item? key = t'.item? key) ∧
      ∀ users : List String, users.Nodup →
        (∀ user ∈ users, ∃ k c, (k, c) ∈ calls.flatMap Revocation.codes ∧
          user ∈ Store.namesOf (g.item? (k.indexKey c))) →
        users.length ≤ n ∧ users.length ≤ m := by
  have h := idle_of_runs run settled
  obtain ⟨s, hs, -⟩ := (run.orderly (orderly_start now breaker limit ttl size)).sound.store
  have works (key : String) : g.view.fails key = false := fails_of_store hs key
  obtain ⟨n, t, ran, first⟩ := revoked_revoke h works calls
  obtain ⟨m, t', ran', second⟩ := revoked_revoke h works others
  refine ⟨n, t, m, t', ran, ran', first.view.unique second.view same, fun users distinct sub => ?_⟩
  have holders : ∀ user ∈ users, user ∈ g.view.holders (calls.flatMap Revocation.codes) :=
    fun user hu => View.mem_holders.2 (sub user hu)
  exact ⟨first.view.counted users distinct holders, second.view.counted users distinct
    fun user hu => (View.holders_congr same).1 (holders user hu)⟩

/-- Bob is still in the set of a code that was taken from him, so he is counted twice when the set
of another code of his comes first. -/
theorem revocations_commute_with_stale_member :
    ∃ g, Runs (.start ⟨0, {}, .bounded (.empty 16)⟩ 3600 100)
        [⟨.set .role "bob" ["guest"] none true, 0, true⟩,
          ⟨.set .role "bob" ["admin", "dev"] none true, 0, true⟩,
          ⟨.set .role "ann" ["admin"] none true, 0, true⟩] g ∧
      g.upkeep.queued = [] ∧
      ∃ t t', g.revoke [.several .role ["admin", "guest"]] = (some 3, t) ∧
        g.revoke [.one .role "guest", .one .role "admin", .one .role "guest"] = (some 2, t') ∧
        ∀ key, t.item? key = t'.item? key := by
  have run : Runs (.start ⟨0, {}, .bounded (.empty 16)⟩ 3600 100)
      [⟨.set .role "bob" ["guest"] none true, 0, true⟩,
        ⟨.set .role "bob" ["admin", "dev"] none true, 0, true⟩,
        ⟨.set .role "ann" ["admin"] none true, 0, true⟩] _ :=
    .step trivial (.step trivial (.step trivial (.done _)))
  have same (x : GrantKind × String) :
      x ∈ [Revocation.several .role ["admin", "guest"]].flatMap Revocation.codes ↔
        x ∈ [Revocation.one .role "guest", .one .role "admin", .one .role "guest"].flatMap
          Revocation.codes := by
    show x ∈ [(.role, "admin"), (.role, "guest")] ↔
      x ∈ [(.role, "guest"), (.role, "admin"), (.role, "guest")]
    simp only [List.mem_cons, List.not_mem_nil, or_false]
    tauto
  obtain ⟨n, t, m, t', ran, ran', items, -⟩ := revocations_commute run (by decide +kernel) same
  obtain rfl : n = 3 := by
    have first := congrArg Prod.fst ran
    exact Option.some.inj (first.symm.trans (by decide +kernel))
  obtain rfl : m = 2 := by
    have second := congrArg Prod.fst ran'
    exact Option.some.inj (second.symm.trans (by decide +kernel))
  exact ⟨_, run, by decide +kernel, t, t', ran, ran', items⟩

end GrantCache
