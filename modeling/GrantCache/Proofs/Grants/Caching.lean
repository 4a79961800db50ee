import GrantCache.Proofs.Grants.Runs
import GrantCache.Proofs.Grants.Tidy

/-!
# Caching the codes of a user

Caching is the one operation that makes an entry list a code. Unless it is halted, it leaves the user
with exactly the given codes, each once, until the deadline (`live?_set_self`), and with an index
write for every one of them (`covered_set`). It keeps to what is promised about the grants of
everybody else (`respects_set_other`).
-/

namespace GrantCache

open Grants
open Program (Every)

variable {x : Grant} {g : Grants} {kind : GrantKind} {user : String} {codes : List String}
  {ttl : Option Nat}

namespace Grants

/-- The deadline of codes that are cached now; none if it would lie beyond the end of the clock. -/
def deadline? (ttl : Option Nat) (g : Grants) : Option (Option Nat) :=
  ttlDeadline? g.host.now (some (ttl.getD g.defaultTtl))

/-- The cache with the codes of a user written, before the index write is launched. -/
def written (kind : GrantKind) (user : String) (codes : List String) (ttl : Option Nat) (g : Grants) :
    Grants :=
  (g.ask (.set (kind.entryKey user) (.texts codes.eraseDups) (some (ttl.getD g.defaultTtl)))).2

/-- Caching is halted before anything is written, or writes the codes and launches an index write if
there are any. -/
theorem set_cases (hs : g.Sound) (kind : GrantKind) (user : String) (codes : List String)
    (ttl : Option Nat) :
    (g.deadline? ttl = none ∧ g.set kind user codes ttl = (none, g.written kind user codes ttl)) ∨
      ((g.deadline? ttl).isSome ∧ codes.eraseDups = [] ∧
        g.set kind user codes ttl = (some none, g.written kind user codes ttl)) ∨
      ((g.deadline? ttl).isSome ∧
        g.set kind user codes ttl = (some (some g.upkeep.next),
          { g.written kind user codes ttl with
            upkeep := (g.upkeep.launch user
              (codes.eraseDups.map fun code => kind.indexKey code)).2 })) := by
  obtain ⟨s, store, -⟩ := hs.store
  have response : (g.ask (.set (kind.entryKey user) (.texts codes.eraseDups)
      (some (ttl.getD g.defaultTtl)))).1 =
        if (g.deadline? ttl).isSome then .ok () else .beyondClock := by
    rw [ask_of_store store]
    exact Store.response_set _ _ _ _ s
  have upkeep : (g.written kind user codes ttl).upkeep = g.upkeep := upkeep_ask _ g
  rw [set, run, Plan.store, Plan.ask]
  simp only [Program.perform_bind, Program.run, perform]
  rw [written] at upkeep ⊢
  rcases hr : g.ask (.set (kind.entryKey user) (.texts codes.eraseDups)
    (some (ttl.getD g.defaultTtl))) with ⟨answer, t⟩
  rw [hr] at response upkeep
  rw [← show t.upkeep = g.upkeep from upkeep]
  -- The deadline decides the answer of the store, and the answer what the plan does next.
  cases hd : g.deadline? ttl with
  | none =>
    rw [hd] at response
    obtain rfl : answer = .beyondClock := response
    exact Or.inl ⟨rfl, rfl⟩
  | some deadline =>
    rw [hd] at response
    obtain rfl : answer = .ok () := response
    right
    cases hc : codes.eraseDups with
    | nil => exact Or.inl ⟨rfl, rfl, rfl⟩
    | cons first rest => exact Or.inr ⟨rfl, rfl⟩

/-! ## What is written -/

/-- A deadline that is set lies in the future. -/
theorem isAlive_of_ttlDeadline? {now : Nat} {ttl deadline : Option Nat}
    (h : ttlDeadline? now ttl = some deadline) (data : Data) :
    (⟨data, deadline⟩ : Entry).isAlive now = true := by
  unfold ttlDeadline? at h
  split at h
  · cases h
    rfl
  · cases h
    rfl
  · rename_i seconds positive
    rw [deadlineIn?] at h
    split at h
    · cases h
      have : seconds ≠ 0 := fun hz => positive (by rw [hz])
      simp only [Entry.isAlive, decide_eq_true_eq]
      omega
    · cases h

theorem sound_written (hs : g.Sound) : (g.written kind user codes ttl).Sound :=
  Grant.sound_set hs ..

/-- What is cached is live until its deadline, each code once. -/
theorem live?_written (hs : g.Sound) {deadline : Option Nat} (hd : g.deadline? ttl = some deadline) :
    (g.written kind user codes ttl).live? (kind.entryKey user) =
      some ⟨.scalar (.texts codes.eraseDups), deadline⟩ := by
  rw [written, hs.live?_set, show ttlDeadline? g.host.now (some (ttl.getD g.defaultTtl)) = _ from hd]
  simp only [Option.filter_some, isAlive_of_ttlDeadline? hd, if_true]

/-- A deadline beyond the end of the clock writes nothing. -/
theorem fades_written_of_none (hs : g.Sound) (hd : g.deadline? ttl = none) (key : String) :
    Fades key g (g.written kind user codes ttl) := by
  by_cases hk : key = kind.entryKey user
  · subst hk
    left
    rw [written, hs.live?_set, show ttlDeadline? g.host.now (some (ttl.getD g.defaultTtl)) = _ from hd]
  · obtain ⟨s, store, -⟩ := hs.store
    exact (spares_ask store _ (by simpa [Request.touched, Request.keys] using hk)).fades

/-! ## What is launched -/

theorem targets_indexKeys (kind : GrantKind) (codes : List String) :
    ∀ key ∈ codes.map fun code => kind.indexKey code,
      ∃ kind code, key = GrantKind.indexKey code kind := by
  intro key hk
  obtain ⟨code, -, rfl⟩ := List.mem_map.1 hk
  exact ⟨kind, code, rfl⟩

theorem sound_set_op (hs : g.Sound) (kind : GrantKind) (user : String) (codes : List String)
    (ttl : Option Nat) : (g.set kind user codes ttl).2.Sound := by
  rcases set_cases hs kind user codes ttl with ⟨-, he⟩ | ⟨-, -, he⟩ | ⟨-, he⟩
  · rw [he]
    exact sound_written hs
  · rw [he]
    exact sound_written hs
  · rw [he]
    exact (Grant.respects_launch ⟨kind, user, ""⟩ (g.written kind user codes ttl) user
      (targets_indexKeys kind _) (sound_written hs)).sound

/-- What is cached are the given codes, each once, until the deadline. -/
theorem live?_set_op (hs : g.Sound) {deadline : Option Nat} (hd : g.deadline? ttl = some deadline) :
    (g.set kind user codes ttl).2.live? (kind.entryKey user) =
      some ⟨.scalar (.texts codes.eraseDups), deadline⟩ := by
  rcases set_cases hs kind user codes ttl with ⟨hn, -⟩ | ⟨-, -, he⟩ | ⟨-, he⟩
  · rw [hn] at hd
    cases hd
  · rw [he]
    exact live?_written hs hd
  · rw [he]
    exact live?_written hs hd

/-- What was cached for a user is what is found. -/
theorem codes?_set (hs : g.Sound) (hd : (g.deadline? ttl).isSome) :
    (g.set kind user codes ttl).2.codes? kind user = some codes.eraseDups := by
  obtain ⟨deadline, hd⟩ := Option.isSome_iff_exists.1 hd
  rw [codes?, live?_set_op hs hd]
  simp

/-- Caching comes to its end unless the deadline is beyond the end of the clock. -/
theorem isSome_set (hs : g.Sound) (kind : GrantKind) (user : String) (codes : List String)
    (ttl : Option Nat) : (g.set kind user codes ttl).1.isSome = (g.deadline? ttl).isSome := by
  rcases set_cases hs kind user codes ttl with ⟨hd, he⟩ | ⟨hd, -, he⟩ | ⟨hd, he⟩
  · rw [he, hd]
  · rw [he, hd]
    rfl
  · rw [he, hd]
    rfl

theorem tidy_set (hs : g.Sound) (ht : g.upkeep.Tidy) (kind : GrantKind) (user : String)
    (codes : List String) (ttl : Option Nat) : (g.set kind user codes ttl).2.upkeep.Tidy := by
  rcases set_cases hs kind user codes ttl with ⟨-, he⟩ | ⟨-, -, he⟩ | ⟨-, he⟩
  · rw [he]
    exact ht
  · rw [he]
    exact ht
  · rw [he]
    exact ht.launch hs.upkeep user _

end Grants

namespace Grant

/-- Caching for somebody else, or caching that is halted, keeps to it. -/
theorem respects_set_op (x : Grant) (g : Grants) {kind : GrantKind} {user : String}
    {codes : List String} {ttl : Option Nat}
    (h : kind.entryKey user ≠ x.entryKey ∨ g.deadline? ttl = none) :
    x.Respects g (g.set kind user codes ttl).2 := by
  intro hs
  have halted (hd : g.deadline? ttl = none) : x.Respects g (g.written kind user codes ttl) := by
    intro hs
    obtain ⟨s, store, -⟩ := hs.store
    refine .of_spares (sound_written hs) (evicted_subset_ask hs _) (fades_written_of_none hs hd _)
      (spares_ask store _ ?_) fun _ h => h
    simpa [Request.touched, Request.keys] using x.indexKey_ne_entryKey kind user
  have wrote : x.Respects g (g.written kind user codes ttl) :=
    h.elim (fun hx => respects_set x g hx _ _) halted
  rcases set_cases hs kind user codes ttl with ⟨-, he⟩ | ⟨-, -, he⟩ | ⟨-, he⟩
  · rw [he]
    exact wrote hs
  · rw [he]
    exact wrote hs
  · rw [he]
    exact (wrote.trans (respects_launch x _ user (targets_indexKeys kind _))) hs

/-- Whose codes are cached has an index write due for each of them, which is tracked. -/
theorem due_set (x : Grant) (hs : g.Sound) (hd : (g.deadline? ttl).isSome) (hc : x.code ∈ codes) :
    x.Due g.upkeep.next (g.set x.kind x.user codes ttl).2 ∧
      g.upkeep.next ∈ (g.set x.kind x.user codes ttl).2.upkeep.tracked x.indexKey := by
  have key : x.indexKey ∈ codes.eraseDups.map fun code => x.kind.indexKey code :=
    List.mem_map.2 ⟨x.code, List.mem_eraseDups.2 hc, rfl⟩
  rcases set_cases hs x.kind x.user codes ttl with ⟨hn, -⟩ | ⟨-, hn, -⟩ | ⟨-, he⟩
  · rw [hn] at hd
    cases hd
  · rw [hn] at key
    cases key
  · rw [he]
    exact ⟨Upkeep.owes_launch hs.upkeep x.user key, Upkeep.tracked_launch hs.upkeep x.user key⟩

/-- A code that was not among those cached is not listed any more. -/
theorem not_listed_set (x : Grant) (hs : g.Sound) (hd : (g.deadline? ttl).isSome)
    (hc : x.code ∉ codes) : ¬ x.Listed (g.set x.kind x.user codes ttl).2 := by
  rintro ⟨cached, hl, hm⟩
  rw [codes?_set hs hd] at hl
  cases hl
  exact hc (List.mem_eraseDups.1 hm)

/-- Caching leaves every grant covered that it found covered, and those of the user in any case. -/
theorem covered_set (x : Grant) (hs : g.Sound) (hc : x.Covered g) (kind : GrantKind) (user : String)
    (codes : List String) (ttl : Option Nat) : x.Covered (g.set kind user codes ttl).2 := by
  by_cases h : kind.entryKey user ≠ x.entryKey ∨ g.deadline? ttl = none
  · exact (respects_set_op x g h hs).covered hc
  · rw [not_or, Decidable.not_not] at h
    obtain ⟨same, hd⟩ := h
    obtain ⟨rfl, rfl⟩ := GrantKind.entryKey_inj.1 same
    have some : (g.deadline? ttl).isSome := Option.isSome_iff_ne_none.2 hd
    -- The user's own codes: those given are due, all others are no longer listed.
    by_cases hm : x.code ∈ codes
    · exact Or.inr ⟨_, (due_set x hs some hm).1⟩
    · exact Or.inl (Or.inl (Or.inr (not_listed_set x hs some hm)))

end Grant

end GrantCache
