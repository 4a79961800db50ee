import GrantCache.Proofs.Grants.Runs
import GrantCache.Proofs.Grants.Tidy

/-!
# Clearing users, codes and everything

What the operations that remove grants come to when they are run. Each of them comes to its end over
a bounded store, keeps to what is promised about every grant, and leaves the tracking tidy. The
clearing of a user leaves no entry of the user (`cleared_deleteUser`), nor does a flush leave any
(`cleared_flush`); the invalidation of a code leaves nothing that lists it (`loose_invalidate`).
-/

namespace GrantCache

open Grants
open Program (Every)
open Effect (Clearing)

variable {x : Grant} {g : Grants} {α β : Type} {kind : GrantKind} {key user code : String}

namespace Grants

/-- A plan that clears is answered in full by a store in memory, which stays in memory. -/
theorem isSome_run {p : Plan α} (hp : Every Clearing p) (hb : g.Bounded) :
    (g.run p).1.isSome ∧ (g.run p).2.Bounded :=
  ⟨hp.run_isSome (fun e _ _ h => Bounded.perform h e) (fun _ _ he h => isSome_perform h he) hb,
    hp.run (I := Bounded) (fun e _ _ h => h.perform e) hb⟩

theorem Sound.bounded (hs : g.Sound) : g.Bounded := by
  obtain ⟨s, store, -⟩ := hs.store
  exact ⟨s, store⟩

/-! ## One user -/

theorem clearing_delete (user : String) : Every Clearing (Plan.delete user) :=
  Plan.every_delete (fun _ => trivial) (Plan.clearing_clear user)

theorem tidy_deleteUser (ht : g.upkeep.Tidy) (user : String) : (g.deleteUser user).2.upkeep.Tidy := by
  refine Tidies.bind (tidies_clear user) (fun fault => tidies_of_aloof ?_) g ht
  split
  · trivial
  · exact (Plan.every_report (aloof_report _)).bind fun _ => trivial

theorem isSome_deleteUser (hb : g.Bounded) (user : String) : (g.deleteUser user).1.isSome :=
  (isSome_run (clearing_delete user) hb).1

/-! ## The index writes of a key -/

/-- The cache when the index writes that are tracked under a key are done. -/
def settled (key : String) (g : Grants) : Grants := (g.run (Plan.settle key)).2

theorem run_settle (hb : g.Bounded) (key : String) :
    g.run (Plan.settle key) = (some (), g.settled key) := by
  obtain ⟨answered, -⟩ := isSome_run (Plan.every_settle Plan.basic_clearing.toPatient key) hb
  obtain ⟨a, ha⟩ := Option.isSome_iff_exists.1 answered
  exact Prod.ext ha rfl

theorem bounded_settled (hb : g.Bounded) (key : String) : (g.settled key).Bounded :=
  (isSome_run (Plan.every_settle Plan.basic_clearing.toPatient key) hb).2

theorem tidy_settled (ht : g.upkeep.Tidy) (key : String) : (g.settled key).upkeep.Tidy :=
  tidies_settle key g ht

/-- An invalidation lets the index writes come to an end and then clears the index. -/
theorem runWide_invalidate (hb : g.Bounded) (size : Nat) (kind : GrantKind) (code : String) :
    g.runWide (Plan.invalidate size kind code) =
      (g.settled (kind.indexKey code)).runWide (Plan.clearIndex size kind code) := by
  rw [Plan.invalidate, runWide_bind, runWide_widen, run_settle hb]

/-- The set as it stands decides what is to be done. -/
theorem runWide_clearIndex (hs : g.Sound) (size : Nat) (kind : GrantKind) (code : String) :
    g.runWide (Plan.clearIndex size kind code) =
      (g.ask (.members (kind.indexKey code))).2.runWide
        (match g.users kind code with
        | [] => do
          (Plan.notice (.nothingToInvalidate (kind.indexKey code))).widen
          return 0
        | users => Plan.clearMembers size kind code users) := by
  rw [Plan.clearIndex, runWide_bind, runWide_widen, run_ask (hs.members_eq kind code)]
  rcases g.users kind code with _ | ⟨user, rest⟩ <;> rfl

/-- Invalidating a code is answered by a cache in memory, whatever the size of the batches. -/
theorem isSome_runInvalidate (hb : g.Bounded) (size : Nat) (kind : GrantKind) (code : String) :
    (g.runWide (Plan.invalidate size kind code)).1.isSome := by
  rw [runWide_invalidate hb]
  exact (tidy_clearIndex size kind code (bounded_settled hb _)).1

/-- Codes are invalidated one after another. -/
theorem runWide_invalidateAll_cons (hb : g.Bounded) (size : Nat) (kind : GrantKind) (code : String)
    (rest : List String) :
    (g.runWide (Plan.invalidateAll size kind (code :: rest))).2 =
      ((g.runWide (Plan.invalidate size kind code)).2.runWide (Plan.invalidateAll size kind rest)).2 := by
  have ended := isSome_runInvalidate hb size kind code
  rw [Plan.invalidateAll, runWide_bind]
  rcases hr : g.runWide (Plan.invalidate size kind code) with ⟨_ | n, t⟩
  · rw [hr] at ended
    cases ended
  · simp only
    rw [runWide_bind]
    rcases t.runWide (Plan.invalidateAll size kind rest) with ⟨_ | m, u⟩ <;> rfl

theorem tidy_runInvalidate (hb : g.Bounded) (ht : g.upkeep.Tidy) (size : Nat) (kind : GrantKind)
    (code : String) : (g.runWide (Plan.invalidate size kind code)).2.upkeep.Tidy := by
  rw [runWide_invalidate hb]
  exact (tidy_clearIndex size kind code (bounded_settled hb _)).2 (tidy_settled ht _)

/-! ## Everything -/

theorem clearing_flush : Every Clearing Plan.flush := by
  refine (Plan.every_settleAll Plan.basic_clearing.toPatient trivial).bind fun _ => ?_
  refine (Plan.every_flushFamilies (fun _ => trivial) fun _ _ => trivial).bind fun removed => ?_
  exact (Plan.every_report trivial).bind fun _ => (Plan.every_report trivial).bind fun _ => trivial

theorem tidies_settleAll : Tidies Plan.settleAll := by
  have keys : Tidies Plan.pendingKeys := fun g hg => hg
  exact keys.bind fun _ => tidies_forM tidies_settle _

theorem tidy_flush (ht : g.upkeep.Tidy) : g.flush.2.upkeep.Tidy := by
  refine tidies_settleAll.bind (fun _ => tidies_of_aloof ?_) g ht
  refine (Plan.every_flushFamilies aloof_report fun _ _ => aloof_ask _).bind fun removed => ?_
  exact (Plan.every_report (aloof_report _)).bind fun _ =>
    (Plan.every_report (aloof_report _)).bind fun _ => trivial

theorem isSome_flush (hb : g.Bounded) : g.flush.1.isSome := (isSome_run clearing_flush hb).1

end Grants

namespace Grant

theorem respects_deleteUser (x : Grant) (g : Grants) (user : String) :
    x.Respects g (g.deleteUser user).2 := fun hs => (assures_delete x user hs).run.1 hs

/-- After deleting a user none of that user's grants is cached. -/
theorem cleared_deleteUser (x : Grant) (hs : g.Sound) : x.Cleared (g.deleteUser x.user).2 := by
  obtain ⟨a, ha⟩ := Option.isSome_iff_exists.1 (isSome_deleteUser hs.bounded x.user)
  exact ((assures_delete x x.user hs).run.2 a ha).2 rfl

/-! ## The invalidation of a code -/

/-- The writes that may be due are tracked where the tracking is tidy. -/
theorem Covered.foundOrDue (h : x.Covered g) (ht : g.upkeep.Tidy) :
    x.FoundOrDue (g.upkeep.tracked x.indexKey) g :=
  h.imp_right fun ⟨id, due⟩ => ⟨id, ht id _ _ due, due⟩

theorem respects_settled (x : Grant) (g : Grants) (key : String) : x.Respects g (g.settled key) :=
  fun hs => (assures_of_allows (Plan.every_settle (basic_allows x).toPatient key) hs).run.1 hs

/-- When the writes that may be due are done, the grant is found. -/
theorem found_settled (hs : g.Sound) (h : x.FoundOrDue (g.upkeep.tracked x.indexKey) g) :
    x.Found (g.settled x.indexKey) := by
  -- To settle is to take the writes out and to wait for each of them.
  have taken := respects_take x g x.indexKey hs
  have waits := assures_awaitAll (c := True) taken.sound fun _ => taken.foundOrDue h
  exact (waits.run.2 () (congrArg Prod.fst (run_settle hs.bounded x.indexKey))).2 trivial

/-- Everybody who is in the set is cleared, of the entries of either kind. -/
theorem cleared_of_mem (hs : g.Sound) (size : Nat) {kind : GrantKind} {code : String}
    (mem : x.user ∈ g.users kind code) :
    x.Cleared (g.runWide (Plan.clearIndex size kind code)).2 := by
  obtain ⟨n, hn⟩ := Option.isSome_iff_exists.1 (tidy_clearIndex size kind code hs.bounded).1
  rw [runWide_clearIndex hs] at hn ⊢
  have asked := respects_members x g (kind.indexKey code) hs
  cases hu : g.users kind code with
  | nil =>
    rw [hu] at mem
    cases mem
  | cons user rest =>
    rw [hu] at mem hn
    have clears := (assures_clearMembers size kind code asked.sound fun _ => Or.inl mem).run
    exact (clears.2 n hn).2.2 mem

/-- A grant that was cleared is not there to be read. -/
theorem Cleared.get (h : x.Cleared g) (hs : g.Sound) :
    (g.get x.kind x.user).1 = some none := by
  have entry : g.live? (x.kind.entryKey x.user) = none := h
  rw [hs.get_eq, codes?, entry]
  rfl

/-- An invalidation keeps to what is promised about a grant that is covered, and it leaves the grant
loose if the code is that of the grant. -/
theorem assured_invalidate (hs : g.Sound) (ht : g.upkeep.Tidy) (hc : x.Covered g) (size : Nat)
    (kind : GrantKind) (code : String) :
    x.Keeps g (g.runWide (Plan.invalidate size kind code)).2 ∧
      x.LooseAt kind code (g.runWide (Plan.invalidate size kind code)).2 := by
  have settles := respects_settled x g (kind.indexKey code) hs
  have found : kind.indexKey code = x.indexKey → x.Found (g.settled (kind.indexKey code)) := by
    intro hx
    rw [hx]
    exact found_settled hs (hc.foundOrDue ht)
  obtain ⟨n, hn⟩ := Option.isSome_iff_exists.1 (isSome_runInvalidate hs.bounded size kind code)
  rw [runWide_invalidate hs.bounded] at hn ⊢
  have clears := (assures_clearIndex size kind code settles.sound found).run
  exact ⟨((respects_settled x g _).trans clears.1) hs, (clears.2 n hn).2⟩

/-- Invalidating codes one after another keeps to what is promised about a covered grant. -/
theorem assured_invalidateAll (size : Nat) (kind : GrantKind) (codes : List String) (hs : g.Sound)
    (ht : g.upkeep.Tidy) (hc : x.Covered g) :
    x.Keeps g (g.runWide (Plan.invalidateAll size kind codes)).2 ∧
      (g.runWide (Plan.invalidateAll size kind codes)).2.upkeep.Tidy := by
  induction codes generalizing g with
  | nil => exact ⟨Respects.refl x g hs, ht⟩
  | cons code rest ih =>
    obtain ⟨keeps, -⟩ := assured_invalidate hs ht hc size kind code
    have tidy := tidy_runInvalidate hs.bounded ht size kind code
    obtain ⟨keeps', tidy'⟩ := ih keeps.sound tidy (keeps.covered hc)
    rw [runWide_invalidateAll_cons hs.bounded]
    exact ⟨Respects.trans (fun _ => keeps) (fun _ => keeps') hs, tidy'⟩

/-! ## A flush -/

/-- Removing families one after another assures of what the rest assures of once the first is removed.
-/
theorem assures_flushFamilies_cons {family : String} {rest : List String} {Q : Grants → Prop}
    (own : x.Allows (.ask (.deletePattern (Key.familyPattern family))))
    (next : ∀ t, x.Respects g t → x.Assures (fun _ => Q) (Plan.flushFamilies rest)
      (t.ask (.deletePattern (Key.familyPattern family))).2) :
    x.Assures (fun _ => Q) (Plan.flushFamilies (family :: rest)) g := by
  refine assures_ask_bind own fun t ht answer => ?_
  have others := next t ht
  cases answer with
  | ok removed => exact others.map (Respects.refl x) (fun _ _ _ => .trans) fun n => removed + n
  | error f => exact assures_after_allows (Plan.every_report (allows_report x _)) others

/-- A flush removes the users' entries before the sets of the codes. -/
theorem assures_flush (x : Grant) (hs : g.Sound) :
    x.Assures (fun _ t => t.Sound ∧ x.Cleared t) Plan.flush g := by
  have loose : ∀ family ∈ Key.families,
      x.AllowsLoose (.ask (.deletePattern (Key.familyPattern family))) := fun family hf =>
    allowsLoose_ask fun t hl => respects_deleteFamily x t hf fun _ => hl
  have entries (kind : GrantKind) :
      x.Allows (.ask (.deletePattern (Key.familyPattern kind.entryFamily))) :=
    allows_ask fun t => respects_deleteFamily x t (GrantKind.entryFamily_mem kind) fun h =>
      absurd h (GrantKind.entryFamily_ne_indexFamily kind x.kind)
  have cleared (t : Grants) (ht : t.Sound) :
      x.Cleared (t.ask (.deletePattern (Key.familyPattern x.kind.entryFamily))).2 := by
    rw [Cleared, ht.live?_deletePattern, Key.matches_familyPattern (GrantKind.entryFamily_mem x.kind),
      entryKey, GrantKind.entryKey_eq, Key.inFamily_member, if_pos rfl]
  have sound (kind : GrantKind) (t : Grants) (ht : t.Sound) :
      (t.ask (.deletePattern (Key.familyPattern kind.entryFamily))).2.Sound := by
    have step := entries kind t rfl ht
    rw [perform_ask] at step
    exact step.sound
  refine assures_bind (Plan.every_settleAll (basic_allows x).toPatient (allows_pendingKeys x)) hs
    fun _ t ht => ?_
  have flushed : x.Assures (fun _ t => t.Sound ∧ x.Cleared t) (Plan.flushFamilies Key.families) t := by
    obtain ⟨kind, user, code⟩ := x
    cases kind with
    | role =>
      refine assures_flushFamilies_cons (entries .role) fun u hu => ?_
      refine assures_of_cleared (Plan.every_flushFamilies (fun e => (allows_report _ e).loose)
        fun family hf => loose family (List.mem_cons_of_mem _ hf)) ?_ (cleared u (hu ht).sound)
      exact sound .role u (hu ht).sound
    | permission =>
      -- The entries of roles go first, but those of permissions still before any set.
      refine assures_flushFamilies_cons (entries .role) fun u hu => ?_
      refine assures_flushFamilies_cons (entries .permission) fun v hv => ?_
      have sv := (hv (sound .role u (hu ht).sound)).sound
      refine assures_of_cleared (Plan.every_flushFamilies (fun e => (allows_report _ e).loose)
        fun family hf => loose family ?_) (sound .permission v sv) (cleared v sv)
      exact List.mem_cons_of_mem _ (List.mem_cons_of_mem _ hf)
  refine Program.Assured.bind (Respects.refl x) (flushed.mono fun removed u hu => ?_)
  refine assures_of_cleared ?_ hu.1 hu.2
  exact (Plan.every_report (allows_report x _).loose).bind fun _ =>
    (Plan.every_report (allows_report x _).loose).bind fun _ => trivial

theorem respects_flush (x : Grant) (g : Grants) : x.Respects g g.flush.2 :=
  fun hs => (assures_flush x hs).run.1 hs

/-- After a flush no grant is cached. -/
theorem cleared_flush (x : Grant) (hs : g.Sound) : x.Cleared g.flush.2 := by
  obtain ⟨a, ha⟩ := Option.isSome_iff_exists.1 (isSome_flush hs.bounded)
  exact ((assures_flush x hs).run.2 a ha).2

end Grant

end GrantCache
