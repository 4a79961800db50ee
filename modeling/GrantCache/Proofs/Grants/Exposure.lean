import GrantCache.Proofs.Grants.Flushing
import GrantCache.Proofs.Grants.Proper

/-!
# Who is exposed to an invalidation

An invalidation of a code finds the users that are in the set of the code when the index writes that
are tracked there are done: they are `Grant.Exposed`, whatever their entries list. Nothing but caching
the code for a user exposes the user to it (`Grant.Hidden.move`), and an invalidation of the code or a
flush leaves nobody exposed (`hidden_invalidate`, `hidden_flush`). Hence whoever is exposed was cached
with the code, and the code has not been invalidated since (`Runs.exposed`).
-/

namespace GrantCache

open Grants
open Program (Every)

/-! ## Membership -/

namespace Store

theorem mem_namesOf_moreMembers {e : Option Entry} (index : ∀ x ∈ e, x.IsIndex) {user name : String} :
    user ∈ namesOf (moreMembers [name] e) ↔ user = name ∨ user ∈ namesOf e := by
  cases e with
  | none => exact List.mem_singleton.trans (by simp [namesOf])
  | some x =>
    obtain ⟨old, rfl, -⟩ := index x rfl
    exact Members.mem_union.trans (or_congr_left List.mem_singleton)

end Store

namespace View

variable {v : View} {r : Request} {kind : GrantKind} {user code : String}

/-- Nobody gets into a set by a request that only takes away. -/
theorem mem_users_of_serve (typed : v.Typed) (reduces : r.Reduces)
    (mem : user ∈ (v.serve r).users kind code) : user ∈ v.users kind code := by
  rw [users] at mem
  cases works : v.fails (kind.indexKey code) with
  | true => rwa [item?_serve_of_fails works] at mem
  | false =>
    by_cases gone : r = .delete (kind.indexKey code)
    · rw [gone, item?_serve_delete works] at mem
      cases mem
    · rw [item?_serve_index works (typed kind code) reduces gone] at mem
      exact (Store.mem_namesOf_lessMembers.1 mem).1

/-- Who is not taken out of a set stays in it, unless the whole set is removed. -/
theorem mem_users_serve (typed : v.Typed) (reduces : r.Reduces)
    (keeps : r ≠ .delete (kind.indexKey code)) (untaken : user ∉ r.takesOut (kind.indexKey code))
    (mem : user ∈ v.users kind code) : user ∈ (v.serve r).users kind code := by
  rw [users]
  cases works : v.fails (kind.indexKey code) with
  | true => rwa [item?_serve_of_fails works]
  | false =>
    rw [item?_serve_index works (typed kind code) reduces keeps]
    exact Store.mem_namesOf_lessMembers.2 ⟨mem, untaken⟩

end View

namespace Grants

variable {g g' : Grants} {kind : GrantKind} {user code : String}

/-- The users that are found in the set of a code are those in it. -/
theorem users_eq (hs : g.Sound) (h : g.Proper) (kind : GrantKind) (code : String) :
    g.users kind code = g.view.users kind code := by
  obtain ⟨s, store, -⟩ := hs.store
  have live : g.live? (kind.indexKey code) = g.view.item? (kind.indexKey code) := by
    rw [live?_of_store store, ← live?_view (inner?_of_store store), View.live?,
      Store.filter_isAlive_index (h.typed kind code)]
  rw [users, live]
  rfl

/-- Where the key of a set holds what it held, or nothing, nobody gets into the set. -/
theorem mem_users_of_retains {K : String → Prop} (h : Retains K g g') (hk : K (kind.indexKey code))
    (mem : user ∈ g'.view.users kind code) : user ∈ g.view.users kind code := by
  obtain ⟨lost, -, held⟩ := h
  rw [View.users, show g'.view.item? (kind.indexKey code) = g'.item? _ from rfl] at mem
  rcases held _ hk with same | ⟨gone, -⟩
  · rwa [same] at mem
  · rw [gone] at mem
    cases mem

/-- Who is in a set stays in it, unless the set is evicted. -/
theorem mem_users_retained {K : String → Prop} (h : Retains K g g') (hk : K (kind.indexKey code))
    (mem : user ∈ g.view.users kind code) :
    user ∈ g'.view.users kind code ∨ kind.indexKey code ∈ g'.evicted := by
  obtain ⟨lost, evicted, held⟩ := h
  rcases held _ hk with same | ⟨-, gone⟩
  · left
    rwa [View.users, show g'.view.item? (kind.indexKey code) = _ from same]
  · right
    rw [evicted]
    exact List.mem_append_right _ gone

theorem retains_addMember (hs : g.Sound) {key other : String} (apart : other ≠ key) (name : String) :
    Retains (· = key) g (g.ask (.addMembers other [name])).2 := by
  obtain ⟨s, store, -⟩ := hs.store
  exact retains_ask store _ fun _ same touched => apart (same ▸ (List.mem_singleton.1 touched).symm)

/-- A user who is added to a set joins those who are in it. -/
theorem mem_users_addMember (hs : g.Sound) (h : g.Proper) {name : String} :
    user ∈ (g.ask (.addMembers (kind.indexKey code) [name])).2.view.users kind code ↔
      user = name ∨ user ∈ g.view.users kind code := by
  obtain ⟨s, store, -⟩ := hs.store
  have index := h.typed kind code
  have after : (g.ask (.addMembers (kind.indexKey code) [name])).2.view.item? (kind.indexKey code) =
      Store.moreMembers [name] (g.view.item? (kind.indexKey code)) := by
    refine (item?_ask store _ _).trans ?_
    rw [Store.serve, Store.item?_addMembers, ← live?_view (inner?_of_store store), View.live?,
      Store.filter_isAlive_index index]
  rw [View.users, after, Store.mem_namesOf_moreMembers index]
  rfl

end Grants

/-! ## Exposed or hidden -/

namespace Grant

variable {x : Grant} {g g' : Grants} {gone : Prop} {r : Request} {m : Move} {kind : GrantKind}
  {user : String}

/-- The user is in the set of the code, or an index write will add the user to it. -/
def Exposed (x : Grant) (g : Grants) : Prop :=
  x.user ∈ g.view.users x.kind x.code ∨ ∃ id, x.Due id g

/-- A write that is due is one of those on the list, so that this can be decided. -/
theorem exists_due_iff : (∃ id, x.Due id g) ↔
    ∃ w ∈ g.upkeep.writes, g.upkeep.write? w.id = some w ∧ w.user = x.user ∧ x.indexKey ∈ w.left := by
  constructor
  · rintro ⟨id, w, hw, owes⟩
    obtain rfl : w.id = id := by simpa using List.find?_some hw
    exact ⟨w, List.mem_of_find?_eq_some hw, hw, owes⟩
  · rintro ⟨w, -, owes⟩
    exact ⟨w.id, w, owes⟩

instance (x : Grant) (g : Grants) : Decidable (x.Exposed g) :=
  decidable_of_iff _ (or_congr_right exists_due_iff).symm

/-- No index write will add the user to the set of the code; where `gone` holds, the user is not in
it. -/
structure Hidden (x : Grant) (gone : Prop) (g : Grants) : Prop where
  sound : g.Sound
  proper : g.Proper
  undue : ∀ id, ¬ x.Due id g
  absent : gone → x.user ∉ g.view.users x.kind x.code

/-- A grant that is not exposed is hidden, and its user is not in the set. -/
theorem hidden_of_not_exposed (hs : g.Sound) (proper : g.Proper) (h : ¬ x.Exposed g) :
    x.Hidden True g :=
  ⟨hs, proper, fun id due => h (Or.inr ⟨id, due⟩), fun _ mem => h (Or.inl mem)⟩

theorem Hidden.not_exposed (h : x.Hidden True g) : ¬ x.Exposed g := by
  rintro (mem | ⟨id, due⟩)
  · exact h.absent trivial mem
  · exact h.undue id due

/-! ### Requests -/

/-- A request that adds the user to no set keeps a grant hidden. -/
theorem Hidden.ask (h : x.Hidden gone g) (sound : (g.ask r).2.Sound) (proper : (g.ask r).2.Proper)
    (fewer : x.user ∈ (g.ask r).2.view.users x.kind x.code → x.user ∈ g.view.users x.kind x.code) :
    x.Hidden gone (g.ask r).2 :=
  ⟨sound, proper, h.undue, fun c mem => h.absent c (fewer mem)⟩

theorem Hidden.reduces (h : x.Hidden gone g) (reduces : r.Reduces) (sound : (g.ask r).2.Sound) :
    x.Hidden gone (g.ask r).2 := by
  refine h.ask sound (h.proper.reduces reduces) fun mem => ?_
  rw [view_ask h.proper.inner reduces] at mem
  exact View.mem_users_of_serve h.proper.typed reduces mem

theorem Hidden.apart (h : x.Hidden gone g) (sound : (g.ask r).2.Sound)
    (proper : (g.ask r).2.Proper) (apart : x.indexKey ∉ r.touched g.held) :
    x.Hidden gone (g.ask r).2 := by
  obtain ⟨s, store, -⟩ := h.sound.store
  have retains : Retains (· = x.indexKey) g (g.ask r).2 :=
    retains_ask store r fun key hk touched => apart (hk ▸ touched)
  exact h.ask sound proper (mem_users_of_retains retains rfl)

theorem Hidden.deletePattern (h : x.Hidden gone g) (pattern : String) :
    x.Hidden gone (g.ask (.deletePattern pattern)).2 := by
  refine h.ask (sound_deletePattern h.sound pattern) (h.proper.deletePattern pattern) fun mem => ?_
  obtain ⟨s, store, -⟩ := h.sound.store
  rw [View.users, show (g.ask (.deletePattern pattern)).2.view.item? _ = _ from item?_ask store _ _,
    Store.serve, Store.item?_deletePattern] at mem
  rw [View.users, show g.view.item? _ = _ from item?_of_inner (inner?_of_store store) _]
  split at mem
  · cases mem
  · exact mem

theorem Hidden.purge (h : x.Hidden gone g) : x.Hidden gone g.purge.2 := by
  refine ⟨upheld_sound.purge g h.sound, h.proper.purge, h.undue, fun c mem => h.absent c ?_⟩
  obtain ⟨s, store, distinct⟩ := h.sound.store
  have inner := inner?_of_store store
  rw [View.users, show g.purge.2.view.item? _ = _ from item?_of_inner (purge_of_inner inner).1 _,
    Store.item?_sweep distinct, ← live?_view inner, View.live?,
    Store.filter_isAlive_index (h.proper.typed x.kind x.code)] at mem
  exact mem

/-! ### Index writes -/

/-- A hidden grant is not due by the write that has its turn, so that its step adds the user to no set
of that code. -/
theorem Hidden.proceed (h : x.Hidden gone g) (id : Nat) : x.Hidden gone (g.proceed id) := by
  have sound := upheld_sound.proceed g id h.sound
  have proper := h.proper.proceed id
  rcases proceed_cases id g with ⟨same, -⟩ | ⟨w, key, rest, events, hw, hl, he⟩
  · rwa [same]
  · rw [he] at sound proper ⊢
    refine ⟨sound, proper, fun other due => h.undue other (Upkeep.Owes.of_proceed due), fun c mem => ?_⟩
    obtain ⟨kind, code, rfl⟩ := h.sound.targets w (List.mem_of_find?_eq_some hw) key (by simp [hl])
    by_cases same : kind.indexKey code = x.indexKey
    · obtain ⟨rfl, rfl⟩ := GrantKind.indexKey_inj.1 same
      -- If the user were the one to be added, the write would be due.
      rcases (mem_users_addMember h.sound h.proper).1 mem with added | old
      · exact h.undue id ⟨w, hw, added.symm, hl ▸ List.mem_cons_self⟩
      · exact h.absent c old
    · exact h.absent c (mem_users_of_retains (retains_addMember h.sound same _) rfl mem)

theorem Hidden.see (h : x.Hidden gone g) {id : Nat} (done : g.upkeep.isDone id = true) :
    x.Hidden gone { g with upkeep := g.upkeep.see id } :=
  ⟨(respects_see x g done h.sound).sound, h.proper.of_backend rfl,
    fun other due => h.undue other due.of_see, h.absent⟩

theorem Hidden.await (h : x.Hidden gone g) (id : Nat) : x.Hidden gone (g.await id) :=
  await_induction (R := fun g g' => x.Hidden gone g → x.Hidden gone g') (fun _ => fun h => h)
    (fun h h' => h' ∘ h) (fun _ id h => h.proceed id)
    (fun _ _ done h => h.see done) g id h

/-! ### Moves -/

/-- All that moves are made of keeps a grant hidden, but for caching and for what somebody else asks.
-/
theorem upheld_hidden (x : Grant) (gone : Prop) : Upheld (x.Hidden gone) where
  get _ := upholds_ask fun g h => h.reduces trivial (respects_get x g _ h.sound).sound
  report e := fun _ h => ⟨h.sound.note [e], h.proper.of_backend rfl, h.undue, h.absent⟩
  take key := fun g h => ⟨(respects_take x g key h.sound).sound, h.proper.of_backend rfl,
    h.undue, h.absent⟩
  await id := fun _ h => h.await id
  deleteEntry _ _ := upholds_ask fun _ h => h.reduces trivial (sound_delete h.sound _)
  removeMember _ _ _ := upholds_ask fun _ h => h.reduces trivial (sound_removeMembers h.sound _ _ _)
  members _ _ := upholds_ask fun g h => h.reduces trivial (respects_members x g _ h.sound).sound
  deleteIndex _ _ := upholds_ask fun _ h => h.reduces trivial (sound_delete h.sound _)
  family _ _ := upholds_ask fun _ h => h.deletePattern _
  proceed _ id h := h.proceed id
  purge _ h := h.purge
  pass g ms h := ⟨upheld_sound.pass g ms h.sound, h.proper.of_backend rfl, h.undue, h.absent⟩

end Grant

/-- A move that caches the code for the user, among others. -/
def Move.Exposes (x : Grant) : Move → Prop
  | set kind user codes .. => kind = x.kind ∧ user = x.user ∧ x.code ∈ codes
  | _ => False

namespace Grant

variable {x : Grant} {g g' : Grants} {gone : Prop} {r : Request} {m : Move} {kind : GrantKind}
  {user : String}

theorem Hidden.written (h : x.Hidden gone g) (codes : List String) (ttl : Option Nat) :
    x.Hidden gone (g.written kind user codes ttl) :=
  h.apart (sound_written h.sound) (h.proper.setEntry kind user _ _)
    fun touched => x.indexKey_ne_entryKey kind user (List.mem_singleton.1 touched)

/-- Caching keeps a grant hidden unless the code is cached for its user. -/
theorem Hidden.set (h : x.Hidden gone g) {codes : List String} {ttl : Option Nat}
    (other : (g.deadline? ttl).isSome → ¬ (kind = x.kind ∧ user = x.user ∧ x.code ∈ codes)) :
    x.Hidden gone (g.set kind user codes ttl).2 := by
  have written : x.Hidden gone (g.written kind user codes ttl) := h.written codes ttl
  have sound := sound_set_op h.sound kind user codes ttl
  rcases set_cases h.sound kind user codes ttl with ⟨-, he⟩ | ⟨-, -, he⟩ | ⟨hd, he⟩
  · rwa [he]
  · rwa [he]
  · rw [he] at sound ⊢
    refine ⟨sound, written.proper.of_backend rfl, fun id due => ?_, written.absent⟩
    rcases Upkeep.Owes.of_launch due h.sound.upkeep with old | ⟨hu, hk⟩
    · exact h.undue id old
    · obtain ⟨code, hc, same⟩ := List.mem_map.1 hk
      obtain ⟨rfl, rfl⟩ := GrantKind.indexKey_inj.1 same
      exact other hd ⟨rfl, hu, List.mem_eraseDups.1 hc⟩

/-- Nothing but caching the code for the user exposes the user. -/
theorem Hidden.move (h : x.Hidden gone g) (lawful : m.Lawful g)
    (other : ¬ ((g.move m).1 = true ∧ m.Exposes x)) : x.Hidden gone (g.move m).2 := by
  refine (upheld_hidden x gone).move h (fun kind user codes ttl wait hm => ?_) fun r hm => ?_
  · subst hm
    rw [move_set_fst, isSome_set h.sound] at other
    exact h.set fun hd exposes => other ⟨hd, exposes⟩
  · subst hm
    refine h.apart (respects_foreign x g lawful h.sound).sound (h.proper.foreign h.sound lawful) ?_
    intro touched
    have foreign := lawful _ touched
    rw [indexKey, GrantKind.isGrantKey_indexKey] at foreign
    cases foreign

/-! ### What leaves nobody exposed -/

/-- Once the writes of a code are settled, none of them is due. -/
theorem hidden_settled (x : Grant) (hs : g.Sound) (proper : g.Proper) (tidy : g.upkeep.Tidy) :
    x.Hidden False (g.settled x.indexKey) where
  sound := (respects_settled x g x.indexKey hs).sound
  proper := Upheld.run (Plan.every_settle upheld_proper.toPatient _) proper
  undue id := not_owed_settled tidy id x.user x.indexKey
  absent := False.elim

/-- When the set is removed the user is not in it any more. -/
theorem Hidden.deleteIndex (h : x.Hidden gone g) :
    x.Hidden True (g.ask (.delete (x.kind.indexKey x.code))).2 := by
  have deleted := h.reduces (r := .delete (x.kind.indexKey x.code)) trivial (sound_delete h.sound _)
  refine ⟨deleted.sound, deleted.proper, deleted.undue, fun _ mem => ?_⟩
  obtain ⟨s, store, -⟩ := h.sound.store
  rw [View.users, show (g.ask _).2.view.item? _ = _ from item?_ask store _ _, Store.serve,
    Store.item?_delete, if_pos rfl] at mem
  cases mem

/-- Clearing all members of a set ends with the removal of the set. -/
theorem Hidden.clearMembers (h : x.Hidden False g) (size : Nat) (users : List String)
    (ended : (g.runWide (Plan.clearMembers size x.kind x.code users)).1.isSome) :
    x.Hidden True (g.runWide (Plan.clearMembers size x.kind x.code users)).2 := by
  have upheld := upheld_hidden x
  have clears : Every (MadeOf (Upholds (x.Hidden False)))
      (Plan.clearBatches (x.kind.indexKey x.code) 0 (Plan.batches (size - 1) users)) :=
    Plan.every_clearBatches (upheld False).report (fun _ _ user _ => (upheld False).every_clear user)
      _ _
  -- Clearing the members keeps what is hidden so far, and the removal of the set hides the rest.
  have cleared := Upheld.runWide clears h
  rw [Plan.clearMembers, runWide_bind] at ended ⊢
  rcases hr : g.runWide (Plan.clearBatches (x.kind.indexKey x.code) 0 (Plan.batches (size - 1) users))
    with ⟨_ | n, t⟩
  · rw [hr] at ended
    cases ended
  · rw [hr] at cleared
    obtain ⟨s, store, -⟩ := cleared.sound.store
    obtain ⟨removed, response⟩ :=
      response_delete cleared.proper.inner (fails_of_store store (x.kind.indexKey x.code))
    have say := (upheld True).say
    simp only
    rw [runWide_bind, runWide_widen, run_ask response]
    refine Upheld.runWide ?_ cleared.deleteIndex
    exact (say _).bind fun _ => (say _).bind fun _ => trivial

/-- Clearing a code after its writes are settled hides every grant of it. -/
theorem Hidden.clearIndex (h : x.Hidden False g) (size : Nat) :
    x.Hidden True (g.runWide (Plan.clearIndex size x.kind x.code)).2 := by
  have ended := (tidy_clearIndex size x.kind x.code h.sound.bounded).1
  rw [runWide_clearIndex h.sound] at ended ⊢
  have asked := (upheld_hidden x False).members x.kind x.code g h
  rw [perform_ask] at asked
  cases hu : g.users x.kind x.code with
  | nil =>
    -- Nobody is in the set.
    have nobody : x.user ∉ g.view.users x.kind x.code := by
      rw [← users_eq h.sound h.proper, hu]
      exact List.not_mem_nil
    have hidden := (upheld_hidden x True).members x.kind x.code g
      ⟨h.sound, h.proper, h.undue, fun _ => nobody⟩
    rw [perform_ask] at hidden
    refine Upheld.runWide ?_ hidden
    exact ((upheld_hidden x True).say _).bind fun _ => trivial
  | cons user rest =>
    rw [hu] at ended
    exact asked.clearMembers size _ ended

/-- When the index writes of the code are done, those who are exposed are in the set, and it goes. -/
theorem hidden_invalidate (x : Grant) (hs : g.Sound) (proper : g.Proper) (tidy : g.upkeep.Tidy)
    (size : Nat) : x.Hidden True (g.runWide (Plan.invalidate size x.kind x.code)).2 := by
  rw [runWide_invalidate hs.bounded]
  exact (hidden_settled x hs proper tidy).clearIndex size

theorem Hidden.invalidateAll (h : x.Hidden True g) (size : Nat) (kind : GrantKind)
    (codes : List String) : x.Hidden True (g.runWide (Plan.invalidateAll size kind codes)).2 :=
  Upheld.runWide
    (Plan.every_invalidateAll fun _ _ => (upheld_hidden x True).every_invalidate size kind _) h

theorem hidden_invalidateAll (x : Grant) (hs : g.Sound) (proper : g.Proper) (tidy : g.upkeep.Tidy)
    (size : Nat) {codes : List String} (hc : x.code ∈ codes) :
    x.Hidden True (g.runWide (Plan.invalidateAll size x.kind codes)).2 := by
  induction codes generalizing g with
  | nil => cases hc
  | cons code rest ih =>
    rw [runWide_invalidateAll_cons hs.bounded]
    by_cases own : x.code = code
    · subst own
      exact (hidden_invalidate x hs proper tidy size).invalidateAll size x.kind rest
    · exact ih (Upheld.runWide (upheld_sound.every_invalidate size x.kind code) hs)
        (Upheld.runWide (upheld_proper.every_invalidate size x.kind code) proper)
        (tidy_runInvalidate hs.bounded tidy size x.kind code) ((List.mem_cons.1 hc).resolve_left own)

theorem hidden_flush (x : Grant) (ho : g.Orderly) (proper : g.Proper) : x.Hidden True g.flush.2 := by
  obtain ⟨s, t, -, -, flushed, store, -, done, -⟩ := run_flush ho
  have sound := (respects_flush x g ho.sound).sound
  have kept : (g.move .flush).2.Proper := proper.move nofun
  rw [show (g.move .flush).2 = g.flush.2 from rfl, flushed] at kept
  rw [flushed] at sound ⊢
  refine ⟨sound, kept, fun id due => ?_, fun _ mem => ?_⟩
  · have undone := due.not_done
    rw [done id] at undone
    cases undone
  · rw [View.users, show t.view.item? _ = _ from item?_of_inner (inner?_of_store store) _,
      Store.item?_withoutGrants, if_pos (GrantKind.isGrantKey_indexKey ..)] at mem
    cases mem

end Grant

/-- A move after which nobody is exposed to the invalidation of a code. -/
def Move.Exhausts (x : Grant) : Move → Prop
  | invalidate kind code => kind = x.kind ∧ code = x.code
  | invalidateAll kind codes => kind = x.kind ∧ x.code ∈ codes
  | flush => True
  | _ => False

namespace Grant

variable {x : Grant} {g g' : Grants} {m : Move}

/-- A move that exhausts a grant hides it. -/
theorem hidden_exhausted (ho : g.Orderly) (proper : g.Proper) (h : m.Exhausts x) :
    x.Hidden True (g.move m).2 := by
  cases m with
  | invalidate kind code =>
    obtain ⟨rfl, rfl⟩ := h
    exact hidden_invalidate x ho.sound proper ho.tidy _
  | invalidateAll kind codes =>
    obtain ⟨rfl, hc⟩ := h
    exact hidden_invalidateAll x ho.sound proper ho.tidy _ hc
  | flush => exact hidden_flush x ho proper
  | _ => exact h.elim

end Grant

/-- In an empty cache nobody is exposed. -/
theorem Grant.hidden_start (x : Grant) (now : Nat) (breaker : Breaker) (limit ttl size : Nat) :
    x.Hidden True (.start ⟨now, breaker, .bounded (.empty limit)⟩ ttl size) := by
  refine ⟨(orderly_start now breaker limit ttl size).sound, proper_start now breaker rfl ttl size,
    fun id due => ?_, fun _ mem => ?_⟩
  · obtain ⟨w, hw, -⟩ := due
    cases hw
  · have empty : (Backend.bounded (.empty limit)).store? = some (.empty limit) := rfl
    have nothing := item?_start empty now breaker ttl size x.indexKey
    rw [View.users, show View.item? _ _ = none from nothing] at mem
    cases mem

/-- Whoever is exposed was so before and the code has not been invalidated, or has been cached with the
code since it was last invalidated. -/
theorem Runs.exposed {x : Grant} {g g' : Grants} {steps : List Step} (run : Runs g steps g')
    (ho : g.Orderly) (proper : g.Proper) (exposed : x.Exposed g') :
    (x.Exposed g ∧ ∀ s ∈ steps, ¬ s.move.Exhausts x) ∨
      ∃ before s after, steps = before ++ s :: after ∧ (s.ended = true ∧ s.move.Exposes x) ∧
        ∀ s' ∈ after, ¬ s'.move.Exhausts x := by
  induction run with
  | done g => exact Or.inl ⟨exposed, nofun⟩
  | @step g g' m steps lawful rest ih =>
    have ho' := orderly_move ho lawful
    have proper' : (g.move m).2.Proper := proper.move fun _ hr => proper.foreign ho.sound (hr ▸ lawful)
    rcases ih ho' proper' exposed with ⟨still, quiet⟩ | ⟨before, s, after, rfl, own, quiet⟩
    · by_cases exposes : (g.move m).1 = true ∧ m.Exposes x
      · exact Or.inr ⟨[], _, steps, rfl, exposes, quiet⟩
      -- Whoever is exposed after another move was so before, and the move exhausts nothing.
      · refine Or.inl ⟨Classical.byContradiction fun hidden => ?_,
          List.forall_mem_cons.2 ⟨fun ends => ?_, quiet⟩⟩
        · have kept := Grant.hidden_of_not_exposed ho.sound proper hidden
          exact (kept.move lawful exposes).not_exposed still
        · exact (Grant.hidden_exhausted ho proper ends).not_exposed still
    · exact Or.inr ⟨_ :: before, s, after, rfl, own, quiet⟩

end GrantCache
