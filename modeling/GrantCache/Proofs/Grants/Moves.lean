import GrantCache.Proofs.Grants.Caching
import GrantCache.Proofs.Grants.Clearing

/-!
# Sequential runs

A run is a sequence of moves, one after another: operations on grants, requests of others about keys
that are no keys of grants, purges, the passing of time, and steps of the queued index writes at any
point in between. A run is recorded step by step (`Runs`).

Every state that a run reaches is `Orderly`: sound, with tidy tracking, and with every grant covered.
A move that caches nothing for a user keeps to what is promised about the user's grants
(`keeps_move`).
-/

namespace GrantCache

open Grants
open Program (Every)

variable {x : Grant} {g g' : Grants} {m : Move} {kind : GrantKind} {user : String}

/-- One thing that happens to a cache of grants. -/
inductive Move where
  /-- Cache codes, and wait for the index write or leave it queued. -/
  | set (kind : GrantKind) (user : String) (codes : List String) (ttl : Option Nat) (wait : Bool)
  | get (kind : GrantKind) (user : String)
  | deleteUser (user : String)
  | invalidate (kind : GrantKind) (code : String)
  | invalidateAll (kind : GrantKind) (codes : List String)
  | flush
  | purge
  /-- A request of somebody else. -/
  | raw (r : Request)
  | pass (ms : Nat)
  | work (write : Nat)
  | await (write : Nat)

namespace Move

/-- A request of somebody else touches no key of grants. -/
def Lawful : Move → Grants → Prop
  | raw r, g => ∀ key ∈ r.touched g.held, Key.isGrantKey key = false
  | _, _ => True

/-- A move that caches codes of a kind for a user. -/
def Sets (kind : GrantKind) (user : String) : Move → Prop
  | set k u .. => k = kind ∧ u = user
  | _ => False

end Move

/-- Whether a move comes to its end, and what becomes of the cache. -/
def Grants.move (m : Move) (g : Grants) : Bool × Grants :=
  match m with
  | .set kind user codes ttl wait =>
    match g.set kind user codes ttl with
    | (none, g) => (false, g)
    | (some none, g) => (true, g)
    | (some (some id), g) => (true, if wait then g.await id else g)
  | .get kind user => ((g.get kind user).1.isSome, (g.get kind user).2)
  | .deleteUser user => ((g.deleteUser user).1.isSome, (g.deleteUser user).2)
  | .invalidate kind code => ((g.invalidate kind code).1.isSome, (g.invalidate kind code).2)
  | .invalidateAll kind codes =>
    ((g.invalidateAll kind codes).1.isSome, (g.invalidateAll kind codes).2)
  | .flush => (g.flush.1.isSome, g.flush.2)
  | .purge => (true, g.purge.2)
  | .raw r => ((g.ask r).1 matches .ok _ | .fault _, (g.ask r).2)
  | .pass ms => (true, g.pass ms)
  | .work id => (true, g.proceed id)
  | .await id => (true, g.await id)

/-- A move with the time at which it was made and whether it came to its end. -/
structure Step where
  move : Move
  time : Nat
  ended : Bool

/-- A step that has cached codes of a kind for a user. -/
def Step.Caches (kind : GrantKind) (user : String) (s : Step) : Prop :=
  s.ended = true ∧ s.move.Sets kind user

/-- A run from one state to another, with the record of its moves. -/
inductive Runs : Grants → List Step → Grants → Prop
  | done (g : Grants) : Runs g [] g
  | step {g g' : Grants} {m : Move} {steps : List Step} (lawful : m.Lawful g)
    (rest : Runs (g.move m).2 steps g') : Runs g (⟨m, g.host.now, (g.move m).1⟩ :: steps) g'

/-! ## One move -/

/-- What holds between moves. -/
structure Grants.Orderly (g : Grants) : Prop where
  sound : g.Sound
  tidy : g.upkeep.Tidy
  covered : ∀ x : Grant, x.Covered g

/-- Caching comes to its end when the entry was written. -/
theorem move_set_fst (kind : GrantKind) (user : String) (codes : List String) (ttl : Option Nat)
    (wait : Bool) (g : Grants) :
    (g.move (.set kind user codes ttl wait)).1 = (g.set kind user codes ttl).1.isSome := by
  rw [move]
  rcases g.set kind user codes ttl with ⟨_ | _ | id, t⟩ <;> rfl

/-- After codes were cached nothing happens but that the index write may be waited for. -/
theorem move_set_snd (kind : GrantKind) (user : String) (codes : List String) (ttl : Option Nat)
    (wait : Bool) (g : Grants) :
    (g.move (.set kind user codes ttl wait)).2 = (g.set kind user codes ttl).2 ∨
      ∃ id, (g.move (.set kind user codes ttl wait)).2 = (g.set kind user codes ttl).2.await id := by
  rw [move]
  rcases g.set kind user codes ttl with ⟨_ | _ | id, t⟩
  · exact Or.inl rfl
  · exact Or.inl rfl
  · cases wait with
    | false => exact Or.inl rfl
    | true => exact Or.inr ⟨id, rfl⟩

theorem tidy_await (h : g.upkeep.Tidy) (id : Nat) : (g.await id).upkeep.Tidy :=
  await_induction (R := fun g g' => g.upkeep.Tidy → g'.upkeep.Tidy) (fun _ => fun h => h)
    (fun h h' => h' ∘ h) (fun _ id h => tidy_proceed h id) (fun _ id _ h => h.see id) g id h

theorem tidy_move (ho : g.Orderly) (m : Move) : (g.move m).2.upkeep.Tidy := by
  have hb := ho.sound.bounded
  cases m with
  | set kind user codes ttl wait =>
    have tidy := tidy_set ho.sound ho.tidy kind user codes ttl
    rcases move_set_snd kind user codes ttl wait g with same | ⟨id, waited⟩
    · rwa [same]
    · rw [waited]
      exact tidy_await tidy id
  | get kind user => exact tidies_read kind user g ho.tidy
  | deleteUser user => exact tidy_deleteUser ho.tidy user
  | invalidate kind code => exact tidy_runInvalidate hb ho.tidy _ kind code
  | invalidateAll kind codes =>
    exact (Grant.assured_invalidateAll _ kind codes ho.sound ho.tidy
      (ho.covered ⟨kind, "", ""⟩)).2
  | flush => exact tidy_flush ho.tidy
  | purge =>
    obtain ⟨s, hs⟩ := hb
    show g.purge.2.upkeep.Tidy
    rw [purge_of_store hs]
    exact ho.tidy
  | raw r => exact ho.tidy
  | pass ms => exact ho.tidy
  | work id => exact tidy_proceed ho.tidy id
  | await id => exact tidy_await ho.tidy id

/-- What follows the caching itself keeps to what is promised. -/
theorem respects_move_set (x : Grant) (kind : GrantKind) (user : String) (codes : List String)
    (ttl : Option Nat) (wait : Bool) (g : Grants) :
    x.Respects (g.set kind user codes ttl).2 (g.move (.set kind user codes ttl wait)).2 := by
  rcases move_set_snd kind user codes ttl wait g with same | ⟨id, waited⟩
  · rw [same]
    exact .refl x _
  · rw [waited]
    exact Grant.respects_await x _ id

/-- A move that caches nothing for the user caches for somebody else or is halted. -/
theorem other_of_not_caching (hs : g.Sound) {codes : List String} {ttl : Option Nat} {wait : Bool}
    (h : ¬ ((g.move (.set kind user codes ttl wait)).1 = true ∧
      (Move.set kind user codes ttl wait).Sets x.kind x.user)) :
    kind.entryKey user ≠ x.entryKey ∨ g.deadline? ttl = none := by
  rw [move_set_fst, isSome_set hs] at h
  by_cases hd : g.deadline? ttl = none
  · exact Or.inr hd
  · exact Or.inl fun same => h ⟨Option.isSome_iff_ne_none.2 hd, GrantKind.entryKey_inj.1 same⟩

/-- A move that caches nothing for the user keeps to what is promised about a grant. -/
theorem keeps_move (ho : g.Orderly) (lawful : m.Lawful g)
    (h : ¬ ((g.move m).1 = true ∧ m.Sets x.kind x.user)) : x.Keeps g (g.move m).2 := by
  have hs := ho.sound
  cases m with
  -- Caching for somebody else, or being halted, respects the grant, and so does the wait that may
  -- follow.
  | set kind user codes ttl wait =>
    have keeps : x.Keeps g (g.set kind user codes ttl).2 :=
      Grant.respects_set_op x g (other_of_not_caching hs h) hs
    exact Grant.Respects.trans (fun _ => keeps) (respects_move_set x kind user codes ttl wait g) hs
  | get kind user =>
    show x.Keeps g (g.get kind user).2
    rw [hs.get_eq]
    exact Grant.respects_get x g _ hs
  | deleteUser user => exact Grant.respects_deleteUser x g user hs
  | invalidate kind code =>
    exact (Grant.assured_invalidate hs ho.tidy (ho.covered x) _ kind code).1
  | invalidateAll kind codes =>
    exact (Grant.assured_invalidateAll _ kind codes hs ho.tidy (ho.covered x)).1
  | flush => exact Grant.respects_flush x g hs
  | purge => exact Grant.respects_purge x g hs
  | raw r => exact Grant.respects_foreign x g lawful hs
  | pass ms => exact Grant.respects_pass x g ms hs
  | work id => exact Grant.respects_proceed x g id hs
  | await id => exact Grant.respects_await x g id hs

/-- Every lawful move keeps a cache orderly. -/
theorem orderly_move (ho : g.Orderly) (lawful : m.Lawful g) : (g.move m).2.Orderly := by
  have covered (x : Grant) : (g.move m).2.Sound ∧ x.Covered (g.move m).2 := by
    -- Only caching for the user lists anything anew, and it launches what covers it.
    by_cases h : (g.move m).1 = true ∧ m.Sets x.kind x.user
    · cases m with
      | set kind user codes ttl wait =>
        have sound := sound_set_op ho.sound kind user codes ttl
        have keeps := respects_move_set x kind user codes ttl wait g sound
        exact ⟨keeps.sound, keeps.covered
          (Grant.covered_set x ho.sound (ho.covered x) kind user codes ttl)⟩
      | _ => exact h.2.elim
    · have keeps := keeps_move ho lawful h
      exact ⟨keeps.sound, keeps.covered (ho.covered x)⟩
  exact ⟨(covered ⟨.role, "", ""⟩).1, tidy_move ho m, fun x => (covered x).2⟩

/-! ## What moves are made of -/

section Upheld

variable {I : Grants → Prop} {α : Type}

/-- An effect that keeps a property of the cache. -/
def Upholds (I : Grants → Prop) (e : Effect) : Prop := ∀ g, I g → I (perform e g).2

theorem upholds_ask {r : Request} (h : ∀ g : Grants, I g → I (g.ask r).2) : Upholds I (.ask r) := by
  intro g hg
  rw [Grant.perform_ask]
  exact h g hg

/-- A property that is kept by all that moves are made of, but for caching and for what somebody else
asks. -/
structure Upheld (I : Grants → Prop) : Prop extends Plan.Common (Upholds I) where
  family : ∀ family ∈ Key.families, Upholds I (.ask (.deletePattern (Key.familyPattern family)))
  proceed : ∀ g id, I g → I (g.proceed id)
  purge : ∀ g, I g → I g.purge.2
  pass : ∀ g ms, I g → I (g.pass ms)

theorem Upheld.run {p : Plan α} (hp : Every (Upholds I) p) {g : Grants} (hg : I g) : I (g.run p).2 :=
  hp.run (I := I) (fun _ s he hs => he s hs) hg

theorem Upheld.runWide {p : WidePlan α} (hp : Every (MadeOf (Upholds I)) p) {g : Grants} (hg : I g) :
    I (g.runWide p).2 :=
  runWide_induction (R := fun g g' => I g → I g') hp (fun _ => id) (fun h h' => h' ∘ h)
    (fun _ s he hs => he s hs) g hg

theorem Upheld.say (h : Upheld I) (e : Event) : Every (MadeOf (Upholds I)) (Plan.report e).widen :=
  ⟨h.report e, fun _ => trivial⟩

theorem Upheld.every_clearIndex (h : Upheld I) (size : Nat) (kind : GrantKind) (code : String) :
    Every (MadeOf (Upholds I)) (Plan.clearIndex size kind code) :=
  Plan.every_clearIndex h.report (fun _ user _ => h.every_clear user) (h.members kind code)
    (h.deleteIndex kind code) size

theorem Upheld.every_invalidate (h : Upheld I) (size : Nat) (kind : GrantKind) (code : String) :
    Every (MadeOf (Upholds I)) (Plan.invalidate size kind code) :=
  Plan.every_invalidate size (Plan.every_widen (fun _ he => he) (Plan.every_settle h.toPatient _))
    (h.every_clearIndex size kind code)

theorem Upheld.every_flush (h : Upheld I) : Every (Upholds I) Plan.flush := by
  refine (Plan.every_settleAll h.toPatient fun _ hg => hg).bind fun _ => ?_
  refine (Plan.every_flushFamilies h.report h.family).bind fun removed => ?_
  exact (Plan.every_report (h.report _)).bind fun _ =>
    (Plan.every_report (h.report _)).bind fun _ => trivial

/-- Caching keeps a property when writing the entry and launching the index write do. -/
theorem Upheld.set (h : Upheld I) {kind : GrantKind} {user : String} {codes : List String}
    {ttl : Option Nat}
    (written : Upholds I (.ask (.set (kind.entryKey user) (.texts codes.eraseDups)
      (some (ttl.getD g.defaultTtl)))))
    (launched : Upholds I (.launch user (codes.eraseDups.map fun code => kind.indexKey code)))
    (hg : I g) : I (g.set kind user codes ttl).2 :=
  Upheld.run (Plan.every_store h.report written launched) hg

/-- A move keeps a property that is upheld, when caching does and what somebody else asks does. -/
theorem Upheld.move (h : Upheld I) (hg : I g)
    (caches : ∀ kind user codes ttl wait, m = .set kind user codes ttl wait →
      I (g.set kind user codes ttl).2)
    (raw : ∀ r, m = .raw r → I (g.ask r).2) : I (g.move m).2 := by
  cases m with
  | set kind user codes ttl wait =>
    have cached := caches kind user codes ttl wait rfl
    rcases move_set_snd kind user codes ttl wait g with same | ⟨id, waited⟩
    · rwa [same]
    · rw [waited]
      exact h.await id _ cached
  | get kind user => exact Upheld.run (Plan.every_read h.report (h.get _)) hg
  | deleteUser user => exact Upheld.run (Plan.every_delete h.report (h.every_clear user)) hg
  | invalidate kind code => exact Upheld.runWide (h.every_invalidate _ kind code) hg
  | invalidateAll kind codes =>
    exact Upheld.runWide (Plan.every_invalidateAll fun code _ => h.every_invalidate _ kind code) hg
  | flush => exact Upheld.run h.every_flush hg
  | purge => exact h.purge g hg
  | raw r => exact raw r rfl
  | pass ms => exact h.pass g ms hg
  | work id => exact h.proceed g id hg
  | await id => exact h.await id g hg

/-- Soundness, whoever's grants are asked about. -/
theorem upheld_sound : Upheld Sound where
  get key := upholds_ask fun g h => (Grant.respects_get ⟨.role, "", ""⟩ g key h).sound
  report e := fun _ h => h.note [e]
  take key := fun g h => (Grant.respects_take ⟨.role, "", ""⟩ g key h).sound
  await id := fun g h => (Grant.respects_await ⟨.role, "", ""⟩ g id h).sound
  deleteEntry _ _ := upholds_ask fun _ h => Grant.sound_delete h _
  removeMember _ _ _ := upholds_ask fun _ h => Grant.sound_removeMembers h _ _ _
  members _ _ := upholds_ask fun g h => (Grant.respects_members ⟨.role, "", ""⟩ g _ h).sound
  deleteIndex _ _ := upholds_ask fun _ h => Grant.sound_delete h _
  family _ _ := upholds_ask fun _ h => Grant.sound_deletePattern h _
  proceed g id h := (Grant.respects_proceed ⟨.role, "", ""⟩ g id h).sound
  purge g h := (Grant.respects_purge ⟨.role, "", ""⟩ g h).sound
  pass g ms h := (Grant.respects_pass ⟨.role, "", ""⟩ g ms h).sound

end Upheld

/-! ## What no move changes -/

section Continues

variable {t : Grants}

/-- The time to live that is taken by default is as it was, and what is on record stays there. -/
structure Continues (g t : Grants) : Prop where
  default : t.defaultTtl = g.defaultTtl
  journal : g.journal <+: t.journal

theorem Continues.refl (g : Grants) : Continues g g := ⟨rfl, List.prefix_refl _⟩

theorem Continues.trans (h : Continues g t) (h' : Continues t g') : Continues g g' :=
  ⟨h'.default.trans h.default, h.journal.trans h'.journal⟩

theorem continues_note (g : Grants) (events : List Event) : Continues g (g.note events) :=
  ⟨rfl, List.prefix_append _ _⟩

theorem continues_ask (g : Grants) (r : Request) : Continues g (g.ask r).2 :=
  ⟨rfl, List.prefix_append _ _⟩

theorem Continues.evicted (h : Continues g t) : g.evicted <+: t.evicted := by
  obtain ⟨events, he⟩ := h.journal
  exact ⟨_, (Event.evictions_append g.journal events).symm.trans (congrArg _ he)⟩

theorem continues_proceed (g : Grants) (id : Nat) : Continues g (g.proceed id) := by
  rcases proceed_cases id g with ⟨same, -⟩ | ⟨w, key, rest, events, -, -, he⟩
  · rw [same]
    exact .refl g
  · rw [he]
    have asked := continues_ask g (.addMembers key [w.user])
    exact ⟨asked.default, asked.journal.trans (List.prefix_append _ events)⟩

theorem continues_await (g : Grants) (id : Nat) : Continues g (g.await id) :=
  await_induction .refl .trans continues_proceed (fun _ _ _ => ⟨rfl, List.prefix_refl _⟩) g id

theorem upheld_continues (g : Grants) : Upheld (Continues g) where
  get _ := upholds_ask fun t h => h.trans (continues_ask t _)
  report e := fun t h => h.trans (continues_note t [e])
  take _ := fun _ h => ⟨h.default, h.journal⟩
  await id := fun t h => h.trans (continues_await t id)
  deleteEntry _ _ := upholds_ask fun t h => h.trans (continues_ask t _)
  removeMember _ _ _ := upholds_ask fun t h => h.trans (continues_ask t _)
  members _ _ := upholds_ask fun t h => h.trans (continues_ask t _)
  deleteIndex _ _ := upholds_ask fun t h => h.trans (continues_ask t _)
  family _ _ := upholds_ask fun t h => h.trans (continues_ask t _)
  proceed t id h := h.trans (continues_proceed t id)
  purge _ h := h.trans ⟨rfl, List.prefix_append _ _⟩
  pass _ _ h := ⟨h.default, h.journal⟩

theorem continues_move (g : Grants) (m : Move) : Continues g (g.move m).2 := by
  refine (upheld_continues g).move (.refl g) (fun kind user codes ttl _ _ => ?_)
    fun r _ => continues_ask g r
  exact (upheld_continues g).set (upholds_ask fun t h => h.trans (continues_ask t _))
    (fun _ h => ⟨h.default, h.journal⟩) (.refl g)

end Continues

/-! ## All moves -/

theorem orderly_start (now : Nat) (breaker : Breaker) (limit ttl size : Nat) :
    (Grants.start ⟨now, breaker, .bounded (.empty limit)⟩ ttl size).Orderly := by
  refine ⟨⟨⟨_, rfl, Store.distinct_empty limit⟩, nofun, Upkeep.sound_empty, nofun⟩,
    Upkeep.tidy_empty, fun x => Or.inl (Or.inl (Or.inr ?_))⟩
  exact Grant.not_listed rfl

/-- A cache is orderly all along a run. -/
theorem Runs.orderly {steps : List Step} (h : Runs g steps g') (ho : g.Orderly) : g'.Orderly := by
  induction h with
  | done g => exact ho
  | step lawful _ ih => exact ih (orderly_move ho lawful)

/-- What every move keeps that caches nothing for the user, a run keeps that caches nothing. -/
theorem Runs.keeps {steps : List Step} (h : Runs g steps g') (ho : g.Orderly)
    (other : ∀ s ∈ steps, ¬ s.Caches x.kind x.user) : x.Keeps g g' := by
  induction h with
  | done g => exact Grant.Respects.refl x g ho.sound
  | step lawful _ ih =>
    have first := keeps_move (x := x) ho lawful (other _ List.mem_cons_self)
    have rest := ih (orderly_move ho lawful) fun s hs => other s (List.mem_cons_of_mem _ hs)
    exact Grant.Respects.trans (fun _ => first) (fun _ => rest) ho.sound

theorem Runs.sameDefault {steps : List Step} (h : Runs g steps g') (ho : g.Orderly) :
    g'.defaultTtl = g.defaultTtl := by
  induction h with
  | done g => rfl
  | step lawful _ ih =>
    exact (ih (orderly_move ho lawful)).trans (continues_move _ _).default

/-- A run begins with its first move, and goes on as a run from there. -/
theorem Runs.head {s : Step} {steps : List Step} (h : Runs g (s :: steps) g') :
    s.move.Lawful g ∧ s.time = g.host.now ∧ s.ended = (g.move s.move).1 ∧
      Runs (g.move s.move).2 steps g' := by
  cases h with
  | step lawful rest => exact ⟨lawful, rfl, rfl, rest⟩

/-- A run can be cut anywhere. -/
theorem Runs.split {before after : List Step} (h : Runs g (before ++ after) g') :
    ∃ t, Runs g before t ∧ Runs t after g' := by
  induction before generalizing g with
  | nil => exact ⟨g, .done g, h⟩
  | cons s rest ih =>
    cases h with
    | step lawful tail =>
      obtain ⟨t, first, last⟩ := ih tail
      exact ⟨t, .step lawful first, last⟩

end GrantCache
