import GrantCache.Proofs.Grants.Effects
import GrantCache.Proofs.Grants.Work

/-!
# Runs that leave the tracking tidy

Plans that clear launch no index write and cannot be halted. Whoever takes index writes out of the
tracking waits for them, so that a plan that is run on its own leaves the tracking tidy
(`tidy_clear`). Of several plans that are run at once, some may take out writes that others rely on;
but then somebody waits for a write that is not done, and all that is queued runs
(`tidy_runTogether`). So an invalidation, too, leaves the tracking tidy (`tidy_invalidate`).
-/

namespace GrantCache

open Grants
open Program (Every)

variable {g g' g'' : Grants} {α β : Type}

/-! ## Effects of plans that clear -/

/-- An effect that neither writes anything nor launches an index write. -/
def Effect.Clearing : Effect → Prop
  | .ask (.get _) | .ask (.members _) | .ask (.delete _) | .ask (.deletePattern _)
  | .ask (.removeMembers ..) => True
  | .ask _ | .launch .. => False
  | .report _ | .takePending _ | .pendingKeys | .await _ => True

open Effect (Clearing)

theorem Plan.basic_clearing : Plan.Basic Clearing where
  get _ := trivial
  report _ := trivial
  take _ := trivial
  await _ := trivial

theorem Plan.clearing_clear (user : String) : Every Clearing (Plan.clear user) :=
  Plan.every_clear Plan.basic_clearing.toPatient (fun _ => trivial) (fun _ => trivial)
    fun _ _ => trivial

namespace Grants

/-- The store has a bound on its keys, so that the cache is kept in memory and answers every request.
-/
def Bounded (g : Grants) : Prop := ∃ s, g.store? = some s

theorem Bounded.ask (h : g.Bounded) (r : Request) : (g.ask r).2.Bounded := by
  obtain ⟨s, hs⟩ := h
  exact ⟨_, store?_ask hs r⟩

theorem Bounded.proceed (h : g.Bounded) (id : Nat) : (g.proceed id).Bounded := by
  rcases proceed_cases id g with ⟨same, -⟩ | ⟨w, key, rest, events, -, -, he⟩
  · rwa [same]
  · rw [he]
    exact h.ask (.addMembers key [w.user])

theorem Bounded.await (h : g.Bounded) (id : Nat) : (g.await id).Bounded :=
  await_induction (R := fun g g' => g.Bounded → g'.Bounded) (fun _ => fun h => h)
    (fun h h' => h' ∘ h) (fun _ id h => h.proceed id) (fun _ _ _ h => h) g id h

theorem Bounded.perform (h : g.Bounded) (e : Effect) : (perform e g).2.Bounded := by
  cases e with
  | ask r =>
    rw [Grants.perform]
    have asked := h.ask r
    split <;> simp_all
  | report e => exact h
  | launch user keys => exact h
  | takePending key => exact h
  | pendingKeys => exact h
  | await id => exact h.await id

/-- The store in memory answers every effect of a plan that clears. Only a deadline past the end of
the clock goes without an answer, and such plans set none. -/
theorem isSome_perform (h : g.Bounded) {e : Effect} (he : Clearing e) : (perform e g).1.isSome := by
  obtain ⟨s, hs⟩ := h
  have answers (r : Request) (hr : ∀ now s, (Store.serve now s r).response ≠ .beyondClock) :
      (perform (.ask r) g).1.isSome := by
    have response : (g.ask r).1 ≠ .beyondClock := by
      rw [ask_of_store hs]
      exact hr _ _
    rw [perform]
    split <;> simp_all
  cases e with
  -- Only requests that set a deadline can go past the end of the clock.
  | ask r =>
    refine answers r fun now s => ?_
    cases r with
    | get key =>
      rw [Store.serve, Store.get]
      split <;> simp
    | members key =>
      rw [Store.serve, Store.members]
      split <;> simp
    | delete key => simp [Store.serve, Store.delete]
    | deletePattern pattern => simp [Store.serve, Store.deletePattern]
    | removeMembers key names =>
      rw [Store.serve, Store.removeMembers]
      split
      · simp only
        split <;> simp
      · simp
      · simp
    | _ => exact he.elim
  | launch user keys => exact he.elim
  | _ => rfl

/-! ## What index writes have left -/

/-- No index write has anything left to do. -/
def AllDone (g : Grants) : Prop := ∀ id, g.upkeep.isDone id = true

theorem allDone_of_queued (h : g.upkeep.queued = []) : g.AllDone := by
  intro id
  rw [Upkeep.isDone]
  cases hw : g.upkeep.write? id with
  | none => rfl
  | some w =>
    have mem : w ∈ g.upkeep.writes := List.mem_of_find?_eq_some hw
    have := List.filter_eq_nil_iff.1 h w mem
    simpa using this

/-- Noticing that a write is done changes nothing about what is left of any write. -/
theorem AllDone.see (h : g.AllDone) (id : Nat) : AllDone { g with upkeep := g.upkeep.see id } := by
  intro other
  rw [Upkeep.isDone_iff, Upkeep.leftOf_see, ← Upkeep.isDone_iff]
  exact h other

/-- A write that is done does nothing when its turn comes. -/
theorem proceed_of_allDone (h : g.AllDone) (id : Nat) : g.proceed id = g := by
  rcases proceed_cases id g with ⟨same, -⟩ | ⟨w, key, rest, events, hw, hl, -⟩
  · exact same
  · have nothing := Upkeep.isDone_iff.1 (h id)
    rw [Upkeep.leftOf, hw] at nothing
    cases hl.symm.trans nothing

/-- Where all writes are done nothing is queued that could run. -/
theorem drain_of_allDone (h : g.AllDone) : g.drain = g :=
  drain_induction (R := fun g g' => g.AllDone → g' = g) (fun _ _ => rfl)
    (fun first second done => (second ((first done).symm ▸ done)).trans (first done))
    (fun _ id done => proceed_of_allDone done id) g h

theorem await_of_allDone (h : g.AllDone) (id : Nat) :
    g.await id = { g with upkeep := g.upkeep.see id } := by
  obtain ⟨_, waited⟩ | waited := await_cases id g
  · exact waited
  · rw [waited, drain_of_allDone h]

/-- Waiting for a write that is not done runs everything that is queued. -/
theorem allDone_await {id : Nat} (h : g.upkeep.isDone id = false) : (g.await id).AllDone := by
  rw [await_of_waits h]
  exact AllDone.see (isDone_drain g) id

/-- Index writes stand as they did, or all of them are done. -/
def Idles (g g' : Grants) : Prop :=
  g'.AllDone ∨ ∀ id, g'.upkeep.leftOf id = g.upkeep.leftOf id

theorem Idles.refl (g : Grants) : g.Idles g := Or.inr fun _ => rfl

theorem Idles.allDone (h : g.Idles g') (hd : g.AllDone) : g'.AllDone := by
  rcases h with done | same
  · exact done
  · intro id
    rw [Upkeep.isDone_iff, same, ← Upkeep.isDone_iff]
    exact hd id

theorem Idles.trans (h : g.Idles g') (h' : g'.Idles g'') : g.Idles g'' := by
  rcases h with done | same
  · exact Or.inl (h'.allDone done)
  · exact h'.imp_right fun same' id => (same' id).trans (same id)

theorem idles_await (g : Grants) (id : Nat) : g.Idles (g.await id) := by
  obtain ⟨_, waited⟩ | waited := await_cases id g
  · rw [waited]
    exact Or.inr fun other => Upkeep.leftOf_see id other g.upkeep
  · rw [waited]
    exact Or.inl (AllDone.see (isDone_drain g) id)

/-- An effect of a plan that clears keeps the writes as they are, or waits until all of them are done.
-/
theorem idles_perform {e : Effect} (he : Clearing e) (g : Grants) : g.Idles (perform e g).2 := by
  cases e with
  | ask r =>
    right
    rw [perform]
    have same := upkeep_ask r g
    split <;> simp_all
  | await id => exact idles_await g id
  | launch user keys => exact he.elim
  | _ => exact .refl _

theorem idles_run {p : Plan α} (hp : Every Clearing p) (g : Grants) : g.Idles (g.run p).2 :=
  hp.run (fun _ s he h => h.trans (idles_perform he s)) (Idles.refl g)

/-! ## One plan -/

/-- Every index write is tracked under the keys that are left to it, but for some that were taken
out. -/
def TidyBut (ids : List Nat) (g : Grants) : Prop :=
  ∀ id user key, g.upkeep.Owes id user key → id ∈ ids ∨ id ∈ g.upkeep.tracked key

/-- Nothing more is owed, and tracking is as it was. -/
structure Sheds (g g' : Grants) : Prop where
  owes : ∀ id user key, g'.upkeep.Owes id user key → g.upkeep.Owes id user key
  pending : g'.upkeep.pending = g.upkeep.pending

theorem Sheds.refl (g : Grants) : g.Sheds g := ⟨fun _ _ _ => id, rfl⟩

theorem Sheds.trans (h : g.Sheds g') (h' : g'.Sheds g'') : g.Sheds g'' :=
  ⟨fun id user key ho => h.owes id user key (h'.owes id user key ho), h'.pending.trans h.pending⟩

/-- A step of a queued write can only shorten what is left of it. -/
theorem sheds_proceed (g : Grants) (id : Nat) : g.Sheds (g.proceed id) := by
  rcases proceed_cases id g with ⟨same, -⟩ | ⟨w, key, rest, events, -, -, he⟩
  · rw [same]
    exact .refl g
  · rw [he]
    exact ⟨fun _ _ _ ho => ho.of_proceed, rfl⟩

theorem sheds_await (g : Grants) (id : Nat) : g.Sheds (g.await id) :=
  await_induction .refl .trans sheds_proceed (fun _ _ _ => ⟨fun _ _ _ ho => ho.of_see, rfl⟩) g id

theorem isDone_await (g : Grants) (id : Nat) : (g.await id).upkeep.isDone id = true := by
  obtain ⟨done, waited⟩ | waited := await_cases id g
  · rw [waited, Upkeep.isDone_iff, Upkeep.leftOf_see, ← Upkeep.isDone_iff, done]
  · rw [waited, Upkeep.isDone_iff, Upkeep.leftOf_see, ← Upkeep.isDone_iff, isDone_drain]

/-- Who waits for all the writes that were taken out leaves the tracking tidy. -/
theorem tidy_awaitAll {ids : List Nat} (h : g.TidyBut ids) :
    (g.run (ids.forM Plan.await)).2.upkeep.Tidy := by
  induction ids generalizing g with
  | nil => exact fun id user key ho => (h id user key ho).resolve_left List.not_mem_nil
  | cons id rest ih =>
    refine ih (g := g.await id) fun other user key ho => ?_
    have sheds := sheds_await g id
    rcases h other user key (sheds.owes _ _ _ ho) with hm | hm
    · rcases List.mem_cons.1 hm with rfl | hm
      · have := ho.not_done
        rw [isDone_await] at this
        cases this
      · exact Or.inl hm
    · right
      rw [Upkeep.tracked, sheds.pending]
      exact hm

/-- A plan that leaves the tracking tidy when it is run on its own. -/
def Tidies (p : Plan α) : Prop := ∀ g : Grants, g.upkeep.Tidy → (g.run p).2.upkeep.Tidy

theorem Tidies.bind {p : Plan α} {f : α → Plan β} (hp : Tidies p) (hf : ∀ a, Tidies (f a)) :
    Tidies (p >>= f) := by
  intro g hg
  have first := hp g hg
  rw [run_bind]
  rcases hr : g.run p with ⟨_ | a, t⟩
  · rwa [hr] at first
  · rw [hr] at first
    exact hf a t first

/-- Settling takes the writes of a key out of the tracking and waits for each of them, so that none is
lost before it is done. -/
theorem tidies_settle (key : String) : Tidies (Plan.settle key) := by
  intro g hg
  -- What is taken out is what is waited for.
  refine tidy_awaitAll (g := { g with upkeep := (g.upkeep.take key).2 }) fun id user key' ho => ?_
  have tracked := hg id user key' ho
  by_cases hk : key = key'
  · exact Or.inl (hk ▸ tracked)
  · right
    show id ∈ (g.upkeep.take key).2.tracked key'
    rwa [Upkeep.tracked_take, if_neg hk]

theorem tidies_forM {γ : Type} {f : γ → Plan Unit} (h : ∀ c, Tidies (f c)) (xs : List γ) :
    Tidies (xs.forM f) := by
  induction xs with
  | nil => exact fun g hg => hg
  | cons c rest ih => exact (h c).bind fun _ => ih

/-- An effect that has nothing to do with index writes. -/
def Aloof (e : Effect) : Prop := ∀ g : Grants, (perform e g).2.upkeep = g.upkeep

theorem aloof_ask (r : Request) : Aloof (.ask r) := by
  intro g
  rw [perform]
  have same := upkeep_ask r g
  split <;> simp_all

theorem aloof_report (e : Event) : Aloof (.report e) := fun _ => rfl

/-- A plan of effects that do not touch the tracking leaves it tidy. -/
theorem tidies_of_aloof {p : Plan α} (hp : Every Aloof p) : Tidies p := by
  intro g hg
  refine hp.run (I := fun s : Grants => s.upkeep.Tidy) ?_ hg
  intro e s he hs
  rwa [he s]

theorem tidies_read (kind : GrantKind) (user : String) : Tidies (Plan.read kind user) := by
  refine (tidies_of_aloof (Plan.every_ask (aloof_ask _))).bind fun answer => ?_
  refine tidies_of_aloof ?_
  split
  · trivial
  · split
    · trivial
    · exact (Plan.every_report (aloof_report _)).bind fun _ => trivial
  · exact (Plan.every_report (aloof_report _)).bind fun _ => trivial

theorem tidies_clear (user : String) : Tidies (Plan.clear user) := by
  refine (tidies_read .role user).bind fun roles => ?_
  refine (tidies_read .permission user).bind fun permissions => ?_
  refine (tidies_forM (fun code => tidies_settle _) _).bind fun _ => ?_
  refine (tidies_forM (fun code => tidies_settle _) _).bind fun _ => ?_
  exact tidies_of_aloof (Plan.every_attemptAll fun r _ => aloof_ask r)

/-! ## Several plans at once -/

/-- A plan that has to wait for an index write that is not done. -/
def Stuck (p : Plan α) (g : Grants) : Prop :=
  ∃ id next, p = .perform (.await id) next ∧ g.upkeep.isDone id = false

/-- Whether a plan waits for a write depends only on what the writes have left. -/
theorem Stuck.of_leftOf {p : Plan α} (h : Stuck p g)
    (same : ∀ id, g'.upkeep.leftOf id = g.upkeep.leftOf id) : Stuck p g' := by
  obtain ⟨id, next, rfl, hd⟩ := h
  refine ⟨id, next, rfl, ?_⟩
  rw [Bool.eq_false_iff, Ne, Upkeep.isDone_iff] at hd ⊢
  rwa [same]

/-- A plan that goes as far as it can comes to its end or is stuck. -/
theorem runUntil_cases {p : Plan α} (hp : Every Clearing p) (hb : g.Bounded) :
    ∃ left, (p.runUntil waits perform g).1 = some left ∧ Every Clearing left ∧
      (p.runUntil waits perform g).2.Bounded ∧ g.Idles (p.runUntil waits perform g).2 ∧
      ((∃ a, left = .done a ∧ g.run p = (some a, (p.runUntil waits perform g).2)) ∨
        Stuck left (p.runUntil waits perform g).2) := by
  have ends : (p.runUntil waits perform g).1.isSome :=
    hp.runUntil_isSome (I := Bounded) (fun e s _ _ h => h.perform e)
      (fun e s he h => isSome_perform h he) hb
  obtain ⟨left, hl⟩ := Option.isSome_iff_exists.1 ends
  have result : p.runUntil waits perform g = (some left, (p.runUntil waits perform g).2) := by
    rw [← hl]
  have bounded : (p.runUntil waits perform g).2.Bounded :=
    hp.runUntil (I := Bounded) (fun e s _ _ h => h.perform e) hb
  have idles : g.Idles (p.runUntil waits perform g).2 :=
    hp.runUntil (I := g.Idles) (fun e s he _ h => h.trans (idles_perform he s)) (.refl g)
  refine ⟨left, hl, hp.left result, bounded, idles, ?_⟩
  cases left with
  | done a => exact Or.inl ⟨a, rfl, Program.run_of_runUntil result⟩
  -- What is left begins with an effect that waits, and only an `await` does.
  | perform e next =>
    right
    have waiting := Program.waits_of_runUntil result
    cases e with
    | await id => exact ⟨id, next, rfl, by simpa [waits] using waiting⟩
    | _ => cases waiting

/-- Plans that go as far as they can all come to their ends and leave the tracking tidy, or one of
them is stuck, or all that was queued has run. -/
theorem advanceEach_cases {plans : List (Plan α)} (hp : ∀ p ∈ plans, Every Clearing p ∧ Tidies p)
    (hb : g.Bounded) :
    ∃ left, (advanceEach plans g).1 = some left ∧ (∀ p ∈ left, Every Clearing p) ∧
      (advanceEach plans g).2.Bounded ∧ g.Idles (advanceEach plans g).2 ∧
      (g.upkeep.Tidy →
        ((∀ p ∈ left, ∃ a, p = .done a) ∧ (advanceEach plans g).2.upkeep.Tidy) ∨
          (∃ p ∈ left, Stuck p (advanceEach plans g).2) ∨ (advanceEach plans g).2.AllDone) := by
  induction plans generalizing g with
  | nil => exact ⟨[], rfl, nofun, hb, .refl g, fun hg => Or.inl ⟨nofun, hg⟩⟩
  | cons p rest ih =>
    obtain ⟨every, tidies⟩ := hp p (by simp)
    obtain ⟨left, hl, hleft, bounded, idles, ends⟩ := runUntil_cases every hb
    rw [advanceEach]
    rcases hr : p.runUntil waits perform g with ⟨r, t⟩
    rw [hr] at hl bounded idles ends
    obtain rfl : r = some left := hl
    obtain ⟨others, ho, hothers, bounded', idles', ends'⟩ :=
      ih (g := t) (fun p hp' => hp p (by simp [hp'])) bounded
    rcases hr' : advanceEach rest t with ⟨r', u⟩
    rw [hr'] at ho bounded' idles' ends'
    obtain rfl : r' = some others := ho
    refine ⟨left :: others, by simp only [hr'], ?_, by simp only [hr']; exact bounded', ?_, ?_⟩
    · intro q hq
      rcases List.mem_cons.1 hq with rfl | hq
      · exact hleft
      · exact hothers q hq
    · simp only [hr']
      exact idles.trans idles'
    · simp only [hr']
      intro hg
      -- A plan that is done leaves the tracking tidy for the others. One that is stuck stays so, as long
      -- as the others let the index writes stand.
      rcases ends with ⟨a, rfl, run⟩ | stuck
      · have tidy := tidies g hg
        rw [run] at tidy
        rcases ends' tidy with ⟨ended, tidy'⟩ | ⟨q, hq, stuck⟩ | done
        · refine Or.inl ⟨fun q hq => ?_, tidy'⟩
          rcases List.mem_cons.1 hq with rfl | hq
          · exact ⟨a, rfl⟩
          · exact ended q hq
        · exact Or.inr (Or.inl ⟨q, by simp [hq], stuck⟩)
        · exact Or.inr (Or.inr done)
      · rcases idles' with done | same
        · exact Or.inr (Or.inr done)
        · exact Or.inr (Or.inl ⟨left, by simp, stuck.of_leftOf same⟩)

theorem runEach_done {plans : List (Plan α)} (h : ∀ p ∈ plans, ∃ a, p = .done a) (g : Grants) :
    (runEach plans g).2 = g := by
  induction plans with
  | nil => rfl
  | cons p rest ih =>
    obtain ⟨a, rfl⟩ := h p (by simp)
    have others := ih fun p hp => h p (by simp [hp])
    rw [runEach, run, Program.run]
    simp only
    split <;> simp_all

/-- Where a plan is stuck, all that is queued runs before the plans have come to their ends. -/
theorem runEach_cases {plans : List (Plan α)} (hp : ∀ p ∈ plans, Every Clearing p) (hb : g.Bounded) :
    (runEach plans g).1.isSome ∧ (runEach plans g).2.Bounded ∧ g.Idles (runEach plans g).2 ∧
      ((∃ p ∈ plans, Stuck p g) → (runEach plans g).2.AllDone) := by
  induction plans generalizing g with
  | nil => exact ⟨rfl, hb, .refl g, fun ⟨p, hp, _⟩ => nomatch hp⟩
  | cons p rest ih =>
    have every := hp p (by simp)
    have answered : (g.run p).1.isSome :=
      every.run_isSome (fun e s _ h => Bounded.perform h e) (fun e s he h => isSome_perform h he) hb
    have bounded : (g.run p).2.Bounded := every.run (I := Bounded) (fun e s _ h => h.perform e) hb
    have idles := idles_run every g
    -- The first thing that a stuck plan does is to let all that is queued run.
    have head : Stuck p g → (g.run p).2.AllDone := by
      rintro ⟨id, next, rfl, hd⟩
      exact (idles_run (every.2 ()) (g.await id)).allDone (allDone_await hd)
    rw [runEach]
    rcases hr : g.run p with ⟨r, t⟩
    rw [hr] at answered bounded idles head
    obtain ⟨a, rfl⟩ := Option.isSome_iff_exists.1 answered
    obtain ⟨answered', bounded', idles', ends⟩ := ih (g := t) (fun p hp' => hp p (by simp [hp'])) bounded
    rcases hr' : runEach rest t with ⟨r', u⟩
    rw [hr'] at answered' bounded' idles' ends
    obtain ⟨others, rfl⟩ := Option.isSome_iff_exists.1 answered'
    simp only [hr']
    refine ⟨rfl, bounded', idles.trans idles', ?_⟩
    rintro ⟨q, hq, stuck⟩
    rcases List.mem_cons.1 hq with rfl | hq
    · exact idles'.allDone (head stuck)
    · rcases idles with done | same
      · exact idles'.allDone done
      · exact ends ⟨q, hq, stuck.of_leftOf same⟩

/-- Plans that are run at once come to their ends and leave the tracking tidy. -/
theorem tidy_runTogether {plans : List (Plan α)} (hp : ∀ p ∈ plans, Every Clearing p ∧ Tidies p)
    (hb : g.Bounded) :
    (g.runTogether plans).1.isSome ∧ (g.runTogether plans).2.Bounded ∧
      (g.upkeep.Tidy → (g.runTogether plans).2.upkeep.Tidy) := by
  obtain ⟨left, hl, every, bounded, -, ends⟩ := advanceEach_cases hp hb
  rw [runTogether]
  rcases hr : advanceEach plans g with ⟨r, t⟩
  rw [hr] at hl bounded ends
  obtain rfl : r = some left := hl
  -- If none was stuck all had ended already; else no write is left that could be tracked.
  obtain ⟨answered, bounded', idles, done⟩ := runEach_cases every bounded
  refine ⟨answered, bounded', fun hg => ?_⟩
  rcases ends hg with ⟨ended, tidy⟩ | stuck | before
  · rwa [runEach_done ended]
  · exact Upkeep.tidy_of_done (done stuck)
  · exact Upkeep.tidy_of_done (idles.allDone before)

/-! ## Wide plans -/

/-- A wide effect that comes to its end over a bounded store and leaves the tracking tidy. -/
def TidiesWide (e : Effect.Wide) : Prop :=
  ∀ g : Grants, g.Bounded → (performWide e g).1.isSome ∧ (performWide e g).2.Bounded ∧
    (g.upkeep.Tidy → (performWide e g).2.upkeep.Tidy)

/-- Clearing several users at once leaves the tracking tidy, whichever of them takes out the writes
the others would have waited for. -/
theorem tidiesWide_clearAll (users : List String) : TidiesWide (.clearAll users) := by
  intro g hb
  refine tidy_runTogether (fun p hp => ?_) hb
  obtain ⟨user, -, rfl⟩ := List.mem_map.1 hp
  exact ⟨Plan.clearing_clear user, tidies_clear user⟩

theorem tidiesWide_single {e : Effect} (he : Clearing e) (aloof : Aloof e) :
    TidiesWide (.single e) := fun g hb =>
  ⟨isSome_perform hb he, Bounded.perform hb e, fun hg => by rw [performWide, aloof g]; exact hg⟩

/-- Taking a revoked code's members and clearing them is answered, and leaves the tracking tidy. -/
theorem tidy_clearIndex (size : Nat) (kind : GrantKind) (code : String) (hb : g.Bounded) :
    (g.runWide (Plan.clearIndex size kind code)).1.isSome ∧
      (g.upkeep.Tidy → (g.runWide (Plan.clearIndex size kind code)).2.upkeep.Tidy) := by
  have every : Every TidiesWide (Plan.clearIndex size kind code) := Plan.every_clearIndex
    (fun e => tidiesWide_single trivial (aloof_report e)) tidiesWide_clearAll
    (tidiesWide_single trivial (aloof_ask _)) (tidiesWide_single trivial (aloof_ask _)) size
  refine ⟨every.run_isSome (fun e s he h => (he s h).2.1) (fun e s he h => (he s h).1) hb, fun hg => ?_⟩
  refine (every.run (I := fun s : Grants => s.Bounded ∧ s.upkeep.Tidy) ?_ ⟨hb, hg⟩).2
  exact fun e s he h => ⟨(he s h.1).2.1, (he s h.1).2.2 h.2⟩

end Grants

end GrantCache
