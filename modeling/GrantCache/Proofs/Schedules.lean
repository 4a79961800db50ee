import GrantCache.Proofs.Crowd
import GrantCache.Proofs.Grants.Clearing
import GrantCache.Proofs.Grants.Caching

/-!
# What every schedule keeps

However calls are scheduled, the cache stays sound and each call performs only effects that keep to
what is promised about a grant, unless they spoil it that the user of the grant is found
(`Grant.Spoils`). A call that caches codes for a user comes to its end when an index write is due for
each of them (`due_of_ended`).
-/

namespace GrantCache

open Grants Crowd
open Remains (Goes)
open Program (Every)

variable {x : Grant} {g g' : Grants} {c : Crowd} {kind : GrantKind} {user code : String}

/-! ## Spoiling -/

namespace Grant

/-- What spoils it that the user is found, while the user's entry lists the code. -/
def Spoils (x : Grant) (g : Grants) : Effect → Prop
  | .takePending key => x.Listed g ∧ key = x.indexKey ∧ x.user ∉ g.users x.kind x.code
  | .ask (.removeMembers key names) => x.Listed g ∧ key = x.indexKey ∧ x.user ∈ names
  | .ask (.delete key) => x.Listed g ∧ key = x.indexKey
  | _ => False

instance (x : Grant) (g : Grants) : DecidablePred (x.Spoils g)
  | .takePending key =>
    inferInstanceAs (Decidable (x.Listed g ∧ key = x.indexKey ∧ x.user ∉ g.users x.kind x.code))
  | .ask (.removeMembers key names) =>
    inferInstanceAs (Decidable (x.Listed g ∧ key = x.indexKey ∧ x.user ∈ names))
  | .ask (.delete key) => inferInstanceAs (Decidable (x.Listed g ∧ key = x.indexKey))
  | .ask (.get _) | .ask (.set ..) | .ask (.deletePattern _) | .ask (.has _) | .ask (.ttl _)
  | .ask (.getMany _) | .ask (.setMany ..) | .ask (.increment _) | .ask (.decrement _)
  | .ask (.expire ..) | .ask (.addMembers ..) | .ask (.members _) | .report _ | .launch ..
  | .pendingKeys | .await _ => isFalse id

/-- An effect that keeps to what is promised about a grant unless it spoils it. -/
def Steady (x : Grant) (e : Effect) : Prop :=
  ∀ g, waits e g = false → ¬ x.Spoils g e → x.Respects g (perform e g).2

theorem Allows.steady {e : Effect} (h : x.Allows e) : x.Steady e := fun g hw _ => h g hw

theorem indexed_of_mem_users (h : x.user ∈ g.users x.kind x.code) : x.Indexed g := by
  rw [users] at h
  split at h
  · rename_i names deadline hi
    exact ⟨names, deadline, hi, h⟩
  · cases h

/-- Clearing users, and looking for whom to clear, is steady. -/
theorem common_steady (x : Grant) : Plan.Common x.Steady where
  get key := ((basic_allows x).get key).steady
  report e := ((basic_allows x).report e).steady
  take key := ((basic_allows x).take key).steady
  await id := ((basic_allows x).await id).steady
  deleteEntry kind user := (allows_ask (respects_delete_entry x · kind user)).steady
  members kind code := (allows_ask (respects_members x · (kind.indexKey code))).steady
  removeMember kind code user := by
    intro g _ unspoilt
    rw [perform_ask]
    refine respects_removeMembers x g kind code fun hk hu => Or.inr fun listed => ?_
    exact unspoilt ⟨listed, hk, by simp [hu]⟩
  deleteIndex kind code := by
    intro g _ unspoilt
    rw [perform_ask]
    exact respects_delete_index x g fun hk => Or.inr fun listed => unspoilt ⟨listed, hk⟩

end Grant

/-! ## What every schedule keeps -/

/-- An effect that keeps a cache sound. -/
def Effect.Safe (e : Effect) : Prop := ∀ g, waits e g = false → g.Sound → (perform e g).2.Sound

theorem Grant.Allows.safe {e : Effect} (h : x.Allows e) : e.Safe := fun g hw hs => (h g hw hs).sound

/-- An effect spoils grants of one set only. -/
theorem Grant.Spoils.indexKey_eq {y : Grant} {e : Effect} (hx : x.Spoils g e) (hy : y.Spoils g e) :
    x.indexKey = y.indexKey := by
  unfold Grant.Spoils at hx hy
  split at hx
  · exact hx.2.1.symm.trans hy.2.1
  · exact hx.2.1.symm.trans hy.2.1
  · exact hx.2.symm.trans hy.2
  · cases hx

/-- What is steady for every grant is safe, since it does not spoil all of them. -/
theorem Effect.safe_of_steady {e : Effect} (h : ∀ x : Grant, x.Steady e) : e.Safe := by
  intro g hw hs
  -- An effect cannot spoil a grant of a role and one of a permission, so it keeps one of them.
  by_cases hr : Grant.Spoils ⟨.role, "", ""⟩ g e
  · refine (h ⟨.permission, "", ""⟩ g hw (fun hp => ?_) hs).sound
    have same := GrantKind.indexKey_inj.1 (hr.indexKey_eq hp)
    cases same.1
  · exact (h _ g hw hr hs).sound

theorem common_safe : Plan.Common Effect.Safe where
  get key := Effect.safe_of_steady fun x => (Grant.common_steady x).get key
  report e := Effect.safe_of_steady fun x => (Grant.common_steady x).report e
  take key := Effect.safe_of_steady fun x => (Grant.common_steady x).take key
  await id := Effect.safe_of_steady fun x => (Grant.common_steady x).await id
  deleteEntry kind user := Effect.safe_of_steady fun x => (Grant.common_steady x).deleteEntry kind user
  removeMember kind code user :=
    Effect.safe_of_steady fun x => (Grant.common_steady x).removeMember kind code user
  members kind code := Effect.safe_of_steady fun x => (Grant.common_steady x).members kind code
  deleteIndex kind code := Effect.safe_of_steady fun x => (Grant.common_steady x).deleteIndex kind code

/-- Whatever is asked for, its effects keep a cache sound. -/
theorem safe_plan (g : Grants) (op : Op) : (Remains.alone (op.plan g)).Every Effect.Safe := by
  refine Remains.every_plan common_safe g op fun kind user codes ttl _ seconds => ⟨?_, ?_⟩
  · intro g _ hs
    rw [Grant.perform_ask]
    exact Grant.sound_set hs ..
  · exact (Grant.allows_launch ⟨kind, user, ""⟩ user (targets_indexKeys kind _)).safe

/-- What a call does is steady for every grant that it does not cache. -/
theorem steady_plan (g : Grants) {op : Op} (h : ¬ op.Caches x.kind x.user) :
    (Remains.alone (op.plan g)).Every x.Steady := by
  refine Remains.every_plan (Grant.common_steady x) g op fun kind user codes ttl ho seconds => ⟨?_, ?_⟩
  · subst ho
    have apart : kind.entryKey user ≠ x.entryKey := fun same => h (GrantKind.entryKey_inj.1 same)
    exact (Grant.allows_ask (Grant.respects_set x · apart _ _)).steady
  · exact (Grant.allows_launch x user (targets_indexKeys kind _)).steady

/-! ## Calls that cache codes -/

/-- What caching comes to in the end: the index write is launched. -/
def Remains.launching (x : Grant) (codes : List String) : WidePlan Unit :=
  .perform (.single (.launch x.user (codes.eraseDups.map fun code => x.kind.indexKey code)))
    fun _ => .done ()

/-- How far a call has got that caches codes. -/
inductive Remains.Caching (x : Grant) (codes : List String) : Remains → Prop
  | writing (ttl : Nat) :
    Caching x codes (.alone ((Plan.store x.kind x.user codes ttl).widen >>= fun _ => .done ()))
  | launching : Caching x codes (.alone (launching x codes))
  | done : Caching x codes (.alone (.done ()))
  | halted : Caching x codes .halted

/-- Caching begins with the entry, and goes on with the index write if there are codes. -/
theorem plan_store {codes : List String} (hc : x.code ∈ codes) (ttl : Nat) :
    ∃ next : Except Fault Unit → WidePlan Unit,
      ((Plan.store x.kind x.user codes ttl).widen >>= fun _ => .done ()) =
        .perform (.single (.ask (.set x.entryKey (.texts codes.eraseDups) (some ttl)))) next ∧
      next (.ok ()) = Remains.launching x codes := by
  have some : ¬ codes.eraseDups.isEmpty := by
    rw [List.isEmpty_iff]
    exact List.ne_nil_of_mem (List.mem_eraseDups.2 hc)
  refine ⟨_, rfl, ?_⟩
  simp only [if_neg some]
  rfl

/-- A bounded store answers that a value was written, unless it is halted. -/
theorem ok_of_outcome_set (hs : g.Sound) {key : String} {value : Json} {ttl : Option Nat}
    {a : Except Fault Unit} (h : Outcome (.ask (.set key value ttl)) g (some a) g') : a = .ok () := by
  obtain ⟨s, store, -⟩ := hs.store
  have response : (g.ask (.set key value ttl)).1 =
      if (ttlDeadline? g.host.now ttl).isSome then .ok () else .beyondClock := by
    rw [ask_of_store store]
    exact Store.response_set ..
  have performed := h.2
  rcases hr : g.ask (.set key value ttl) with ⟨answer, t⟩
  rw [hr] at response
  rw [perform, hr] at performed
  split at response
  · obtain rfl : answer = .ok () := response
    exact (Option.some.inj (Prod.mk.inj performed).1).symm
  · obtain rfl : answer = .beyondClock := response
    cases (Prod.mk.inj performed).1

/-- A turn of a call that caches goes on with it. When it ends, a write for each of its codes is due
and tracked. -/
theorem Remains.Caching.goes {codes : List String} {left left' : Remains} {place : Nat} (h : left.Caching x codes)
    (hc : x.code ∈ codes) (hs : g.Sound) (hg : Goes place left g left' g') :
    left'.Caching x codes ∧ (left.isDone = false → left'.isDone = true →
      ∃ id ∈ g'.upkeep.tracked x.indexKey, x.Due id g') := by
  cases h with
  | writing ttl =>
    obtain ⟨next, plan, after⟩ := plan_store hc ttl
    rw [plan] at hg ⊢
    cases hg with
    | rest =>
      rw [← plan]
      exact ⟨.writing ttl, fun _ h => nomatch h⟩
    | single ho =>
      rw [ok_of_outcome_set hs ho, after]
      exact ⟨.launching, fun _ h => nomatch h⟩
    | halt ho => exact ⟨.halted, fun _ h => nomatch h⟩
  | launching =>
    cases hg with
    | rest => exact ⟨.launching, fun _ h => nomatch h⟩
    | single ho =>
      -- The call ends with the launch, and the write that is launched is the one that is due.
      refine ⟨.done, fun _ _ => ?_⟩
      obtain ⟨-, ho⟩ := ho
      have key : x.indexKey ∈ codes.eraseDups.map fun code => x.kind.indexKey code :=
        List.mem_map.2 ⟨x.code, List.mem_eraseDups.2 hc, rfl⟩
      obtain ⟨-, rfl⟩ := Prod.mk.inj ho
      exact ⟨_, Upkeep.tracked_launch hs.upkeep x.user key, Upkeep.owes_launch hs.upkeep x.user key⟩
    | halt ho => exact ⟨.halted, fun _ h => nomatch h⟩
  | done =>
    cases hg
    exact ⟨.done, fun h => nomatch h⟩
  | halted =>
    cases hg
    exact ⟨.halted, fun _ h => nomatch h⟩

/-! ## All schedules -/

/-- What is known of a call at any time. -/
structure Call.Proper (call : Call) : Prop where
  safe : call.left.Every Effect.Safe
  steady : ∀ x : Grant, ¬ call.op.Caches x.kind x.user → call.left.Every x.Steady
  stage : ∀ (x : Grant) (codes : List String) (ttl : Option Nat),
    call.op = .set x.kind x.user codes ttl → x.code ∈ codes → call.left.Caching x codes

/-- What is known of a cache and its calls at any time. -/
structure Crowd.Proper (c : Crowd) : Prop where
  sound : c.grants.Sound
  calls : ∀ call ∈ c.calls, call.Proper

theorem proper_begin (g : Grants) (op : Op) : Call.Proper ⟨op, .alone (op.plan g)⟩ where
  safe := safe_plan g op
  steady _ h := steady_plan g h
  stage x codes ttl ho _ := by
    obtain rfl : op = .set x.kind x.user codes ttl := ho
    exact .writing _

theorem Call.Proper.goes {call : Call} {place : Nat} {left : Remains} (h : call.Proper) (hs : g.Sound)
    (hg : Goes place call.left g left g') : Call.Proper ⟨call.op, left⟩ where
  safe := h.safe.goes hg
  steady x hx := (h.steady x hx).goes hg
  stage x codes ttl ho hc := ((h.stage x codes ttl ho hc).goes hc hs hg).1

/-- A turn keeps all calls proper. -/
theorem proper_turn (h : c.Proper) (t : Turn) : (c.turn t).Proper := by
  refine ⟨?_, forall_calls_turn h.calls (proper_begin c.grants) (fun hc hg => hc.goes h.sound hg) t⟩
  cases t with
  | ask op => exact h.sound
  | go i place =>
    rcases turn_go i place c with same | ⟨call, left, grants, hi, hg, he⟩
    · rw [same]
      exact h.sound
    · rw [he]
      rcases hg.cases with rfl | ⟨e, hn, hw, rfl⟩
      · exact h.sound
      · have safe := (h.calls call (List.mem_of_getElem? hi)).safe.next hn
        exact safe c.grants hw h.sound
  | work id => exact (Grant.respects_proceed ⟨.role, "", ""⟩ c.grants id h.sound).sound
  | pass ms => exact (Grant.respects_pass ⟨.role, "", ""⟩ c.grants ms h.sound).sound

theorem proper_start (now : Nat) (breaker : Breaker) (limit ttl size : Nat) :
    (Crowd.start ⟨now, breaker, .bounded (.empty limit)⟩ ttl size).Proper :=
  ⟨⟨⟨_, rfl, Store.distinct_empty limit⟩, nofun, Upkeep.sound_empty, nofun⟩, nofun⟩

/-- After any turns all calls are proper. -/
theorem proper_play (h : c.Proper) (turns : List Turn) : (c.play turns).Proper :=
  (throughout_true turns c).play (fun _ h => proper_turn h _) h

/-- When codes have been cached, an index write is due for each of them, and tracked. -/
theorem due_of_ended (h : c.Proper) {codes : List String} {ttl : Option Nat} {i place : Nat}
    {left : Remains} (hi : c.calls[i]? = some ⟨.set x.kind x.user codes ttl, left⟩) (hc : x.code ∈ codes)
    (running : c.hasEnded i = false) (ended : (c.turn (.go i place)).hasEnded i = true) :
    x.FoundOrDue ((c.turn (.go i place)).grants.upkeep.tracked x.indexKey)
      (c.turn (.go i place)).grants := by
  rcases turn_go i place c with same | ⟨call, left', grants, hi', hg, he⟩
  · rw [same, running] at ended
    cases ended
  · obtain rfl := Option.some.inj (hi.symm.trans hi')
    have proper := h.calls _ (List.mem_of_getElem? hi)
    have inside : i < c.calls.length := (List.getElem?_eq_some_iff.1 hi).1
    rw [hasEnded, hi] at running
    rw [he] at ended ⊢
    rw [hasEnded, List.getElem?_set_self inside] at ended
    have launched := ((proper.stage x codes ttl rfl hc).goes hc h.sound hg).2 running ended
    exact Or.inr launched

end GrantCache
