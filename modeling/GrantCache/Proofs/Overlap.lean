import GrantCache.Proofs.Schedules

/-!
# Invalidation among other calls

An invalidation that begins when a user's codes have been cached is meant to clear the user, whatever
calls run at the same time. It does if nobody else spoils it that the user is found (`Grant.Spoils`):
nobody takes the pending index write away before the user is in the set of the code, and nobody takes
the user out of the set, or the set away, while the user still has an entry that lists the code
(`cleared_among_calls`). Calls that begin when the user is in the set never do that; calls that began
earlier can (`missed_by_second_invalidation`).
-/

namespace GrantCache

open Grants Crowd
open Remains (Goes)

variable {x : Grant} {g g' : Grants} {c c' : Crowd} {mine : Option Nat} {n : Nat} {t : Turn}

/-! ## Calls that begin when the user is found -/

theorem wideAssures_settle (kind : GrantKind) (code : String) (hs : g.Sound) (found : x.Found g) :
    x.WideAssures (fun _ t => t.Sound ∧ x.Found t) (Plan.settle (kind.indexKey code)).widen g :=
  (Grant.assures_of_every (Plan.every_settle (Grant.basic_allows x).toPatient _) Grant.Keeps.found
    (fun he _ hw => he _ hw) hs found).widen

/-- The invalidation of any code leaves a grant found, as long as the others keep to it. -/
theorem wideAssures_invalidate (size : Nat) (kind : GrantKind) (code : String) (hs : g.Sound)
    (found : x.Found g) :
    x.WideAssures (fun _ t => t.Sound ∧ x.Found t) (Plan.invalidate size kind code) g := by
  refine Grant.wideAssures_bind (wideAssures_settle kind code hs found) fun _ t ht => ?_
  have clears := Grant.assures_clearIndex size kind code ht.1 fun _ => ht.2
  refine (clears.keeping (I := fun t => t.Sound ∧ x.Found t) ?_ ht).mono fun _ _ h => h.2
  exact fun h hi => ⟨(h hi.1).sound, (h hi.1).found hi.2⟩

theorem wideAssures_invalidateAll (size : Nat) (kind : GrantKind) (codes : List String) (hs : g.Sound)
    (found : x.Found g) :
    x.WideAssures (fun _ t => t.Sound ∧ x.Found t) (Plan.invalidateAll size kind codes) g := by
  induction codes generalizing g with
  | nil => exact fun t ht => ⟨(ht hs).sound, (ht hs).found found⟩
  | cons code rest ih =>
    refine Grant.wideAssures_bind (wideAssures_invalidate size kind code hs found) fun _ t ht => ?_
    refine Grant.wideAssures_bind (ih ht.1 ht.2) fun _ u hu => ?_
    exact fun v hv => ⟨(hv hu.1).sound, (hv hu.1).found hu.2⟩

/-- A call that begins when the user is found, and caches nothing for the user, keeps to what is
promised. -/
theorem assures_plan (hs : g.Sound) (found : x.Found g) (settings : Grants) {op : Op}
    (h : ¬ op.Caches x.kind x.user) : (Remains.alone (op.plan settings)).Assures x Sound g := by
  have ends {α : Type} {p : WidePlan α} {R : α → Grants → Prop} (hp : x.WideAssures R p g)
      (hR : ∀ a t, R a t → t.Sound) : x.WideAssures (fun _ => Sound) (p >>= fun _ => .done ()) g :=
    Grant.wideAssures_bind hp fun a t ht u hu => (hu (hR a t ht)).sound
  cases op with
  | set kind user codes ttl =>
    -- What is cached is for another user or of another kind.
    have apart : kind.entryKey user ≠ x.entryKey := fun same => h (GrantKind.entryKey_inj.1 same)
    have allowed : Program.Every x.Allows
        (Plan.store kind user codes (ttl.getD settings.defaultTtl)) :=
      Plan.every_store (Grant.allows_report x) (Grant.allows_ask (Grant.respects_set x · apart _ _))
        (Grant.allows_launch x user (targets_indexKeys kind _))
    exact ends (Grant.assures_of_allows allowed hs).widen fun _ _ ht => ht
  | get kind user =>
    have allowed := Plan.every_read (Grant.allows_report x)
      ((Grant.basic_allows x).get (kind.entryKey user))
    exact ends (Grant.assures_of_allows allowed hs).widen fun _ _ ht => ht
  | deleteUser user => exact ends (Grant.assures_delete x user hs).widen fun _ _ ht => ht.1
  | invalidate kind code =>
    exact ends (wideAssures_invalidate _ kind code hs found) fun _ _ ht => ht.1
  | invalidateAll kind codes =>
    exact ends (wideAssures_invalidateAll _ kind codes hs found) fun _ _ ht => ht.1

/-! ## Until the invalidation waits -/

namespace Grant

/-- The grant is found, or a write is due that is tracked. -/
def Tracked (x : Grant) (g : Grants) : Prop := x.FoundOrDue (g.upkeep.tracked x.indexKey) g

theorem Tracked.of_respects (h : x.Tracked g) (hs : g.Sound) (hr : x.Respects g g')
    (still : ∀ id, x.Due id g → id ∈ g.upkeep.tracked x.indexKey →
      id ∈ g'.upkeep.tracked x.indexKey) : x.Tracked g' := by
  rcases h with found | ⟨id, hi, due⟩
  · exact Or.inl ((hr hs).found found)
  · exact ((hr hs).due id due).symm.imp_right fun due' => ⟨id, still id due hi, due'⟩

/-- Where taking out the index writes would not spoil it, the grant is found. -/
theorem found_of_unspoilt (h : ¬ x.Spoils g (.takePending x.indexKey)) : x.Found g := by
  by_cases listed : x.Listed g
  · by_cases mem : x.user ∈ g.users x.kind x.code
    · exact Or.inr (indexed_of_mem_users mem)
    · exact absurd ⟨listed, rfl, mem⟩ h
  · exact Or.inl (Or.inr listed)

/-- An effect that does not spoil a grant leaves it tracked. -/
theorem Tracked.perform (h : x.Tracked g) (hs : g.Sound) {e : Effect} (hw : waits e g = false)
    (steady : x.Steady e) (unspoilt : ¬ x.Spoils g e) : x.Tracked (perform e g).2 := by
  have hr := steady g hw unspoilt
  cases e with
  | ask r =>
    refine h.of_respects hs hr fun id _ hi => ?_
    rw [perform_ask]
    exact hi
  | report e => exact h.of_respects hs hr fun id _ hi => hi
  | launch user keys =>
    exact h.of_respects hs hr fun id due hi => Upkeep.Owes.tracked_launch due hs.upkeep hi user keys
  | takePending key =>
    -- The writes of the set are taken out. Unless this spoils it, the user is found without them.
    by_cases hk : key = x.indexKey
    · subst hk
      exact Or.inl ((hr hs).found (found_of_unspoilt unspoilt))
    · refine h.of_respects hs hr fun id _ hi => ?_
      show id ∈ (g.upkeep.take key).2.tracked x.indexKey
      rw [Upkeep.tracked_take, if_neg hk]
      exact hi
  | pendingKeys => exact h
  | await id =>
    refine h.of_respects hs hr fun other _ hi => ?_
    show other ∈ (g.await id).upkeep.tracked x.indexKey
    rw [Upkeep.tracked, (sheds_await g id).pending]
    exact hi

end Grant

/-! ## One turn among others -/

/-- A turn in which nobody but `mine` spoils it that the user of a grant is found. Calls numbered `n`
or later are not restricted, but they begin when the user is found. Nobody begins to cache codes for
the user. -/
def Undisturbed (x : Grant) (n : Nat) (mine : Option Nat) (c : Crowd) (t : Turn) : Prop :=
  (∀ p ∈ c.acts? t, mine ≠ some p.1 → p.1 < n → ¬ x.Spoils c.grants p.2) ∧
  ∀ op ∈ t.asks?, ¬ op.Caches x.kind x.user ∧
    (n ≤ c.calls.length → ¬ x.Listed c.grants ∨ x.user ∈ c.grants.users x.kind x.code)

instance (x : Grant) (n : Nat) (mine : Option Nat) (c : Crowd) (t : Turn) :
    Decidable (Undisturbed x n mine c t) := inferInstanceAs (Decidable (_ ∧ _))

/-- What holds from the end of the caching on. The call `mine` is the invalidation, as soon as there
is one: either it has not begun to wait, and whatever is due is tracked; or it is assured of its
end. -/
structure Guard (x : Grant) (n : Nat) (mine : Option Nat) (c : Crowd) : Prop where
  sound : c.grants.Sound
  steady : ∀ i call, c.calls[i]? = some call → mine ≠ some i → call.left.Every x.Steady
  later : ∀ i call, c.calls[i]? = some call → mine ≠ some i → n ≤ i →
    x.Found c.grants ∧ call.left.Assures x Sound c.grants
  own : (x.Tracked c.grants ∧ ∀ a, mine = some a → ∃ call settings, c.calls[a]? = some call ∧
      call.left = .alone ((Op.invalidate x.kind x.code).plan settings)) ∨
    ∃ a call, mine = some a ∧ c.calls[a]? = some call ∧ call.left.Assures x x.Loose c.grants

/-- What others do, as long as they keep to it. -/
theorem Guard.others (h : Guard x n mine c) (hr : x.Respects c.grants c'.grants)
    (tracked : x.Tracked c.grants → x.Tracked c'.grants)
    (calls : ∀ i call, c'.calls[i]? = some call → mine ≠ some i → c.calls[i]? = some call ∨
      (call.left.Every x.Steady ∧
        (n ≤ i → x.Found c'.grants ∧ call.left.Assures x Sound c'.grants)))
    (same : ∀ a, mine = some a → c'.calls[a]? = c.calls[a]?) : Guard x n mine c' := by
  have keeps := hr h.sound
  refine ⟨keeps.sound, fun i call hi hm => ?_, fun i call hi hm hn => ?_, ?_⟩
  · rcases calls i call hi hm with old | new
    · exact h.steady i call old hm
    · exact new.1
  · rcases calls i call hi hm with old | new
    · obtain ⟨found, assured⟩ := h.later i call old hm hn
      exact ⟨keeps.found found, assured.after hr⟩
    · exact new.2 hn
  · rcases h.own with ⟨due, waiting⟩ | ⟨a, call, rfl, ha, assured⟩
    · refine Or.inl ⟨tracked due, fun a hm => ?_⟩
      rw [same a hm]
      exact waiting a hm
    · refine Or.inr ⟨a, call, rfl, ?_, assured.after hr⟩
      rw [same a rfl]
      exact ha

/-- A call that begins quietly keeps the guard. -/
theorem guard_ask (h : Guard x n mine c) {op : Op} (quiet : Undisturbed x n mine c (.ask op))
    (begun : ∀ a, mine = some a → a < c.calls.length) : Guard x n mine (c.turn (.ask op)) := by
  obtain ⟨other, found⟩ := quiet.2 op rfl
  refine h.others (.refl x _) id (fun i call hi _ => ?_) fun a ha => ?_
  · rcases Nat.lt_or_ge i c.calls.length with old | new
    · left
      rwa [turn, List.getElem?_append_left old] at hi
    · right
      have last : i = c.calls.length := by
        have bound : i < (c.turn (.ask op)).calls.length := (List.getElem?_eq_some_iff.1 hi).1
        rw [turn, List.length_append, List.length_singleton] at bound
        omega
      subst last
      rw [turn, List.getElem?_concat_length] at hi
      obtain rfl := Option.some.inj hi
      -- The new call has what `h` says of the others.
      refine ⟨steady_plan c.grants other, fun hn => ?_⟩
      have now : x.Found c.grants := by
        rcases found hn with unlisted | mem
        · exact Or.inl (Or.inr unlisted)
        · exact Or.inr (Grant.indexed_of_mem_users mem)
      exact ⟨now, assures_plan h.sound now c.grants other⟩
  · rw [turn, List.getElem?_append_left (begun a ha)]

/-- A quiet turn of somebody else keeps the guard. -/
theorem guard_go (h : Guard x n mine c) {i place : Nat} (quiet : Undisturbed x n mine c (.go i place))
    (hm : mine ≠ some i) : Guard x n mine (c.turn (.go i place)) := by
  rcases turn_go i place c with same | ⟨call, left, grants, hi, hg, he⟩
  · rwa [same]
  have inside : i < c.calls.length := (List.getElem?_eq_some_iff.1 hi).1
  have steady := h.steady i call hi hm
  have later := h.later i call hi hm
  have act (e : Effect) (hn : call.left.next? place = some e) (early : i < n) :
      ¬ x.Spoils c.grants e := by
    refine quiet.1 (i, e) ?_ hm early
    simp [acts?, hi, hn]
  -- A call before `n` is steady and does not spoil it; a later one is assured of keeping to it.
  have hr : x.Respects c.grants grants := by
    rcases Nat.lt_or_ge i n with early | late
    · rcases hg.cases with rfl | ⟨e, hn, hw, rfl⟩
      · exact .refl x _
      · exact steady.next hn c.grants hw (act e hn early)
    · exact ((later late).2.goes h.sound hg).1
  have tracked (ht : x.Tracked c.grants) : x.Tracked grants := by
    rcases Nat.lt_or_ge i n with early | late
    · rcases hg.cases with rfl | ⟨e, hn, hw, rfl⟩
      · exact ht
      · exact ht.perform h.sound hw (steady.next hn) (act e hn early)
    · exact Or.inl ((hr h.sound).found (later late).1)
  rw [he]
  refine h.others hr tracked (fun j other hj _ => ?_) fun a ha => ?_
  · by_cases hij : i = j
    · subst hij
      rw [List.getElem?_set_self inside] at hj
      obtain rfl := Option.some.inj hj
      refine Or.inr ⟨steady.goes hg, fun late => ⟨(hr h.sound).found (later late).1, ?_⟩⟩
      exact ((later late).2.goes h.sound hg).2
    · exact Or.inl (by rwa [List.getElem?_set_ne hij] at hj)
  · have apart : i ≠ a := fun same => hm (by rw [ha, same])
    exact List.getElem?_set_ne apart

/-- The invalidation goes on to what it is assured of. -/
theorem Guard.advance {i : Nat} (h : Guard x n (some i) c) (hr : x.Respects c.grants g')
    (inside : i < c.calls.length) {call : Call} (assured : call.left.Assures x x.Loose g') :
    Guard x n (some i) ⟨g', c.calls.set i call⟩ := by
  have keeps := hr h.sound
  have others (j : Nat) (hm : some i ≠ some j) : (c.calls.set i call)[j]? = c.calls[j]? :=
    List.getElem?_set_ne fun same => hm (by rw [same])
  refine ⟨keeps.sound, fun j other hj hm => ?_, fun j other hj hm hn => ?_, ?_⟩
  · rw [others j hm] at hj
    exact h.steady j other hj hm
  · rw [others j hm] at hj
    obtain ⟨found, still⟩ := h.later j other hj hm hn
    exact ⟨keeps.found found, still.after hr⟩
  · exact Or.inr ⟨i, call, rfl, List.getElem?_set_self inside, assured⟩

/-- What is left of an invalidation when the index writes have been taken out. -/
theorem plan_invalidate (kind : GrantKind) (code : String) (settings : Grants) :
    (Op.invalidate kind code).plan settings =
      .perform (.single (.takePending (kind.indexKey code))) fun ids =>
        ((Plan.widen (ids.forM Plan.await)) >>= fun _ =>
          Plan.clearIndex settings.batchSize kind code) >>= fun _ => .done () := rfl

/-- The turns of the invalidation itself keep the guard. -/
theorem guard_go_mine {i place : Nat} (h : Guard x n (some i) c) :
    Guard x n (some i) (c.turn (.go i place)) := by
  rcases turn_go i place c with same | ⟨call, left, grants, hi, hg, he⟩
  · rwa [same]
  have inside : i < c.calls.length := (List.getElem?_eq_some_iff.1 hi).1
  rw [he]
  rcases h.own with ⟨due, waiting⟩ | ⟨a, call', ha, hc, assured⟩
  · obtain ⟨call', settings, hc, whole⟩ := waiting i rfl
    obtain rfl := Option.some.inj (hi.symm.trans hc)
    rw [whole, plan_invalidate] at hg
    cases hg with
    | rest =>
      rw [← plan_invalidate, ← whole]
      obtain ⟨_, rfl⟩ := List.getElem?_eq_some_iff.1 hi
      show Guard x n (some i) ⟨c.grants, c.calls.set i c.calls[i]⟩
      rw [List.set_getElem_self]
      exact h
    | halt ho => cases (Prod.mk.inj ho.2).1
    | single ho =>
      -- Taking out the index writes: whatever is due is among them from now on.
      obtain ⟨answer, rfl⟩ := Prod.mk.inj ho.2
      obtain rfl := Option.some.inj answer
      have taken := Grant.respects_take x c.grants x.indexKey
      have keeps := taken h.sound
      refine h.advance taken inside ?_
      refine Grant.wideAssures_bind (Grant.assures_invalidate settings.batchSize x.kind x.code
        keeps.sound fun _ => keeps.foundOrDue due) fun _ t ht u hu => ?_
      exact (hu ht.1).loose (ht.2 rfl)
  · obtain rfl := Option.some.inj ha
    obtain rfl := Option.some.inj (hi.symm.trans hc)
    obtain ⟨own, rest⟩ := assured.goes h.sound hg
    exact h.advance own inside rest

theorem guard_turn (h : Guard x n mine c) (quiet : Undisturbed x n mine c t)
    (begun : ∀ a, mine = some a → a < c.calls.length) : Guard x n mine (c.turn t) := by
  cases t with
  | ask op => exact guard_ask h quiet begun
  | go i place =>
    by_cases hm : mine = some i
    · subst hm
      exact guard_go_mine h
    · exact guard_go h quiet hm
  | work id =>
    refine h.others (Grant.respects_proceed x c.grants id) (fun due => ?_) (fun _ _ hi _ => Or.inl hi)
      fun _ _ => rfl
    refine due.of_respects h.sound (Grant.respects_proceed x c.grants id) fun other _ hi => ?_
    show other ∈ (c.grants.proceed id).upkeep.tracked x.indexKey
    rw [Upkeep.tracked, (sheds_proceed c.grants id).pending]
    exact hi
  | pass ms =>
    have hr := Grant.respects_pass x c.grants ms
    exact h.others hr (fun due => due.of_respects h.sound hr fun _ _ hi => hi)
      (fun _ _ hi _ => Or.inl hi) fun _ _ => rfl

/-! ## The whole schedule -/

theorem length_le_turn (t : Turn) (c : Crowd) : c.calls.length ≤ (c.turn t).calls.length := by
  cases t with
  | ask op => simp [turn]
  | go i place =>
    rcases turn_go i place c with same | ⟨call, left, grants, -, -, he⟩
    · exact Nat.le_of_eq (by rw [same])
    · exact Nat.le_of_eq (by rw [he, List.length_set])
  | work id => exact Nat.le_refl _
  | pass ms => exact Nat.le_refl _

/-- Turns in which all others are quiet keep the guard. -/
theorem guard_play (h : Guard x n mine c) (begun : ∀ a, mine = some a → a < c.calls.length)
    {turns : List Turn} (quiet : Throughout (Undisturbed x n mine) turns c) :
    Guard x n mine (c.play turns) := by
  have both : Guard x n mine (c.play turns) ∧ ∀ a, mine = some a → a < (c.play turns).calls.length := by
    refine quiet.play (I := fun c => Guard x n mine c ∧ ∀ a, mine = some a → a < c.calls.length)
      (fun {c t} quiet hc => ⟨guard_turn hc.1 quiet hc.2, fun a ha => ?_⟩) ⟨h, begun⟩
    exact Nat.lt_of_lt_of_le (hc.2 a ha) (length_le_turn t c)
  exact both.1

/-- The invalidation begins under the guard. -/
theorem Guard.begin (h : Guard x n none c) :
    Guard x n (some c.calls.length) (c.turn (.ask (.invalidate x.kind x.code))) := by
  have others (i : Nat) (call : Call) (hi : (c.turn (.ask (.invalidate x.kind x.code))).calls[i]? =
      some call) (hm : some c.calls.length ≠ some i) : c.calls[i]? = some call := by
    have bound := (List.getElem?_eq_some_iff.1 hi).1
    rw [turn, List.length_append, List.length_singleton] at bound
    have apart : i ≠ c.calls.length := fun same => hm (by rw [same])
    rwa [turn, List.getElem?_append_left (by omega)] at hi
  refine ⟨h.sound, fun i call hi hm => h.steady i call (others i call hi hm) (by simp),
    fun i call hi hm => h.later i call (others i call hi hm) (by simp), Or.inl ?_⟩
  rcases h.own with ⟨due, -⟩ | ⟨a, _, none, _⟩
  · refine ⟨due, fun a ha => ?_⟩
    obtain rfl := Option.some.inj ha
    exact ⟨_, c.grants, List.getElem?_concat_length, rfl⟩
  · cases none

/-- When the invalidation has come to its end, the user has no entry that lists the code. -/
theorem Guard.loose {i : Nat} (h : Guard x n (some i) c) (ended : c.hasEnded i = true) :
    x.Loose c.grants := by
  rw [hasEnded] at ended
  rcases h.own with ⟨-, waiting⟩ | ⟨a, call, ha, hc, assured⟩
  · obtain ⟨call, settings, hc, whole⟩ := waiting i rfl
    rw [hc] at ended
    -- A call that has not begun to wait has not ended.
    simp [whole, plan_invalidate, Remains.isDone] at ended
  · obtain rfl := Option.some.inj ha
    rw [hc] at ended
    have done : call.left = .alone (.done ()) := Remains.eq_done_of_isDone ended
    rw [done] at assured
    exact assured c.grants (.refl x _)

/-- What holds when a user's codes have been cached and nobody else is caching codes for the user. -/
theorem guard_of_cached {codes : List String} {seconds : Option Nat} {i place : Nat} {left : Remains}
    (h : c.Proper) (hi : c.calls[i]? = some ⟨.set x.kind x.user codes seconds, left⟩)
    (listed : x.code ∈ codes) (running : c.hasEnded i = false)
    (cached : ∀ call ∈ (c.turn (.go i place)).calls, call.op.Caches x.kind x.user →
      call.left.isDone = true)
    (hn : c.calls.length ≤ n) : Guard x n none (c.turn (.go i place)) := by
  have proper := proper_turn h (.go i place)
  have inside : i < c.calls.length := (List.getElem?_eq_some_iff.1 hi).1
  have size : (c.turn (.go i place)).calls.length = c.calls.length := by
    rcases turn_go i place c with same | ⟨call, left', grants, -, -, he⟩
    · rw [same]
    · rw [he, List.length_set]
  have ended : (c.turn (.go i place)).hasEnded i = true := by
    rcases turn_go i place c with same | ⟨call, left', grants, hi', -, he⟩
    · rw [same] at cached ⊢
      rw [hasEnded, hi]
      exact cached _ (List.mem_of_getElem? hi) ⟨rfl, rfl⟩
    · obtain rfl := Option.some.inj (hi.symm.trans hi')
      have now : (c.turn (.go i place)).calls[i]? = some ⟨.set x.kind x.user codes seconds, left'⟩ := by
        rw [he]
        exact List.getElem?_set_self inside
      rw [hasEnded, now]
      exact cached _ (List.mem_of_getElem? now) ⟨rfl, rfl⟩
  refine ⟨proper.sound, fun j call hj _ => ?_, fun j call hj _ late => ?_, Or.inl ⟨?_, fun a ha => by cases ha⟩⟩
  -- Calls that cache for the user have ended, and all others are steady.
  · have mem := List.mem_of_getElem? hj
    by_cases caches : call.op.Caches x.kind x.user
    · rw [Remains.eq_done_of_isDone (cached call mem caches)]
      trivial
    · exact (proper.calls call mem).steady x caches
  · -- no call has begun since
    have bound := (List.getElem?_eq_some_iff.1 hj).1
    omega
  · exact due_of_ended h hi listed running ended

/-- Take any schedule of calls, at the turn in which the call `i` has cached codes for a user and no
other call that caches codes of the kind for the user is under way. If an invalidation of one of the
codes begins later and comes to its end, and nobody begins to cache codes for the user, then no entry
of the user lists the code when the invalidation has come to its end, as long as nobody else spoilt it
that the user is found. This is asked only of the calls before the number `n`: those from `n` on may
do what they like, but they begin when the user is in the set of the code, or has no entry that lists
it. Sets of codes must not be evicted. -/
theorem cleared_among_calls {now limit ttl size : Nat} {breaker : Breaker}
    {before between after : List Turn} {c d : Crowd} {kind : GrantKind} {user code : String}
    {codes : List String} {seconds : Option Nat} {i place n : Nat} {left : Remains}
    (hc : c = (Crowd.start ⟨now, breaker, .bounded (.empty limit)⟩ ttl size).play before)
    (hi : c.calls[i]? = some ⟨.set kind user codes seconds, left⟩) (listed : code ∈ codes)
    (running : c.hasEnded i = false)
    (cached : ∀ call ∈ (c.turn (.go i place)).calls, call.op.Caches kind user →
      call.left.isDone = true)
    (hn : c.calls.length ≤ n)
    (quiet : Throughout (Undisturbed ⟨kind, user, code⟩ n none) between (c.turn (.go i place)))
    (hd : d = (c.turn (.go i place)).play between)
    (quiet' : Throughout (Undisturbed ⟨kind, user, code⟩ n (some d.calls.length)) after
      (d.turn (.ask (.invalidate kind code))))
    (ended : ((d.turn (.ask (.invalidate kind code))).play after).hasEnded d.calls.length = true)
    (kept : kind.indexKey code ∉
      ((d.turn (.ask (.invalidate kind code))).play after).grants.evicted) :
    ∀ codes', (((d.turn (.ask (.invalidate kind code))).play after).grants.get kind user).1 =
      some (some codes') → code ∉ codes' := by
  have proper : c.Proper := by
    rw [hc]
    exact proper_play (proper_start now breaker limit ttl size) before
  have guard : Guard ⟨kind, user, code⟩ n none d := by
    rw [hd]
    exact guard_play (guard_of_cached proper hi listed running cached hn) nofun quiet
  have last := guard_play guard.begin (fun a ha => ?_) quiet'
  · intro codes' read hm
    have found := Grant.listed_of_get last.sound read hm
    exact (last.loose ended).elim kept fun unlisted => unlisted found
  · obtain rfl := Option.some.inj ha
    simp [turn]

/-- A user is cached while a deletion is under way, and two invalidations of the code overlap that
begin when the user is in the set: the second has cleared the user when it has come to its end. -/
theorem cleared_beside_invalidation :
    ∃ c d e : Crowd,
      c = (Crowd.start ⟨0, {}, .bounded (.empty 8)⟩ 3600 100).play
        [.ask (.deleteUser "bob"), .go 0 0, .ask (.set .role "ann" ["admin"] none), .go 1 0] ∧
      d = (c.turn (.go 1 0)).play [.work 0, .ask (.invalidate .role "admin"), .go 2 0] ∧
      e = (d.turn (.ask (.invalidate .role "admin"))).play
        (List.replicate 3 (.go 3 0) ++ List.replicate 5 (.go 2 0) ++ List.replicate 16 (.go 3 0)) ∧
      (d.grants.get .role "ann").1 = some (some ["admin"]) ∧ e.hasEnded 3 = true ∧
      ∀ codes, (e.grants.get .role "ann").1 = some (some codes) → "admin" ∉ codes := by
  refine ⟨_, _, _, rfl, rfl, rfl, by decide +kernel, by decide +kernel, ?_⟩
  exact cleared_among_calls (n := 2) rfl rfl (by decide) (by decide +kernel) (by decide +kernel)
    (by decide +kernel) (by decide +kernel) rfl (by decide +kernel) (by decide +kernel)
    (by decide +kernel)

/-- Two invalidations of a code that begin when a user's codes have been cached, but before the index
write: the first takes the write out and waits for it, so the second does not know of it. It finds
nobody in the set and comes to its end, and the user still has the entry. -/
theorem missed_by_second_invalidation :
    ∃ c d e : Crowd,
      c = (Crowd.start ⟨0, {}, .bounded (.empty 8)⟩ 3600 100).play
        [.ask (.set .role "ann" ["admin"] none), .go 0 0, .go 0 0] ∧
      d = c.play [.ask (.invalidate .role "admin"), .go 1 0] ∧
      e = (d.turn (.ask (.invalidate .role "admin"))).play [.go 2 0, .go 2 0, .go 2 0] ∧
      c.hasEnded 0 = true ∧ e.hasEnded 2 = true ∧ e.grants.evicted = [] ∧
      (e.grants.get .role "ann").1 = some (some ["admin"]) :=
  ⟨_, _, _, rfl, rfl, rfl, by decide +kernel, by decide +kernel, by decide +kernel, by decide +kernel⟩

end GrantCache
