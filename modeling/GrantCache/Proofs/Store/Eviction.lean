import Mathlib.Data.Finset.Card
import GrantCache.Proofs.Store.Keys

/-!
# Eviction of the least recently used key

The list of keys follows the order of use (`Tracked`), because every stroke changes it as the use of
a key does, but for keys that go. So the key that is evicted to make room is the one whose last use
is the longest ago (`Tracked.lru`), and a key that is evicted has seen as many other keys used since
its own last use as the store has room for (`exact_eviction`).
-/

namespace GrantCache

open Event (evictions)

namespace Store

variable {now bound : Nat} {key : String} {s : Store} {used : List String} {k : Stroke}
  {r : Request}

/-! ## The list of keys follows the uses -/

/-- What a store of bounded size shows of the keys used so far: it holds no more keys than the bound,
and its entries come in the order of their last use. -/
structure Tracked (bound : Nat) (used : List String) (s : Store) : Prop where
  positive : 0 < bound
  capacity : s.capacity = bound
  distinct : s.entries.keys.Nodup
  within : s.entries.keys.length ≤ bound
  order : s.entries.keys.Sublist (recency used)

theorem tracked_empty (limit : Nat) : Tracked (max limit 1) [] (empty limit) :=
  ⟨Nat.lt_of_lt_of_le Nat.one_pos (Nat.le_max_right limit 1), rfl, .nil, Nat.zero_le _, .refl _⟩

/-- A sweep removes keys and uses none. -/
theorem Tracked.sweep (h : Tracked bound used s) (now : Nat) :
    Tracked bound used (s.sweep now).2.1 := by
  have fewer : (s.sweep now).2.1.entries.keys.Sublist s.entries.keys := List.filter_sublist.map _
  exact ⟨h.positive, h.capacity, h.distinct.sublist fewer, fewer.length_le.trans h.within,
    fewer.trans h.order⟩

theorem uses_append (ks js : List Stroke) : uses (ks ++ js) = uses ks ++ uses js :=
  List.filterMap_append

theorem uses_singleton (k : Stroke) : uses [k] = k.uses?.toList := by
  rw [uses]
  cases h : k.uses? <;> simp [h]

/-- A single request brings the order of the entries up to date with the keys it uses. -/
theorem Tracked.serve (h : Tracked bound used s) (single : r.parts = [r]) (now : Nat) :
    Tracked bound (used ++ uses [.serve now r s]) (s.serve now r).state := by
  have distinct : (s.serve now r).state.entries.keys.Nodup := Distinct.serve h.distinct now r
  have follows : recency (used ++ uses [.serve now r s]) =
      touch (Stroke.serve now r s).uses? (recency used) := by
    rw [← recency_append, uses_singleton]
  have kept := touch_sublist h.order (Stroke.serve now r s).uses?
  cases Stroke.does_serve single h.capacity h.positive h.within now with
  | reads capacity writes evicted order held stays =>
    refine ⟨h.positive, capacity.trans h.capacity, distinct, ?_, ?_⟩
    · exact (List.subperm_of_subset distinct held).length_le.trans h.within
    · rw [follows]
      exact order.trans kept
  | @fits key capacity writes uses evicted room after =>
    -- The written key goes to the front, and the others keep their order.
    have held : (s.serve now r).state.entries.keys = _ := after
    refine ⟨h.positive, capacity.trans h.capacity, distinct, ?_, ?_⟩
    · rw [held, List.length_cons]
      have within := h.within
      rcases room with here | room
      · have shorter : (s.entries.keys.filter (· ≠ key)).length < s.entries.keys.length :=
          length_filter_lt here
        exact Nat.le_trans shorter within
      · exact Nat.lt_of_le_of_lt (List.length_filter_le _ _) room
    · rw [follows, held, uses]
      rw [uses] at kept
      exact kept
  | @evicts key victim front capacity writes uses evicted new full before after =>
    have held : (s.serve now r).state.entries.keys = _ := after
    refine ⟨h.positive, capacity.trans h.capacity, distinct, ?_, ?_⟩
    · rw [held, List.length_cons, ← full, before, List.length_append, List.length_singleton]
    · rw [follows, held, uses]
      rw [uses] at kept
      -- Without the victim the others are still in the order of their last uses.
      refine List.Sublist.trans (.cons_cons key ?_) kept
      have stays : s.entries.keys.filter (· ≠ key) = front ++ [victim] :=
        (filter_of_not_mem new).trans before
      rw [stays]
      exact List.sublist_append_left front [victim]

/-- What is known of every stroke of a list that begins after the given uses. -/
def Followed (bound : Nat) (used : List String) (ks : List Stroke) : Prop :=
  ∀ earlier k later, ks = earlier ++ k :: later →
    Tracked bound (used ++ uses earlier) k.before ∧ k.Does bound

theorem followed_nil : Followed bound used [] := fun earlier _ _ split => by
  cases earlier <;> cases split

/-- Two runs that were each tracked from where they began are tracked together. -/
theorem Followed.append {ks js : List Stroke} (h : Followed bound used ks)
    (h' : Followed bound (used ++ uses ks) js) : Followed bound used (ks ++ js) := by
  intro earlier k later split
  rcases List.append_eq_append_iff.1 split with ⟨middle, rfl, rest⟩ | ⟨middle, rfl, rest⟩
  · have known := h' middle k later rest
    rwa [List.append_assoc, ← uses_append] at known
  · cases middle with
    | nil =>
      have known := h' [] k later rest.symm
      simpa [uses] using known
    | cons k' middle =>
      obtain ⟨rfl, rfl⟩ := List.cons.inj rest
      exact h earlier k middle rfl

/-- One stroke is tracked from the store before it. -/
theorem followed_singleton (before : Tracked bound used k.before) (does : k.Does bound) :
    Followed bound used [k] := by
  intro earlier j later split
  cases earlier with
  | nil =>
    obtain ⟨rfl, -⟩ := List.cons.inj split
    exact ⟨by simpa [uses] using before, does⟩
  | cons k' earlier =>
    obtain ⟨-, none⟩ := List.cons.inj split
    cases earlier <;> cases none

theorem single_of_mem_parts {r p : Request} (h : p ∈ r.parts) : p.parts = [p] := by
  cases r with
  | getMany keys =>
    obtain ⟨key, -, rfl⟩ := List.mem_map.1 h
    rfl
  | setMany entries ttl =>
    obtain ⟨e, -, rfl⟩ := List.mem_map.1 h
    rfl
  | _ =>
    obtain rfl := List.mem_singleton.1 h
    rfl

/-- Through the strokes of requests that are served one after another. -/
theorem Tracked.serveAll (h : Tracked bound used s) {rs : List Request}
    (single : ∀ r ∈ rs, r.parts = [r]) (now : Nat) :
    Followed bound used (strokes now rs s) ∧
      Tracked bound (used ++ uses (strokes now rs s)) (serveAll now rs s).1 := by
  induction rs generalizing s used with
  | nil => exact ⟨followed_nil, (List.append_nil used).symm ▸ h⟩
  | cons r rest ih =>
    have first := single r List.mem_cons_self
    have does := Stroke.does_serve first h.capacity h.positive h.within now
    obtain ⟨followed, last⟩ :=
      ih (h.serve first now) fun r' hr => single r' (List.mem_cons_of_mem _ hr)
    refine ⟨(followed_singleton (k := .serve now r s) h does).append followed, ?_⟩
    rw [List.append_assoc, ← uses_append] at last
    exact last

/-- Through a whole session. -/
theorem tracked_play (limit now : Nat) (moves : List Move) :
    let c := (Session.start limit now).play moves
    Followed (max limit 1) [] c.strokes ∧ Tracked (max limit 1) (uses c.strokes) c.store := by
  induction moves using List.reverseRecOn with
  | nil => exact ⟨followed_nil, tracked_empty limit⟩
  | append_singleton moves m ih =>
    obtain ⟨followed, tracked⟩ := ih
    rw [Session.play_concat]
    generalize (Session.start limit now).play moves = c at followed tracked
    simp only [Session.strokes_move]
    cases m with
    -- A request is served part by part, and each part is one stroke.
    | ask r =>
      obtain ⟨more, last⟩ := tracked.serveAll (fun p hp => single_of_mem_parts hp) c.now
      refine ⟨followed.append more, ?_⟩
      rw [uses_append]
      rw [(serve_parts c.now r c.store).1] at last
      exact last
    | sweep =>
      refine ⟨followed.append followed_nil, ?_⟩
      rw [uses_append]
      exact (List.append_nil _).symm ▸ tracked.sweep c.now
    | pass ms =>
      refine ⟨followed.append followed_nil, ?_⟩
      rw [uses_append]
      exact (List.append_nil _).symm ▸ tracked

/-! ## Eviction -/

/-- A stroke evicts as it should: only to make room for a new key in a full store, only one key, and
the one of which every other key that is held was used since. A key goes otherwise only if the
request is about it. -/
structure Stroke.Lru (bound : Nat) (used : List String) (k : Stroke) : Prop where
  bounded : k.heldAfter.length ≤ bound
  evicts_iff : evictions k.events ≠ [] ↔
    ∃ key, k.writes? = some key ∧ key ∉ k.heldBefore ∧ k.heldBefore.length = bound
  victim : ∀ victim ∈ evictions k.events, evictions k.events = [victim] ∧ victim ∈ used ∧
    victim ∈ k.heldBefore ∧ victim ∉ k.heldAfter ∧
    ∀ other ∈ k.heldBefore, other ≠ victim → UsedSince used victim other
  leaves : ∀ key ∈ k.heldBefore, key ∉ k.heldAfter →
    key ∈ evictions k.events ∨ key ∈ k.request.touched k.heldBefore

/-- A key that is used moves to the front and leaves no copy behind. -/
theorem nodup_touch {order : List String} (h : order.Nodup) (key? : Option String) :
    (touch key? order).Nodup := by
  cases key? with
  | none => exact h
  | some key =>
    have absent : key ∉ order.filter (· ≠ key) := fun mem => by
      simpa using (List.mem_filter.1 mem).2
    exact List.nodup_cons.2 ⟨absent, h.filter _⟩

/-- What a stroke evicts is the key whose last use lies furthest back. -/
theorem Tracked.lru (h : Tracked bound used k.before) (does : k.Does bound) : k.Lru bound used := by
  have within : k.heldBefore.length ≤ bound := h.within
  have distinct : k.heldBefore.Nodup := h.distinct
  have order : k.heldBefore.Sublist (recency used) := h.order
  cases does with
  -- Nothing is evicted, and what goes expired or was asked to go.
  | reads capacity writes evicted touched held stays =>
    have distinctAfter := touched.nodup (nodup_touch distinct _)
    refine ⟨?_, ?_, ?_, ?_⟩
    · exact (List.subperm_of_subset distinctAfter held).length_le.trans within
    · rw [evicted, writes]
      simp
    · rw [evicted]
      exact fun _ mem => absurd mem List.not_mem_nil
    · intro key before gone
      right
      by_contra other
      exact gone (stays key before other)
  -- There is room, because the key was held before or because the store was not full.
  | @fits key capacity writes uses evicted room after =>
    refine ⟨?_, ?_, ?_, ?_⟩
    · rw [after, List.length_cons]
      rcases room with here | room
      · exact Nat.le_trans (length_filter_lt here) within
      · exact Nat.lt_of_le_of_lt (List.length_filter_le _ _) room
    · refine iff_of_false (fun some => some evicted) ?_
      rintro ⟨key', written, new, full⟩
      obtain rfl : key = key' := Option.some.inj (writes.symm.trans written)
      rcases room with here | room
      · exact new here
      · omega
    · rw [evicted]
      exact fun _ mem => absurd mem List.not_mem_nil
    · intro other before gone
      rw [after, List.mem_cons, List.mem_filter, not_or] at gone
      exact absurd ⟨before, by simpa using gone.1⟩ gone.2
  -- The store is full and the key is new, so that the last of the keys makes room.
  | @evicts key victim front capacity writes uses evicted new full before after =>
    have held : victim ∈ k.heldBefore := by
      rw [before]
      exact List.mem_append_right _ (List.mem_singleton_self victim)
    rw [before] at distinct order
    have apart : ∀ other ∈ front, other ≠ victim := fun other mem =>
      (List.nodup_append.1 distinct).2.2 other mem victim (List.mem_singleton_self victim)
    refine ⟨?_, ?_, ?_, ?_⟩
    · rw [after, List.length_cons, ← full, before, List.length_append, List.length_singleton]
    · refine iff_of_true ?_ ⟨key, writes, new, full⟩
      rw [evicted]
      exact List.cons_ne_nil _ _
    · intro victim' mem
      rw [evicted] at mem
      obtain rfl := List.mem_singleton.1 mem
      refine ⟨evicted, mem_recency.1 (order.subset (before ▸ held)), held, ?_, ?_⟩
      · rw [after, List.mem_cons, not_or]
        exact ⟨fun he => new (he ▸ held), fun mem => apart _ mem rfl⟩
      -- The keys held are in the order of their last uses, and the victim stood last.
      · intro other mem ne
        rw [before, List.mem_append, List.mem_singleton] at mem
        have ordered := (recency_ordered used).sublist order
        exact (List.pairwise_append.1 ordered).2.2 other (mem.resolve_right ne) victim'
          (List.mem_singleton_self _)
    · intro other mem gone
      left
      rw [before, List.mem_append] at mem
      rw [after, List.mem_cons, not_or] at gone
      rw [evicted]
      exact mem.resolve_left gone.2

/-- A key that is written is used. -/
theorem Stroke.uses_of_writes (h : k.writes? = some key) : k.uses? = some key := by
  -- Only what was not found alive is written.
  have none : k.finds? = none := by
    rw [writes?] at h
    rw [finds?]
    split at h <;> rename_i hr
    · rw [hr]
      rfl
    · split at h
      · cases h
      · rename_i dead
        rw [hr, Request.looksUp?, Option.filter_some, if_neg dead]
    · split at h
      · cases h
      · rename_i dead
        rw [hr, Request.looksUp?, Option.filter_some, if_neg dead]
    · split at h
      · cases h
      · rename_i new
        have dead := (not_or.1 (mt Bool.or_eq_true_iff.2 new)).1
        rw [hr, Request.looksUp?, Option.filter_some, if_neg dead]
    · cases h
  rw [uses?, none, h]
  rfl

/-- A key that is evicted has seen too many others used since it was used. -/
theorem Stroke.Lru.le_card {earlier between : List Stroke} {first : Stroke}
    (h : k.Lru bound (uses (earlier ++ first :: between))) (distinct : k.heldBefore.Nodup)
    (used : first.uses? = some key) (evicted : key ∈ evictions k.events) :
    bound ≤ ((uses (between ++ [k])).toFinset.erase key).card := by
  obtain ⟨new, written, absent, full⟩ := h.evicts_iff.1 (List.ne_nil_of_mem evicted)
  obtain ⟨-, -, held, -, since⟩ := h.victim key evicted
  have split : uses (earlier ++ first :: between) = uses earlier ++ key :: uses between := by
    rw [uses_append, uses, uses, uses, List.filterMap_cons_some used]
  -- All other keys that were held, and the new one.
  let others := insert new (k.heldBefore.toFinset.erase key)
  have count : others.card = bound := by
    have apart : new ∉ k.heldBefore.toFinset.erase key := fun mem =>
      absent (List.mem_toFinset.1 (Finset.mem_of_mem_erase mem))
    have size : k.heldBefore.toFinset.card = bound :=
      (List.toFinset_card_of_nodup distinct).trans full
    have positive : 0 < k.heldBefore.toFinset.card :=
      Finset.card_pos.2 ⟨key, List.mem_toFinset.2 held⟩
    rw [Finset.card_insert_of_notMem apart, Finset.card_erase_of_mem (List.mem_toFinset.2 held)]
    omega
  have all : others ⊆ (uses (between ++ [k])).toFinset.erase key := by
    intro other mem
    rw [Finset.mem_erase, List.mem_toFinset, uses_append, List.mem_append, uses_singleton,
      Option.mem_toList]
    rcases Finset.mem_insert.1 mem with rfl | mem
    · exact ⟨fun he => absent (he ▸ held), Or.inr (Stroke.uses_of_writes written)⟩
    · obtain ⟨ne, mem⟩ := Finset.mem_erase.1 mem
      exact ⟨ne, Or.inl (since other (List.mem_toFinset.1 mem) ne _ _ split)⟩
  exact count ▸ Finset.card_le_card all

/-- The evictions of a session are those of its strokes, and all of them are counted. -/
theorem total_evictions (limit now : Nat) (moves : List Move) :
    let c := (Session.start limit now).play moves
    Event.total .evictions c.events = (c.strokes.flatMap fun k => evictions k.events).length := by
  induction moves using List.reverseRecOn with
  | nil => rfl
  | append_singleton moves m ih =>
    rw [Session.play_concat]
    generalize (Session.start limit now).play moves = c at ih
    have turn : Event.total .evictions (c.turn m).events =
        ((c.turn m).strokes.flatMap fun k => evictions k.events).length := by
      cases m with
      | ask r =>
        have parts := congrArg List.length (serve_parts c.now r c.store).2
        rw [← events_strokes, evictions, List.filterMap_flatMap] at parts
        exact (counted_serve c.now r c.store).trans parts.symm
      | sweep => rfl
      | pass ms => rfl
    simp only [Session.events_move, Session.strokes_move, Event.total_append, List.flatMap_append,
      List.length_append] at ih ⊢
    rw [ih, turn]

theorem length_flatMap_evictions {ks : List Stroke}
    (one : ∀ k ∈ ks, (evictions k.events).length ≤ 1) :
    (ks.flatMap fun k => evictions k.events).length =
      (ks.filter fun k => !(evictions k.events).isEmpty).length := by
  induction ks with
  | nil => rfl
  | cons k rest ih =>
    have rest := ih fun k' mem => one k' (List.mem_cons_of_mem _ mem)
    have first := one k List.mem_cons_self
    rw [List.flatMap_cons, List.length_append, List.filter_cons, rest]
    match he : evictions k.events, first with
    | [], _ => simp
    | [victim], _ => simp [Nat.add_comm]

/-- In a session with a store for `limit` keys, at least one: the bound is kept; every stroke evicts
as it should; the metric counts the strokes that evict; and a key is not evicted while fewer other
keys than the bound are used since it was used itself. -/
theorem exact_eviction (limit now : Nat) (moves : List Move) :
    let c := (Session.start limit now).play moves
    let bound := max limit 1
    c.store.size ≤ bound ∧
      (∀ earlier k later, c.strokes = earlier ++ k :: later → k.Lru bound (uses earlier)) ∧
      Event.total .evictions c.events =
        (c.strokes.filter fun k => !(evictions k.events).isEmpty).length ∧
      ∀ earlier k later key, c.strokes = earlier ++ k :: later → k.uses? = some key →
        ((uses later).toFinset.erase key).card < bound →
        ∀ k' ∈ later, key ∉ evictions k'.events := by
  obtain ⟨followed, tracked⟩ := tracked_play limit now moves
  intro c bound
  refine ⟨?_, ?_, ?_, ?_⟩
  · rw [size_eq]
    exact tracked.within
  · intro earlier k later split
    obtain ⟨before, does⟩ := followed earlier k later split
    exact before.lru does
  · rw [total_evictions]
    refine length_flatMap_evictions fun k mem => ?_
    obtain ⟨earlier, later, split⟩ := List.append_of_mem mem
    obtain ⟨before, does⟩ := followed earlier k later split
    cases he : evictions k.events with
    | nil => exact Nat.zero_le 1
    | cons victim rest =>
      have lru := before.lru does
      have one := (lru.victim victim (he ▸ List.mem_cons_self)).1
      rw [← he, one]
      exact Nat.le_refl 1
  -- Since the last use of a victim at least `bound` other keys were used, all of them among the later
  -- uses.
  · intro earlier first later key split used few k mem evicted
    obtain ⟨between, rest, rfl⟩ := List.append_of_mem mem
    have whole : c.strokes = (earlier ++ first :: between) ++ k :: rest := by
      rw [split, List.append_assoc, List.cons_append]
    obtain ⟨before, does⟩ := followed _ k rest whole
    have enough := (before.lru does).le_card before.distinct used evicted
    have fewer : uses (between ++ [k]) ⊆ uses (between ++ k :: rest) := by
      rw [← List.singleton_append (l := rest), ← List.append_assoc, uses_append (between ++ [k])]
      exact List.subset_append_left _ _
    have sub : (uses (between ++ [k])).toFinset ⊆ (uses (between ++ k :: rest)).toFinset :=
      fun x hx => List.mem_toFinset.2 (fewer (List.mem_toFinset.1 hx))
    have le := Finset.card_le_card (Finset.erase_subset_erase key sub)
    omega

/-- The key that was read again stays, and the other one makes room. -/
theorem exact_eviction_after_read :
    let c := (Session.start 2 0).play [.ask (.set "x" .null none), .ask (.set "y" .null none),
      .ask (.get "x"), .ask (.set "z" .null none)]
    (∀ k ∈ c.strokes.drop 3, "x" ∉ evictions k.events) ∧ evictions c.events = ["y"] ∧
      Event.total .evictions c.events = 1 := by
  intro c
  obtain ⟨-, -, total, survives⟩ := exact_eviction 2 0 [.ask (.set "x" .null none),
    .ask (.set "y" .null none), .ask (.get "x"), .ask (.set "z" .null none)]
  have split : c.strokes = c.strokes.take 2 ++ c.strokes[2] :: c.strokes.drop 3 := by rfl
  exact ⟨survives _ _ _ "x" split (by rfl) (by decide), by rfl, total⟩

end Store

end GrantCache
