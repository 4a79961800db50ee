import GrantCache.ReadThrough
import GrantCache.Proofs.Grants.Caching

/-!
# Reading a value, computing it and waiting for it

What a caller that reads through the cache does to the key over a bounded store. A read finds the value
that is alive under the key, if it has the shape that is asked for, and changes nothing (`hit?_eq`). A
computation that succeeds leaves its value there (`conclude_ok`).

What goes on while somebody sleeps, index writes and sweeps, at most lets the entry of a key go that no
index write is for (`drifts_sleepUntil`).
-/

namespace GrantCache

open Grants (Bounded Fades)

variable {r : ReadThrough} {s s' : Service} {g g' g'' : Grants} {key : String}

/-! ## What can be read -/

/-- What reading a key answers: the value that is live, nothing, or a fault for a set. -/
theorem Grants.Bounded.response_get (h : g.Bounded) (key : String) :
    (g.ask (.get key)).1 =
      match g.live? key with
      | some ⟨.scalar v, _⟩ => .ok (some v)
      | some ⟨.set _, _⟩ => .fault (.wrongType key)
      | none => .ok none := by
  obtain ⟨st, hs⟩ := h
  rw [ask_of_store hs, live?_of_store hs]
  exact Store.response_get _ key st

namespace ReadThrough

/-- The value that a read finds, if there is one and it has the shape. -/
def readable? (r : ReadThrough) (g : Grants) : Option Json :=
  match g.live? r.key with
  | some ⟨.scalar v, _⟩ => if r.shape.fits v then some v else none
  | _ => none

/-- Whether a value can be read depends only on what is live under the key of the read-through. -/
theorem readable?_congr (same : g'.live? r.key = g.live? r.key) :
    r.readable? g' = r.readable? g := by rw [readable?, readable?, same]

/-- Where nothing can be read and the entry at most goes, nothing can be read. -/
theorem unreadable_of_fades (h : Fades r.key g g') (unreadable : r.readable? g = none) :
    r.readable? g' = none := by
  rcases h with same | gone
  · rw [readable?_congr same, unreadable]
  · rw [readable?, gone]

/-! ## Reads -/

/-- The first read of a read-through answers what is readable, and changes the store and the metrics
as a single read does. -/
theorem hit?_eq (h : s.grants.Bounded) (r : ReadThrough) :
    ∃ events, r.hit? s = (r.readable? s.grants,
      { s with grants := (s.grants.ask (.get r.key)).2.note events }) := by
  have response := h.response_get r.key
  rw [hit?, Grants.fetch, readable?]
  rcases asked : s.grants.ask (.get r.key) with ⟨answer, g⟩
  rw [asked] at response
  obtain rfl := response
  cases s.grants.live? r.key with
  | none => exact ⟨[], by rw [Grants.note_nil]; rfl⟩
  | some e =>
    obtain ⟨data, deadline⟩ := e
    cases data with
    | set names => exact ⟨_, rfl⟩
    | scalar v =>
      by_cases fits : r.shape.fits v = true
      · exact ⟨[], by simp [Shape.read?, fits]⟩
      · exact ⟨[.notice (.readFailed r.key .serialization)], by simp only [Shape.read?, if_neg fits]⟩

end ReadThrough

theorem Grants.live?_ask_get (h : g.Bounded) (key other : String) :
    (g.ask (.get key)).2.live? other = g.live? other := by
  obtain ⟨st, hs⟩ := h
  rw [live?_ask hs, live?_of_store hs]
  exact Store.live?_get _ key other st

theorem Grants.now_ask_of_bounded (h : g.Bounded) (r : Request) :
    (g.ask r).2.host.now = g.host.now := by
  obtain ⟨st, hs⟩ := h
  exact now_ask hs r

/-- A read tells what can be read and changes nothing that matters. -/
theorem ReadThrough.hit?_facts (h : s.grants.Bounded) {found : Option Json}
    (read : r.hit? s = (found, s')) :
    found = r.readable? s.grants ∧ s'.flight = s.flight ∧ s'.grants.Bounded ∧
      s'.grants.live? r.key = s.grants.live? r.key ∧ s'.now = s.now := by
  obtain ⟨events, hit⟩ := hit?_eq h r
  obtain ⟨rfl, rfl⟩ := Prod.mk.inj (hit.symm.trans read)
  exact ⟨rfl, rfl, h.ask _, Grants.live?_ask_get h r.key r.key, Grants.now_ask_of_bounded h _⟩

/-! ## Computations -/

namespace ReadThrough

/-- The time to live of what is stored ends on the clock. -/
def Timely (r : ReadThrough) : Prop := ∀ seconds, r.ttl = some seconds → seconds < clockEnd

/-- A time to live that the clock has room for gives a deadline at every instant. -/
theorem Timely.ttlDeadline? (h : r.Timely) (now : Nat) :
    ∃ deadline, GrantCache.ttlDeadline? now r.ttl = some deadline := by
  cases ttl : r.ttl with
  | none => exact ⟨none, rfl⟩
  | some seconds =>
    cases seconds with
    | zero => exact ⟨none, rfl⟩
    | succ n =>
      refine ⟨some (now + 1000 * (n + 1)), ?_⟩
      simp [GrantCache.ttlDeadline?, deadlineIn?, h _ ttl]

theorem conclude_error (e : String) (s : Service) (r : ReadThrough) :
    r.conclude (.error e) s = (some ⟨true, .error e⟩, s) := rfl

/-- The end of a computation touches the cache only, and leaves the flight to the guards. -/
theorem flight_conclude (outcome : Except String Json) (s : Service) (r : ReadThrough) :
    (r.conclude outcome s).2.flight = s.flight := by
  cases outcome with
  | error e => rfl
  | ok v =>
    rw [conclude]
    split <;> rfl

/-- A computation that succeeds ends, and its value can be read. -/
theorem conclude_ok (h : s.grants.Bounded) (timely : r.Timely) (v : Json) :
    r.conclude (.ok v) s = (some ⟨true, .ok v⟩,
      { s with grants := (s.grants.ask (.set r.key v r.ttl)).2 }) := by
  obtain ⟨st, hs⟩ := h
  obtain ⟨deadline, hd⟩ := timely.ttlDeadline? s.grants.host.now
  have response : (s.grants.ask (.set r.key v r.ttl)).1 = .ok () := by
    rw [Grants.ask_of_store hs]
    refine (Store.response_set s.grants.host.now r.key v r.ttl st).trans ?_
    rw [hd]
    rfl
  rw [conclude]
  rcases asked : s.grants.ask (.set r.key v r.ttl) with ⟨answer, g⟩
  rw [asked] at response
  obtain rfl : answer = .ok () := response
  rfl

/-- A value of the expected shape that was just stored is what a read-through finds. -/
theorem readable?_set (h : g.Bounded) (timely : r.Timely) {v : Json} (fits : r.shape.fits v = true) :
    r.readable? (g.ask (.set r.key v r.ttl)).2 = some v := by
  obtain ⟨st, hs⟩ := h
  obtain ⟨deadline, hd⟩ := timely.ttlDeadline? g.host.now
  have written : (g.ask (.set r.key v r.ttl)).2.live? r.key = some ⟨.scalar v, deadline⟩ := by
    rw [Grants.live?_ask hs]
    refine (Store.live?_set g.host.now r.key v r.ttl st).trans ?_
    rw [hd]
    simp only [Option.filter_some, Grants.isAlive_of_ttlDeadline? hd, if_true]
  rw [readable?, written]
  exact if_pos fits

end ReadThrough

/-! ## Sleep -/

/-- A cache over a bounded store in which no index write is for a key. -/
structure Calm (key : String) (g : Grants) : Prop where
  store : ∃ st, g.store? = some st ∧ st.Distinct
  apart : ∀ w ∈ g.upkeep.writes, key ∉ w.left

/-- The key stays calm, and its entry at most goes, while the clock does not go back. -/
def Drifts (key : String) (g g' : Grants) : Prop :=
  Calm key g → Calm key g' ∧ Fades key g g' ∧ g.host.now ≤ g'.host.now

namespace Calm

theorem bounded (h : Calm key g) : g.Bounded := by
  obtain ⟨st, hs, _⟩ := h.store
  exact ⟨st, hs⟩

theorem ask (h : Calm key g) (r : Request) : Calm key (g.ask r).2 := by
  obtain ⟨st, hs, distinct⟩ := h.store
  exact ⟨⟨_, Grants.store?_ask hs r, distinct.serve _ r⟩, h.apart⟩

theorem note (h : Calm key g) (events : List Event) : Calm key (g.note events) := ⟨h.store, h.apart⟩

end Calm

namespace Drifts

theorem refl (key : String) (g : Grants) : Drifts key g g := fun h =>
  ⟨h, .refl key g, Nat.le_refl _⟩

theorem trans (h : Drifts key g g') (h' : Drifts key g' g'') : Drifts key g g'' := by
  intro calm
  obtain ⟨calm, first, before⟩ := h calm
  obtain ⟨calm, second, after⟩ := h' calm
  exact ⟨calm, first.trans second, Nat.le_trans before after⟩

theorem note (h : Drifts key g g') (events : List Event) : Drifts key g (g'.note events) :=
  h.trans fun calm => ⟨calm.note events, .refl key g', Nat.le_refl _⟩

/-- The steps of an index write stay away from the key, since they only add to reverse indexes. -/
theorem proceed (key : String) (g : Grants) (id : Nat) : Drifts key g (g.proceed id) := by
  rcases Grants.proceed_cases id g with ⟨same, _⟩ | ⟨w, target, rest, events, hw, hl, he⟩
  · rw [same]
    exact refl key g
  · rw [he]
    have proceeded : Drifts key g ({ (g.ask (.addMembers target [w.user])).2 with
        upkeep := g.upkeep.proceed id } : Grants) := by
      refine fun calm => ⟨⟨(calm.ask _).store, fun w' hw' => ?_⟩, ?_,
        Nat.le_of_eq (Grants.now_ask_of_bounded calm.bounded _).symm⟩
      · obtain ⟨old, hold, rfl⟩ := List.mem_map.1 hw'
        split
        · exact fun mem => calm.apart old hold (List.mem_of_mem_tail mem)
        · exact calm.apart old hold
      · obtain ⟨st, hs, _⟩ := calm.store
        have other : key ≠ target := by
          rintro rfl
          exact calm.apart w (List.mem_of_find?_eq_some hw) (by simp [hl])
        exact (Grants.spares_ask hs (.addMembers target [w.user])
          (by simpa [Request.touched, Request.keys] using other)).fades
    exact proceeded.note events

theorem drain (key : String) (g : Grants) : Drifts key g g.drain :=
  Grants.drain_induction (refl key) trans (proceed key) g

theorem giveWay (key : String) (g : Grants) : Drifts key g g.giveWay :=
  (drain key g).trans fun calm => ⟨⟨calm.store, calm.apart⟩, .refl key g.drain, Nat.le_refl _⟩

/-- A sweep stores nothing, so that the entry at most goes. -/
theorem sweep (key : String) (g : Grants) : Drifts key g (Housekeeping.sweep g) := by
  have purge : Drifts key g g.purge.2 := by
    intro calm
    obtain ⟨st, hs, distinct⟩ := calm.store
    refine ⟨⟨⟨_, Grants.store?_purge hs, distinct.sweep _⟩, ?_⟩,
      .inl (Grants.live?_purge hs distinct key), ?_⟩
    · rw [Grants.purge_of_store hs]
      exact calm.apart
    · rw [Grants.purge_of_store hs]
      exact Nat.le_refl _
  have swept : Housekeeping.sweep g = if g.purge.1 = 0 then g.purge.2
      else g.purge.2.note [.notice (.swept g.purge.1)] := rfl
  rw [swept]
  split
  · exact purge
  · exact purge.note _

theorem runSweeper (key : String) (sweeper : Sweeper) (state : Housekeeping × Grants) :
    Drifts key state.2 (Housekeeping.runSweeper sweeper state).2 := by
  unfold Housekeeping.runSweeper
  obtain ⟨h, g⟩ := state
  simp only
  split
  · exact refl key g
  · split
    · exact (refl key g).note _
    · split
      · exact sweep key g
      · exact refl key g

theorem settle (key : String) (h : Housekeeping) (g : Grants) : Drifts key g (h.settle g).2 := by
  have each (sweepers : List Sweeper) (state : Housekeeping × Grants) : Drifts key state.2
      (sweepers.foldl (fun state sweeper => Housekeeping.runSweeper sweeper state) state).2 := by
    induction sweepers generalizing state with
    | nil => exact refl key state.2
    | cons sweeper rest ih => exact (runSweeper key sweeper state).trans (ih _)
  exact each h.sweepers (h, g)

end Drifts

namespace Service

/-- Everything that waits for its turn runs. -/
theorem drifts_settle (key : String) (s : Service) : Drifts key s.grants s.settle.grants := by
  unfold settle
  cases s.own with
  | none => exact (Drifts.giveWay key s.grants).trans (Drifts.settle key s.visiting _)
  | some h =>
    exact ((Drifts.giveWay key s.grants).trans (Drifts.settle key h _)).trans
      (Drifts.settle key s.visiting _)

/-- As time goes by a value can expire and cannot appear. -/
theorem fades_moveTo (key : String) (t : Nat) (s : Service) :
    Fades key s.grants (s.moveTo t).grants := by
  have passed : (s.moveTo t).grants = s.grants.pass (t - s.now) := by
    simp only [moveTo, Grants.pass, now]
    congr 2
    omega
  rw [passed]
  exact Grants.fades_pass _ key s.grants

theorem drifts_moveTo (key : String) (t : Nat) (s : Service) :
    Drifts key s.grants (s.moveTo t).grants := fun calm =>
  ⟨⟨calm.store, calm.apart⟩, fades_moveTo key t s, Nat.le_max_left _ _⟩

/-- While a caller sleeps, nobody stores anything under the key of a calm cache. -/
theorem drifts_sleepUntil (key : String) (t : Nat) (s : Service) :
    Drifts key s.grants (s.sleepUntil t).grants := by
  fun_induction sleepUntil t s with
  | case1 s settled due next soon ih =>
    exact ((drifts_settle key s).trans (drifts_moveTo key due settled)).trans ih
  | case2 s settled due next late =>
    exact ((drifts_settle key s).trans (drifts_moveTo key t settled)).trans (drifts_settle key _)
  | case3 s settled none =>
    exact ((drifts_settle key s).trans (drifts_moveTo key t settled)).trans (drifts_settle key _)

/-- Who sleeps does not wake too early. -/
theorem le_now_sleepUntil (t : Nat) (s : Service) (calm : Calm key s.grants) :
    t ≤ (s.sleepUntil t).now := by
  have woken {settled : Service} (calm : Calm key settled.grants) :
      t ≤ (settled.moveTo t).settle.now :=
    Nat.le_trans (Nat.le_max_right settled.now t)
      (drifts_settle key (settled.moveTo t) (drifts_moveTo key t settled calm).1).2.2
  fun_induction sleepUntil t s with
  | case1 s settled due next soon ih =>
    exact ih (drifts_moveTo key due settled (drifts_settle key s calm).1).1
  | case2 s settled due next late => exact woken (drifts_settle key s calm).1
  | case3 s settled none => exact woken (drifts_settle key s calm).1

theorem flight_sleepUntil (t : Nat) (s : Service) : (s.sleepUntil t).flight = s.flight := by
  fun_induction sleepUntil t s with
  | case1 s settled due next soon ih => exact ih
  | case2 s settled due next late => rfl
  | case3 s settled none => rfl

end Service

end GrantCache
