import Mathlib.Algebra.Ring.Nat
import Mathlib.Data.List.DropRight
import GrantCache.Proofs.Store.Keys

/-!
# What is shown of the size of a store

The gauge of a store's entries is written wherever keys are written or taken away, and then it shows
how many are held (`Shown`). The one place where it is not written is a look-up that finds its key
expired and lets go of it. So after every request the gauge is too high by the number of expired
entries that look-ups have let go of since it was last written, and by nothing else
(`entries_reading`).
-/

namespace GrantCache

open Event (reading?)

/-- The keys that a request looks up, one after another. -/
def Request.lookups (r : Request) : List String := r.parts.filterMap looksUp?

namespace Store

variable {now : Nat} {key : String} {s s' : Store} {e : Entry} {events : List Event}

/-- How many of the given keys are held although their entries have expired. -/
def expired (now : Nat) (keys : List String) (s : Store) : Nat :=
  s.entries.countP fun e => decide (e.1 ∈ keys) && !e.2.isAlive now

/-! ## One key -/

/-- What is held under a key is live, or has expired. -/
theorem live?_of_mem (distinct : s.Distinct) (now : Nat) {x : String × Entry} (hx : x ∈ s.entries) :
    s.live? now x.1 = if x.2.isAlive now then some x.2 else none := by
  rw [live?, Catalog.find?_of_mem distinct hx, Option.filter_some]

/-- Under a key that is alive nothing has expired. -/
theorem expired_of_live (distinct : s.Distinct) (live : s.live? now key = some e) :
    s.expired now [key] = 0 := by
  rw [expired, List.countP_eq_zero]
  rintro x hx dead
  simp only [List.mem_singleton, Bool.and_eq_true, decide_eq_true_eq, Bool.not_eq_true'] at dead
  obtain ⟨rfl, dead⟩ := dead
  rw [live?_of_mem distinct now hx, dead] at live
  cases live

/-- A live key that is written again leaves the number of keys as it is. -/
theorem size_hold (distinct : s.Distinct) (live : s.live? now key = some e) (e' : Entry) :
    (s.hold key e').size = s.size := by
  have held : key ∈ s.entries.keys := mem_of_isSome (by rw [live]; rfl)
  have others : s.entries.keys.filter (· ≠ key) = s.entries.keys.erase key := by
    rw [List.Nodup.erase_eq_filter distinct]
    exact List.filter_congr fun x _ => decide_not
  rw [size_eq, size_eq, keys_hold, List.length_cons, others, List.length_erase_of_mem held]
  exact Nat.sub_add_cancel (List.length_pos_of_mem held)

/-- Letting go of a key that is not alive takes away what has expired there. -/
theorem size_drop (distinct : s.Distinct) (gone : s.live? now key = none) :
    (s.drop key).size + s.expired now [key] = s.size := by
  have dead : s.expired now [key] = s.entries.countP fun e => decide (e.1 = key) := by
    refine List.countP_congr fun x hx => ?_
    simp only [List.mem_singleton, Bool.and_eq_true, decide_eq_true_eq, Bool.not_eq_true']
    refine ⟨And.left, fun own => ⟨own, ?_⟩⟩
    subst own
    rw [live?_of_mem distinct now hx] at gone
    simpa using gone
  rw [dead, size, size, drop, Catalog.erase, ← List.countP_eq_length_filter, Nat.add_comm]
  simpa using (List.length_eq_countP_add_countP (fun e : String × Entry => decide (e.1 = key))
    (l := s.entries)).symm

/-! ## One request -/

/-- The gauge is written and shows the size, or it is not written and `gone` entries are let go of. -/
def Shown (s : Store) (gone : Nat) (s' : Store) (events : List Event) : Prop :=
  reading? .localEntries events = some s'.size ∨
    reading? .localEntries events = none ∧ s'.size + gone = s.size

theorem Shown.rest (quiet : reading? .localEntries events = none) : Shown s 0 s events :=
  .inr ⟨quiet, rfl⟩

/-- What is shown still holds after something that lets go of nothing. -/
theorem Shown.trans {gone : Nat} {s'' : Store} {more : List Event} (h : Shown s gone s' events)
    (h' : Shown s' 0 s'' more) : Shown s gone s'' (events ++ more) := by
  rw [Shown, Event.reading?_append]
  rcases h' with last | ⟨quiet, same⟩
  · exact .inl (by rw [last, Option.some_or])
  · rw [quiet, Option.none_or, show s''.size = s'.size from same]
    exact h

theorem Shown.dropped (distinct : s.Distinct) (gone : s.live? now key = none)
    (quiet : reading? .localEntries events = none) :
    Shown s (s.expired now [key]) (s.drop key) events := .inr ⟨quiet, size_drop distinct gone⟩

theorem Shown.held (distinct : s.Distinct) (live : s.live? now key = some e) (e' : Entry)
    (quiet : reading? .localEntries events = none) :
    Shown s (s.expired now [key]) (s.hold key e') events := by
  refine .inr ⟨quiet, ?_⟩
  rw [expired_of_live distinct live, size_hold distinct live]
  rfl

/-- A key that was put first can be given another entry there. -/
theorem Shown.changed (distinct : s.Distinct) (live : s.live? now key = some e) (e' : Entry)
    (quiet : reading? .localEntries events = none) :
    Shown s (s.expired now [key]) ((s.hold key e).hold key e') events := by
  have same : ((s.hold key e).hold key e').size = (s.hold key e').size := by
    rw [size_eq, size_eq, keys_hold_hold, keys_hold]
  refine .inr ⟨quiet, ?_⟩
  rw [expired_of_live distinct live, same, size_hold distinct live]
  rfl

/-- A write gives a reading, which is the number of keys. -/
theorem reading?_write (key : String) (e : Entry) (s : Store) :
    reading? .localEntries (s.write key e).2 = some (s.write key e).1.size := by
  rw [write]
  split
  · rfl
  · split
    · rfl
    · simp [Event.reading?_append, sizeReading, reading?]

theorem shown_write (gone : Nat) (s : Store) (key : String) (e : Entry) (t : Store) :
    Shown s gone (t.write key e).1 (t.write key e).2 := .inl (reading?_write key e t)

/-- Counting up or down gives a reading when something is written, and else only an expired entry may
go. -/
theorem shown_adjust (distinct : s.Distinct) (now : Nat) (key : String) (delta : Int) :
    Shown s (s.expired now [key]) (s.adjust now key delta).state (s.adjust now key delta).events := by
  cases h : s.live? now key with
  | none =>
    rw [adjust, use_of_not_live h]
    exact shown_write ..
  | some e =>
    obtain ⟨v | names, deadline⟩ := e
    · rw [adjust, use_of_live h]
      simp only
      split
      · exact .changed distinct h _ rfl
      · exact .held distinct h _ rfl
    · rw [adjust, use_of_live h]
      exact .held distinct h _ rfl

theorem shown_addMembers (distinct : s.Distinct) (now : Nat) (key : String) (names : List String) :
    Shown s (s.expired now [key]) (s.addMembers now key names).state
      (s.addMembers now key names).events := by
  cases h : s.live? now key with
  | none =>
    rw [addMembers, use_of_not_live h]
    simp only
    split
    · exact .dropped distinct h rfl
    · exact shown_write ..
  | some e =>
    obtain ⟨v | old, deadline⟩ := e
    · rw [addMembers, use_of_live h]
      exact .held distinct h _ rfl
    · rw [addMembers, use_of_live h]
      exact .changed distinct h _ rfl

theorem shown_removeMembers (distinct : s.Distinct) (now : Nat) (key : String)
    (names : List String) :
    Shown s (s.expired now [key]) (s.removeMembers now key names).state
      (s.removeMembers now key names).events := by
  cases h : s.live? now key with
  | none =>
    rw [removeMembers, use_of_not_live h]
    exact .dropped distinct h rfl
  | some e =>
    obtain ⟨v | old, deadline⟩ := e
    · rw [removeMembers, use_of_live h]
      exact .held distinct h _ rfl
    · rw [removeMembers, use_of_live h]
      simp only
      split
      · exact .inl rfl
      · exact .changed distinct h _ rfl

theorem shown_expire (distinct : s.Distinct) (now : Nat) (key : String) (seconds : Nat) :
    Shown s (s.expired now [key]) (s.expire now key seconds).state
      (s.expire now key seconds).events := by
  cases h : s.live? now key with
  | none =>
    rw [expire, use_of_not_live h]
    exact .dropped distinct h rfl
  | some e =>
    rw [expire, use_of_live h]
    simp only
    split
    · exact .changed distinct h _ rfl
    · exact .held distinct h _ rfl

/-! ## Requests about many keys -/

/-- What has expired under many keys is let go of by look-ups of one key after another. -/
theorem expired_cons (now : Nat) (key : String) (rest : List String) (s : Store) :
    s.expired now (key :: rest) = s.expired now [key] + (s.use now key).2.expired now rest := by
  -- The look-up of the first key changes nothing about what has expired under the others.
  have others : (s.use now key).2.expired now rest = s.entries.countP fun e =>
      decide (e.1 ∈ rest) && !e.2.isAlive now && decide (e.1 ≠ key) := by
    rw [← List.countP_filter]
    cases h : s.live? now key with
    | none =>
      rw [use_of_not_live h]
      rfl
    | some e =>
      have alive : e.isAlive now = true := (Option.filter_eq_some_iff.1 h).2
      rw [use_of_live h]
      exact List.countP_cons_of_neg (by simp [alive])
  rw [others, expired, expired, List.countP_eq_countP_filter_add _ _ fun e => decide (e.1 = key),
    List.countP_filter, List.countP_filter]
  congr 1
  · refine List.countP_congr fun x _ => ?_
    simp only [Bool.and_eq_true, decide_eq_true_eq, List.mem_cons]
    tauto
  · refine List.countP_congr fun x _ => ?_
    simp only [Bool.and_eq_true, decide_eq_true_eq, List.mem_cons, Bool.not_eq_true',
      decide_eq_false_iff_not]
    tauto

theorem size_use (distinct : s.Distinct) (now : Nat) (key : String) :
    (s.use now key).2.size + s.expired now [key] = s.size := by
  cases h : s.live? now key with
  | none =>
    rw [use_of_not_live h]
    exact size_drop distinct h
  | some e =>
    rw [use_of_live h, expired_of_live distinct h]
    exact size_hold distinct h e

/-- Reading gives no reading of the gauge. Whatever expired of what was read is gone. -/
theorem shown_getMany (distinct : s.Distinct) (now : Nat) (keys : List String) :
    reading? .localEntries (s.getMany now keys).2.2 = none ∧
      (s.getMany now keys).2.1.size + s.expired now keys = s.size := by
  induction keys generalizing s with
  | nil => exact ⟨rfl, by simp [getMany, expired]⟩
  | cons key rest ih =>
    obtain ⟨quiet, size⟩ := ih (distinct.use now key)
    have first := size_use distinct now key
    refine ⟨quiet, ?_⟩
    rw [expired_cons]
    show (getMany now rest (s.use now key).2).2.1.size + _ = _
    omega

/-- The reading after several writes is the number of keys. -/
theorem shown_writeMany (deadline : Option Nat) (entries : List (String × Json)) (s : Store) :
    Shown s 0 (s.writeMany deadline entries).1 (s.writeMany deadline entries).2 := by
  induction entries generalizing s with
  | nil => exact .rest rfl
  | cons e rest ih =>
    exact (shown_write 0 s e.1 ⟨.scalar e.2, deadline⟩ s).trans (ih _)

theorem expired_nil (now : Nat) (s : Store) : s.expired now [] = 0 := by simp [expired]

/-- A look-up that leaves it at that. -/
theorem Shown.used (distinct : s.Distinct) (state : s' = (s.use now key).2)
    (quiet : reading? .localEntries events = none) :
    Shown s (s.expired now [key]) s' events :=
  .inr ⟨quiet, by rw [state]; exact size_use distinct now key⟩

/-- Whatever is asked, the gauge is written and shows the size, or it is not written and the store lets
go of what the request has found expired. -/
theorem shown_serve (distinct : s.Distinct) (now : Nat) (r : Request) :
    Shown s (s.expired now r.lookups) (s.serve now r).state (s.serve now r).events := by
  cases r with
  | get key => exact .used distinct (get_state now key s) (by rw [serve, get]; split <;> rfl)
  | has key =>
    have state : (s.has now key).state = (s.use now key).2 := by rw [has]; split <;> simp_all
    exact .used distinct state (by rw [serve, has]; split <;> rfl)
  | ttl key =>
    have state : (s.ttl now key).state = (s.use now key).2 := by rw [ttl]; split <;> simp_all
    exact .used distinct state (by rw [serve, ttl]; split <;> rfl)
  | members key =>
    have state : (s.members now key).state = (s.use now key).2 := by
      rw [members]
      split <;> simp_all
    exact .used distinct state (by rw [serve, members]; split <;> rfl)
  | set key value ttl =>
    rw [show Request.lookups (.set key value ttl) = [] from rfl, expired_nil, serve, set]
    split
    · exact .rest rfl
    · exact shown_write ..
  | delete key => exact .inl rfl
  | deletePattern pattern => exact .inl rfl
  | getMany keys =>
    have own : Request.lookups (.getMany keys) = keys := by
      simp [Request.lookups, Request.parts, List.filterMap_map, Function.comp_def,
        Request.looksUp?]
    rw [own]
    exact .inr (shown_getMany distinct now keys)
  | setMany entries ttl =>
    have none : Request.lookups (.setMany entries ttl) = [] := by
      simp [Request.lookups, Request.parts, Request.looksUp?]
    rw [none, expired_nil, serve, setMany]
    split
    · exact .rest rfl
    · exact shown_writeMany ..
  | increment key => exact shown_adjust distinct now key 1
  | decrement key => exact shown_adjust distinct now key (-1)
  | expire key seconds => exact shown_expire distinct now key seconds
  | addMembers key names => exact shown_addMembers distinct now key names
  | removeMembers key names => exact shown_removeMembers distinct now key names

/-! ## A session -/

/-- The gauge of the entries is written. -/
def Turn.shows (d : Turn) : Bool := (reading? .localEntries d.events).isSome

/-- How many entries a turn has found expired where it looked. -/
def Turn.lapsed (d : Turn) : Nat :=
  match d.move with
  | .ask r => d.before.expired d.time r.lookups
  | _ => 0

namespace Session

variable {c : Session}

/-- How many entries were found expired, and let go of, since the gauge was written last. -/
def unreported (c : Session) : Nat :=
  ((c.turns.rtakeWhile fun d => !d.shows).map Turn.lapsed).sum

/-- What is unreported grows with what lapses, until there is a reading again. -/
theorem unreported_move (c : Session) (m : Move) :
    (c.move m).unreported = if (c.turn m).shows then 0 else c.unreported + (c.turn m).lapsed := by
  rw [unreported, move, List.rtakeWhile_concat]
  cases (c.turn m).shows with
  | true => rfl
  | false => simp [unreported]

/-- A move gives a reading that is the number of keys, or loses silently what lapses. -/
theorem shown_turn (distinct : c.store.Distinct) (m : Move) :
    Shown c.store (c.turn m).lapsed (c.turn m).after (c.turn m).events := by
  cases m with
  | ask r => exact shown_serve distinct c.now r
  | sweep => exact .inl rfl
  | pass ms => exact .rest rfl

/-- The gauge, or zero as long as it was never written, is the number of keys that are held and of what
was let go of since. -/
def Told (c : Session) : Prop :=
  (reading? .localEntries c.events).getD 0 = c.store.size + c.unreported

/-- A move keeps the account of what is unreported. -/
theorem Told.move (h : c.Told) (distinct : c.store.Distinct) (m : Move) : (c.move m).Told := by
  rw [Told, events_move, Event.reading?_append, unreported_move, Turn.shows]
  show _ = (c.turn m).after.size + _
  rcases shown_turn distinct m with written | ⟨quiet, gone⟩
  · simp [written]
  · simp only [quiet, Option.none_or, Option.isSome_none, Bool.false_eq_true, if_false]
    rw [Told] at h
    omega

/-- At any time the gauge shows the number of keys and, on top of it, what is unreported. -/
theorem Told.play (h : c.Told) (distinct : c.store.Distinct) (moves : List Move) :
    (c.play moves).Told := by
  induction moves using List.reverseRecOn with
  | nil => exact h
  | append_singleton moves m ih =>
    rw [play_concat]
    exact ih.move (distinct_play distinct moves) m

/-- After every turn of every session with a store that was new at its beginning, whatever its bound:
the gauge of the entries, once written, is the number of keys that are held and of those, in addition,
that requests have found expired and let go of since it was written last. As long as it was never
written no key is held. -/
theorem entries_reading (limit now : Nat) (moves : List Move) :
    let c := (start limit now).play moves
    (∀ n, reading? .localEntries c.events = some n → n = c.store.size + c.unreported) ∧
    (reading? .localEntries c.events = none → c.store.size = 0) := by
  intro c
  have told : c.Told := Told.play (c := start limit now) rfl (distinct_empty limit) moves
  rw [Told] at told
  refine ⟨fun n written => ?_, fun unwritten => ?_⟩
  · rw [written] at told
    exact told
  · rw [unwritten] at told
    exact Nat.eq_zero_of_add_eq_zero_right told.symm

/-- A value for one second is found expired a second later, and the gauge still shows it. -/
theorem entries_reading_after_expiry :
    let c := (start 16 0).play [.ask (.set "k" (.int 1) (some 1)), .pass 1000, .ask (.get "k")]
    reading? .localEntries c.events = some 1 ∧ c.store.size = 0 := by decide +kernel

end Session

end Store

end GrantCache
