import GrantCache.Proofs.Store.Session

/-!
# The uses of keys

A request about many keys is one request after another (`serve_parts`), so that what happens in a
session is a list of strokes, each of them about one key or one pattern. A stroke uses a key if it
finds the key alive or writes it. Uses alone order the keys (`recency`): of two keys the one that
was used since the other was last used comes first (`recency_ordered`).
-/

namespace GrantCache

open Event (evictions)

/-- The requests that a request about many keys consists of. -/
def Request.parts : Request → List Request
  | .getMany keys => keys.map .get
  | .setMany entries seconds => entries.map fun e => .set e.1 e.2 seconds
  | r => [r]

/-- The key that a request looks up in order to read or change what it holds. -/
def Request.looksUp? : Request → Option String
  | .get key | .has key | .ttl key | .increment key | .decrement key | .expire key _
  | .addMembers key _ | .members key | .removeMembers key _ => some key
  | .set .. | .delete _ | .deletePattern _ | .getMany _ | .setMany .. => none

namespace Store

/-! ## Strokes -/

/-- A part of a request, and what there was to see of it. -/
structure Stroke where
  time : Nat
  request : Request
  before : Store
  after : Store
  events : List Event

namespace Stroke

/-- A request at an instant, as a stroke. -/
def serve (now : Nat) (r : Request) (s : Store) : Stroke :=
  ⟨now, r, s, (s.serve now r).state, (s.serve now r).events⟩

def isAlive (key : String) (k : Stroke) : Bool := (k.before.live? k.time key).isSome

/-- The key that a stroke finds alive, whatever the answer is. -/
def finds? (k : Stroke) : Option String := k.request.looksUp?.filter fun key => k.isAlive key

/-- The key that a stroke writes: by a value that is set, or as a new number or a new set. -/
def writes? (k : Stroke) : Option String :=
  match k.request with
  | .set key _ ttl => if (ttlDeadline? k.time ttl).isSome then some key else none
  | .increment key | .decrement key => if k.isAlive key then none else some key
  | .addMembers key names => if k.isAlive key || names.isEmpty then none else some key
  | _ => none

/-- The key that a stroke uses, found alive or written. -/
def uses? (k : Stroke) : Option String := k.finds?.or k.writes?

end Stroke

/-- The strokes of requests that are served one after another. -/
def strokes (now : Nat) : List Request → Store → List Stroke
  | [], _ => []
  | r :: rest, s => .serve now r s :: strokes now rest (s.serve now r).state

def Turn.strokes (d : Turn) : List Stroke :=
  match d.move with
  | .ask r => Store.strokes d.time r.parts d.before
  | _ => []

/-- All strokes of a session. -/
def Session.strokes (c : Session) : List Stroke := c.turns.flatMap Turn.strokes

theorem Session.strokes_move (c : Session) (m : Move) :
    (c.move m).strokes = c.strokes ++ (c.turn m).strokes := by
  rw [strokes, move, List.flatMap_append, List.flatMap_singleton]
  rfl

/-- The keys that strokes use, in the order of time. -/
def uses (ks : List Stroke) : List String := ks.filterMap Stroke.uses?

/-! ## A request and its parts -/

/-- The store and the events after requests that are served one after another. -/
def serveAll (now : Nat) : List Request → Store → Store × List Event
  | [], s => (s, [])
  | r :: rest, s =>
    let served := s.serve now r
    let (last, events) := serveAll now rest served.state
    (last, served.events ++ events)

/-- The strokes of a list of requests tell all that these requests do. -/
theorem events_strokes (now : Nat) (rs : List Request) (s : Store) :
    (strokes now rs s).flatMap (·.events) = (serveAll now rs s).2 := by
  induction rs generalizing s with
  | nil => rfl
  | cons r rest ih =>
    rw [strokes, List.flatMap_cons, ih]
    rfl

theorem get_state (now : Nat) (key : String) (s : Store) :
    (s.get now key).state = (s.use now key).2 := by
  rw [get]
  split <;> rename_i h <;> rw [h]

/-- Reading evicts nothing. -/
theorem evictions_get (now : Nat) (key : String) (s : Store) :
    evictions (s.get now key).events = [] := by
  rw [get]
  split <;> rfl

/-- Reading several keys at once comes to reading one after another. -/
theorem serveAll_get (now : Nat) (keys : List String) (s : Store) :
    (serveAll now (keys.map .get) s).1 = (s.getMany now keys).2.1 ∧
      evictions (serveAll now (keys.map .get) s).2 = evictions (s.getMany now keys).2.2 := by
  induction keys generalizing s with
  | nil => exact ⟨rfl, rfl⟩
  | cons key rest ih =>
    have first : (s.serve now (.get key)).state = (s.use now key).2 := get_state now key s
    have none : evictions (s.serve now (.get key)).events = [] := evictions_get now key s
    rw [List.map_cons, serveAll, getMany]
    simp only [first, Event.evictions_append, none, List.nil_append, Event.evictions_count]
    exact ih _

/-- Writing several keys at once comes to writing one after another. -/
theorem serveAll_set {now : Nat} {ttl : Option Nat} {deadline : Option Nat}
    (h : ttlDeadline? now ttl = some deadline) (entries : List (String × Json)) (s : Store) :
    serveAll now (entries.map fun e => .set e.1 e.2 ttl) s = s.writeMany deadline entries := by
  induction entries generalizing s with
  | nil => rfl
  | cons e rest ih =>
    have first : s.serve now (.set e.1 e.2 ttl) =
        ⟨.ok (), (s.write e.1 ⟨.scalar e.2, deadline⟩).1,
          (s.write e.1 ⟨.scalar e.2, deadline⟩).2⟩ := by
      rw [serve, set, h]
    rw [List.map_cons, serveAll, first, writeMany, ih]

theorem serveAll_set_beyond {now : Nat} {ttl : Option Nat} (h : ttlDeadline? now ttl = none)
    (entries : List (String × Json)) (s : Store) :
    serveAll now (entries.map fun e => .set e.1 e.2 ttl) s = (s, []) := by
  induction entries with
  | nil => rfl
  | cons e rest ih =>
    have first : s.serve now (.set e.1 e.2 ttl) = ⟨.beyondClock, s, []⟩ := by
      rw [serve, set, h]
    rw [List.map_cons, serveAll, first, ih]
    rfl

/-- A request does what its parts do one after another. -/
theorem serve_parts (now : Nat) (r : Request) (s : Store) :
    (serveAll now r.parts s).1 = (s.serve now r).state ∧
      evictions (serveAll now r.parts s).2 = evictions (s.serve now r).events := by
  cases r with
  | getMany keys => exact serveAll_get now keys s
  | setMany entries ttl =>
    rw [Request.parts, serve, setMany]
    cases h : ttlDeadline? now ttl with
    | none =>
      rw [serveAll_set_beyond h]
      exact ⟨rfl, rfl⟩
    | some deadline =>
      rw [serveAll_set h]
      exact ⟨rfl, rfl⟩
  | _ => exact ⟨rfl, congrArg evictions (List.append_nil _)⟩

/-! ## The order of use -/

/-- The keys that were used, the one used last first. -/
def recency (used : List String) : List String :=
  used.foldl (fun order key => key :: order.filter (· ≠ key)) []

/-- Whenever the key was used, the other one was used after it. -/
def UsedSince (used : List String) (key other : String) : Prop :=
  ∀ earlier later, used = earlier ++ key :: later → other ∈ later

/-- The key that is used last comes first, and nowhere else. -/
theorem recency_concat (used : List String) (key : String) :
    recency (used ++ [key]) = key :: (recency used).filter (· ≠ key) := by
  rw [recency, List.foldl_append]
  rfl

/-- Every key that was used is in the order of use. -/
theorem mem_recency {used : List String} {key : String} : key ∈ recency used ↔ key ∈ used := by
  induction used using List.reverseRecOn with
  | nil => rfl
  | append_singleton used last ih =>
    rw [recency_concat, List.mem_cons, List.mem_filter, ih, List.mem_append, List.mem_singleton]
    by_cases h : key = last <;> simp [h]

theorem UsedSince.concat {used : List String} {key other last : String}
    (h : key ≠ last → other = last ∨ UsedSince used key other) (hk : key ≠ last) :
    UsedSince (used ++ [last]) key other := by
  intro earlier later split
  -- The last use is not of the key, so it comes after the split.
  rcases List.eq_nil_or_concat later with rfl | ⟨middle, final, rfl⟩
  · have := List.append_inj_right' split rfl
    exact absurd (List.cons.inj this).1.symm hk
  · rw [List.concat_eq_append] at split ⊢
    rw [← List.cons_append, ← List.append_assoc] at split
    obtain ⟨before, same⟩ := List.append_inj' split rfl
    obtain rfl := (List.cons.inj same).1
    rcases h hk with rfl | since
    · exact List.mem_append_right _ (List.mem_singleton_self _)
    · exact List.mem_append_left _ (since _ _ before)

/-- Of two keys the one that comes first was used since the other was last used. -/
theorem recency_ordered (used : List String) :
    (recency used).Pairwise fun first second => UsedSince used second first := by
  induction used using List.reverseRecOn with
  | nil => exact .nil
  | append_singleton used last ih =>
    rw [recency_concat, List.pairwise_cons]
    constructor
    · intro second mem
      have other : second ≠ last := by simpa using (List.mem_filter.1 mem).2
      exact UsedSince.concat (fun _ => Or.inl rfl) other
    · refine (ih.filter _).imp_of_mem fun _ mem since => ?_
      have other := (List.mem_filter.1 mem).2
      exact UsedSince.concat (fun _ => Or.inr since) (by simpa using other)

end Store

end GrantCache
