import GrantCache.Glob
import GrantCache.Request

/-!
# The bounded store

The store in the process itself. Values and sets share one bound on the number of keys. Entries are
listed in order of use, the latest first; when a new key comes to a full store the last one leaves.
A use is a write of the key, or a read or update that finds it alive. An entry is dead from its
deadline on; it is dropped by the first use that meets it, or by a sweep, and counts towards the
bound until then.

Nothing here can fail on a network: the only faults are about the kind of value a key holds.
-/

namespace GrantCache

/-! ### Members of a set -/

namespace Members

def insert (name : String) : List String → List String
  | [] => [name]
  | x :: rest =>
    if name < x then name :: x :: rest
    else if name = x then x :: rest
    else x :: insert name rest

def ofList (names : List String) : List String := names.foldl (fun set n => insert n set) []

def union (set names : List String) : List String := names.foldl (fun set n => insert n set) set

def remove (set names : List String) : List String := set.filter fun x => !names.contains x

theorem mem_insert {name x : String} {set : List String} :
    x ∈ insert name set ↔ x = name ∨ x ∈ set := by
  induction set with
  | nil => simp [insert]
  | cons y rest ih =>
    rw [insert]
    split
    · simp
    · split
      · rename_i h
        subst h
        simp
      · simp only [List.mem_cons, ih]
        constructor
        · rintro (h | h | h)
          · exact Or.inr (Or.inl h)
          · exact Or.inl h
          · exact Or.inr (Or.inr h)
        · rintro (h | h | h)
          · exact Or.inr (Or.inl h)
          · exact Or.inl h
          · exact Or.inr (Or.inr h)

theorem mem_union {x : String} {set names : List String} :
    x ∈ union set names ↔ x ∈ names ∨ x ∈ set := by
  unfold union
  induction names generalizing set with
  | nil => simp
  | cons n rest ih =>
    simp only [List.foldl_cons, ih, mem_insert, List.mem_cons]
    constructor
    · rintro (h | h | h)
      · exact Or.inl (Or.inr h)
      · exact Or.inl (Or.inl h)
      · exact Or.inr h
    · rintro ((h | h) | h)
      · exact Or.inr (Or.inl h)
      · exact Or.inl h
      · exact Or.inr (Or.inr h)

end Members

/-! ### Entries -/

/-- What a key can hold. -/
inductive Data where
  | scalar (value : Json)
  | set (names : List String)
deriving DecidableEq, Inhabited

/-- What a key holds, and until when. -/
structure Entry where
  data : Data
  deadline : Option Nat
deriving DecidableEq, Inhabited

namespace Entry

/-- An entry is alive before its deadline. -/
def isAlive (now : Nat) (e : Entry) : Bool :=
  match e.deadline with
  | some d => now < d
  | none => true

/-- Seconds left, rounded to the nearest, a half up. -/
def remaining (now : Nat) (e : Entry) : Int :=
  match e.deadline with
  | some d => ((d - now + 500) / 1000 : Nat)
  | none => Request.ttlNone

end Entry

/-! ### The store -/

/-- Entries, the most recently used first, and how many of them there may be. -/
structure Store where
  capacity : Nat
  /-- The entries in order of use, the latest first. -/
  entries : Catalog Entry
deriving DecidableEq, Inhabited

namespace Store

/-- An empty store for at most `limit` keys, and at least one. -/
def empty (limit : Nat) : Store := ⟨max limit 1, []⟩

def size (s : Store) : Nat := s.entries.length

def sizeReading (s : Store) : Event := .gauge .localEntries s.size

def drop (key : String) (s : Store) : Store := { s with entries := s.entries.erase key }

/-- Let a key hold an entry, as the one used last. -/
def hold (key : String) (e : Entry) (s : Store) : Store :=
  { s with entries := (key, e) :: s.entries.erase key }

/-- Let go of the key whose last use is the longest ago. -/
def evict (s : Store) : Store × List Event :=
  match s.entries.getLast? with
  | some (key, _) =>
    ({ s with entries := s.entries.dropLast }, [.count .evictions 1, .notice (.evicted key)])
  | none => (s, [])

/-- Use a key: its entry, if it is alive. A dead entry is dropped. -/
def use (now : Nat) (key : String) (s : Store) : Option Entry × Store :=
  match s.entries.find? key with
  | some e => if e.isAlive now then (some e, s.hold key e) else (none, s.drop key)
  | none => (none, s)

/-- Write an entry. A key that is not held takes the place of another one when the store is full. -/
def write (key : String) (e : Entry) (s : Store) : Store × List Event :=
  -- A key that is held needs no room, even if its entry is dead.
  if s.entries.holds key then
    let s := s.hold key e
    (s, [s.sizeReading])
  else if s.size < s.capacity then
    let s := s.hold key e
    (s, [s.sizeReading])
  else
    let (s, events) := s.evict
    let s := s.hold key e
    (s, events ++ [s.sizeReading])

/-- Remove every entry that has expired. -/
def sweep (now : Nat) (s : Store) : Nat × Store × List Event :=
  let alive := s.entries.filter fun x => x.2.isAlive now
  let s' := { s with entries := alive }
  (s.size - alive.length, s', [s'.sizeReading])

/-! #### Requests -/

/-- Read a value. A set cannot be read as one. -/
def get (now : Nat) (key : String) (s : Store) : Served Store (Option Json) :=
  match s.use now key with
  | (some ⟨.scalar v, _⟩, s) => ⟨.ok (some v), s, [.count (.reads .inProcess "get" true) 1]⟩
  | (some ⟨.set _, _⟩, s) => ⟨.fault (.wrongType key), s, []⟩
  | (none, s) => ⟨.ok none, s, [.count (.reads .inProcess "get" false) 1]⟩

/-- A value in place of whatever the key held, a set included. -/
def set (now : Nat) (key : String) (value : Json) (ttl : Option Nat) (s : Store) :
    Served Store Unit :=
  match ttlDeadline? now ttl with
  | none => ⟨.beyondClock, s, []⟩
  | some deadline =>
    let (s, events) := s.write key ⟨.scalar value, deadline⟩
    ⟨.ok (), s, events⟩

/-- Let go of a key: one if it was alive. -/
def delete (now : Nat) (key : String) (s : Store) : Served Store Nat :=
  let removed := ((s.entries.find? key).map (·.isAlive now)).getD false
  let s := s.drop key
  ⟨.ok removed.toNat, s, [s.sizeReading]⟩

/-- Dead entries leave too, but only live ones are counted. -/
def deletePattern (now : Nat) (pattern : String) (s : Store) : Served Store Nat :=
  let (gone, kept) := s.entries.partition fun x => Glob.matchesText pattern x.1
  let s := { s with entries := kept }
  ⟨.ok (gone.filter fun x => x.2.isAlive now).length, s, [s.sizeReading]⟩

def has (now : Nat) (key : String) (s : Store) : Served Store Int :=
  match s.use now key with
  | (some _, s) => ⟨.ok 1, s, []⟩
  | (none, s) => ⟨.ok 0, s, []⟩

def ttl (now : Nat) (key : String) (s : Store) : Served Store Int :=
  match s.use now key with
  | (some e, s) => ⟨.ok (e.remaining now), s, []⟩
  | (none, s) => ⟨.ok Request.ttlMissing, s, []⟩

/-- A key that holds a set reads as a miss. -/
def getMany (now : Nat) : List String → Store → List (Option Json) × Store × List Event
  | [], s => ([], s, [])
  | key :: rest, s =>
    let (e, s) := s.use now key
    let value := match e with
      | some ⟨.scalar v, _⟩ => some v
      | _ => none
    let (values, s, events) := getMany now rest s
    (value :: values, s, .count (.reads .inProcess "mget" value.isSome) 1 :: events)

def writeMany (deadline : Option Nat) : List (String × Json) → Store → Store × List Event
  | [], s => (s, [])
  | (key, value) :: rest, s =>
    let (s, first) := s.write key ⟨.scalar value, deadline⟩
    let (s, events) := writeMany deadline rest s
    (s, first ++ events)

def setMany (now : Nat) (entries : List (String × Json)) (ttl : Option Nat) (s : Store) :
    Served Store Unit :=
  match ttlDeadline? now ttl with
  | none => ⟨.beyondClock, s, []⟩
  | some deadline =>
    let (s, events) := s.writeMany deadline entries
    ⟨.ok (), s, events⟩

/-- Add to the integer that a key holds; a key that is not there holds zero. The result must be
within the signed 64-bit range. -/
def adjust (now : Nat) (key : String) (delta : Int) (s : Store) : Served Store Int :=
  match s.use now key with
  | (some ⟨.set _, _⟩, s) => ⟨.fault (.wrongType key), s, []⟩
  -- The deadline stays as it was; a new key gets none.
  | (some ⟨.scalar v, deadline⟩, s) =>
    match v.signed?.bind fun n => (Json.int (n + delta)).signed? with
    | some n => ⟨.ok n, s.hold key ⟨.scalar (.int n), deadline⟩, []⟩
    | none => ⟨.fault (.notAnInteger key), s, []⟩
  | (none, s) =>
    let (s, events) := s.write key ⟨.scalar (.int delta), none⟩
    ⟨.ok delta, s, events⟩

/-- Give a key that is alive a new deadline. -/
def expire (now : Nat) (key : String) (seconds : Nat) (s : Store) : Served Store Int :=
  match s.use now key with
  | (some e, s) =>
    match deadlineIn? now seconds with
    | some deadline => ⟨.ok 1, s.hold key { e with deadline := some deadline }, []⟩
    | none => ⟨.beyondClock, s, []⟩
  | (none, s) => ⟨.ok 0, s, []⟩

/-- Names that are new to the set are counted. -/
def addMembers (now : Nat) (key : String) (names : List String) (s : Store) : Served Store Nat :=
  match s.use now key with
  | (some ⟨.set old, deadline⟩, s) =>
    let set := Members.union old names
    -- The set only grows, by the names that are new.
    ⟨.ok (set.length - old.length), s.hold key ⟨.set set, deadline⟩, []⟩
  | (some ⟨.scalar _, _⟩, s) => ⟨.fault (.wrongType key), s, []⟩
  | (none, s) =>
    if names.isEmpty then ⟨.ok 0, s, []⟩
    else
      let set := Members.ofList names
      let (s, events) := s.write key ⟨.set set, none⟩
      ⟨.ok set.length, s, events⟩

/-- The members of a set, in order. Under a key without an entry there are none. -/
def members (now : Nat) (key : String) (s : Store) : Served Store (List String) :=
  match s.use now key with
  | (some ⟨.set names, _⟩, s) => ⟨.ok names, s, []⟩
  | (some ⟨.scalar _, _⟩, s) => ⟨.fault (.wrongType key), s, []⟩
  | (none, s) => ⟨.ok [], s, []⟩

/-- A set that loses its last name is let go of. -/
def removeMembers (now : Nat) (key : String) (names : List String) (s : Store) :
    Served Store Nat :=
  match s.use now key with
  | (some ⟨.set old, deadline⟩, s) =>
    let set := Members.remove old names
    if set.isEmpty then
      let s := s.drop key
      ⟨.ok old.length, s, [s.sizeReading]⟩
    else ⟨.ok (old.length - set.length), s.hold key ⟨.set set, deadline⟩, []⟩
  | (some ⟨.scalar _, _⟩, s) => ⟨.fault (.wrongType key), s, []⟩
  | (none, s) => ⟨.ok 0, s, []⟩

def serve (now : Nat) (s : Store) : (r : Request) → Served Store r.Answer
  | .get key => s.get now key
  | .set key value ttl => s.set now key value ttl
  | .delete key => s.delete now key
  | .deletePattern pattern => s.deletePattern now pattern
  | .has key => s.has now key
  | .ttl key => s.ttl now key
  | .getMany keys =>
    let (values, s, events) := s.getMany now keys
    ⟨.ok values, s, events⟩
  | .setMany entries ttl => s.setMany now entries ttl
  | .increment key => s.adjust now key 1
  | .decrement key => s.adjust now key (-1)
  | .expire key seconds => s.expire now key seconds
  | .addMembers key names => s.addMembers now key names
  | .members key => s.members now key
  | .removeMembers key names => s.removeMembers now key names

end Store

/-! ### A store with failing keys -/

/-- A store in which every request about one of the chosen keys fails and touches nothing. -/
structure FaultyStore where
  store : Store
  failing : List String := []
  failures : Nat := 0
deriving DecidableEq, Inhabited

namespace FaultyStore

def injected : Fault := .timeout (.ofMillis 1)

/-- The key under which the store can be made to look unavailable. -/
def availabilityKey : String := "is_available"

/-- Choose a key; whether it was not chosen before. -/
def failKey (key : String) (s : FaultyStore) : Bool × FaultyStore :=
  if s.failing.contains key then (false, s) else (true, { s with failing := key :: s.failing })

/-- Let a key work again; whether it was chosen. -/
def healKey (key : String) (s : FaultyStore) : Bool × FaultyStore :=
  (s.failing.contains key, { s with failing := s.failing.filter (· ≠ key) })

def serve (now : Nat) (s : FaultyStore) (r : Request) : Served FaultyStore r.Answer :=
  if r.keys.any s.failing.contains then
    ⟨.fault injected, { s with failures := s.failures + 1 }, []⟩
  else
    let served := s.store.serve now r
    ⟨served.response, { s with store := served.state }, served.events⟩

end FaultyStore

end GrantCache
