import Mathlib.Algebra.Order.Round
import Mathlib.Data.Finset.Sort
import Mathlib.Data.Rat.Floor
import Mathlib.Data.Set.Card
import Mathlib.Data.String.Basic
import GrantCache.Request
import GrantCache.Glob

/-!
# The store as it is meant

A map from keys to items, without a bound and without an order of use. An item holds a JSON value or
a set that is not empty, and it is there until the instant of its deadline, and not from then on.
What a request answers and what becomes of the map depends on the items that are there, and nothing
is left over from those that are not.

The map can also lose items of its own accord (`Move.lose`), which is how a bounded store differs.
-/

namespace GrantCache

/-- A value, or a set with at least one member. -/
inductive Content where
  | value (v : Json)
  | set (names : Finset String) (nonempty : names.Nonempty)

/-- What a key holds, and until when. -/
structure Item where
  content : Content
  deadline : Option Nat

/-- A map without bound. An item whose deadline has come may still be in it, but counts for nothing.
-/
structure Reference where
  item? : String → Option Item

namespace Reference

def empty : Reference := ⟨fun _ => none⟩

/-- The item that is there. -/
def live? (now : Nat) (key : String) (m : Reference) : Option Item :=
  (m.item? key).filter fun i => i.deadline.all (now < ·)

def put (key : String) (i : Item) (m : Reference) : Reference :=
  ⟨fun k => if key = k then some i else m.item? k⟩

def remove (p : String → Prop) [DecidablePred p] (m : Reference) : Reference :=
  ⟨fun k => if p k then none else m.item? k⟩

/-! ### Times to live and integers -/

/-- The clock ends after this number of seconds. -/
def lastSecond : Nat := 2 ^ 63 - 1

/-- No time to live and one of no seconds are the same; one beyond the end of the clock is none. -/
def deadline? (now : Nat) (ttl : Option Nat) : Option (Option Nat) :=
  let seconds := ttl.getD 0
  if seconds = 0 then some none
  else if seconds < lastSecond then some (some (now + 1000 * seconds))
  else none

/-- Within the signed 64-bit range. -/
def IsInt64 (n : Int) : Prop := -2 ^ 63 ≤ n ∧ n < 2 ^ 63

instance (n : Int) : Decidable (IsInt64 n) := inferInstanceAs (Decidable (_ ∧ _))

/-! ### Requests -/

/-- A set cannot be read as a value. -/
def get (now : Nat) (key : String) (m : Reference) : Response (Option Json) × Reference :=
  match m.live? now key with
  | some ⟨.value v, _⟩ => (.ok (some v), m)
  | some ⟨.set .., _⟩ => (.fault (.wrongType key), m)
  | none => (.ok none, m)

/-- Whatever the keys held before, they hold these values now. -/
def setMany (now : Nat) (entries : List (String × Json)) (ttl : Option Nat) (m : Reference) :
    Response Unit × Reference :=
  match deadline? now ttl with
  | some deadline => (.ok (), entries.foldl (fun m e => m.put e.1 ⟨.value e.2, deadline⟩) m)
  | none => (.beyondClock, m)

/-- A key counts as deleted when something was there. -/
def delete (now : Nat) (key : String) (m : Reference) : Response Nat × Reference :=
  (.ok (if (m.live? now key).isSome then 1 else 0), m.remove (· = key))

/-- The keys that are there and that the pattern describes. -/
def matching (now : Nat) (pattern : String) (m : Reference) : Set String :=
  {key | (m.live? now key).isSome ∧ Glob.matchesText pattern key}

noncomputable def deletePattern (now : Nat) (pattern : String) (m : Reference) :
    Response Nat × Reference :=
  (.ok (m.matching now pattern).ncard, m.remove fun key => Glob.matchesText pattern key)

def has (now : Nat) (key : String) (m : Reference) : Response Int × Reference :=
  (.ok (if (m.live? now key).isSome then 1 else 0), m)

/-- `-2` if there is nothing, `-1` for an item that stays, otherwise the seconds left, rounded to
the nearest whole number, a half up. -/
def ttl (now : Nat) (key : String) (m : Reference) : Response Int × Reference :=
  match m.live? now key with
  | none => (.ok (-2), m)
  | some ⟨_, none⟩ => (.ok (-1), m)
  | some ⟨_, some deadline⟩ => (.ok (round (((deadline : ℚ) - now) / 1000)), m)

/-- A set reads as a miss. -/
def getMany (now : Nat) (keys : List String) (m : Reference) :
    Response (List (Option Json)) × Reference :=
  let value (key : String) : Option Json :=
    match m.live? now key with
    | some ⟨.value v, _⟩ => some v
    | _ => none
  (.ok (keys.map value), m)

/-- The deadline stays. A key that is not there counts as zero, and gets no deadline. -/
def adjust (now : Nat) (key : String) (delta : Int) (m : Reference) : Response Int × Reference :=
  match m.live? now key with
  | some ⟨.set .., _⟩ => (.fault (.wrongType key), m)
  | some ⟨.value (.int n), deadline⟩ =>
    if IsInt64 n ∧ IsInt64 (n + delta) then
      (.ok (n + delta), m.put key ⟨.value (.int (n + delta)), deadline⟩)
    else (.fault (.notAnInteger key), m)
  | some ⟨.value _, _⟩ => (.fault (.notAnInteger key), m)
  | none => (.ok (0 + delta), m.put key ⟨.value (.int (0 + delta)), none⟩)

/-- A key that is not there gets no deadline, whatever it is. -/
def expire (now : Nat) (key : String) (seconds : Nat) (m : Reference) :
    Response Int × Reference :=
  match m.live? now key with
  | none => (.ok 0, m)
  | some i =>
    if seconds < lastSecond then
      (.ok 1, m.put key { i with deadline := some (now + 1000 * seconds) })
    else (.beyondClock, m)

/-- The deadline stays. Without names no set is made. -/
def addMembers (now : Nat) (key : String) (names : List String) (m : Reference) :
    Response Nat × Reference :=
  match m.live? now key with
  | some ⟨.value _, _⟩ => (.fault (.wrongType key), m)
  | some ⟨.set old nonempty, deadline⟩ =>
    (.ok (names.toFinset \ old).card,
      m.put key ⟨.set (old ∪ names.toFinset) (nonempty.mono Finset.subset_union_left), deadline⟩)
  | none =>
    if h : names.toFinset.Nonempty then
      (.ok names.toFinset.card, m.put key ⟨.set names.toFinset h, none⟩)
    else (.ok 0, m)

def members (now : Nat) (key : String) (m : Reference) : Response (List String) × Reference :=
  match m.live? now key with
  | some ⟨.value _, _⟩ => (.fault (.wrongType key), m)
  | some ⟨.set names _, _⟩ => (.ok (names.sort (· ≤ ·)), m)
  | none => (.ok [], m)

/-- The deadline stays. A set that loses its last name is gone. -/
def removeMembers (now : Nat) (key : String) (names : List String) (m : Reference) :
    Response Nat × Reference :=
  match m.live? now key with
  | some ⟨.value _, _⟩ => (.fault (.wrongType key), m)
  | some ⟨.set old _, deadline⟩ =>
    (.ok (old ∩ names.toFinset).card,
      if h : (old \ names.toFinset).Nonempty then
        m.put key ⟨.set (old \ names.toFinset) h, deadline⟩
      else m.remove (· = key))
  | none => (.ok 0, m)

noncomputable def serve (now : Nat) (m : Reference) : (r : Request) → Response r.Answer × Reference
  | .get key => m.get now key
  | .set key value ttl => m.setMany now [(key, value)] ttl
  | .delete key => m.delete now key
  | .deletePattern pattern => m.deletePattern now pattern
  | .has key => m.has now key
  | .ttl key => m.ttl now key
  | .getMany keys => m.getMany now keys
  | .setMany entries ttl => m.setMany now entries ttl
  | .increment key => m.adjust now key 1
  | .decrement key => m.adjust now key (-1)
  | .expire key seconds => m.expire now key seconds
  | .addMembers key names => m.addMembers now key names
  | .members key => m.members now key
  | .removeMembers key names => m.removeMembers now key names

/-! ### Sessions -/

/-- A request, items that are lost, or time that passes. -/
inductive Move where
  | ask (r : Request)
  | lose (keys : List String)
  | pass (ms : Nat)

/-- The instant, the items and the answers so far. -/
structure Session where
  now : Nat
  items : Reference
  answers : List ((r : Request) × Response r.Answer)

namespace Session

def start (now : Nat) : Session := ⟨now, empty, []⟩

noncomputable def move (c : Session) : Move → Session
  | .ask r =>
    let (response, items) := c.items.serve c.now r
    { c with items, answers := c.answers ++ [⟨r, response⟩] }
  | .lose keys => { c with items := c.items.remove (· ∈ keys) }
  | .pass ms => { c with now := c.now + ms }

noncomputable def play (c : Session) (moves : List Move) : Session := moves.foldl move c

end Session

end Reference

end GrantCache
