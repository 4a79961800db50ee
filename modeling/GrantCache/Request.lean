import GrantCache.Fault
import GrantCache.Json
import GrantCache.Telemetry

/-!
# What a store can be asked

A store answers requests. `Request.Answer` says what the answer to each request is; answers of whole
numbers keep their literal meaning: `has` and `expire` answer `0` or `1`, `ttl` the seconds left or
one of the two negative answers below. Times to live are whole seconds.
-/

namespace GrantCache

inductive Request where
  | get (key : String)
  | set (key : String) (value : Json) (ttl : Option Nat)
  | delete (key : String)
  | deletePattern (pattern : String)
  | has (key : String)
  | ttl (key : String)
  | getMany (keys : List String)
  | setMany (entries : List (String × Json)) (ttl : Option Nat)
  | increment (key : String)
  | decrement (key : String)
  | expire (key : String) (seconds : Nat)
  | addMembers (key : String) (names : List String)
  | members (key : String)
  | removeMembers (key : String) (names : List String)
deriving DecidableEq, Inhabited

namespace Request

/-- The answer to `ttl` about a key that does not expire. -/
def ttlNone : Int := -1

/-- The answer to `ttl` about a key that is not there. -/
def ttlMissing : Int := -2

abbrev Answer : Request → Type
  | get _ => Option Json
  | set .. => Unit
  | delete _ | deletePattern _ => Nat
  | has _ | ttl _ => Int
  | getMany _ => List (Option Json)
  | setMany .. => Unit
  | increment _ | decrement _ | expire .. => Int
  | addMembers .. | removeMembers .. => Nat
  | members _ => List String

def op : Request → String
  | get _ => "get"
  | set .. => "set"
  | delete _ => "del"
  | deletePattern _ => "del_pattern"
  | has _ => "exists"
  | ttl _ => "ttl"
  | getMany _ => "mget"
  | setMany .. => "mset"
  | increment _ => "incr"
  | decrement _ => "decr"
  | expire .. => "expire"
  | addMembers .. => "sadd"
  | members _ => "smembers"
  | removeMembers .. => "srem"

/-- The keys that a request is about; of a pattern, its text. -/
def keys : Request → List String
  | get key | set key .. | delete key | has key | ttl key | increment key | decrement key
  | expire key _ | addMembers key _ | members key | removeMembers key _ => [key]
  | deletePattern pattern => [pattern]
  | getMany keys => keys
  | setMany entries _ => entries.map (·.1)

end Request

/-! ### Responses -/

inductive Response (α : Type) where
  | ok (answer : α)
  | fault (f : Fault)
  /-- A deadline lies beyond the end of the clock: the caller is stopped. -/
  | beyondClock
deriving DecidableEq, Inhabited

/-- A response, what has become of the store, and the events on the way. -/
structure Served (σ α : Type) where
  response : Response α
  state : σ
  events : List Event := []

/-! ### Deadlines -/

/-- The first number of seconds that leads beyond the end of the clock. -/
def clockEnd : Nat := Nat.pow 2 63 - 1

/-- The instant so many seconds from now, in milliseconds. -/
def deadlineIn? (now seconds : Nat) : Option Nat :=
  if seconds < clockEnd then some (now + 1000 * seconds) else none

/-- The deadline for a time to live: none if no time, or no seconds, are given. -/
def ttlDeadline? (now : Nat) : Option Nat → Option (Option Nat)
  | none | some 0 => some none
  | some seconds => (deadlineIn? now seconds).map some

end GrantCache
