import GrantCache.Numeral

/-!
# The wire to a remote store

Commands are lists of texts; the server answers each with a reply. What a server will do is given as
data: a `Link` either refuses every connection, or plays a list of acts, one for each command that
reaches it. An act is a reply, a dropped connection, or either of them after a delay, during which
the clock moves. `Link.ask` sends one command under a deadline, `Link.hearAll` a pipeline, whose
commands are all written before the first reply is read.
-/

namespace GrantCache

abbrev Command := List String

/-- What the remote store can reply. -/
inductive Reply where
  | int (n : Int)
  | bulk (text : String)
  | status (text : String)
  | error (text : String)
  | nil
  | array (items : List Reply)
deriving Inhabited

namespace Reply

mutual

/-- Whether a reply is an error or holds one, which spoils all of it. -/
def isError : Reply → Bool
  | error _ => true
  | array items => anyError items
  | _ => false

def anyError : List Reply → Bool
  | [] => false
  | r :: rest => isError r || anyError rest

end

/-! ### Reading replies

Each reader says which replies it takes; every other one is a failure of the remote side. -/

/-- A text: as it is, or the numeral of an integer. -/
def text? : Reply → Option String
  | bulk s | status s => some s
  | int n => some (Numeral.intText n)
  | _ => none

/-- A text, or nothing where there is none. -/
def optionalText? : Reply → Option (Option String)
  | nil => some none
  | r => r.text?.map some

/-- An integer, or text that is one, within the signed 64-bit range. -/
def signed? : Reply → Option Int
  | int n => some n
  | bulk s | status s => (Numeral.readInt? s.toList).filter fun n => -(Nat.pow 2 63) ≤ n ∧ n < Nat.pow 2 63
  | _ => none

/-- A count: an integer is taken modulo 2^64, text must be a number of the unsigned 64-bit range. -/
def count? : Reply → Option Nat
  | int n => some (n % Nat.pow 2 64).toNat
  | bulk s | status s =>
    match s.toList with
    | '-' :: _ => none
    | cs => (Numeral.readInt? cs).bind fun n => if n < Nat.pow 2 64 then some n.toNat else none
  | _ => none

/-- The items of an array. Nil is an empty list, and a text by itself a list of one item. -/
def list? {α : Type} (item? : Reply → Option α) : Reply → Option (List α)
  | array items => items.mapM item?
  | bulk s => (item? (bulk s)).map fun item => [item]
  | nil => some []
  | _ => none

/-- A page of a scan: a cursor and a list of keys. -/
def page? : Reply → Option (Nat × List String)
  | array [cursor, keys] => do return (← cursor.count?, ← keys.list? text?)
  | _ => none

end Reply

/-! ### The link -/

/-- What the remote store does about one command. -/
inductive Act where
  | reply (r : Reply)
  | close
  /-- Do it after so many milliseconds. -/
  | delay (ms : Nat) (act : Act)
deriving Inhabited

/-- What is heard of the remote store until a deadline. -/
inductive Heard where
  | reply (r : Reply)
  | dropped
  | late
deriving Inhabited

/-- Wait for an act: the instant when waiting ends, and what was heard. A reply that comes when the
deadline is reached comes too late. -/
def Act.await (deadline : Nat) : Act → Nat → Nat × Heard
  | reply r, now => (now, .reply r)
  | close, now => (now, .dropped)
  | delay ms act, now =>
    if deadline ≤ now + ms then (now + ms, .late) else act.await deadline (now + ms)

structure Link where
  listening : Bool := true
  /-- What the server does with the commands to come. -/
  acts : List Act := []
  /-- The commands that reached the server, the latest first. -/
  sent : List Command := []
deriving Inhabited

namespace Link

/-- What a server without instructions says. -/
def unscripted : Reply := .error "ERR no scripted reply"

/-- The next act, and those after it. -/
def nextAct (link : Link) : Act × List Act :=
  match link.acts with
  | [] => (.reply unscripted, [])
  | act :: rest => (act, rest)

/-- Send a command and wait for the reply. -/
def ask (deadline : Nat) (command : Command) (now : Nat) (link : Link) : Heard × Nat × Link :=
  let (act, rest) := link.nextAct
  let (now, heard) := act.await deadline now
  (heard, now, { link with acts := rest, sent := command :: link.sent })

/-- Wait for the replies to commands that were all sent, up to the first that does not come. The
replies come with how many commands reached the server: after a dropped connection no more do. -/
def hearAll (deadline : Nat) : List Command → Nat → Link → Except Heard (List Reply) × Nat × Link
  | [], now, link => (.ok [], now, link)
  | command :: rest, now, link =>
    match link.ask deadline command now with
    | (.reply r, now, link) =>
      match hearAll deadline rest now link with
      | (.ok replies, now, link) => (.ok (r :: replies), now, link)
      | (.error heard, now, link) => (.error heard, now, link)
    -- All commands were sent before anybody waited.
    | (.late, now, link) => (.error .late, now, { link with sent := rest.reverse ++ link.sent })
    | (.dropped, now, link) => (.error .dropped, now, link)

theorem acts_ask (deadline : Nat) (command : Command) (now : Nat) (link : Link) :
    (link.ask deadline command now).2.2.acts = link.acts.tail := by
  unfold ask nextAct
  cases link.acts <;> rfl

end Link

end GrantCache
