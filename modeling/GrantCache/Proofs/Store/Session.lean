import Mathlib.Data.List.Induction
import GrantCache.Proofs.Store.Requests

/-!
# Sessions with a store

What can happen to a store from outside: it is asked, it is swept, and time passes, in any order. A
session keeps what there was to see on every turn, the answers, the events and the store before and
after, so that what the store does at one time can be related to what was done to it earlier.
-/

namespace GrantCache.Store

/-- What can happen to a store: a request, a sweep, or time. -/
inductive Move where
  | ask (r : Request)
  | sweep
  | pass (ms : Nat)

/-- How much time a move takes. -/
def Move.length : Move → Nat
  | pass ms => ms
  | _ => 0

/-- A request with the response that it got. -/
abbrev Answered := (r : Request) × Response r.Answer

/-- A move, and what there was to see of it. -/
structure Turn where
  time : Nat
  before : Store
  move : Move
  answer? : Option Answered
  after : Store
  events : List Event

/-- A store with its clock, and the record of all that has happened. -/
structure Session where
  now : Nat
  store : Store
  turns : List Turn

namespace Session

/-- A session with a new store for at most `limit` keys. -/
def start (limit now : Nat) : Session := ⟨now, empty limit, []⟩

/-- What a move does, with the instant and the states before and after it. -/
def turn (c : Session) (m : Move) : Turn :=
  match m with
  | .ask r =>
    let served := c.store.serve c.now r
    ⟨c.now, c.store, m, some ⟨r, served.response⟩, served.state, served.events⟩
  | .sweep =>
    let (_, swept, events) := c.store.sweep c.now
    ⟨c.now, c.store, m, none, swept, events⟩
  | .pass _ => ⟨c.now, c.store, m, none, c.store, []⟩

/-- Make a move and put it on record. -/
def move (c : Session) (m : Move) : Session :=
  ⟨c.now + m.length, (c.turn m).after, c.turns ++ [c.turn m]⟩

def play (c : Session) (moves : List Move) : Session := moves.foldl move c

/-- What was asked so far and answered, in order. -/
def answers (c : Session) : List Answered := c.turns.filterMap (·.answer?)

/-- All events so far, in order. -/
def events (c : Session) : List Event := c.turns.flatMap (·.events)

variable {c : Session}

/-- The last move of a list is made where the others have led. -/
theorem play_concat (c : Session) (moves : List Move) (m : Move) :
    c.play (moves ++ [m]) = (c.play moves).move m := by
  rw [play, List.foldl_append]
  rfl

theorem events_move (c : Session) (m : Move) :
    (c.move m).events = c.events ++ (c.turn m).events := by
  rw [events, move, List.flatMap_append, List.flatMap_singleton]
  rfl

theorem answers_move (c : Session) (m : Move) :
    (c.move m).answers = c.answers ++ (c.turn m).answer?.toList := by
  rw [answers, move, List.filterMap_append]
  cases he : (c.turn m).answer? with
  | none => simp [he, answers]
  | some a => simp [he, answers]

/-- In no session does a key come to have two entries. -/
theorem distinct_play {c : Session} (h : c.store.Distinct) (moves : List Move) :
    (c.play moves).store.Distinct := by
  induction moves using List.reverseRecOn with
  | nil => exact h
  | append_singleton moves m ih =>
    rw [play_concat]
    cases m with
    | ask r => exact ih.serve _ r
    | sweep => exact ih.sweep _
    | pass ms => exact ih

end Session

end GrantCache.Store
