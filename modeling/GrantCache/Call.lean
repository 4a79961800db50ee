import GrantCache.Grants

/-!
# Calls under a circuit

Work of any kind can be put under a named circuit. A call that the circuit refuses does not run and
is told so; one that runs ends with its own answer or its own error, and the circuit counts it. Work
that is halted or given up on is not counted.
-/

namespace GrantCache

/-- Why a call gave no answer: it was refused, or its work failed. -/
inductive CallError (ε : Type) where
  | refused (circuit : String)
  | failed (e : ε)
deriving DecidableEq, Inhabited

namespace CallError

variable {ε : Type}

def isRefusal : CallError ε → Bool
  | refused _ => true
  | failed _ => false

/-- The text of an error; that of the work itself is written by `text`. -/
def message (text : ε → String) : CallError ε → String
  | refused circuit => "circuit '" ++ circuit ++ "' is open"
  | failed e => text e

/-- The fault that an error stands for when the work was a call to a store. -/
def toFault : CallError Fault → Fault
  | refused _ => .circuitOpen
  | failed f => f

end CallError

namespace Grants

/-- A call asks the circuit of a name to be let in. -/
def enter (name : String) (p : Policy) (g : Grants) : Bool × Grants :=
  let (admitted, breaker, events) := g.host.breaker.enter name p g.host.now
  (admitted, { g with host := { g.host with breaker } }.note events)

/-- A call that was let in has ended, well or not. -/
def leave (name : String) (p : Policy) (ok : Bool) (g : Grants) : Grants :=
  let (breaker, events) := g.host.breaker.finish name p g.host.now ok
  { g with host := { g.host with breaker } }.note events

def resetCircuit (name : String) (g : Grants) : Grants :=
  let (breaker, events) := g.host.breaker.reset name
  { g with host := { g.host with breaker } }.note events

/-- The thresholds of a call: its own, and the defaults for those it leaves open. -/
def policy (o : Policy.Override) (g : Grants) : Policy := g.host.breaker.defaults.merge o

/-- Run work under the circuit of a name. There is no result if the work was halted. -/
def guarded {ε α : Type} (name : String) (o : Policy.Override)
    (work : Grants → Option (Except ε α) × Grants) (g : Grants) :
    Option (Except (CallError ε) α) × Grants :=
  let p := g.policy o
  match g.enter name p with
  | (false, g) => (some (.error (.refused name)), g)
  | (true, g) =>
    match work g with
    | (none, g) => (none, g)
    | (some (.ok a), g) => (some (.ok a), g.leave name p true)
    | (some (.error e), g) => (some (.error (.failed e)), g.leave name p false)

end Grants

end GrantCache
