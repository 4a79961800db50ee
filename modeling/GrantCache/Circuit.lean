import GrantCache.Binary64
import GrantCache.Telemetry

/-!
# Circuits

A circuit counts how the calls of an unreliable dependency end and decides whether the next one may
run.

```text
closed → open:        enough calls ended, and the share of failures reached the threshold
open → half-open:     the first call after the timeout since the last failure
half-open → closed:   enough successes in a row; all counts start again from zero
half-open → open:     any failure
```

A circuit keeps no clock: every operation that needs the instant takes it. A call is let in by
`enter` and ends, any time later and in any order with other calls, by `finish`; a call that never
ends leaves no trace. Which thresholds apply is said by each call.
-/

namespace GrantCache

/-! ### Thresholds -/

/-- The thresholds of a circuit. -/
structure Policy where
  /-- The share of failures that opens the circuit. -/
  failureThreshold : Binary64 := .half
  /-- Successes in a row that close a half-open circuit. -/
  successThreshold : Nat := 2
  /-- Milliseconds since the last failure before a trial call is let in. -/
  timeout : Nat := 60000
  /-- Calls that must have ended before the share of failures counts. -/
  minimumRequests : Nat := 10
deriving DecidableEq, Inhabited

/-- Thresholds that a call sets for itself; what it leaves open stays as it is. -/
structure Policy.Override where
  failureThreshold : Option Binary64 := none
  successThreshold : Option Nat := none
  timeout : Option Nat := none
  minimumRequests : Option Nat := none
deriving DecidableEq, Inhabited

/-- The thresholds with those of an override put over them. -/
def Policy.merge (p : Policy) (o : Policy.Override) : Policy where
  failureThreshold := o.failureThreshold.getD p.failureThreshold
  successThreshold := o.successThreshold.getD p.successThreshold
  timeout := o.timeout.getD p.timeout
  minimumRequests := o.minimumRequests.getD p.minimumRequests

/-- Whether thresholds are the same as numbers: both zeros are, and a NaN agrees with nothing. -/
def Policy.agrees (p q : Policy) : Bool :=
  p.failureThreshold.le q.failureThreshold && q.failureThreshold.le p.failureThreshold &&
    p.successThreshold = q.successThreshold && p.timeout = q.timeout &&
    p.minimumRequests = q.minimumRequests

/-! ### One circuit -/

/-- The phase of a circuit and its counts since they were last zero. A streak is a number of successes
with no failure between. -/
structure Circuit where
  phase : Phase := .closed
  requests : Nat := 0
  failures : Nat := 0
  successes : Nat := 0
  streak : Nat := 0
  /-- The instant of the failure from which the timeout counts. -/
  lastFailure : Option Nat := none
deriving DecidableEq, Inhabited

namespace Circuit

/-- The share of failures. Both counts become numbers before they are divided. -/
def share (failures requests : Nat) : Binary64 :=
  (Binary64.ofNat failures).div (Binary64.ofNat requests)

/-- The share of calls that failed, zero before any call ended. -/
def failureRate (c : Circuit) : Binary64 :=
  if c.requests = 0 then .zero else share c.failures c.requests

def movedNotice (name : String) (c : Circuit) : Phase → Notice
  | .opened => .circuitOpened name c.phase c.requests c.failures
  | .halfOpen => .circuitHalfOpen name
  | .closed => .circuitClosed name

/-- Go to another phase. Going to the phase that already holds is nothing. -/
def move (name : String) (target : Phase) (c : Circuit) : Circuit × List Event :=
  if c.phase = target then (c, [])
  else
    ({ c with phase := target },
      [.count (.transitions name target) 1, .gauge (.circuitPhase name) target.reading,
        .notice (movedNotice name c target)])

/-- Whether the timeout since the last failure is over. -/
def rested (p : Policy) (now : Nat) (c : Circuit) : Bool :=
  match c.lastFailure with
  | some at_ => p.timeout ≤ now - at_
  | none => true

/-- Whether a call may run. An open circuit lets a call in, as a trial, once it has rested. -/
def enter (name : String) (p : Policy) (now : Nat) (c : Circuit) : Bool × Circuit × List Event :=
  if c.phase ≠ .opened then (true, c, [])
  else if c.rested p now then
    let (c, events) := c.move name .halfOpen
    (true, c, events)
  else (false, c, [.count (.rejections name) 1])

/-- Whether enough calls have ended, and a great enough share of them failed. -/
def shouldTrip (p : Policy) (c : Circuit) : Bool :=
  p.minimumRequests ≤ c.requests && p.failureThreshold.le (share c.failures c.requests)

/-- Open a closed circuit if its counts call for it. -/
def tripIfNeeded (name : String) (p : Policy) (now : Nat) (c : Circuit) : Circuit × List Event :=
  -- The timeout counts from here, even if the last call was a success.
  if c.shouldTrip p then { c with lastFailure := some now }.move name .opened else (c, [])

def succeed (name : String) (p : Policy) (now : Nat) (c : Circuit) : Circuit × List Event :=
  let c := { c with
    requests := c.requests + 1
    successes := c.successes + 1
    streak := c.streak + 1 }
  match c.phase with
  | .closed => c.tripIfNeeded name p now
  | .halfOpen =>
    -- Closing forgets the counts.
    if p.successThreshold ≤ c.streak then ({}, (c.move name .closed).2) else (c, [])
  | .opened => (c, [])

def fail (name : String) (p : Policy) (now : Nat) (c : Circuit) : Circuit × List Event :=
  let c := { c with
    requests := c.requests + 1
    failures := c.failures + 1
    streak := 0 }
  match c.phase with
  | .closed => c.tripIfNeeded name p now
  -- A trial call that fails starts the timeout anew.
  | .halfOpen | .opened => { c with lastFailure := some now }.move name .opened

def finish (name : String) (p : Policy) (now : Nat) (ok : Bool) (c : Circuit) :
    Circuit × List Event :=
  if ok then c.succeed name p now else c.fail name p now

def reset (name : String) (c : Circuit) : Circuit × List Event :=
  ({}, [.gauge (.circuitPhase name) Phase.closed.reading, .notice (.circuitReset name c.phase)])

/-- Milliseconds since the failure from which the timeout counts. -/
def sinceFailure (now : Nat) (c : Circuit) : Option Nat := c.lastFailure.map (now - ·)

/-! #### Small facts -/

/-- Without failures the share is zero, also when no call has ended. -/
@[simp] theorem share_zero (requests : Nat) : share 0 requests = .zero := by
  have none : Binary64.ofNat 0 = .zero := Binary64.ofQuotient_zero 1
  simp [share, none, Binary64.div]

@[simp] theorem move_phase (name : String) (target : Phase) (c : Circuit) :
    (c.move name target).1.phase = target := by
  unfold move
  split <;> simp_all

/-- A change of phase touches nothing else. -/
theorem move_eq (name : String) (target : Phase) (c : Circuit) :
    (c.move name target).1 = { c with phase := target } := by
  unfold move
  split
  · rename_i h
    rw [← h]
  · rfl

/-- A call is refused only by a circuit that is open and has not rested; the circuit stays as it
was. -/
theorem enter_eq_false_iff (name : String) (p : Policy) (now : Nat) (c : Circuit) :
    (c.enter name p now).1 = false ↔ c.phase = .opened ∧ c.rested p now = false := by
  unfold enter
  by_cases h : c.phase = .opened <;> cases hr : c.rested p now <;> simp [h]

/-- A circuit that refuses a call stays as it was. -/
theorem enter_of_false {name : String} {p : Policy} {now : Nat} {c : Circuit}
    (h : (c.enter name p now).1 = false) : (c.enter name p now).2.1 = c := by
  obtain ⟨ho, hr⟩ := (enter_eq_false_iff name p now c).1 h
  simp [enter, ho, hr]

end Circuit

/-! ### Circuits by name -/

/-- Named circuits and the thresholds of calls that set none. A circuit starts to exist with the
first call under its name, or when it is reset; asking about it does not create it. -/
structure Breaker where
  defaults : Policy := {}
  circuits : Catalog Circuit := []
deriving DecidableEq, Inhabited

namespace Breaker

/-- The circuit of a name; one that was never used is as new. -/
def circuit (name : String) (b : Breaker) : Circuit := (b.circuits.find? name).getD {}

def put (name : String) (c : Circuit) (b : Breaker) : Breaker :=
  { b with circuits := b.circuits.insert name c }

def enter (name : String) (p : Policy) (now : Nat) (b : Breaker) : Bool × Breaker × List Event :=
  let (admitted, c, events) := (b.circuit name).enter name p now
  (admitted, b.put name c, events)

def finish (name : String) (p : Policy) (now : Nat) (ok : Bool) (b : Breaker) :
    Breaker × List Event :=
  let (c, events) := (b.circuit name).finish name p now ok
  (b.put name c, events)

def reset (name : String) (b : Breaker) : Breaker × List Event :=
  let (c, events) := (b.circuit name).reset name
  (b.put name c, events)

@[simp] theorem circuit_put_self (name : String) (c : Circuit) (b : Breaker) :
    (b.put name c).circuit name = c := by
  simp [circuit, put]

theorem circuit_put_of_ne {name name' : String} (h : name ≠ name') (c : Circuit) (b : Breaker) :
    (b.put name c).circuit name' = b.circuit name' := by
  simp [circuit, put, Catalog.find?_insert_of_ne h]

end Breaker

end GrantCache
