import GrantCache.Flight
import GrantCache.Housekeeping

/-!
# A running service

A service is a cache of grants with the flights on its keys and its housekeeping. Work that was left
for later, index writes and sweeps, gets its turn when the service settles, which it does while a
caller sleeps. The clock moves only when it is told to, or because somebody sleeps; a sleeper never
sleeps past an instant at which a sweeper is due.
-/

namespace GrantCache

/-- A cache of grants at work, with all that goes on around it. -/
structure Service where
  grants : Grants
  flight : Flight := {}
  /-- The housekeeping that was started together with the service and ends with it. -/
  own : Option Housekeeping := none
  /-- The housekeeping that callers have arranged for themselves. -/
  visiting : Housekeeping := {}
deriving Inhabited

namespace Service

def now (s : Service) : Nat := s.grants.host.now

/-- Set the clock to an instant, unless that is past. -/
def moveTo (t : Nat) (s : Service) : Service :=
  { s with grants.host.now := max s.now t }

def settle (s : Service) : Service :=
  -- Queued index writes run before any sweeper.
  let grants := s.grants.giveWay
  let (own, grants) := match s.own with
    | some h =>
      let (h, grants) := h.settle grants
      (some h, grants)
    | none => (none, grants)
  let (visiting, grants) := s.visiting.settle grants
  { s with grants, own, visiting }

/-- The earliest instant at which a sweeper is due. -/
def nextDue? (s : Service) : Option Nat :=
  ((s.own.bind (·.nextDue?)).toList ++ s.visiting.nextDue?.toList).min?

@[simp] theorem now_moveTo (t : Nat) (s : Service) : (s.moveTo t).now = max s.now t := rfl

/-- Sleep until an instant, while everybody else runs as it is their turn. -/
def sleepUntil (t : Nat) (s : Service) : Service :=
  let settled := s.settle
  match settled.nextDue? with
  | some due =>
    if s.now < due ∧ due < t then sleepUntil t (settled.moveTo due) else (settled.moveTo t).settle
  | none => (settled.moveTo t).settle
termination_by t - s.now
decreasing_by
  simp only [now_moveTo]
  omega

/-- How many parties listen for the signal to stop: to the service's own if it runs, else to the
callers'. -/
def receivers (s : Service) : Nat := (s.own.getD s.visiting).shutdown.count

/-- Stop the housekeeping of the service and wait for its sweepers to go. The cache of grants stays
usable. -/
def stop (s : Service) : Service :=
  match s.own with
  | none => s
  | some h =>
    let stopping := { s with own := some { h with shutdown := h.shutdown.trigger } }
    -- Nobody is waited for who is not there.
    let stopped := if h.sweepers.isEmpty then stopping else stopping.settle
    { stopped with own := none, grants := stopped.grants.note [.notice .stopped] }

end Service

end GrantCache
