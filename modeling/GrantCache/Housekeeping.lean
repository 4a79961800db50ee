import GrantCache.Grants
import GrantCache.Shutdown

/-!
# Housekeeping

Sweepers drop dead entries from the store of the process at regular intervals, until they get the
signal to stop. A sweeper whose intervals have passed unnoticed sweeps once and then keeps to its
old rhythm.
-/

namespace GrantCache

structure Sweeper where
  number : Nat
  /-- Milliseconds between two sweeps. -/
  interval : Nat
  /-- The instant of the next sweep; none before the sweeper has started. -/
  due : Option Nat := none
deriving DecidableEq, Inhabited

namespace Sweeper

/-- The first instant after `now` in the rhythm of a sweeper that was due before. -/
def nextDue (interval due now : Nat) : Nat := due + interval * ((now - due) / interval + 1)

end Sweeper

/-- Sweepers, and the channel on which they and others listen for the signal to stop. -/
structure Housekeeping where
  shutdown : Shutdown := {}
  sweepers : List Sweeper := []
  /-- How many sweepers were ever hired. -/
  hired : Nat := 0
deriving DecidableEq, Inhabited

namespace Housekeeping

def hire (interval : Nat) (h : Housekeeping) : Housekeeping where
  shutdown := h.shutdown.subscribe (.sweeper h.hired)
  sweepers := h.sweepers ++ [{ number := h.hired, interval }]
  hired := h.hired + 1

/-- Whether the sweeper hired last has gone; none if there was none. -/
def lastIsGone (h : Housekeeping) : Option Bool :=
  if h.hired = 0 then none else some (h.sweepers.all fun s => s.number + 1 ≠ h.hired)

def dismiss (number : Nat) (h : Housekeeping) : Housekeeping :=
  { h with
    shutdown := h.shutdown.unsubscribe (.sweeper number)
    sweepers := h.sweepers.filter (·.number ≠ number) }

/-- Note when a sweeper is due next. -/
def schedule (number due : Nat) (h : Housekeeping) : Housekeeping :=
  { h with sweepers := h.sweepers.map fun s => if s.number = number then { s with due } else s }

/-- Drop what is dead, and say so if there was anything. -/
def sweep (g : Grants) : Grants :=
  let (removed, g) := g.purge
  if removed = 0 then g else g.note [.notice (.swept removed)]

/-- Let a sweeper run: it goes if it was told to stop, and sweeps if it is due. An interval of zero
is no rhythm, so such a sweeper goes at once. -/
def runSweeper (s : Sweeper) (state : Housekeeping × Grants) : Housekeeping × Grants :=
  let (h, g) := state
  let due := s.due.getD (g.host.now + s.interval)
  -- A sweeper that runs for the first time is due after one interval.
  if s.interval = 0 then (h.dismiss s.number, g)
  else if 0 < h.shutdown.unread (.sweeper s.number) then
    (h.dismiss s.number, g.note [.notice .sweeperStopped])
  else if due ≤ g.host.now then
    (h.schedule s.number (Sweeper.nextDue s.interval due g.host.now), sweep g)
  else (h.schedule s.number due, g)

def settle (h : Housekeeping) (g : Grants) : Housekeeping × Grants :=
  h.sweepers.foldl (fun state s => runSweeper s state) (h, g)

/-- The earliest instant at which a sweeper is due. -/
def nextDue? (h : Housekeeping) : Option Nat := (h.sweepers.filterMap (·.due)).min?

end Housekeeping

end GrantCache
