import GrantCache.Service

/-!
# Reading through the cache

Callers ask for the value of a key and bring a computation for the case that it is not cached. A
failure of the cache never fails a caller: a broken read counts as a miss, and a value that cannot
be stored is passed on all the same. The failure of a computation is the caller's.

* `ReadThrough.each` runs callers at once, each for itself;
* `ReadThrough.coalesced` lets one caller at a time compute, and the others read again when it is
  their turn.

Callers start in order. A run gives no results when it was halted by a deadline beyond the end of
the clock.
-/

namespace GrantCache

/-- A computation: the milliseconds it takes, and how it ends. -/
structure Computation where
  delay : Nat := 0
  outcome : Except String Json
deriving Inhabited

/-- What is asked for: a key, the shape of its value, and for how many seconds to store it. -/
structure ReadThrough where
  key : String
  shape : Shape := .anything
  ttl : Option Nat := none
deriving Inhabited

namespace ReadThrough

structure Ending where
  computed : Bool
  result : Except String Json
deriving Inhabited

inductive Progress where
  | ended (e : Ending)
  /-- Computing until an instant. -/
  | computing (wake : Nat) (outcome : Except String Json)
deriving Inhabited

/-! ### One caller -/

/-- The cached value, if it can be read. -/
def hit? (r : ReadThrough) (s : Service) : Option Json × Service :=
  match s.grants.fetch r.shape r.key with
  | (.ok value, grants) => (value, { s with grants })
  | (.fault f, grants) => (none, { s with grants := grants.note [.notice (.readFailed r.key f)] })
  | (.beyondClock, grants) => (none, { s with grants })

/-- A computation has ended: store its value. -/
def conclude (r : ReadThrough) (outcome : Except String Json) (s : Service) :
    Option Ending × Service :=
  match outcome with
  | .error _ => (some ⟨true, outcome⟩, s)
  | .ok value =>
    match s.grants.ask (.set r.key value r.ttl) with
    | (.ok (), grants) => (some ⟨true, outcome⟩, { s with grants })
    | (.fault f, grants) =>
      (some ⟨true, outcome⟩, { s with grants := grants.note [.notice (.storeFailed r.key f)] })
    | (.beyondClock, grants) => (none, { s with grants })

/-- Read, and on a miss start to compute. A computation that takes no time ends at once. -/
def start (r : ReadThrough) (c : Computation) (s : Service) : Option Progress × Service :=
  match r.hit? s with
  | (some value, s) => (some (.ended ⟨false, .ok value⟩), s)
  | (none, s) =>
    if c.delay = 0 then
      let (ending, s) := r.conclude c.outcome s
      (ending.map .ended, s)
    else (some (.computing (s.now + c.delay) c.outcome), s)

def finish (r : ReadThrough) (p : Progress) (s : Service) : Option Ending × Service :=
  match p with
  | .ended e => (some e, s)
  | .computing wake outcome => r.conclude outcome (s.sleepUntil wake)

/-! ### Callers at once -/

def startEach (r : ReadThrough) : List (Nat × Computation) → Service →
    Option (List (Nat × Progress)) × Service
  | [], s => (some [], s)
  | (i, c) :: rest, s =>
    match r.start c s with
    | (none, s) => (none, s)
    | (some p, s) =>
      let (others, s) := startEach r rest s
      (others.map ((i, p) :: ·), s)

def finishEach (r : ReadThrough) : List (Nat × Progress) → Service →
    Option (List (Nat × Ending)) × Service
  | [], s => (some [], s)
  | (i, p) :: rest, s =>
    match r.finish p s with
    | (none, s) => (none, s)
    | (some e, s) =>
      let (others, s) := finishEach r rest s
      (others.map ((i, e) :: ·), s)

/-- When a request ends, as far as is known. -/
def Progress.wake : Progress → Nat
  | .ended _ => 0
  | .computing t _ => t

def inOrder (endings : List (Nat × Ending)) : List Ending :=
  (endings.mergeSort fun a b => a.1 ≤ b.1).map (·.2)

/-- Run callers at once, each for itself. Those that compute end in the order of their instants,
and at one instant in the order of the callers. -/
def each (r : ReadThrough) (cs : List Computation) (s : Service) : Option (List Ending) × Service :=
  match r.startEach ((List.range cs.length).zip cs) s with
  | (none, s) => (none, s)
  | (some progress, s) =>
    let (endings, s) :=
      r.finishEach (progress.mergeSort fun a b => a.2.wake ≤ b.2.wake) s
    (endings.map inOrder, s)

/-! ### One computation at a time -/

def claimant (i : Nat) : String := "caller " ++ Numeral.text i

/-- A caller whose turn it is ends, and the next in line gets the key. -/
def endTurn (i : Nat) (s : Service) : Service :=
  { s with flight := s.flight.release (claimant i) }

/-- A halted run lets go of the key, and nobody in line is waited for any more. -/
def letGo (i : Nat) (line : List (Nat × Computation)) (s : Service) : Service :=
  { s with
    flight := line.foldl (fun f caller => f.cancel (claimant caller.1))
      ((s.flight.unlock (claimant i)).forget (claimant i)) }

/-- Read again, and compute on a miss. -/
def takeTurn (r : ReadThrough) (c : Computation) (s : Service) : Option Ending × Service :=
  match r.start c s with
  | (none, s) => (none, s)
  | (some p, s) => r.finish p s

def takeTurns (r : ReadThrough) : List (Nat × Computation) → Service →
    Option (List (Nat × Ending)) × Service
  | [], s => (some [], s)
  | (i, c) :: rest, s =>
    match r.takeTurn c s with
    | (none, s) => (none, letGo i rest s)
    | (some e, s) =>
      let (others, s) := takeTurns r rest (endTurn i s)
      (others.map ((i, e) :: ·), s)

/-- Read, and on a miss ask for the key: the callers that found a value, and those in line. -/
def queueEach (r : ReadThrough) : List (Nat × Computation) → Service →
    List (Nat × Ending) × List (Nat × Computation) × Service
  | [], s => ([], [], s)
  | (i, c) :: rest, s =>
    match r.hit? s with
    | (some value, s) =>
      let (found, line, s) := queueEach r rest s
      ((i, ⟨false, .ok value⟩) :: found, line, s)
    | (none, s) =>
      let s := { s with flight := s.flight.acquire (claimant i) r.key }
      let (found, line, s) := queueEach r rest s
      (found, (i, c) :: line, s)

/-- Start callers until one of them computes; the others then read and get in line behind it. -/
def coalesceEach (r : ReadThrough) : List (Nat × Computation) → Service →
    Option (List (Nat × Ending)) × Service
  | [], s => (some [], s)
  | (i, c) :: rest, s =>
    match r.hit? s with
    | (some value, s) =>
      let (others, s) := coalesceEach r rest s
      (others.map ((i, ⟨false, .ok value⟩) :: ·), s)
    | (none, s) =>
      -- The value may have come while the caller asked for the key, so it is read again.
      match r.start c { s with flight := s.flight.acquire (claimant i) r.key } with
      | (none, s) => (none, letGo i [] s)
      | (some (.ended e), s) =>
        let (others, s) := coalesceEach r rest (endTurn i s)
        (others.map ((i, e) :: ·), s)
      | (some (.computing wake outcome), s) =>
        -- While one computes, the rest arrive.
        let (found, line, s) := r.queueEach rest s
        match r.finish (.computing wake outcome) s with
        | (none, s) => (none, letGo i line s)
        | (some e, s) =>
          let (others, s) := r.takeTurns line (endTurn i s)
          (others.map fun others => (i, e) :: found ++ others, s)

def coalesced (r : ReadThrough) (cs : List Computation) (s : Service) :
    Option (List Ending) × Service :=
  let (endings, s) := r.coalesceEach ((List.range cs.length).zip cs) s
  (endings.map inOrder, s)

def computations (endings : List Ending) : Nat := endings.countP (·.computed)

end ReadThrough

end GrantCache
