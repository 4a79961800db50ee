import GrantCache.Catalog

/-!
# Flights

A flight lets one caller at a time work on a key, the others waiting in line. Every key that
somebody works on or waits for has a slot with a lock, filed under the key. A claim holds on to its
slot, and so does the file; whoever gives the lock back takes the slot out of the file if nobody
else holds on to it.

The steps below are the atomic ones: between any two of them other callers may take steps of
theirs.

```text
arrive → join ┬→ owning ──────────────→ unlock → forget
              └→ queued → granted → run ↗
                 └── cancel ──┘
```

`acquire`, `release` and `giveUp` are what a caller asks for when everybody who can move does so.
-/

namespace GrantCache

/-- How far a caller has come with its claim. -/
inductive Stage where
  /-- The slot is known, the lock was not asked for. -/
  | arrived
  | queued
  /-- The lock was handed over, and its new holder has not noticed. -/
  | granted
  | owning
  /-- The lock was given back, the slot is still held on to. -/
  | leaving
deriving DecidableEq, Inhabited

namespace Stage

def hasLock : Stage → Bool
  | granted | owning => true
  | _ => false

def isWaiting : Stage → Bool
  | arrived | queued | granted => true
  | _ => false

/-- How often a claim at this stage refers to its slot: once for itself, and once more for a lock
that is asked for or held. -/
def references : Stage → Nat
  | arrived | leaving => 1
  | queued | granted | owning => 2

end Stage

/-- One caller's claim on a key. -/
structure Claim where
  id : String
  key : String
  slot : Nat
  stage : Stage
deriving DecidableEq, Inhabited

/-- The slots in use and the claims on them, those in line in the order of the line. -/
structure Flight where
  next : Nat := 0
  slots : Catalog Nat := []
  claims : List Claim := []
deriving DecidableEq, Inhabited

namespace Flight

/-! ### Views -/

def claim? (id : String) (f : Flight) : Option Claim := f.claims.find? (·.id = id)

def claimAt? (stage : Stage) (id : String) (f : Flight) : Option Claim :=
  (f.claim? id).filter (·.stage = stage)

/-- Some claim on the slot has the lock. -/
def isLocked (slot : Nat) (f : Flight) : Bool :=
  f.claims.any fun c => c.slot = slot && c.stage.hasLock

/-- How often a slot is referred to, by the file and by claims. -/
def references (slot : Nat) (f : Flight) : Nat :=
  (f.slots.filter (·.2 = slot)).length +
    ((f.claims.filter (·.slot = slot)).map (·.stage.references)).foldl (· + ·) 0

/-- Keys in the file: those with an owner or somebody waiting, and those of slots left behind. -/
def inFlight (f : Flight) : Nat := f.slots.length

/-- The callers that work on a key, in order of their names. -/
def held (f : Flight) : List String :=
  ((f.claims.filter (·.stage = .owning)).map (·.id)).mergeSort (· ≤ ·)

/-- The callers that wait for a key, in order of their names. -/
def waiting (f : Flight) : List String :=
  ((f.claims.filter (·.stage.isWaiting)).map (·.id)).mergeSort (· ≤ ·)

/-! ### Steps

A step that does not apply changes nothing. -/

def place (id : String) (stage : Stage) (f : Flight) : Flight :=
  { f with claims := f.claims.map fun c => if c.id = id then { c with stage } else c }

def withdraw (id : String) (f : Flight) : Flight :=
  { f with claims := f.claims.filter (·.id ≠ id) }

/-- Hand the lock of a slot to the first claim in line. -/
def handOver (slot : Nat) (f : Flight) : Flight :=
  match f.claims.find? fun c => c.slot = slot && c.stage = .queued with
  | some c => f.place c.id .granted
  | none => f

/-- Look up the slot of a key, or file a new one. -/
def arrive (id key : String) (f : Flight) : Flight :=
  if (f.claim? id).isSome then f
  else
    match f.slots.find? key with
    | some slot => { f with claims := f.claims ++ [⟨id, key, slot, .arrived⟩] }
    | none =>
      { next := f.next + 1
        slots := f.slots.insert key f.next
        claims := f.claims ++ [⟨id, key, f.next, .arrived⟩] }

/-- Ask for the lock: take it if it is free, else go to the end of the line. -/
def join (id : String) (f : Flight) : Flight :=
  match f.claimAt? .arrived id with
  | some c =>
    -- The claim goes to the end, since those in line are listed in its order.
    let stage := if f.isLocked c.slot then .queued else .owning
    { f with claims := (f.withdraw id).claims ++ [{ c with stage }] }
  | none => f

def run (id : String) (f : Flight) : Flight :=
  match f.claimAt? .granted id with
  | some _ => f.place id .owning
  | none => f

def unlock (id : String) (f : Flight) : Flight :=
  match f.claimAt? .owning id with
  | some c => (f.place id .leaving).handOver c.slot
  | none => f

/-- Let go of the slot. If nobody but the file refers to it besides, the key is taken out of the
file. -/
def forget (id : String) (f : Flight) : Flight :=
  match f.claimAt? .leaving id with
  | some c =>
    -- Two references: the file's and the claim's own.
    let slots := if f.references c.slot = 2 then f.slots.erase c.key else f.slots
    { f.withdraw id with slots }
  | none => f

/-- Stop waiting. A lock that was handed over already goes to the next in line; the file is left as
it is. -/
def cancel (id : String) (f : Flight) : Flight :=
  match f.claim? id with
  | some ⟨_, _, _, .queued⟩ => f.withdraw id
  | some ⟨_, _, slot, .granted⟩ => (f.withdraw id).handOver slot
  | _ => f

/-- The steps of a flight. -/
inductive Move where
  | arrive (id key : String)
  | join (id : String)
  | run (id : String)
  | unlock (id : String)
  | forget (id : String)
  | cancel (id : String)
deriving DecidableEq

def step (f : Flight) : Move → Flight
  | .arrive id key => f.arrive id key
  | .join id => f.join id
  | .run id => f.run id
  | .unlock id => f.unlock id
  | .forget id => f.forget id
  | .cancel id => f.cancel id

/-! ### When everybody moves who can -/

/-- Everybody to whom a lock was handed over notices it. -/
def settle (f : Flight) : Flight :=
  { f with claims := f.claims.map fun c =>
      if c.stage = .granted then { c with stage := .owning } else c }

/-- A caller asks for a key, and everybody notices what has happened. -/
def acquire (id key : String) (f : Flight) : Flight := ((f.arrive id key).join id).settle

/-- An owner goes, and everybody notices what has happened. -/
def release (id : String) (f : Flight) : Flight := ((f.unlock id).forget id).settle

def giveUp (id : String) (f : Flight) : Flight := (f.cancel id).settle

example : ((({} : Flight).acquire "a" "k").acquire "b" "k").held = ["a"] := by decide +kernel
example : (((({} : Flight).acquire "a" "k").acquire "b" "k").release "a").inFlight = 1 := by
  decide +kernel

end Flight

end GrantCache
