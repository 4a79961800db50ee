import GrantCache.Catalog

/-!
# Index writes

When a user's codes have been cached, the user is added to the set of each code by a write of its
own, which is done later. Writes are tracked under the keys that they will touch, so that whoever is
about to read such a key can wait for them first. A write that is done counts as done for tracking
only when somebody who waited for it has seen so. Whoever looks at many writes in a row and finds them
done lets others have their turn in between (`givesWay`).
-/

namespace GrantCache

/-- A user to be added to the sets under some keys. -/
structure IndexWrite where
  id : Nat
  user : String
  /-- The keys that are still to be written, in order. -/
  left : List String
  /-- Whether somebody has seen that the write is done. -/
  seen : Bool := false
deriving DecidableEq, Inhabited

def IndexWrite.isDone (w : IndexWrite) : Bool := w.left.isEmpty

/-- The writes so far, in the order in which they were launched, and under which keys they are
tracked. -/
structure Upkeep where
  next : Nat := 0
  writes : List IndexWrite := []
  pending : Catalog (List Nat) := []
  /-- How many writes were looked at and found done since others had their turn. -/
  looks : Nat := 0
deriving DecidableEq, Inhabited

namespace Upkeep

def write? (id : Nat) (u : Upkeep) : Option IndexWrite := u.writes.find? (·.id = id)

def isDone (id : Nat) (u : Upkeep) : Bool := (u.write? id).all (·.isDone)

/-- Whether a write is known to be done. -/
def isSeen (id : Nat) (u : Upkeep) : Bool := (u.write? id).all (·.seen)

def queued (u : Upkeep) : List IndexWrite := u.writes.filter (!·.isDone)

def modify (id : Nat) (f : IndexWrite → IndexWrite) (u : Upkeep) : Upkeep :=
  { u with writes := u.writes.map fun w => if w.id = id then f w else w }

/-- Track a write under a key, where those known to be done are no longer tracked. -/
def track (id : Nat) (u : Upkeep) (key : String) : Upkeep :=
  -- A write that is done, but that nobody has waited for, is kept.
  let kept := ((u.pending.find? key).getD []).filter fun other => !u.isSeen other
  { u with pending := u.pending.insert key (kept ++ [id]) }

def launch (user : String) (keys : List String) (u : Upkeep) : Nat × Upkeep :=
  let launched := { u with
    next := u.next + 1
    writes := u.writes ++ [{ id := u.next, user, left := keys }] }
  (u.next, keys.foldl (track u.next) launched)

def take (key : String) (u : Upkeep) : List Nat × Upkeep :=
  ((u.pending.find? key).getD [], { u with pending := u.pending.erase key })

def proceed (id : Nat) (u : Upkeep) : Upkeep :=
  { u.modify id fun w => { w with left := w.left.tail } with looks := 0 }

/-- Everybody has had a turn. -/
def rest (u : Upkeep) : Upkeep := { u with looks := 0 }

/-- How many writes in a row are looked at before others have their turn. -/
def patience : Nat := 128

/-- Whether others have their turn before a write is looked at. One that is known to be done is not
looked at. -/
def givesWay (id : Nat) (u : Upkeep) : Bool := !u.isSeen id && u.looks == patience

def see (id : Nat) (u : Upkeep) : Upkeep :=
  { u.modify id fun w => { w with seen := true } with
    looks := if u.isSeen id then u.looks else u.looks % patience + 1 }

end Upkeep

end GrantCache
