import GrantCache.Key
import GrantCache.Program
import GrantCache.Request
import GrantCache.Telemetry

/-!
# What the cache of grants does, step by step

Every operation on grants is a plan: a program whose operations are single requests to the store,
reports, and dealings with index writes. Between two of them others may act.

* `Plan.store` caches a user's codes and launches the index write;
* `Plan.clear` removes a user's entries, and the user from the set of every code listed there;
* `Plan.invalidate` clears, batch by batch, everybody in the set of a code;
* `Plan.flush` removes every key of the four families.

Nothing here fails: a request that fails is reported and the plan goes on.
-/

namespace GrantCache

namespace GrantKind

/-- The key under which the codes of a user are cached. -/
def entryKey (user : String) : GrantKind → String
  | role => Key.member Key.userRoles user
  | permission => Key.member Key.userPermissions user

/-- The key of the set of users that have a code. -/
def indexKey (code : String) : GrantKind → String
  | role => Key.member Key.roleUsers code
  | permission => Key.member Key.permissionUsers code

end GrantKind

/-! ### Effects -/

/-- One thing that a plan can do. -/
inductive Effect where
  | ask (r : Request)
  | report (e : Event)
  /-- Launch an index write: its number. -/
  | launch (user : String) (keys : List String)
  | takePending (key : String)
  | pendingKeys
  | await (write : Nat)
deriving Inhabited

abbrev Effect.Answer : Effect → Type
  | ask r => Except Fault r.Answer
  | report _ => Unit
  | launch .. => Nat
  | takePending _ => List Nat
  | pendingKeys => List String
  | await _ => Unit

/-- A sequence of effects, each depending on what was learned before. -/
abbrev Plan := Program Effect Effect.Answer

/-- Effects of plans for many users: a single effect, or the clearing of several users at once. -/
inductive Effect.Wide where
  | single (e : Effect)
  | clearAll (users : List String)
deriving Inhabited

/-- What is learned from a wide effect: of a clearing, for each user what went wrong first. -/
abbrev Effect.Wide.Answer : Effect.Wide → Type
  | single e => e.Answer
  | clearAll _ => List (Option Fault)

/-- A plan that may clear several users at once. -/
abbrev WidePlan := Program Effect.Wide Effect.Wide.Answer

namespace Plan

/-! ### Single effects -/

def ask (r : Request) : Plan (Except Fault r.Answer) := .perform (.ask r) .done

def report (e : Event) : Plan Unit := .perform (.report e) .done

def notice (n : Notice) : Plan Unit := report (.notice n)

def launch (user : String) (keys : List String) : Plan Nat := .perform (.launch user keys) .done

def takePending (key : String) : Plan (List Nat) := .perform (.takePending key) .done

def pendingKeys : Plan (List String) := .perform .pendingKeys .done

def await (write : Nat) : Plan Unit := .perform (.await write) .done

/-- Clear several users at once: for each what went wrong first. -/
def clearAll (users : List String) : WidePlan (List (Option Fault)) :=
  .perform (.clearAll users) .done

def widen {α : Type} (p : Plan α) : WidePlan α := p.expand fun e => .perform (.single e) .done

/-! ### One user -/

/-- The codes that are cached for a user. -/
def read (kind : GrantKind) (user : String) : Plan (Option (List String)) := do
  let key := kind.entryKey user
  match ← ask (.get key) with
  | .ok none => return none
  | .ok (some value) =>
    match value.texts? with
    | some codes => return some codes
    | none =>
      notice (.entryNotRead key .serialization)
      return none
  | .error f =>
    notice (.entryNotRead key f)
    return none

/-- Cache the codes of a user, each once, and launch the index write: its number, if there is
anything to write. -/
def store (kind : GrantKind) (user : String) (codes : List String) (ttl : Nat) :
    Plan (Option Nat) := do
  let codes := codes.eraseDups
  let key := kind.entryKey user
  match ← ask (.set key (.texts codes) (some ttl)) with
  | .error f =>
    notice (.entryNotCached key f)
    return none
  | .ok () =>
    -- Without codes there is no set to add the user to.
    if codes.isEmpty then return none
    else return some (← launch user (codes.map fun code => kind.indexKey code))

/-- Wait for every index write that is tracked under a key. -/
def settle (key : String) : Plan Unit := do
  let writes ← takePending key
  writes.forM await

def settleAll : Plan Unit := do
  let keys ← pendingKeys
  keys.forM settle

/-- Make requests one after another, whatever becomes of each: the first failure. -/
def attemptAll : List Request → Plan (Option Fault)
  | [] => return none
  | r :: rest => do
    match ← ask r with
    | .ok _ => attemptAll rest
    | .error f =>
      let _ ← attemptAll rest
      return some f

/-- What removes a user whose cached codes are known. -/
def removals (user : String) (roles permissions : List String) : List Request :=
  [.delete (GrantKind.role.entryKey user), .delete (GrantKind.permission.entryKey user)] ++
    roles.map (fun code => .removeMembers (GrantKind.role.indexKey code) [user]) ++
    permissions.map fun code => .removeMembers (GrantKind.permission.indexKey code) [user]

/-- Remove the entries of a user, and the user from the sets of the codes listed there: what went
wrong first. A code cached for the user between the reading and the removals may leave the user
behind in its set. -/
def clear (user : String) : Plan (Option Fault) := do
  let roles := (← read .role user).getD []
  let permissions := (← read .permission user).getD []
  -- A write that is still due would put the user back after the removal.
  roles.forM fun code => settle (GrantKind.role.indexKey code)
  permissions.forM fun code => settle (GrantKind.permission.indexKey code)
  attemptAll (removals user roles permissions)

/-- Clear one user: whether all went well. -/
def delete (user : String) : Plan Bool := do
  match ← clear user with
  | none => return true
  | some f =>
    notice (.userNotCleared user f)
    return false

/-! ### Many users -/

/-- Consecutive parts of a list, each of `size + 1` items but for the last, which may have fewer. -/
def batches {α : Type} (size : Nat) : List α → List (List α)
  | [] => []
  | x :: rest => (x :: rest.take size) :: batches size (rest.drop size)
termination_by xs => xs.length
decreasing_by simp only [List.length_drop, List.length_cons]; omega

/-- Report the users of a batch that could not be cleared: how many could. -/
def countCleared (key : String) (batch : Nat) : List (String × Option Fault) → Plan Nat
  | [] => return 0
  | (_, none) :: rest => do return (← countCleared key batch rest) + 1
  | (user, some f) :: rest => do
    notice (.memberNotCleared key user batch f)
    countCleared key batch rest

/-- Clear batch after batch: how many users were cleared. -/
def clearBatches (key : String) : Nat → List (List String) → WidePlan Nat
  | _, [] => return 0
  | batch, users :: rest => do
    let faults ← clearAll users
    let cleared ← (countCleared key batch (users.zip faults)).widen
    return cleared + (← clearBatches key (batch + 1) rest)

/-- Clear those who were found in the set of a code, `size` users at once, and remove the set: how
many users were cleared. -/
def clearMembers (size : Nat) (kind : GrantKind) (code : String) (users : List String) :
    WidePlan Nat := do
  let key := kind.indexKey code
  let cleared ← clearBatches key 0 (batches (size - 1) users)
  -- The set goes even if somebody in it could not be cleared.
  if let .error f ← (ask (.delete key)).widen then
    (notice (.indexNotDeleted key f)).widen
  (notice (.invalidated kind code users.length cleared)).widen
  (report (.count (.invalidatedUsers kind.name) cleared)).widen
  return cleared

/-- Clear everybody in the set of a code as it stands: how many users were cleared. -/
def clearIndex (size : Nat) (kind : GrantKind) (code : String) : WidePlan Nat := do
  let key := kind.indexKey code
  match ← (ask (.members key)).widen with
  | .error f =>
    (notice (.indexNotRead key f)).widen
    return 0
  | .ok [] =>
    (notice (.nothingToInvalidate key)).widen
    return 0
  | .ok users => clearMembers size kind code users

/-- Clear everybody who has a code, when the index writes that are tracked for it are done: how many
users were cleared. -/
def invalidate (size : Nat) (kind : GrantKind) (code : String) : WidePlan Nat := do
  (settle (kind.indexKey code)).widen
  clearIndex size kind code

/-- Invalidate codes one after another: how many users were cleared, a user as often as it was. -/
def invalidateAll (size : Nat) (kind : GrantKind) : List String → WidePlan Nat
  | [] => return 0
  | code :: rest => do
    let cleared ← invalidate size kind code
    return cleared + (← invalidateAll size kind rest)

/-- Remove the keys of families, one family after another: how many keys were removed. -/
def flushFamilies : List String → Plan Nat
  | [] => return 0
  | family :: rest => do
    let pattern := Key.familyPattern family
    match ← ask (.deletePattern pattern) with
    | .ok removed => return removed + (← flushFamilies rest)
    | .error f =>
      notice (.familyNotFlushed pattern f)
      flushFamilies rest

/-- Remove every key of the four families: how many keys were removed. -/
def flush : Plan Nat := do
  settleAll
  let removed ← flushFamilies Key.families
  notice (.flushed removed)
  report (.count (.invalidatedUsers "flush") removed)
  return removed

end Plan

end GrantCache
