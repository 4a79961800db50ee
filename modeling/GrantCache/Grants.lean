import GrantCache.Backend
import GrantCache.Grants.Plan
import GrantCache.Grants.Upkeep
import GrantCache.Shape

/-!
# The cache of grants

The cache of what users are granted, over any backend. Its operations run the plans of
`GrantCache.Grants.Plan` to their end. Index writes that were launched stay queued until somebody
waits for one of them or gives way, or the caller lets them run (`Grants.drain`); then all of them run,
the first launched first.

An operation gives no result when it was halted by a deadline beyond the end of the clock; what it
did before stays done.
-/

namespace GrantCache

/-- The cache of grants at work. -/
structure Grants where
  host : Host
  upkeep : Upkeep := {}
  /-- Seconds for which codes are cached when a caller does not say. -/
  defaultTtl : Nat := 3600
  /-- How many users are cleared at once. -/
  batchSize : Nat := 100
  /-- What has happened, the latest last. -/
  journal : List Event := []
deriving Inhabited

namespace Grants

/-! ### Effects -/

def note (events : List Event) (g : Grants) : Grants := { g with journal := g.journal ++ events }

def ask (r : Request) (g : Grants) : Response r.Answer × Grants :=
  let served := g.host.serve r
  (served.response, { g with host := served.state }.note served.events)

/-- Ask for a value of a shape. A value of another shape is a fault. -/
def fetch (shape : Shape) (key : String) (g : Grants) : Response (Option Json) × Grants :=
  match g.ask (.get key) with
  | (.ok cached, g) =>
    match shape.read? cached with
    | some value => (.ok value, g)
    | none => (.fault .serialization, g)
  | (.fault f, g) => (.fault f, g)
  | (.beyondClock, g) => (.beyondClock, g)

def purge (g : Grants) : Nat × Grants :=
  let (removed, host, events) := g.host.sweep
  (removed, { g with host }.note events)

def proceed (id : Nat) (g : Grants) : Grants :=
  match g.upkeep.write? id with
  | some { user, left := key :: _, .. } =>
    let (response, g) := g.ask (.addMembers key [user])
    -- A key that cannot be written is not tried again.
    let g := { g with upkeep := g.upkeep.proceed id }
    match response with
    | .fault f => g.note [.notice (.indexNotUpdated key user f)]
    | _ => g
  | _ => g

def complete (g : Grants) (w : IndexWrite) : Grants := w.left.foldl (fun g _ => g.proceed w.id) g

/-- Let every queued index write run. -/
def drain (g : Grants) : Grants := g.upkeep.queued.foldl complete g

/-- Everybody has a turn. -/
def giveWay (g : Grants) : Grants :=
  let g := g.drain
  { g with upkeep := g.upkeep.rest }

/-- Wait for an index write. If it is not done, all that is queued runs, and so it does when the one who
waits has looked at many. -/
def await (id : Nat) (g : Grants) : Grants :=
  -- Only whoever has waited knows that the write is done.
  let g := if g.upkeep.isDone id && !g.upkeep.givesWay id then g else g.drain
  { g with upkeep := g.upkeep.see id }

def perform (e : Effect) (g : Grants) : Option e.Answer × Grants :=
  match e with
  | .ask r =>
    match g.ask r with
    | (.ok answer, g) => (some (.ok answer), g)
    | (.fault f, g) => (some (.error f), g)
    | (.beyondClock, g) => (none, g)
  | .report e => (some (), g.note [e])
  | .launch user keys =>
    let (id, upkeep) := g.upkeep.launch user keys
    (some id, { g with upkeep })
  | .takePending key =>
    let (ids, upkeep) := g.upkeep.take key
    (some ids, { g with upkeep })
  | .pendingKeys => (some g.upkeep.pending.keys, g)
  | .await id => (some (), g.await id)

/-- Whether an effect has to wait for others. -/
def waits : Effect → Grants → Bool
  | .await id, g => !g.upkeep.isDone id
  | _, _ => false

def run {α : Type} (p : Plan α) (g : Grants) : Option α × Grants := p.run perform g

/-- Run each plan in turn as far as it goes without waiting: what is left of each. -/
def advanceEach {α : Type} : List (Plan α) → Grants → Option (List (Plan α)) × Grants
  | [], g => (some [], g)
  | p :: rest, g =>
    match p.runUntil waits perform g with
    | (none, g) => (none, g)
    | (some left, g) =>
      match advanceEach rest g with
      | (none, g) => (none, g)
      | (some others, g) => (some (left :: others), g)

/-- Run each plan in turn to its end. -/
def runEach {α : Type} : List (Plan α) → Grants → Option (List α) × Grants
  | [], g => (some [], g)
  | p :: rest, g =>
    match g.run p with
    | (none, g) => (none, g)
    | (some a, g) =>
      match runEach rest g with
      | (none, g) => (none, g)
      | (some others, g) => (some (a :: others), g)

/-- Run plans at once: each goes as far as it can without waiting, and then, when the queued index
writes have run, on to its end. -/
def runTogether {α : Type} (plans : List (Plan α)) (g : Grants) : Option (List α) × Grants :=
  match advanceEach plans g with
  | (none, g) => (none, g)
  | (some left, g) => runEach left g

def performWide (e : Effect.Wide) (g : Grants) : Option e.Answer × Grants :=
  match e with
  | .single e => g.perform e
  | .clearAll users => g.runTogether (users.map Plan.clear)

def runWide {α : Type} (p : WidePlan α) (g : Grants) : Option α × Grants := p.run performWide g

/-! ### Operations -/

/-- Cache the codes of a user, by default for `defaultTtl` seconds: the number of the index write,
if there is anything to write. -/
def set (kind : GrantKind) (user : String) (codes : List String) (ttl : Option Nat) (g : Grants) :
    Option (Option Nat) × Grants :=
  g.run (Plan.store kind user codes (ttl.getD g.defaultTtl))

def get (kind : GrantKind) (user : String) (g : Grants) : Option (Option (List String)) × Grants :=
  g.run (Plan.read kind user)

/-- Clear one user: whether all went well. -/
def deleteUser (user : String) (g : Grants) : Option Bool × Grants := g.run (Plan.delete user)

/-- Clear everybody who has a code: how many users were cleared. -/
def invalidate (kind : GrantKind) (code : String) (g : Grants) : Option Nat × Grants :=
  g.runWide (Plan.invalidate g.batchSize kind code)

/-- Clear everybody who has one of several codes: how many users were cleared, a user as often as it
was. -/
def invalidateAll (kind : GrantKind) (codes : List String) (g : Grants) : Option Nat × Grants :=
  g.runWide (Plan.invalidateAll g.batchSize kind codes)

/-- Remove every key of the cache of grants: how many keys were removed. -/
def flush (g : Grants) : Option Nat × Grants := g.run Plan.flush

/-- A cache of grants over a backend. One that is not shared with other processes is worth a
notice. -/
def start (host : Host) (defaultTtl batchSize : Nat) : Grants :=
  { host, defaultTtl, batchSize,
    journal := if host.backend.kind = .inProcess then [.notice .localOnly] else [] }

/-! ### Small facts -/

@[simp] theorem note_nil (g : Grants) : g.note [] = g := by simp [note]

/-- A plan does the same when it is run as one that could clear several users at once. -/
theorem runWide_widen {α : Type} (p : Plan α) (g : Grants) : g.runWide p.widen = g.run p := by
  have single (e : Effect) (g : Grants) :
      Program.run performWide (.perform (.single e) .done) g = g.perform e := by
    simp only [Program.run, performWide]
    rcases g.perform e with ⟨_ | _, _⟩ <;> rfl
  unfold runWide Plan.widen run
  rw [Program.run_expand]
  congr 1
  funext e g
  exact single e g

theorem run_bind {α β : Type} (p : Plan α) (f : α → Plan β) (g : Grants) :
    g.run (p >>= f) =
      match g.run p with
      | (some a, g) => g.run (f a)
      | (none, g) => (none, g) := by
  simp only [run, Program.run_bind]
  rcases Program.run perform p g with ⟨_ | _, _⟩ <;> rfl

end Grants

end GrantCache
