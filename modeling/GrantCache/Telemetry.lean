import GrantCache.Catalog
import GrantCache.Fault

/-!
# What the library reports about itself

Everything that can be observed besides answers is an `Event`: a notice for the log, an increment of
a counter, or a new reading of a gauge. Operations return the events that they cause, in order; what
a collector shows in the end is a fold over them (`tally`).
-/

namespace GrantCache

/-! ### What events speak of -/

inductive StoreKind where
  | remote
  | inProcess
deriving DecidableEq, Inhabited

def StoreKind.name : StoreKind → String
  | remote => "remote"
  | inProcess => "local"

/-- The states of a circuit. -/
inductive Phase where
  | closed
  | opened
  | halfOpen
deriving DecidableEq, Inhabited

namespace Phase

def name : Phase → String
  | closed => "closed"
  | opened => "open"
  | halfOpen => "half_open"

/-- The reading of a gauge that shows this phase. -/
def reading : Phase → Nat
  | closed => 0
  | opened => 1
  | halfOpen => 2

end Phase

/-- What a grant is: a role, or a permission. -/
inductive GrantKind where
  | role
  | permission
deriving DecidableEq, Inhabited

def GrantKind.name : GrantKind → String
  | role => "role"
  | permission => "permission"

/-! ### Notices -/

/-- How much a notice matters. -/
inductive Level where
  | trace
  | debug
  | info
  | warn
  | error
deriving DecidableEq, Inhabited

def Level.name : Level → String
  | trace => "TRACE"
  | debug => "DEBUG"
  | info => "INFO"
  | warn => "WARN"
  | error => "ERROR"

/-- Something worth a line in the log. -/
inductive Notice where
  | readFailed (key : String) (fault : Fault)
  | storeFailed (key : String) (fault : Fault)
  | evicted (key : String)
  | swept (removed : Nat)
  | sweeperStopped
  | servingDegraded (op : String)
  | commandFailed (op : String) (fault : Fault)
  | circuitOpened (circuit : String) (previous : Phase) (requests failures : Nat)
  | circuitHalfOpen (circuit : String)
  | circuitClosed (circuit : String)
  | circuitReset (circuit : String) (previous : Phase)
  | localOnly
  | entryNotCached (key : String) (fault : Fault)
  | indexNotUpdated (key user : String) (fault : Fault)
  | entryNotRead (key : String) (fault : Fault)
  | userNotCleared (user : String) (fault : Fault)
  | familyNotFlushed (pattern : String) (fault : Fault)
  | flushed (removed : Nat)
  | indexNotRead (key : String) (fault : Fault)
  | nothingToInvalidate (key : String)
  | memberNotCleared (key user : String) (batch : Nat) (fault : Fault)
  | indexNotDeleted (key : String) (fault : Fault)
  | invalidated (kind : GrantKind) (code : String) (affected cleared : Nat)
  | backendUnavailable (kind : StoreKind)
  | remoteDisabled (maxEntries : Nat)
  | remoteConnected (url : String)
  | remoteUnavailable (url : String) (fault : Fault)
  | badMetricsAddress (address : String)
  | ready (kind : StoreKind) (defaultTtl : Nat)
  | stopped
deriving DecidableEq, Inhabited

namespace Notice

def level : Notice → Level
  | evicted .. => .trace
  | swept .. | sweeperStopped | servingDegraded .. | nothingToInvalidate .. => .debug
  | circuitHalfOpen .. | circuitClosed .. | circuitReset .. | invalidated .. | remoteDisabled ..
  | remoteConnected .. | ready .. | stopped => .info
  | familyNotFlushed .. | badMetricsAddress .. => .error
  | _ => .warn

def message : Notice → String
  | readFailed .. => "Cache read failed, computing value"
  | storeFailed .. => "Failed to store computed value"
  | evicted .. => "Evicted least recently used entry"
  | swept .. => "Swept expired local cache entries"
  | sweeperStopped => "Local cache sweeper received shutdown signal, exiting loop"
  | servingDegraded .. => "Cache circuit open, serving degraded default"
  | commandFailed .. => "Cache command failed"
  | circuitOpened .. => "Circuit opened"
  | circuitHalfOpen .. => "Circuit half-open, admitting trial calls"
  | circuitClosed .. => "Circuit closed"
  | circuitReset .. => "Circuit reset"
  | localOnly => "RBAC cache is using the local backend; other processes will not see these " ++
      "entries or their invalidations"
  | entryNotCached .. => "Failed to cache user entry"
  | indexNotUpdated .. => "Failed to update reverse index"
  | entryNotRead .. => "Failed to read user entry"
  | userNotCleared .. => "Failed to clear user cache"
  | familyNotFlushed .. => "Failed to flush RBAC keys"
  | flushed .. => "Flushed all RBAC cache entries"
  | indexNotRead .. => "Failed to read reverse index"
  | nothingToInvalidate .. => "No cached users to invalidate"
  | memberNotCleared .. => "Failed to clear user during invalidation"
  | indexNotDeleted .. => "Failed to delete reverse index"
  | invalidated .. => "Invalidated cached users"
  | backendUnavailable .. => "Cache backend unavailable"
  | remoteDisabled .. => "Redis disabled, using local cache"
  | remoteConnected .. => "Connected to Redis, using remote cache"
  | remoteUnavailable .. =>
      "Redis unavailable, falling back to local cache for this process"
  | badMetricsAddress .. => "Failed to parse metrics address"
  | ready .. => "RBAC cache ready"
  | stopped => "Cache services stopped"

def fields : Notice → List (String × String)
  | readFailed key f | storeFailed key f | entryNotCached key f | entryNotRead key f
  | indexNotRead key f | indexNotDeleted key f => [("key", key), ("error", f.summary)]
  | evicted key | nothingToInvalidate key => [("key", key)]
  | swept n | flushed n => [("removed", Numeral.text n)]
  | sweeperStopped | localOnly | stopped => []
  | servingDegraded op => [("op", op)]
  | commandFailed op f => [("op", op), ("error", f.summary)]
  | circuitOpened circuit previous requests failures =>
    [("circuit", circuit), ("from", previous.name), ("requests", Numeral.text requests),
      ("failures", Numeral.text failures)]
  | circuitHalfOpen circuit | circuitClosed circuit => [("circuit", circuit)]
  | circuitReset circuit previous => [("circuit", circuit), ("previous", previous.name)]
  | indexNotUpdated key user f => [("key", key), ("user_id", user), ("error", f.summary)]
  | userNotCleared user f => [("user_id", user), ("error", f.summary)]
  | familyNotFlushed pattern f => [("pattern", pattern), ("error", f.summary)]
  | memberNotCleared key user batch f =>
    [("key", key), ("user_id", user), ("batch", Numeral.text batch), ("error", f.summary)]
  | invalidated kind code affected cleared =>
    [("kind", kind.name), ("code", code), ("affected", Numeral.text affected),
      ("cleared", Numeral.text cleared)]
  | backendUnavailable kind => [("backend", kind.name)]
  | remoteDisabled n => [("max_entries", Numeral.text n)]
  | remoteConnected url => [("url", url)]
  | remoteUnavailable url f => [("url", url), ("error", f.summary)]
  | badMetricsAddress address => [("metrics_address", address)]
  | ready kind ttl => [("backend", kind.name), ("default_ttl_secs", Numeral.text ttl)]

end Notice

/-! ### Metrics -/

/-- Counts that only grow. -/
inductive Counter where
  | reads (kind : StoreKind) (op : String) (hit : Bool)
  | degraded (op : String)
  | transitions (circuit : String) (target : Phase)
  | rejections (circuit : String)
  | evictions
  | invalidatedUsers (cause : String)
deriving DecidableEq, Inhabited

/-- Readings that are replaced. -/
inductive Gauge where
  | circuitPhase (circuit : String)
  | localEntries
deriving DecidableEq, Inhabited

/-- A metric's name with its labels, which are given in order. -/
def labelled (name : String) (labels : List (String × String)) : String :=
  name ++ "\x7b" ++ String.intercalate "," (labels.map fun l => l.1 ++ "=" ++ l.2) ++ "\x7d"

def Counter.name : Counter → String
  | reads kind op hit =>
    labelled "cache_requests_total"
      [("backend", kind.name), ("op", op), ("outcome", if hit then "hit" else "miss")]
  | degraded op => labelled "cache_degraded_total" [("op", op)]
  | transitions circuit target =>
    labelled "circuit_transitions_total" [("circuit", circuit), ("to", target.name)]
  | rejections circuit => labelled "circuit_rejections_total" [("circuit", circuit)]
  | evictions => labelled "local_cache_evictions_total" []
  | invalidatedUsers cause => labelled "rbac_invalidated_users_total" [("kind", cause)]

def Gauge.name : Gauge → String
  | circuitPhase circuit => labelled "circuit_state" [("circuit", circuit)]
  | localEntries => labelled "local_cache_entries" []

/-! ### Events -/

/-- What is reported while something is done: a notice, an amount to be added to a counter, or a new
reading of a gauge. -/
inductive Event where
  | notice (n : Notice)
  | count (c : Counter) (n : Nat)
  | gauge (g : Gauge) (reading : Nat)
deriving DecidableEq, Inhabited

namespace Event

def notice? : Event → Option Notice
  | notice n => some n
  | _ => none

/-- How much was added to a counter. -/
def total (c : Counter) : List Event → Nat
  | [] => 0
  | count c' n :: rest => (if c' = c then n else 0) + total c rest
  | _ :: rest => total c rest

/-- The last reading of a gauge, if there is any. -/
def reading? (g : Gauge) : List Event → Option Nat
  | [] => none
  | gauge g' n :: rest => (reading? g rest).or (if g' = g then some n else none)
  | _ :: rest => reading? g rest

/-- What a collector shows after one more event. -/
def record (metrics : Catalog Nat) : Event → Catalog Nat
  | notice _ => metrics
  | count c n => metrics.insert c.name ((metrics.find? c.name).getD 0 + n)
  | gauge g n => metrics.insert g.name n

/-- What a collector shows after the given events: sums of counts and last readings. -/
def tally (events : List Event) : Catalog Nat := events.foldl record []

@[simp] theorem total_append (c : Counter) (xs ys : List Event) :
    total c (xs ++ ys) = total c xs + total c ys := by
  induction xs with
  | nil => simp [total]
  | cons e rest ih => cases e <;> simp [total, ih, Nat.add_assoc]

/-- The last reading is found among the later events, unless there is none. -/
theorem reading?_append (g : Gauge) (xs ys : List Event) :
    reading? g (xs ++ ys) = (reading? g ys).or (reading? g xs) := by
  induction xs with
  | nil => simp [reading?]
  | cons e rest ih => cases e <;> simp [reading?, ih, Option.or_assoc]

end Event

end GrantCache
