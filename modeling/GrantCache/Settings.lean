import GrantCache.Circuit
import GrantCache.Json

/-!
# Settings

What a service is told at its start. Every setting has a default, so an empty document is complete.
`Settings.ofJson?` reads settings from a document: sections and fields are found by name, what is
not known is left out of account, and a value of the wrong kind makes the whole document unreadable.
Reading says nothing about sense; `Settings.defects` lists what makes settings unfit for use.
-/

namespace GrantCache

/-! ### The sections -/

/-- The remote store and how to reach it. -/
structure RemoteSettings where
  -- Both timeouts are in milliseconds.
  enabled : Bool := true
  url : String := "redis://127.0.0.1:6379"
  connectTimeout : Nat := 2000
  commandTimeout : Nat := 1000
  poolSize : Nat := 16
deriving DecidableEq, Inhabited

/-- Thresholds of all circuits, and those of the circuit of the remote store. -/
structure CircuitSettings where
  policy : Policy := {}
  cache : Policy.Override := {}
deriving DecidableEq, Inhabited

/-- The store of this process. -/
structure StoreSettings where
  maxEntries : Nat := 10000
  /-- Seconds between two sweeps; with zero there are none. -/
  sweepInterval : Nat := 60
deriving DecidableEq, Inhabited

/-- How long codes are cached, and how many users are cleared at once. -/
structure GrantSettings where
  /-- Seconds for which codes are cached by default. -/
  defaultTtl : Nat := 3600
  batchSize : Nat := 100
deriving DecidableEq, Inhabited

/-- What is reported, where, and in which form. -/
structure ReportSettings where
  logLevel : String := "info"
  logFormat : String := "pretty"
  metricsEnabled : Bool := false
  metricsAddress : String := "0.0.0.0:9090"
deriving DecidableEq, Inhabited

/-- All that a service is told at its start. -/
structure Settings where
  remote : RemoteSettings := {}
  circuits : CircuitSettings := {}
  store : StoreSettings := {}
  grants : GrantSettings := {}
  reports : ReportSettings := {}
deriving DecidableEq, Inhabited

namespace Settings

/-! ### Values of settings -/

def bool? : Json → Option Bool
  | .bool b => some b
  | _ => none

def text? : Json → Option String
  | .str s => some s
  | _ => none

/-- A whole number below a bound. -/
def whole? (bound : Nat) : Json → Option Nat
  | .int n => if 0 ≤ n ∧ n < bound then some n.toNat else none
  | _ => none

/-- A number of milliseconds, seconds or entries. -/
def amount? : Json → Option Nat := whole? (Nat.pow 2 64)

def count? : Json → Option Nat := whole? (Nat.pow 2 32)

/-- A number; whole ones count as well. -/
def ratio? : Json → Option Binary64
  | .float x => some x
  | .int n => some (.ofInt n)
  | _ => none

/-- A value that may be left open by `null`. -/
def optional? {α : Type} (read? : Json → Option α) : Json → Option (Option α)
  | .null => some none
  | v => (read? v).map some

/-! ### Sections of a document -/

/-- How a list may stand for a section, its items being the fields in order: with as many items as
there are fields at most, or with any number, the surplus being ignored. -/
inductive ListRule where
  | noSurplus
  | anyLength
deriving DecidableEq

/-- The fields of a section, by name. A list gives them in order. -/
def section? (rule : ListRule) (names : List String) : Json → Option (List (String × Json))
  | .obj fields => some fields
  | .arr items =>
    if rule = .noSurplus ∧ names.length < items.length then none else some (names.zip items)
  | _ => none

/-- A field of a section, or its default. -/
def field? {α : Type} (fields : List (String × Json)) (name : String) (read? : Json → Option α)
    (default : α) : Option α :=
  match Catalog.find? name fields with
  | some v => read? v
  | none => some default

def remoteOf? (rule : ListRule) (doc : Json) : Option RemoteSettings := do
  let fields ← section? rule
    ["enabled", "url", "connect_timeout_ms", "command_timeout_ms", "pool_size"] doc
  let d : RemoteSettings := {}
  return {
    enabled := ← field? fields "enabled" bool? d.enabled
    url := ← field? fields "url" text? d.url
    connectTimeout := ← field? fields "connect_timeout_ms" amount? d.connectTimeout
    commandTimeout := ← field? fields "command_timeout_ms" amount? d.commandTimeout
    poolSize := ← field? fields "pool_size" amount? d.poolSize }

def overrideOf? (rule : ListRule) (doc : Json) : Option Policy.Override := do
  let fields ← section? rule
    ["failure_threshold", "success_threshold", "timeout_ms", "minimum_requests"] doc
  return {
    failureThreshold := ← field? fields "failure_threshold" (optional? ratio?) none
    successThreshold := ← field? fields "success_threshold" (optional? count?) none
    timeout := ← field? fields "timeout_ms" (optional? amount?) none
    minimumRequests := ← field? fields "minimum_requests" (optional? count?) none }

def circuitsOf? (rule : ListRule) (doc : Json) : Option CircuitSettings := do
  let fields ← section? rule
    ["failure_threshold", "success_threshold", "timeout_ms", "minimum_requests", "cache"] doc
  let d : Policy := {}
  return {
    policy := {
      failureThreshold := ← field? fields "failure_threshold" ratio? d.failureThreshold
      successThreshold := ← field? fields "success_threshold" count? d.successThreshold
      timeout := ← field? fields "timeout_ms" amount? d.timeout
      minimumRequests := ← field? fields "minimum_requests" count? d.minimumRequests }
    cache := ← field? fields "cache" (overrideOf? rule) {} }

def storeOf? (rule : ListRule) (doc : Json) : Option StoreSettings := do
  let fields ← section? rule ["max_entries", "sweep_interval_secs"] doc
  let d : StoreSettings := {}
  return {
    maxEntries := ← field? fields "max_entries" amount? d.maxEntries
    sweepInterval := ← field? fields "sweep_interval_secs" amount? d.sweepInterval }

def grantsOf? (rule : ListRule) (doc : Json) : Option GrantSettings := do
  let fields ← section? rule ["default_ttl_secs", "invalidation_batch_size"] doc
  let d : GrantSettings := {}
  return {
    defaultTtl := ← field? fields "default_ttl_secs" amount? d.defaultTtl
    batchSize := ← field? fields "invalidation_batch_size" amount? d.batchSize }

def reportsOf? (rule : ListRule) (doc : Json) : Option ReportSettings := do
  let fields ← section? rule
    ["log_level", "log_format", "metrics_enabled", "metrics_address"] doc
  let d : ReportSettings := {}
  return {
    logLevel := ← field? fields "log_level" text? d.logLevel
    logFormat := ← field? fields "log_format" text? d.logFormat
    metricsEnabled := ← field? fields "metrics_enabled" bool? d.metricsEnabled
    metricsAddress := ← field? fields "metrics_address" text? d.metricsAddress }

/-- Settings from a document. Of what is missing the defaults are taken. -/
def ofJson? (rule : ListRule) (doc : Json) : Option Settings := do
  let fields ← section? rule
    ["redis", "circuit_breaker", "local_cache", "rbac", "observability"] doc
  return {
    remote := ← field? fields "redis" (remoteOf? rule) {}
    circuits := ← field? fields "circuit_breaker" (circuitsOf? rule) {}
    store := ← field? fields "local_cache" (storeOf? rule) {}
    grants := ← field? fields "rbac" (grantsOf? rule) {}
    reports := ← field? fields "observability" (reportsOf? rule) {} }

/-! ### Showing settings -/

def optionalJson {α : Type} (write : α → Json) (value : Option α) : Json :=
  (value.map write).getD .null

def policyFields (p : Policy) : List (String × Json) :=
  [("failure_threshold", .float p.failureThreshold),
    ("success_threshold", .int p.successThreshold),
    ("timeout_ms", .int p.timeout),
    ("minimum_requests", .int p.minimumRequests)]

def overrideJson (o : Policy.Override) : Json :=
  .object [
    ("failure_threshold", optionalJson .float o.failureThreshold),
    ("success_threshold", optionalJson (fun n : Nat => .int n) o.successThreshold),
    ("timeout_ms", optionalJson (fun n : Nat => .int n) o.timeout),
    ("minimum_requests", optionalJson (fun n : Nat => .int n) o.minimumRequests)]

/-- All settings as a document. -/
def json (s : Settings) : Json :=
  .object [
    ("redis", .object [
      ("enabled", .bool s.remote.enabled),
      ("url", .str s.remote.url),
      ("connect_timeout_ms", .int s.remote.connectTimeout),
      ("command_timeout_ms", .int s.remote.commandTimeout),
      ("pool_size", .int s.remote.poolSize)]),
    ("circuit_breaker", .object
      (policyFields s.circuits.policy ++ [("cache", overrideJson s.circuits.cache)])),
    ("local_cache", .object [
      ("max_entries", .int s.store.maxEntries),
      ("sweep_interval_secs", .int s.store.sweepInterval)]),
    ("rbac", .object [
      ("default_ttl_secs", .int s.grants.defaultTtl),
      ("invalidation_batch_size", .int s.grants.batchSize)]),
    ("observability", .object [
      ("log_level", .str s.reports.logLevel),
      ("log_format", .str s.reports.logFormat),
      ("metrics_enabled", .bool s.reports.metricsEnabled),
      ("metrics_address", .str s.reports.metricsAddress)])]

/-! ### What makes settings unfit -/

/-- Something that makes settings unfit for use. -/
structure Defect where
  field : String
  message : String
deriving DecidableEq, Inhabited

def Defect.text (d : Defect) : String := d.field ++ ": " ++ d.message

/-- A share of failures is above zero and at most one. -/
def isShare (x : Binary64) : Bool := Binary64.zero.lt x && x.le .one

/-- A defect, if something is wrong. -/
def defectIf (wrong : Bool) (field message : String) : List Defect :=
  if wrong then [⟨field, message⟩] else []

/-- Defects of the way to the remote store, which matter only if it is to be tried. -/
def remoteDefects (s : RemoteSettings) : List Defect :=
  if s.enabled then
    defectIf (!(s.url.startsWith "redis://" || s.url.startsWith "rediss://"))
      "redis.url" "must start with redis:// or rediss://" ++
    defectIf (s.connectTimeout = 0) "redis.connect_timeout_ms" "must be > 0" ++
    defectIf (s.commandTimeout = 0) "redis.command_timeout_ms" "must be > 0" ++
    defectIf (s.poolSize = 0) "redis.pool_size" "must be >= 1"
  else []

def policyDefects (p : Policy) : List Defect :=
  defectIf (!isShare p.failureThreshold)
    "circuit_breaker.failure_threshold" "must be within (0, 1]" ++
  defectIf (p.successThreshold = 0) "circuit_breaker.success_threshold" "must be >= 1" ++
  defectIf (p.minimumRequests = 0) "circuit_breaker.minimum_requests" "must be >= 1" ++
  defectIf (p.timeout = 0) "circuit_breaker.timeout_ms" "must be > 0"

/-- Defects of the thresholds for the circuit of the remote store; what is open has none. -/
def overrideDefects (o : Policy.Override) : List Defect :=
  defectIf (o.failureThreshold.any fun x => !isShare x)
    "circuit_breaker.cache.failure_threshold" "must be within (0, 1]" ++
  defectIf (o.successThreshold = some 0)
    "circuit_breaker.cache.success_threshold" "must be >= 1" ++
  defectIf (o.minimumRequests = some 0)
    "circuit_breaker.cache.minimum_requests" "must be >= 1" ++
  defectIf (o.timeout = some 0) "circuit_breaker.cache.timeout_ms" "must be > 0"

/-- All that makes settings unfit, in the order of the sections. -/
def defects (s : Settings) : List Defect :=
  remoteDefects s.remote ++ policyDefects s.circuits.policy ++ overrideDefects s.circuits.cache ++
    defectIf (s.store.maxEntries = 0) "local_cache.max_entries" "must be >= 1" ++
    defectIf (s.grants.defaultTtl = 0) "rbac.default_ttl_secs" "must be >= 1" ++
    defectIf (s.grants.batchSize = 0) "rbac.invalidation_batch_size" "must be >= 1" ++
    defectIf (s.reports.logFormat ≠ "pretty" ∧ s.reports.logFormat ≠ "json")
      "observability.log_format"
      ("unknown format '" ++ s.reports.logFormat ++ "', expected pretty or json")

@[simp] theorem defectIf_eq_nil {wrong : Bool} {field message : String} :
    defectIf wrong field message = [] ↔ wrong = false := by
  cases wrong <;> simp [defectIf]

/-- The defaults are fit for use. -/
theorem defects_default : ({} : Settings).defects = [] := by decide +kernel

end Settings

end GrantCache
