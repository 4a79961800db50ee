import GrantCache.Grants

/-!
# Health

A report on the backend that serves and on every circuit that exists. A service is healthy when its
backend answers and no circuit is open.
-/

namespace GrantCache

/-- What a circuit shows of itself. -/
def Circuit.summary (name : String) (now : Nat) (c : Circuit) : Json :=
  .object [
    ("name", .str name),
    ("state", .str c.phase.name),
    ("request_count", .int c.requests),
    ("failure_count", .int c.failures),
    ("success_count", .int c.successes),
    ("consecutive_successes", .int c.streak),
    ("last_failure_ms_ago", ((c.sinceFailure now).map fun ms => Json.int ms).getD .null)]

/-- A report on a backend and the circuits. -/
structure Health where
  kind : StoreKind
  available : Bool
  circuits : Catalog Circuit
  now : Nat
deriving Inhabited

namespace Health

def isHealthy (h : Health) : Bool := h.available && h.circuits.all fun c => c.2.phase ≠ .opened

/-- The report as it is shown. -/
def json (h : Health) : Json :=
  .object [
    ("backend", .str h.kind.name),
    ("available", .bool h.available),
    ("circuits", .arr (h.circuits.map fun c => c.2.summary c.1 h.now))]

end Health

/-- Report on the backend and the circuits. -/
def Grants.health (g : Grants) : Health × Grants :=
  let (available, host) := g.host.isAvailable
  let kind := host.backend.kind
  let notices := if available then [] else [Event.notice (.backendUnavailable kind)]
  (⟨kind, available, host.breaker.circuits, host.now⟩, { g with host }.note notices)

end GrantCache
