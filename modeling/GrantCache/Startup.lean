import GrantCache.Address
import GrantCache.Service
import GrantCache.Settings

/-!
# Starting a service

The backend is chosen once, at the start: the remote store if it is enabled and gives a sign of life
in time, else the bounded store of this process. Only the latter has a sweeper. Nothing that goes
wrong here keeps a service from starting.
-/

namespace GrantCache.Service

def addressNotices (s : ReportSettings) : List Event :=
  if s.metricsEnabled && !Address.isSocketAddress s.metricsAddress then
    [.notice (.badMetricsAddress s.metricsAddress)]
  else []

/-- Choose the backend: the host, and the link as the sign of life has left it. -/
def choose (s : Settings) (link : Link) : Host × Link × List Event :=
  let bounded : Backend := .bounded (.empty s.store.maxEntries)
  let breaker : Breaker := { defaults := s.circuits.policy }
  if s.remote.enabled then
    let remote : Remote :=
      { link, overrides := s.circuits.cache, commandTimeout := s.remote.commandTimeout }
    match Remote.probe s.remote.connectTimeout ⟨0, breaker, remote⟩ with
    | (.ok (), scene) =>
      (⟨scene.now, scene.breaker, .remote scene.remote⟩, scene.remote.link,
        [.notice (.remoteConnected s.remote.url)])
    | (.error f, scene) =>
      (⟨scene.now, scene.breaker, bounded⟩, scene.remote.link,
        [.notice (.remoteUnavailable s.remote.url f)])
  else (⟨0, breaker, bounded⟩, link, [.notice (.remoteDisabled s.store.maxEntries)])

/-- The housekeeping for a backend: a sweeper for the store of this process, if one is wanted. -/
def housekeeping (kind : StoreKind) (s : StoreSettings) : Housekeeping :=
  if kind = .inProcess ∧ 0 < s.sweepInterval then
    ({} : Housekeeping).hire (1000 * s.sweepInterval)
  else {}

/-- Start the service that settings describe, with a link to the remote store: the service, and the
link as the start has left it. -/
def start (s : Settings) (link : Link) : Service × Link :=
  let (host, link, events) := choose s link
  let kind := host.backend.kind
  let grants := Grants.start host s.grants.defaultTtl s.grants.batchSize
  let journal := addressNotices s.reports ++ events ++ grants.journal ++
    [.notice (.ready kind s.grants.defaultTtl)]
  ({ grants := { grants with journal }, own := some (housekeeping kind s.store) }, link)

end GrantCache.Service
