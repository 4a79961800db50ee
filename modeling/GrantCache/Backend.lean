import GrantCache.Remote
import GrantCache.Store

/-!
# Backends

The store that serves: the bounded store of this process, the same with failing keys, or the remote
store. A `Host` is a backend with what requests need besides: the instant and the circuits.
-/

namespace GrantCache

/-- The stores that can serve. -/
inductive Backend where
  | bounded (store : Store)
  | faulty (store : FaultyStore)
  | remote (remote : Remote)
deriving Inhabited

namespace Backend

def kind : Backend → StoreKind
  | bounded _ | faulty _ => .inProcess
  | remote _ => .remote

/-- The store of this process, if that is what serves, whether or not some of its keys fail. -/
def store? : Backend → Option Store
  | bounded s => some s
  | faulty s => some s.store
  | remote _ => none

end Backend

/-- A backend, the instant and the circuits. -/
structure Host where
  now : Nat := 0
  breaker : Breaker := {}
  backend : Backend
deriving Inhabited

namespace Host

/-- A request is served by whatever store there is, at the instant of the host. -/
def serve (h : Host) (r : Request) : Served Host r.Answer :=
  match h.backend with
  | .bounded s =>
    let served := s.serve h.now r
    ⟨served.response, { h with backend := .bounded served.state }, served.events⟩
  | .faulty s =>
    let served := s.serve h.now r
    ⟨served.response, { h with backend := .faulty served.state }, served.events⟩
  | .remote remote =>
    let served := Remote.serve ⟨h.now, h.breaker, remote⟩ r
    let scene := served.state
    ⟨served.response, ⟨scene.now, scene.breaker, .remote scene.remote⟩, served.events⟩

def isAvailable (h : Host) : Bool × Host :=
  match h.backend with
  | .bounded _ => (true, h)
  | .faulty s => (!s.failing.contains FaultyStore.availabilityKey, h)
  | .remote remote =>
    let (available, scene) := Remote.isAvailable ⟨h.now, h.breaker, remote⟩
    (available, ⟨scene.now, scene.breaker, .remote scene.remote⟩)

/-- Remove what has expired from a store of this process. The remote store does that by itself. -/
def sweep (h : Host) : Nat × Host × List Event :=
  match h.backend with
  | .bounded s =>
    let (removed, s, events) := s.sweep h.now
    (removed, { h with backend := .bounded s }, events)
  | .faulty s =>
    let (removed, inner, events) := s.store.sweep h.now
    (removed, { h with backend := .faulty { s with store := inner } }, events)
  | .remote _ => (0, h, [])

end Host

end GrantCache
