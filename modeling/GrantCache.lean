import GrantCache.Call
import GrantCache.CommandLine
import GrantCache.Main
import GrantCache.ReadThrough
import GrantCache.Proofs.Coverage
import GrantCache.Proofs.Provenance
import GrantCache.Proofs.Burst
import GrantCache.Proofs.Overlap
import GrantCache.Proofs.Circuits.Threshold
import GrantCache.Proofs.Circuits.Trial
import GrantCache.Proofs.Circuits.FailFast
import GrantCache.Proofs.Clearance
import GrantCache.Proofs.Remote.Serving
import GrantCache.Proofs.Store.Eviction
import GrantCache.Proofs.Store.Refinement
import GrantCache.Proofs.Exactness
import GrantCache.Proofs.Holders
import GrantCache.Proofs.Failures
import GrantCache.Proofs.Flush
import GrantCache.Proofs.ReadThrough.Coalescing
import GrantCache.Proofs.Flight.Exclusion
import GrantCache.Proofs.Circuits.Independence
import GrantCache.Proofs.Circuits.Recovery
import GrantCache.Proofs.Glob.Reading
import GrantCache.Proofs.Remote.Values
import GrantCache.Proofs.Confluence
import GrantCache.Proofs.Circuits.Readings
import GrantCache.Proofs.Store.Gauge
import GrantCache.Proofs.Flight.Idle
import GrantCache.Proofs.Pruning
