import LightweightShred.EndToEnd
import LightweightShred.FastPath
import LightweightShred.Identities
import LightweightShred.ArrivalOrder
import LightweightShred.Binding
import LightweightShred.StoredProofs
import LightweightShred.IngressStats
import LightweightShred.NoPanics
import LightweightShred.HeaderCodec
import LightweightShred.Resigning
import LightweightShred.Setters
import LightweightShred.ProofRequests
import LightweightShred.PayloadAccess
import LightweightShred.ParallelRecovery
import LightweightShred.CacheLock
import LightweightShred.Relayed
import LightweightShred.Equivocation
import LightweightShred.Chaining
import LightweightShred.Settled
import LightweightShred.Delivery
import LightweightShred.SlotBounds
import LightweightShred.Hops
import LightweightShred.FetchWindows
import LightweightShred.DataCapacity
import LightweightShred.BehindFilter
import LightweightShred.WirePanics
import LightweightShred.Seeds
import LightweightShred.OneCodec
import LightweightShred.Transmission
