import PrunedElectrs.Identity
import PrunedElectrs.Store
import PrunedElectrs.VariableHeaders
import PrunedElectrs.Integrity
import PrunedElectrs.Pruning
import PrunedElectrs.Commitment
import PrunedElectrs.ForkPoint
import PrunedElectrs.BlockTxs
import PrunedElectrs.ResponseForms
import PrunedElectrs.HeaderStore
import PrunedElectrs.Backoff
import PrunedElectrs.Stall
import PrunedElectrs.ChainSplit
import PrunedElectrs.Mask
import PrunedElectrs.HeadersMessage
import PrunedElectrs.Lookup
import PrunedElectrs.Connection
import PrunedElectrs.StoreReload
import PrunedElectrs.StoreStride
import PrunedElectrs.MerkleProof
import PrunedElectrs.ForkHeaders
import PrunedElectrs.FetchBench
import PrunedElectrs.ForkPeers
import PrunedElectrs.Crawl
import PrunedElectrs.AcrossPeers
import PrunedElectrs.ChainSync
import PrunedElectrs.IndexSync
import PrunedElectrs.EndToEnd
import PrunedElectrs.Subscriptions
import PrunedElectrs.Grind
