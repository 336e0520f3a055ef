import Tendermint.Crypto.TreeShape
import Tendermint.Types.PartSetData
import Tendermint.Types.PriorityComposition
import Tendermint.Types.Proportional
import Tendermint.Types.BlockKey
import Tendermint.Light.Divergence
import Tendermint.Light.Trust
import Tendermint.PrivVal.DoubleSign
import Tendermint.Evidence.Identity
import Tendermint.Evidence.Bookkeeping
import Tendermint.Evidence.Blame
import Tendermint.Consensus.Rounds
import Tendermint.Consensus.BlockTime
import Tendermint.BlockSync.PoolRoutine
import Tendermint.BlockSync.Pool
import Tendermint.Light.Examination
import Tendermint.PubSub.Delivery
import Tendermint.Consensus.EndHeight
import Tendermint.Light.StoreSize
import Tendermint.Mempool.Reap
import Tendermint.Libs.BitArrayCodec
import Tendermint.Mempool.Eviction
import Tendermint.StateSync.Shutdown
import Tendermint.StateSync.BackfillStore
import Tendermint.P2P.FrameContents
import Tendermint.P2P.PacketSize
import Tendermint.ABCI.Release
import Tendermint.Light.BlockResults
import Tendermint.StateSync.Snapshots
import Tendermint.P2P.ConnTracker
import Tendermint.StateSync.PeerList
import Tendermint.P2P.PriorityQueue
import Tendermint.State.BlockCache
