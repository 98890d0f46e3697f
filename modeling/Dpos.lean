import Dpos.TxCacheRun
import Dpos.BlockStoreRun
import Dpos.TxIndex
import Dpos.BlockChainTip
import Dpos.ExecSpace
import Dpos.ChunkStore
import Dpos.TableLive
import Dpos.MultiLayerProof
import Dpos.AccountReceipt
import Dpos.MavlAgree
import Dpos.MavlForge
import Dpos.MavlMem
import Dpos.ExecLocalDB
import Dpos.MvccUndo
import Dpos.TxPoolReorg
import Dpos.AccountKeys
import Dpos.TxGroupSort
import Dpos.Rollback
import Dpos.ExportBlock
import Dpos.Push
import Dpos.ParaFilter
import Dpos.BlockCache
import Dpos.Task
import Dpos.Difficulty
import Dpos.BitMap
import Dpos.LightBlock
import Dpos.LeafCount
import Dpos.DriverCache
import Dpos.Consensus
import Dpos.CalcCommit
import Dpos.SpaceLimitCache
import Dpos.AddressText
