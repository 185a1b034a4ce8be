import Unvme.Lib.DList
import Unvme.Lib.WordMask
import Unvme.Lib.RingIndex
import Unvme.Lib.Wp
import Unvme.Lib.Threads
import Unvme.Lib.Bytes
import Unvme.Nvme.CompletionRing
import Unvme.Nvme.CheckCompletion
import Unvme.Nvme.Device
import Unvme.Nvme.DeviceInv
import Unvme.Nvme.Commands
import Unvme.Nvme.Prp
import Unvme.Core.Queue
import Unvme.Core.Driver
import Unvme.Core.Clock
import Unvme.Core.QueueInv
import Unvme.Core.Accounts
import Unvme.Core.Steps
import Unvme.Core.Specs
import Unvme.Core.Runs
import Unvme.Core.QueueSafety
import Unvme.Core.QueueInit
import Unvme.Core.Loops
import Unvme.Core.Rollback
import Unvme.Core.DescLists
import Unvme.Core.Status
import Unvme.Core.CommandResult
import Unvme.Core.AdminQueue
import Unvme.Core.AdminRuns
import Unvme.Core.AdminShared
import Unvme.Session.PciName
import Unvme.Session.Open
import Unvme.Session.Exclusive
import Unvme.Session.Lock
import Unvme.Session.Lifetime
import Unvme.Session.DeviceName
import Unvme.Core.PrpLists
import Unvme.Core.Composed
import Unvme.Core.PrpCover
import Unvme.Core.Chunks
import Unvme.Core.PrpRegion
import Unvme.Core.Traffic
import Unvme.Core.PrpPrivate
import Unvme.Lib.Chain
import Unvme.Lib.Tiling
import Unvme.Aurora.Buddy
import Unvme.Aurora.Pool
import Unvme.Aurora.BuddyInv
import Unvme.Aurora.Interleave
import Unvme.Aurora.Coalesce
import Unvme.Session.Geometry
import Unvme.Aurora.Dma
import Unvme.Session.FailedOpen
import Unvme.Session.Regions
import Unvme.Lib.Simulation
import Unvme.Lib.Cells
import Unvme.Lib.Reclaim
import Unvme.Lib.BitFields
import Unvme.Nvme.Medium
import Unvme.Nvme.Registers
import Unvme.Nvme.BringUp
import Unvme.Nvme.QueuePairs
import Unvme.Core.QueueCreation
import Unvme.Core.Teardown
import Unvme.Store.Flat
import Unvme.Store.Transfers
import Unvme.Store.TransferSteps
import Unvme.Store.Requests
import Unvme.Store.Refinement
import Unvme.Store.BlockStore
import Unvme.Core.Alike
import Unvme.Store.Queues
import Unvme.Store.Interleaving
import Unvme.Store.SharedStore
import Unvme.Store.MemStore
import Unvme.Fio.Engine
