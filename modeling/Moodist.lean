import Moodist.Sharding.Reshard
import Moodist.Store.Linearizable
import Moodist.Store.Link.Delivery
import Moodist.Serialization.OneShot
import Moodist.CompileOp.Protocol
import Moodist.CompileOp.Call
import Moodist.CompileOp.Contiguous
import Moodist.CudaAllocator.Exhaustion
import Moodist.CudaAllocator.Order
import Moodist.CudaAllocator.Spans
import Moodist.Queue.PutQueue
import Moodist.Queue.Multicast
import Moodist.Queue.Transactions
import Moodist.Transport.Delivery
import Moodist.CpuThread.Restart
import Moodist.Broadcast.Delivery
import Moodist.AllGather.Cpu
import Moodist.ReduceScatter.Cpu
import Moodist.Socket.WriteQueue
import Moodist.Socket.Reader
import Moodist.HashMap.Iteration
import Moodist.ReduceScatter.Init
import Moodist.AllGather.Shuffle
import Moodist.AllGather.Copies2d
import Moodist.CpuThread.Transfers
import Moodist.Group.Ipc
import Moodist.IpcMapper.Mappings
