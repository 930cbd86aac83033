import LearnSpace.ByteArrays.AppendSelf
import LearnSpace.ByteArrays.BaseCapacity
import LearnSpace.ByteArrays.Capacity
import LearnSpace.ByteArrays.Copies
import LearnSpace.ByteArrays.CopiesAgree
import LearnSpace.ByteArrays.Edits
import LearnSpace.ByteArrays.Insertion
import LearnSpace.ByteArrays.Memcpy
import LearnSpace.Cache.CacheAside
import LearnSpace.Cache.Clear
import LearnSpace.Cache.Lru
import LearnSpace.Cache.LruRing
import LearnSpace.Cache.Methods
import LearnSpace.Cache.Overwrite
import LearnSpace.Cache.PutMove
import LearnSpace.DataStructure.ContainerBase
import LearnSpace.DataStructure.MList
import LearnSpace.DataStructure.MListInsert
import LearnSpace.DataStructure.MListIterate
import LearnSpace.DataStructure.MListRemove
import LearnSpace.DataStructure.MListRemoveOne
import LearnSpace.DataStructure.MListSequence
import LearnSpace.DataStructure.Nodes
import LearnSpace.DataStructure.Queue
import LearnSpace.DataStructure.QueueAssign
import LearnSpace.DataStructure.QueueDelete
import LearnSpace.DataStructure.QueueDeque
import LearnSpace.DataStructure.QueueMethods
import LearnSpace.DataStructure.QueuePool
import LearnSpace.DataStructure.SpinLock
import LearnSpace.DataStructure.Stack
import LearnSpace.DataStructure.StackSequence
import LearnSpace.DataStructure.StaticList
import LearnSpace.DataStructure.StaticListAppend
import LearnSpace.DataStructure.StaticListRange
import LearnSpace.DataStructure.StaticListSequence
import LearnSpace.DataStructure.Tree
import LearnSpace.DataStructure.TreeInorder
import LearnSpace.DataStructure.TreeLevel
import LearnSpace.DataStructure.TreeStop
import LearnSpace.DataStructure.TreeTraversal
import LearnSpace.DataStructure.Vector
import LearnSpace.DataStructure.VectorAlias
import LearnSpace.DataStructure.VectorGrowth
import LearnSpace.DataStructure.VectorInsert
import LearnSpace.DataStructure.VectorPool
import LearnSpace.DataStructure.VectorRemove
import LearnSpace.DataStructure.VectorRemoveOne
import LearnSpace.DataStructure.VectorReverse
import LearnSpace.DataStructure.VectorSequence
import LearnSpace.Dns.Answers
import LearnSpace.Dns.Encoding
import LearnSpace.Dns.Labels
import LearnSpace.Dns.Message
import LearnSpace.Dns.Records
import LearnSpace.Dns.Reply
import LearnSpace.IoURingServer.Echo
import LearnSpace.IoURingServer.Outstanding
import LearnSpace.IoURingServer.OutstandingRuns
import LearnSpace.IoURingServer.Server
import LearnSpace.Kcp.Bounds
import LearnSpace.Kcp.Clock
import LearnSpace.Kcp.Connection
import LearnSpace.Kcp.Control
import LearnSpace.Kcp.Delivery
import LearnSpace.Kcp.Exchange
import LearnSpace.Kcp.Flush
import LearnSpace.Kcp.Frames
import LearnSpace.Kcp.Input
import LearnSpace.Kcp.Output
import LearnSpace.Kcp.Pieces
import LearnSpace.Kcp.Receiver
import LearnSpace.Kcp.Room
import LearnSpace.Kcp.Segment
import LearnSpace.Kcp.SendRecv
import LearnSpace.Kcp.Sender
import LearnSpace.Kcp.Sent
import LearnSpace.Kcp.Wire
import LearnSpace.Keel.Arq
import LearnSpace.Keel.Arrays
import LearnSpace.Keel.BitTable
import LearnSpace.Keel.Buffer
import LearnSpace.Keel.CondVar
import LearnSpace.Keel.Double
import LearnSpace.Keel.Fuel
import LearnSpace.Keel.Guarded
import LearnSpace.Keel.Heap
import LearnSpace.Keel.Holders
import LearnSpace.Keel.Index
import LearnSpace.Keel.Linked
import LearnSpace.Keel.LittleEndian
import LearnSpace.Keel.Machine
import LearnSpace.Keel.Mirror
import LearnSpace.Keel.Reads
import LearnSpace.Keel.Recency
import LearnSpace.Keel.Renaming
import LearnSpace.Keel.Search
import LearnSpace.Keel.Serial
import LearnSpace.Keel.Shared
import LearnSpace.Keel.Slots
import LearnSpace.Keel.Sweep
import LearnSpace.Keel.TSys
import LearnSpace.Keel.Underway
import LearnSpace.Keel.Walk
import LearnSpace.Keel.While
import LearnSpace.KvStore.ByteArray
import LearnSpace.KvStore.ByteArrayFind
import LearnSpace.KvStore.ByteArrayLists
import LearnSpace.KvStore.ByteArraySharing
import LearnSpace.KvStore.ByteArraySplit
import LearnSpace.KvStore.ByteArrayValue
import LearnSpace.KvStore.Bytes
import LearnSpace.KvStore.CString
import LearnSpace.KvStore.Frame
import LearnSpace.KvStore.Protocol
import LearnSpace.KvStore.ProtocolChunks
import LearnSpace.KvStore.ProtocolCommand
import LearnSpace.KvStore.ProtocolCursor
import LearnSpace.KvStore.ProtocolFrames
import LearnSpace.KvStore.ProtocolLine
import LearnSpace.KvStore.ProtocolReturns
import LearnSpace.KvStore.ProtocolSafety
import LearnSpace.KvStore.Reactor
import LearnSpace.KvStore.ReactorBacklog
import LearnSpace.KvStore.ReactorMap
import LearnSpace.KvStore.ReactorReceive
import LearnSpace.KvStore.ReactorSend
import LearnSpace.Network.ByteArray
import LearnSpace.Network.ByteArrayBounds
import LearnSpace.Network.ByteArrayCounts
import LearnSpace.Network.ByteArrayGrowth
import LearnSpace.Network.ByteArrayRoom
import LearnSpace.Network.ByteArrayRuns
import LearnSpace.Network.HostAddress
import LearnSpace.Network.SendAll
import LearnSpace.QpsTool.Contexts
import LearnSpace.QpsTool.Count
import LearnSpace.QpsTool.Tool
import LearnSpace.Tcp.Fd
import LearnSpace.Tcp.Tcb
import LearnSpace.Tcp.TcbRuns
import LearnSpace.TcpServer.Echo
import LearnSpace.TcpServer.Socket
import LearnSpace.ThreadPool.Accounting
import LearnSpace.ThreadPool.Pool
import LearnSpace.ThreadPool.Wakeup
