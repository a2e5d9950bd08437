import CppShared.Protocol
import CppShared.LazyFsmTable
import CppShared.LazyAllocatorReuse
import CppShared.SocketSend
import CppShared.PipelineShutdown
import CppShared.PipelineWakeup
import CppShared.TcpServerFraming
import CppShared.TcpServerSignal
import CppShared.StartStop
import CppShared.TcpPipe
import CppShared.LazyFsmLifecycle
import CppShared.LazyFsmRequests
import CppShared.PipelineRestart
import CppShared.TcpPipeEpoll
import CppShared.TcpServerReceive
import CppShared.SocketSendString
import CppShared.TcpServerBroadcast
import CppShared.ObjectPoolCalls
import CppShared.LazyAllocatorLeak
import CppShared.ObjectPoolOwnership
import CppShared.PushTwice
import CppShared.LazyAllocatorThreads
import CppShared.TcpServerStart
import CppShared.LazyFsmChain
import CppShared.ProtocolParse
import CppShared.Observer
import CppShared.ProtocolBuild
import CppShared.Buffer
import CppShared.Factory
import CppShared.Singleton
import CppShared.Interfaces
import CppShared.PluginLoader
import CppShared.TcpPipeEpollEvents
import CppShared.TcpPipeSelect
import CppShared.TcpServerTimeout
import CppShared.ObserverNotify
import CppShared.Calendar
import CppShared.Printf
import CppShared.Logger
import CppShared.LogThreads
import CppShared.SenderNotify
import CppShared.SpinLock
import CppShared.TcpServerEcho
import CppShared.TcpPipeEpollStreams
import CppShared.AnimalPlugin
import CppShared.TcpClientStop
import CppShared.TcpPipePush
import CppShared.TcpPipeEnd
import CppShared.TcpPipeExit
import CppShared.TcpPipeSelectStreams
