import Sylar.ByteArrayWrite
import Sylar.LockGuard
import Sylar.FdTable
import Sylar.EventRuns
import Sylar.SchedulerStop
import Sylar.FiberHandover
import Sylar.FiberLifecycle
import Sylar.ThreadAffinity
import Sylar.TimerWakeup
import Sylar.TimerExpiry
import Sylar.TimerCallbacks
import Sylar.HookIo
import Sylar.HookFcntl
import Sylar.FdManager
import Sylar.Owners
import Sylar.SocketLife
import Sylar.ByteArrayRead
import Sylar.ByteArrayPositional
import Sylar.ByteArrayFile
import Sylar.ByteArrayCapacity
import Sylar.ByteArrayScatter
import Sylar.ReadAtomicity
import Sylar.SocketStream
import Sylar.StreamTransfer
import Sylar.FixSize
import Sylar.FormatterInheritance
import Sylar.FlatStore
import Sylar.CodecRoundTrip
import Sylar.VarintRoundTrip
import Sylar.HttpParser
import Sylar.Segments
import Sylar.HttpMarks
import Sylar.HttpSeams
import Sylar.HttpResume
import Sylar.HttpMessage
import Sylar.HttpHeaders
import Sylar.HttpSession
import Sylar.PoolInterleaving
import Sylar.ConnectionPool
import Sylar.HttpServer
import Sylar.HttpDump
import Sylar.HttpConnection
import Sylar.ConfigVar
import Sylar.ConfigFromString
import Sylar.Config
import Sylar.FileLog
import Sylar.LogCodec
import Sylar.LogFormatter
import Sylar.Logger
import Sylar.LogReload
import Sylar.LogFormat
import Sylar.SignedVarint
import Sylar.TcpServer
import Sylar.ServerRuns
import Sylar.BitMasks
import Sylar.Address
import Sylar.PrefixLength
import Sylar.Zigzag
import Sylar.AddressOrder
import Sylar.ServletDispatch
import Sylar.AddressPort
import Sylar.Uri
import Sylar.HostSplit
import Sylar.RequestWire
import Sylar.UriRoundTrip
import Sylar.PatternScan
import Sylar.LogRouting
import Sylar.TimerTruth
import Sylar.HookSleep
import Sylar.EventBounds
import Sylar.SocketTimeout
import Sylar.HttpRuns
import Sylar.HttpHeaderLines
import Sylar.HttpHeaderWords
import Sylar.HttpBodies
import Sylar.HttpRequestLine
import Sylar.HttpWire
import Sylar.HttpRoundTrip
import Sylar.HttpChunked
import Sylar.HttpProtocol
