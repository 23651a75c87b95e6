import CacheX.Lib.Machine
import CacheX.Buffer
import CacheX.Cache
import CacheX.Lib.Keyed
import CacheX.Command
import CacheX.Clients
import CacheX.Concurrent
import CacheX.Connection
import CacheX.Conservation
import CacheX.Conversation
import CacheX.Durability
import CacheX.Lib.FileSystem
import CacheX.Inclusion
import CacheX.Lifetime
import CacheX.LineBuffer
import CacheX.LineLimit
import CacheX.Locking
import CacheX.Options
import CacheX.Overflow
import CacheX.PeriodicSaver
import CacheX.Product
import CacheX.Readers
import CacheX.Recovery
import CacheX.Restart
import CacheX.SendAll
import CacheX.ShardHash
import CacheX.Shutdown
import CacheX.Sockets
import CacheX.StartGate
import CacheX.Stopping
import CacheX.TimedMap
import CacheX.Trailing
import CacheX.TtlReply
import CacheX.Untrusted
import CacheX.Wire
import CacheX.Workload
