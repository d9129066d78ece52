import PingoraProxy.Foundation.RustString
import PingoraProxy.Foundation.Utf8
import PingoraProxy.Foundation.ByteSlices
import PingoraProxy.Foundation.ConcurrentMap
import PingoraProxy.Foundation.FirstBest
import PingoraProxy.Foundation.History
import PingoraProxy.Foundation.Interleaving
import PingoraProxy.Foundation.RefillRace
import PingoraProxy.Foundation.RoundRobin
import PingoraProxy.Foundation.TextReader
import PingoraProxy.Foundation.SocketAddress
import PingoraProxy.Foundation.Splitting
import PingoraProxy.Foundation.TransitionSystem
import PingoraProxy.RoutingApi
import PingoraProxy.Store.RouteStore
import PingoraProxy.Store.ConcurrentSync
import PingoraProxy.Store.PartialSync
import PingoraProxy.Store.RacingSyncs
import PingoraProxy.Proxy.Upstream
import PingoraProxy.Proxy.Router
import PingoraProxy.Proxy.Gateway
import PingoraProxy.Proxy.ByteLevel
import PingoraProxy.Proxy.Fairness
import PingoraProxy.Proxy.HealthHistory
import PingoraProxy.Proxy.HealthConcurrency
import PingoraProxy.Proxy.ConcurrentSearch
import PingoraProxy.Proxy.Recovery
import PingoraProxy.Proxy.ConnectionHistory
import PingoraProxy.Proxy.EnumerationOrder
import PingoraProxy.Proxy.SearchAnswers
import PingoraProxy.Proxy.SearchesInTurn
import PingoraProxy.Proxy.CounterTickets
import PingoraProxy.Proxy.CounterWindows
import PingoraProxy.Proxy.FlatTable
import PingoraProxy.Proxy.RoutePriority
import PingoraProxy.Proxy.HostLabels
import PingoraProxy.Proxy.HostRouting
import PingoraProxy.Proxy.Isolation
import PingoraProxy.Proxy.OverlappingHooks
import PingoraProxy.Proxy.OverlappingOutcomes
import PingoraProxy.Proxy.PathSegments
import PingoraProxy.Proxy.PeerAddress
import PingoraProxy.Proxy.PublishedRoutes
import PingoraProxy.Proxy.RouteReplacement
import PingoraProxy.Proxy.ScoreTies
import PingoraProxy.Proxy.UnusableBackends
import PingoraProxy.Grpc.RoutingService
import PingoraProxy.Grpc.Snapshots
import PingoraProxy.Grpc.Publication
import PingoraProxy.Grpc.FullSync
import PingoraProxy.Grpc.Replication
