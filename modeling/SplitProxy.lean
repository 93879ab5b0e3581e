import SplitProxy.Runs
import SplitProxy.Fifo
import SplitProxy.Wire
import SplitProxy.ProxySession
import SplitProxy.WorkerSession
import SplitProxy.ProxyTail
import SplitProxy.WorkerTail
import SplitProxy.TailDelivery
import SplitProxy.BrokerLink
import SplitProxy.WorkerRegistry
import SplitProxy.WorkerOnline
import SplitProxy.WorkerProcess
import SplitProxy.WorkerClose
import SplitProxy.WorkerCleanup
import SplitProxy.WorkerGrammar
import SplitProxy.WorkerOrder
import SplitProxy.AuthStore
import SplitProxy.AuthInflight
import SplitProxy.FiniteCount
import SplitProxy.AuthAccounting
import SplitProxy.LabelTrie
import SplitProxy.NetIP
import SplitProxy.RouteTries
import SplitProxy.WildcardLookup
import SplitProxy.RuneText
import SplitProxy.HostPort
import SplitProxy.DNSCache
import SplitProxy.NetIPParse
import SplitProxy.Routing
import SplitProxy.SessionTable
import SplitProxy.TableLive
import SplitProxy.TableClosed
import SplitProxy.TableStores
import SplitProxy.TableIsolation
import SplitProxy.OpenSession
import SplitProxy.SessionOwners
import SplitProxy.NetIPString
import SplitProxy.Socks5
import SplitProxy.HTTPConnect
import SplitProxy.AuthSequential
import SplitProxy.HandleConn
import SplitProxy.AuthBeforeUse
import SplitProxy.LoadRoutes
import SplitProxy.Startup
import SplitProxy.PyIPNetwork
import SplitProxy.Admin
import SplitProxy.RoutePatch
import SplitProxy.RouteReferences
import SplitProxy.LoadOrder
import SplitProxy.DirectName
import SplitProxy.StoredDomains
import SplitProxy.RuleMatch
import SplitProxy.AddressText
import SplitProxy.CIDREffect
import SplitProxy.DirectTarget
import SplitProxy.HostSpelling
import SplitProxy.DirectAddresses
import SplitProxy.JSONText
import SplitProxy.MessageSize
import SplitProxy.DirectUDP
import SplitProxy.ClientBinding
import SplitProxy.RequestGrammar
import SplitProxy.UDPReply
import SplitProxy.SessionKeys
import SplitProxy.ReadLimits
import SplitProxy.QueueNet
import SplitProxy.RelayChain
import SplitProxy.RelayInvariant
import SplitProxy.RelayProgress
import SplitProxy.TunnelStreams
import SplitProxy.PyInt
import SplitProxy.RouteListings
import SplitProxy.AnswerOrder
import SplitProxy.DNSFreshness
import SplitProxy.RoundRobin
import SplitProxy.RoutingViews
import SplitProxy.SingleLink
import SplitProxy.OpenAnswered
import SplitProxy.JSONRead
import SplitProxy.RoutedTarget
import SplitProxy.Base64
import SplitProxy.ProxyAccounts
import SplitProxy.UnsupportedMethod
import SplitProxy.ProxyLogin
import SplitProxy.WireFormat
import SplitProxy.Custody
import SplitProxy.PacketBuffers
import SplitProxy.StreamChunks
import SplitProxy.DirectTunnel
import SplitProxy.RouteReload
import SplitProxy.UDPLifetime
import SplitProxy.ProxyServer
import SplitProxy.ClientDialogue
import SplitProxy.GroupSync
import SplitProxy.SharedLookups
import SplitProxy.AuthLoad
import SplitProxy.WorkersDrained
import SplitProxy.Traffic
