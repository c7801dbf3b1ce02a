import ACENetwork.Library.ByteOrder
import ACENetwork.Library.Pattern
import ACENetwork.Library.Scanner
import ACENetwork.Library.Bison
import ACENetwork.Library.Transition
import ACENetwork.Library.Register
import ACENetwork.Library.Loop
import ACENetwork.Library.Outlet
import ACENetwork.Library.Percent
import ACENetwork.Library.Regex
import ACENetwork.Library.Switches
import ACENetwork.Spec.Ace
import ACENetwork.Spec.Dhcp.Record
import ACENetwork.Spec.Dhcp.Parser
import ACENetwork.Spec.Dhcp.Wire
import ACENetwork.Spec.Dhcp.Dump
import ACENetwork.Spec.Dhcp.Discover
import ACENetwork.Spec.Dhcp.Client
import ACENetwork.Spec.Irc.Record
import ACENetwork.Spec.Irc.Parser
import ACENetwork.Spec.Irc.Wire
import ACENetwork.Spec.Irc.Driver
import ACENetwork.Spec.Irc.ModuleParser
import ACENetwork.Spec.Irc.Bisector
import ACENetwork.Spec.Irc.Transport
import ACENetwork.Spec.Irc.Client
import ACENetwork.Spec.Irc.ModuleExits
import ACENetwork.Spec.Irc.Tools
import ACENetwork.Spec.Irc.Stringify
import ACENetwork.Spec.Irc.Session
import ACENetwork.Spec.Irc.RawStreamer
import ACENetwork.Spec.Irc.Modes
import ACENetwork.Spec.Http.Record
import ACENetwork.Spec.Http.Scanner
import ACENetwork.Spec.Http.Fragments
import ACENetwork.Spec.Http.Parser
import ACENetwork.Spec.Http.Message
import ACENetwork.Spec.Http.ModuleParser
import ACENetwork.Spec.Http.Streamer
import ACENetwork.Spec.Http.UrlEncode
import ACENetwork.Spec.Http.WaitBuffer
import ACENetwork.Spec.Http.Encoding
import ACENetwork.Spec.Http.Url
import ACENetwork.Spec.BitTorrent.Peer
import ACENetwork.Spec.BitTorrent.PeerParser
import ACENetwork.Spec.BitTorrent.PeerWire
import ACENetwork.Spec.BitTorrent.Piece
import ACENetwork.Spec.BitTorrent.PeerRecord
import ACENetwork.Spec.BitTorrent.Control
import ACENetwork.Spec.BitTorrent.Session
import ACENetwork.Spec.BitTorrent.PeerConnect
import ACENetwork.Spec.BitTorrent.PeerSetup
import ACENetwork.Spec.BitTorrent.TrackerResponse
import ACENetwork.Spec.BitTorrent.Bencoding
import ACENetwork.Spec.BitTorrent.BencodingParser
import ACENetwork.Spec.BitTorrent.BencodingGrammar
import ACENetwork.Spec.BitTorrent.MetaInfo
import ACENetwork.Spec.BitTorrent.Tools
import ACENetwork.Spec.Net.Manager
import ACENetwork.Spec.Net.Threads
import ACENetwork.Spec.Net.Connection
import ACENetwork.Spec.Net.Output
import ACENetwork.Spec.Net.AsynchOutput
import ACENetwork.Spec.Net.Input
import ACENetwork.Spec.Net.Lifecycle
import ACENetwork.Spec.Net.Lifetime
import ACENetwork.Spec.Net.AsynchConnector
import ACENetwork.Spec.Net.CommonTools
import ACENetwork.Spec.Net.DefaultInterface
import ACENetwork.Proofs.Dhcp.Scanner
import ACENetwork.Proofs.Dhcp.Options
import ACENetwork.Proofs.Dhcp.Header
import ACENetwork.Proofs.Dhcp.Datagram
import ACENetwork.Proofs.Dhcp.RoundTrip
import ACENetwork.Proofs.Dhcp.Bounds
import ACENetwork.Proofs.Dhcp.Areas
import ACENetwork.Proofs.Dhcp.Dump
import ACENetwork.Proofs.Dhcp.Discover
import ACENetwork.Proofs.Dhcp.Client
import ACENetwork.Proofs.Irc.Scanner
import ACENetwork.Proofs.Irc.Grammar
import ACENetwork.Proofs.Irc.RoundTrip
import ACENetwork.Proofs.Irc.Driver
import ACENetwork.Proofs.Irc.Tokens
import ACENetwork.Proofs.Irc.Messages
import ACENetwork.Proofs.Irc.ModuleParser
import ACENetwork.Proofs.Irc.Bisector
import ACENetwork.Proofs.Irc.ModuleExits
import ACENetwork.Proofs.Irc.SessionSafety
import ACENetwork.Proofs.Irc.Session
import ACENetwork.Proofs.Irc.RawStreamer
import ACENetwork.Proofs.Http.Scanner
import ACENetwork.Proofs.Http.Head
import ACENetwork.Proofs.Http.Fields
import ACENetwork.Proofs.Http.Fragments
import ACENetwork.Proofs.Http.Body
import ACENetwork.Proofs.Http.Decoding
import ACENetwork.Proofs.Http.Bodyless
import ACENetwork.Proofs.Http.Chunked
import ACENetwork.Proofs.Http.Driver
import ACENetwork.Proofs.Http.ModuleParser
import ACENetwork.Proofs.Http.Streamer
import ACENetwork.Proofs.Http.UrlEncode
import ACENetwork.Proofs.Http.WaitBuffer
import ACENetwork.Proofs.Http.Encoding
import ACENetwork.Proofs.Http.Url
import ACENetwork.Proofs.BitTorrent.PeerScanner
import ACENetwork.Proofs.BitTorrent.PeerDelivery
import ACENetwork.Proofs.BitTorrent.PeerWire
import ACENetwork.Proofs.BitTorrent.Piece
import ACENetwork.Proofs.BitTorrent.PeerRecord
import ACENetwork.Proofs.BitTorrent.Control
import ACENetwork.Proofs.BitTorrent.Session
import ACENetwork.Proofs.BitTorrent.PeerConnect
import ACENetwork.Proofs.BitTorrent.PeerSetup
import ACENetwork.Proofs.BitTorrent.PeerProgress
import ACENetwork.Proofs.BitTorrent.TrackerResponse
import ACENetwork.Proofs.BitTorrent.Tools
import ACENetwork.Proofs.Net.Lookup
import ACENetwork.Proofs.Net.References
import ACENetwork.Proofs.Net.Stop
import ACENetwork.Proofs.Net.Output
import ACENetwork.Proofs.Net.AsynchOutput
import ACENetwork.Proofs.Net.Input
import ACENetwork.Proofs.Net.Lifecycle
import ACENetwork.Proofs.Net.Lifetime
import ACENetwork.Proofs.Net.AsynchConnector
import ACENetwork.Proofs.BitTorrent.BencodingScanner
import ACENetwork.Proofs.BitTorrent.BencodingNesting
import ACENetwork.Proofs.BitTorrent.BencodingObjects
import ACENetwork.Proofs.BitTorrent.BencodingParser
import ACENetwork.Proofs.BitTorrent.BencodingCanonical
import ACENetwork.Proofs.Irc.Modes
import ACENetwork.Proofs.Irc.Stringify
import ACENetwork.Proofs.Net.CommonTools
import ACENetwork.Proofs.Net.HostName
import ACENetwork.Proofs.Net.DefaultInterface
import ACENetwork.Proofs.BitTorrent.BencodingGrammar
import ACENetwork.Proofs.Irc.Transport
import ACENetwork.Proofs.Irc.Client
import ACENetwork.Spec.Net.AsynchListener
import ACENetwork.Proofs.Net.AsynchListener
import ACENetwork.Spec.Http.RoundTrip
import ACENetwork.Proofs.Http.RoundTrip
import ACENetwork.Spec.Net.Listener
import ACENetwork.Proofs.Net.Listener
import ACENetwork.Spec.BitTorrent.TrackerStream
import ACENetwork.Proofs.BitTorrent.TrackerStream
