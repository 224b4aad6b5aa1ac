import Nbf.Library.Checked
import Nbf.Library.Octets
import Nbf.Library.Lists
import Nbf.Library.Table
import Nbf.Library.Run
import Nbf.Library.Walk
import Nbf.Library.InOrder
import Nbf.Library.TwoMessage
import Nbf.Library.Nearest
import Nbf.Library.Ascending
import Nbf.Library.Parts
import Nbf.Library.Erasure
import Nbf.Library.Lanes
import Nbf.Library.Parties
import Nbf.Crypto.Crates
import Nbf.Crypto.Kdf
import Nbf.Crypto.Identity
import Nbf.Crypto.Sphinx
import Nbf.Crypto.SphinxRoute
import Nbf.Crypto.SphinxAgreement
import Nbf.Crypto.Transparent
import Nbf.Crypto.SphinxSecrecy
import Nbf.Net.Cell
import Nbf.Net.Fragments
import Nbf.Net.Node
import Nbf.Net.Relay
import Nbf.Net.Onion
import Nbf.Net.Builder
import Nbf.Net.Builds
import Nbf.Net.Network
import Nbf.Net.Circuit
import Nbf.Net.Establishment
import Nbf.Net.Build
import Nbf.Net.RelayPath
import Nbf.Net.Echo
import Nbf.Net.Activity
import Nbf.Net.Tampering
import Nbf.Net.Ownership
import Nbf.Net.Replay
import Nbf.Net.Neighbours
import Nbf.Net.Backward
import Nbf.Net.Reassembly
import Nbf.Net.Control
import Nbf.Net.Teardown
import Nbf.Net.World
import Nbf.Net.Cascades
import Nbf.Net.RelayTasks
import Nbf.Net.Overtaking
import Nbf.Net.EchoCalls
import Nbf.Net.Session
import Nbf.Net.Conversation
import Nbf.Net.Wakeup
import Nbf.Net.Snow
import Nbf.Net.Link
import Nbf.Net.PlainNoise
import Nbf.Net.Pair
import Nbf.Net.Party
import Nbf.Net.Crossing
import Nbf.Net.Binding
import Nbf.Net.Counters
import Nbf.Net.CountedNoise
import Nbf.Net.Transport
import Nbf.Net.Channel
import Nbf.Net.Downgrade
import Nbf.Net.Survival
import Nbf.Dht.Rpc
import Nbf.Dht.Kademlia
import Nbf.Dht.Routing
import Nbf.Dht.Lookup
import Nbf.Dht.Answers
import Nbf.Dht.Steps
import Nbf.Dht.Served
import Nbf.Dht.Handlers
import Nbf.Dht.Addresses
import Nbf.Dht.Records
import Nbf.Dht.Calls
import Nbf.Dht.Heard
import Nbf.Net.Layers
import Nbf.Crypto.SphinxChain
import Nbf.Dht.Codec
import Nbf.Net.Filter
import Nbf.Net.Lifetime
import Nbf.Net.Dispatch
import Nbf.Net.Delivery
import Nbf.Dht.Asking
import Nbf.Crypto.Signed
import Nbf.Net.Parsers
import Nbf.Net.Inflight
import Nbf.Net.Gathering
import Nbf.Dht.Peers
import Nbf.Dht.Swarm
import Nbf.Dht.Finding
import Nbf.Dht.Ending
import Nbf.Net.Resolved
import Nbf.Net.Cover
import Nbf.Net.Padding
import Nbf.Net.Stack
import Nbf.Net.Encrypted
import Nbf.Net.Serial
import Nbf.Net.Bookkeeping
import Nbf.Net.Forwarding
