import Psn.Lib.PartialMachine
import Psn.Lib.Projection
import Psn.Lib.Handles
import Psn.Lib.KeyedChain
import Psn.Lib.Buffer
import Psn.Lib.Tokens
import Psn.Lib.Links
import Psn.Lib.Framing
import Psn.Lib.Cells
import Psn.Lib.CallOutcome
import Psn.CString
import Psn.Topic
import Psn.Types
import Psn.Hex
import Psn.Json
import Psn.Executable
import Psn.Mosquitto
import Psn.Friends
import Psn.Outcomes
import Psn.Standing
import Psn.Refinement
import Psn.FriendLists
import Psn.Atomicity
import Psn.Independence
import Psn.Publishing
import Psn.Addressing
import Psn.Malformed
import Psn.Handover
import Psn.Network
import Psn.Agreement
import Psn.Session
import Psn.FriendArray
import Psn.Encryption
import Psn.Config
import Psn.Profile
import Psn.Printing
import Psn.Befriending
import Psn.KeyMaterial
import Psn.Reload
import Psn.Loading
import Psn.Api
import Psn.Connection
import Psn.Fields
import Psn.Clients
import Psn.Instances
import Psn.Reconnect
import Psn.Cli
import Psn.CommandLoop
import Psn.Files
import Psn.HexCodec
import Psn.Teardown
import Psn.Packet
import Psn.PacketRead
import Psn.PacketStream
import Psn.Messages
import Psn.PacketHandle
import Psn.Inflight
import Psn.Window
import Psn.Delivery
import Psn.Subs
import Psn.SubTree
import Psn.Routing
import Psn.Broker
import Psn.HashTable
import Psn.Acl
import Psn.StaticAcl
import Psn.AclFile
import Psn.Authenticity
