import ArpgServer.Library.CText
import ArpgServer.Library.Proc
import ArpgServer.Effects.Events
import ArpgServer.Rooms.Membership
import ArpgServer.Rooms.Roster
import ArpgServer.Messages.Authority
import ArpgServer.Messages.Credentials
import ArpgServer.Names.Lookup
import ArpgServer.Names.Session
import ArpgServer.Names.Registry
import ArpgServer.Names.Addressing
import ArpgServer.Names.Delivery
import ArpgServer.Library.Framing
import ArpgServer.Model.Epoll
import ArpgServer.Frames.Reassembly
import ArpgServer.Model.Machine
import ArpgServer.Tasks.Lifetime
import ArpgServer.Library.Pool
import ArpgServer.Tasks.Sends
import ArpgServer.Tasks.Kinds
import ArpgServer.Tasks.Commute
import ArpgServer.Tasks.Order
import ArpgServer.Messages.Refusals
import ArpgServer.Frames.Drained
import ArpgServer.Library.Linked
import ArpgServer.Library.Slots
import ArpgServer.Model.TaskQueue
import ArpgServer.Tasks.Queue
import ArpgServer.Model.HashTable
import ArpgServer.Names.Chains
import ArpgServer.Names.Multimap
import ArpgServer.Frames.Outgoing
import ArpgServer.Effects.Frame
import ArpgServer.Messages.Guests
import ArpgServer.Messages.Texts
import ArpgServer.Messages.Templates
import ArpgServer.Messages.Supplied
import ArpgServer.Model.Clock
import ArpgServer.Tasks.Idle
import ArpgServer.Messages.Signatures
import ArpgServer.Messages.Identities
import ArpgServer.Messages.Buffers
import ArpgServer.Model.Lists
import ArpgServer.Rooms.Lists
import ArpgServer.Effects.Total
import ArpgServer.Effects.Endings
import ArpgServer.Frames.Compressed
import ArpgServer.Rooms.Audience
import ArpgServer.Rooms.Joining
import ArpgServer.Messages.GuestNames
import ArpgServer.Messages.Muting
import ArpgServer.Messages.Absent
import ArpgServer.Messages.Leftovers
import ArpgServer.Model.Startup
import ArpgServer.Startup.Tables
import ArpgServer.Model.Database
import ArpgServer.Database.Credentials
import ArpgServer.Database.Connection
import ArpgServer.Library.Search
import ArpgServer.Model.Xml
import ArpgServer.Xml.Attribute
import ArpgServer.Xml.Tag
import ArpgServer.Rooms.Advertised
import ArpgServer.Library.Scan
import ArpgServer.Model.EzxmlText
import ArpgServer.Model.Ezxml
import ArpgServer.Model.Request
import ArpgServer.Xml.Escaping
import ArpgServer.Xml.Characters
import ArpgServer.Xml.Parsing
import ArpgServer.Xml.Tags
import ArpgServer.Xml.Tree
import ArpgServer.Xml.RoundTrip
import ArpgServer.Xml.Instructions
import ArpgServer.Xml.Events
import ArpgServer.Xml.Requests
import ArpgServer.Model.EzxmlLinks
import ArpgServer.Xml.Links
import ArpgServer.Model.EzxmlRoot
import ArpgServer.Xml.Linked
import ArpgServer.Effects.Sections
import ArpgServer.Model.Threads
import ArpgServer.Tasks.Interleaving
import ArpgServer.Messages.Rights
import ArpgServer.Messages.Causes
import ArpgServer.Messages.Traffic
import ArpgServer.Library.Monitor
import ArpgServer.Model.Sleepers
import ArpgServer.Tasks.Wakeups
import ArpgServer.Model.Policy
import ArpgServer.Tasks.Policy
import ArpgServer.Library.References
import ArpgServer.Model.EzxmlEntities
import ArpgServer.Xml.Entities
