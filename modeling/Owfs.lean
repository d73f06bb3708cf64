import Owfs.Infra.Bytes
import Owfs.Infra.Calendar
import Owfs.Infra.Memory
import Owfs.Infra.TtlMap
import Owfs.Infra.Trie
import Owfs.Infra.Threads
import Owfs.Infra.Text
import Owfs.Infra.Pieces
import Owfs.Infra.Decimal
import Owfs.Infra.BitSlice
import Owfs.Infra.CString
import Owfs.Infra.Ring
import Owfs.Infra.Segments
import Owfs.Infra.Sorted
import Owfs.Infra.Regex
import Owfs.Infra.SwitchTree
import Owfs.Infra.ShiftRegister
import Owfs.Protocol.Message
import Owfs.Protocol.FromClient
import Owfs.Protocol.Roundtrip
import Owfs.Protocol.Safety
import Owfs.Protocol.Loop
import Owfs.Client.Requests
import Owfs.Client.Boundary
import Owfs.Client.Slot
import Owfs.Device.Crc
import Owfs.Device.CrcRegister
import Owfs.Device.SerialNumber
import Owfs.Cache.Store
import Owfs.Cache.Refinement
import Owfs.Cache.Operations
import Owfs.Cache.Deletion
import Owfs.Cache.Entries
import Owfs.Cache.Accounting
import Owfs.Search.Bus
import Owfs.Search.Bitbang
import Owfs.Search.Accelerated
import Owfs.Search.Ds9490
import Owfs.Search.Retry
import Owfs.Transaction.Log
import Owfs.Transaction.Bundle
import Owfs.Transaction.Delivery
import Owfs.Transaction.Equivalence
import Owfs.Transaction.Paged
import Owfs.Transaction.MemoryRead
import Owfs.Transaction.Slave
import Owfs.Eeprom.Ds2431
import Owfs.Transaction.Soundness
import Owfs.Transaction.Alignment
import Owfs.Property.Local
import Owfs.Property.Mock
import Owfs.Property.AsciiArray
import Owfs.Property.Output
import Owfs.Property.Numbers
import Owfs.Property.DecimalInput
import Owfs.Property.WritePart
import Owfs.Property.Offset
import Owfs.Property.ReadCache
import Owfs.Property.Coherence
import Owfs.Lock.ReadWrite
import Owfs.Lock.DeviceLock
import Owfs.Api.Lifecycle
import Owfs.Alias.Table
import Owfs.Path.SerialNumber
import Owfs.Path.DeviceName
import Owfs.Path.Parse
import Owfs.Path.AliasName
import Owfs.Path.PropertyName
import Owfs.Path.ToServer
import Owfs.Path.Forwarding
import Owfs.Path.Buffers
import Owfs.Bus.BitData
import Owfs.Bus.Ds2480
import Owfs.Bus.Ds2482
import Owfs.Bus.Telnet
import Owfs.Bus.Presence
import Owfs.Search.Verify
import Owfs.Bus.Select
import Owfs.Directory.Blob
import Owfs.Server.Response
import Owfs.Client.Received
import Owfs.Client.Sending
import Owfs.Server.PingLoop
import Owfs.Server.Framing
import Owfs.Server.Persistence
import Owfs.Server.Listing
import Owfs.Infra.Block
import Owfs.Directory.Storage
import Owfs.Directory.Charblob
import Owfs.Infra.Record
import Owfs.Bus.Netlink
import Owfs.Config.OptionLine
import Owfs.Config.QuotedString
import Owfs.Http.HexForm
import Owfs.Http.Links
import Owfs.Directory.Caching
import Owfs.Directory.Union
import Owfs.Directory.DeviceDir
import Owfs.Bus.Inbound
import Owfs.Property.Simultaneous
import Owfs.Property.Bitfield
import Owfs.Ds1921.Clock
import Owfs.Ds1921.Log
import Owfs.Ftp.TelnetSession
import Owfs.Infra.Linked
import Owfs.Ftp.Watchdog
import Owfs.Bus.Reconnect
