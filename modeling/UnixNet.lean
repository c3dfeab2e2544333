import UnixNet.Library.Machine
import UnixNet.Library.CyclicBuffer
import UnixNet.Library.Units
import UnixNet.Library.Pass
import UnixNet.Library.Slots
import UnixNet.Library.Family
import UnixNet.Library.RingBuffer
import UnixNet.Library.Window
import UnixNet.Library.ByteOrder
import UnixNet.Library.Worklist
import UnixNet.Library.History
import UnixNet.Library.Arena
import UnixNet.Library.Owners
import UnixNet.Descriptor
import UnixNet.LineBuffer
import UnixNet.WebChild
import UnixNet.Numerals
import UnixNet.PreforkPool
import UnixNet.AcceptLock
import UnixNet.ChildReaping
import UnixNet.LineClient
import UnixNet.SelectClient
import UnixNet.Library.UnitReader
import UnixNet.SelectLineClient
import UnixNet.SelectLineEcho
import UnixNet.EventLoop
import UnixNet.SelectServer
import UnixNet.SelectCapacity
import UnixNet.PollServer
import UnixNet.Interchange
import UnixNet.SignalTransparency
import UnixNet.DatagramClient
import UnixNet.DescriptorPool
import UnixNet.ClientRing
import UnixNet.NonblockClient
import UnixNet.LineServer
import UnixNet.RttClient
import UnixNet.IcmpDaemon
import UnixNet.IcmpIsolation
import UnixNet.IcmpRobustness
import UnixNet.SignalEcho
import UnixNet.WebThreads
import UnixNet.TellWait
import UnixNet.BoundedBuffer
import UnixNet.LineReaders
import UnixNet.ReadlineCount
import UnixNet.FullTransfer
import UnixNet.WebRequest
import UnixNet.SumServer
import UnixNet.AddressOpeners
import UnixNet.ServiceExpansion
import UnixNet.PfKey
import UnixNet.RoutingMessage
import UnixNet.InterfaceList
import UnixNet.InterfaceNames
import UnixNet.Library.Inspection
import UnixNet.Library.Smoothing
import UnixNet.PacketFields
import UnixNet.Traceroute
import UnixNet.ProbeTimeout
import UnixNet.IcmpBounds
import UnixNet.PingReply
import UnixNet.RttTimer
import UnixNet.RttEcho
import UnixNet.SignalOverflow
import UnixNet.UdpChecksum
import UnixNet.Library.OnesComplement
import UnixNet.UdpWrite
import UnixNet.SadbBounds
import UnixNet.Library.Fallible
import UnixNet.KeyText
import UnixNet.SadbRoom
import UnixNet.CrLf
import UnixNet.Library.Segments
import UnixNet.ChunkedWrite
import UnixNet.SourceRoute
import UnixNet.PartialDelivery
import UnixNet.Library.BinaryFloat
import UnixNet.SntpClock
import UnixNet.SapLoop
import UnixNet.ConnectNonb
import UnixNet.IfconfBuffer
import UnixNet.IfconfWalk
import UnixNet.NameIndexRoom
import UnixNet.AddressUnpacking
import UnixNet.NumericService
import UnixNet.AddressInfo
import UnixNet.AddressOwners
import UnixNet.AddressResult
import UnixNet.Library.CString
import UnixNet.ErrorMessage
import UnixNet.ReadlineState
import UnixNet.DevPollClient
import UnixNet.WebConnects
import UnixNet.InetNtop
import UnixNet.InetPton
import UnixNet.NumericNames
import UnixNet.Library.Watchdog
import UnixNet.Heartbeat
import UnixNet.SharedCounter
