import Osnt.Lib.Machine
import Osnt.Lib.Parts
import Osnt.Lib.Window
import Osnt.Lib.DelayQueue
import Osnt.Lib.AgedPackets
import Osnt.Lib.Framing
import Osnt.Lib.Merge
import Osnt.Lib.FifoTable
import Osnt.Lib.CrossingFifo
import Osnt.Lib.OnesComplement
import Osnt.Lib.BubbleSort
import Osnt.Lib.Server
import Osnt.Lib.FirstMatch
import Osnt.Lib.Ticketed
import Osnt.Lib.LockOrder
import Osnt.Lib.PercentCode
import Osnt.Lib.CString
import Osnt.Lib.Flooding
import Osnt.Lib.Story
import Osnt.Axis
import Osnt.Fifo
import Osnt.Bram
import Osnt.PcapReplay
import Osnt.Datapath
import Osnt.PrePcapStore
import Osnt.InterPacketDelay
import Osnt.RateLimiter
import Osnt.ExtractMetadata
import Osnt.PacketCutter
import Osnt.HostStamps
import Osnt.InputArbiter
import Osnt.OutputQueues
import Osnt.AxisConverter
import Osnt.RxQueue
import Osnt.TxQueue
import Osnt.ProcessSm
import Osnt.HeaderCheck
import Osnt.CamLut
import Osnt.PacketHistory
import Osnt.EthParser
import Osnt.IpLpm
import Osnt.SwitchLookup
import Osnt.Lookup
import Osnt.NicLookup
import Osnt.MacCamLut
import Osnt.SwitchLite
import Osnt.ReferenceDatapath
import Osnt.Scone.Ip
import Osnt.Scone.Rtable
import Osnt.Scone.Iface
import Osnt.Scone.Hello
import Osnt.Scone.IfaceRoutes
import Osnt.Scone.Arp
import Osnt.Scone.ArpQueue
import Osnt.Scone.OrNat
import Osnt.Scone.PacketPath
import Osnt.Scone.LsuNetwork
import Osnt.Scone.Url
import Osnt.Proofs.InterPacketDelay
import Osnt.Proofs.RateLimiter
import Osnt.Proofs.Fifo
import Osnt.Proofs.FifoRuns
import Osnt.Proofs.ExtractMetadata
import Osnt.Proofs.PacketCutter
import Osnt.Proofs.Bram
import Osnt.Proofs.PcapLoad
import Osnt.Proofs.PcapReplay
import Osnt.Proofs.PcapProgress
import Osnt.Proofs.PipedReplay
import Osnt.Proofs.Link
import Osnt.Proofs.PrePcapStore
import Osnt.Proofs.Parser
import Osnt.Proofs.Demux
import Osnt.Proofs.Timestamps
import Osnt.Proofs.StampedPackets
import Osnt.Proofs.InputArbiter
import Osnt.Proofs.OutputQueues
import Osnt.Proofs.ReadyQueues
import Osnt.Proofs.ReferenceDatapath
import Osnt.Proofs.ConverterReaders
import Osnt.Proofs.AxisConverter
import Osnt.Proofs.ConverterWedge
import Osnt.Proofs.RxQueue
import Osnt.Proofs.TxQueue
import Osnt.Proofs.ProcessSm
import Osnt.Proofs.HeaderCheck
import Osnt.Proofs.HopRewrite
import Osnt.Proofs.Rtable
import Osnt.Proofs.CamLut
import Osnt.Proofs.CamReset
import Osnt.Proofs.HistoryOutput
import Osnt.Proofs.PacketHistory
import Osnt.Proofs.HistoryRing
import Osnt.Proofs.EthParser
import Osnt.Proofs.IpLpm
import Osnt.Proofs.SwitchLookup
import Osnt.Proofs.NicLookup
import Osnt.Proofs.MacCamLut
import Osnt.Proofs.LookupPorts
import Osnt.Proofs.SwitchLite
import Osnt.Proofs.ArbiterTurns
import Osnt.Proofs.PacketCounters
import Osnt.Proofs.PortCounters
import Osnt.Proofs.ByteAccounts
import Osnt.Proofs.PwospfBounds
import Osnt.Proofs.PwospfRoundTrip
import Osnt.Proofs.PwospfFlood
import Osnt.Proofs.PwospfSequence
import Osnt.Proofs.PwospfInterfaceList
import Osnt.Proofs.ActiveLinks
import Osnt.Proofs.Routes
import Osnt.Proofs.OwnInterface
import Osnt.Proofs.DijkstraThread
import Osnt.Proofs.LsuBcast
import Osnt.Proofs.Hello
import Osnt.Proofs.IfaceRoutes
import Osnt.Proofs.IfaceNodes
import Osnt.Proofs.Icmp
import Osnt.Proofs.LsuPackets
import Osnt.Proofs.LsuNetwork
import Osnt.Proofs.LsuFlooding
import Osnt.Proofs.LsuAgreement
import Osnt.Proofs.IpChecksum
import Osnt.Proofs.IpForward
import Osnt.Proofs.ArpPinned
import Osnt.Proofs.ArpQueue
import Osnt.Proofs.ArpQueueRuns
import Osnt.Proofs.OrNat
import Osnt.Proofs.NatChecksums
import Osnt.Proofs.NatHeaders
import Osnt.Proofs.NatLookup
import Osnt.Proofs.NatTranslation
import Osnt.Proofs.NatUdp
import Osnt.Proofs.Sping
import Osnt.Proofs.PacketPath
import Osnt.Proofs.Url
