import InsteonRf.Lib.OrderedDict
import InsteonRf.Lib.Machine
import InsteonRf.Lib.StringSearch
import InsteonRf.Lib.LsbBits
import InsteonRf.FramingRoundTrip
import InsteonRf.PlmCodec
import InsteonRf.RecoverPolarity
import InsteonRf.CombineOwn
import InsteonRf.MeshShutdown
import InsteonRf.MeshScoring
import InsteonRf.FusionKeys
import InsteonRf.FusionConservation
import InsteonRf.FusionStraggler
import InsteonRf.FusionNoSplit
import InsteonRf.FusionOrder
import InsteonRf.FusionNumbering
import InsteonRf.FusionWindow
import InsteonRf.Attribution
import InsteonRf.InjectLimits
import InsteonRf.InjectSuppression
import InsteonRf.InjectVotes
import InsteonRf.MajorityVote
import InsteonRf.RecoverSingle
import InsteonRf.MqttTransport
import InsteonRf.BoardGate
import InsteonRf.Cc1101
import InsteonRf.SdrStream
import InsteonRf.AddressRoles
import InsteonRf.ClockLearning
import InsteonRf.Dedupe
import InsteonRf.Decode
import InsteonRf.RecoverSearch
import InsteonRf.ContextHistory
import InsteonRf.AllOnAlarms
import InsteonRf.CrcDamage
import InsteonRf.SameMessage
import InsteonRf.BoardBlob
import InsteonRf.Lib.Generations
import InsteonRf.JsonlWriter
import InsteonRf.AddressParse
import InsteonRf.PacketBuild
import InsteonRf.Lib.Traced
import InsteonRf.Fsk2Demod
import InsteonRf.Lib.Excerpts
import InsteonRf.Cc1101Restarts
import InsteonRf.BoardCounters
import InsteonRf.Cc1101Registers
import InsteonRf.Cc1101Tuning
import InsteonRf.Rfcat
import InsteonRf.RfcatHealth
import InsteonRf.Lib.Adjacent
import InsteonRf.MqttReceiver
import InsteonRf.MqttNumbering
import InsteonRf.MonitorService
import InsteonRf.MonitorLog
import InsteonRf.MonitorReplay
import InsteonRf.SilenceWatchdog
import InsteonRf.Lib.Greedy
import InsteonRf.DspSync
import InsteonRf.DspBursts
import InsteonRf.DspPackets
