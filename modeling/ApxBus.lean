import ApxBus.Crc32
import ApxBus.ShiftRegister
import ApxBus.CrcBitwise
import ApxBus.CrcChanges
import ApxBus.CrcSw
import ApxBus.BitCodes
import ApxBus.LinkedCells
import ApxBus.MixedRadix
import ApxBus.BinaryFloat
import ApxBus.Stream
import ApxBus.StreamString
import ApxBus.Can.Pool
import ApxBus.Can.Assembly
import ApxBus.Can.PoolRefinement
import ApxBus.Can.PoolInvariant
import ApxBus.Can.Durability
import ApxBus.Can.Eviction
import ApxBus.Can.ReadOrder
import ApxBus.Can.Codec
import ApxBus.Callsigns
import ApxBus.Can.Network
import ApxBus.Cursor
import ApxBus.Can.NetworkDelivery
import ApxBus.DeltaFeed
import ApxBus.MaskGroups
import ApxBus.Backport.Variables
import ApxBus.Backport.Downlink
import ApxBus.Backport.DownlinkFrame
import ApxBus.Backport.DownlinkRead
import ApxBus.Backport.DownlinkTransfer
import ApxBus.Backport.DownlinkRuns
import ApxBus.Backport.DownlinkClock
import ApxBus.Backport.DownlinkBounds
import ApxBus.Can.Transport
import ApxBus.Can.Delivery
import ApxBus.Can.Integrity
import ApxBus.Can.ReceiveBuffer
import ApxBus.Serial.Cobs
import ApxBus.Serial.CobsRoundTrip
import ApxBus.Serial.CobsFrames
import ApxBus.Mandala
import ApxBus.Mandala.Dictionary
import ApxBus.Mandala.Numbering
import ApxBus.Mandala.FormatList
import ApxBus.Mandala.Views
import ApxBus.Real32
import ApxBus.Real32Bits
import ApxBus.Telemetry.ValuePack
import ApxBus.Telemetry.ValueUnpack
import ApxBus.Telemetry.Saturation
import ApxBus.Telemetry.HalfPrecision
import ApxBus.Telemetry.Format
import ApxBus.WireRecords
import ApxBus.Telemetry.Encoder
import ApxBus.Telemetry.Decoder
import ApxBus.Telemetry.EncoderTable
import ApxBus.Telemetry.EncoderSend
import ApxBus.Telemetry.EncoderInvariant
import ApxBus.Telemetry.PendingSync
import ApxBus.Telemetry.Resend
import ApxBus.Telemetry.DatasetOrder
import ApxBus.Telemetry.DecoderFrame
import ApxBus.Telemetry.DecoderInvariant
import ApxBus.Telemetry.FormatTransfer
import ApxBus.Telemetry.HashFeed
import ApxBus.Telemetry.Wire
import ApxBus.Telemetry.EncoderFrame
import ApxBus.Telemetry.DecoderRead
import ApxBus.Telemetry.Transponder
import ApxBus.Telemetry.Clock
import ApxBus.Telemetry.FrameTransfer
import ApxBus.Telemetry.OptionFrames
import ApxBus.Telemetry.Refresh
import ApxBus.Telemetry.Leftover
import ApxBus.StreamCut
import ApxBus.Telemetry.SmallBuffer
import ApxBus.Telemetry.BrokenFrame
import ApxBus.Telemetry.FullBuffer
import ApxBus.Serial.CobsBuffer
import ApxBus.Can.Repeats
import ApxBus.Telemetry.LateJoiner
import ApxBus.BurstErrors
import ApxBus.CrcBursts
import ApxBus.Tcp.Lines
import ApxBus.Tcp.Client
import ApxBus.Tcp.Handshake
import ApxBus.Backport.HalfFloats
import ApxBus.OrderedMap
import ApxBus.Mandala.Inheritance
import ApxBus.Mandala.SourceFormats
import ApxBus.StreamScripts
