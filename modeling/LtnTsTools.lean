import LtnTsTools.Region
import LtnTsTools.CyclicWindow
import LtnTsTools.PartialMachine
import LtnTsTools.BoundedTable
import LtnTsTools.WhileLoop
import LtnTsTools.IntrusiveList
import LtnTsTools.Occurrence
import LtnTsTools.Scatter
import LtnTsTools.CursorEnumeration
import LtnTsTools.RingBuffer
import LtnTsTools.RingBufferFifo
import LtnTsTools.RingBufferOverflow
import LtnTsTools.TransportPacket
import LtnTsTools.PcrPacket
import LtnTsTools.CounterPacket
import LtnTsTools.Packetizer
import LtnTsTools.Crc32
import LtnTsTools.ShiftRegister
import LtnTsTools.PsiTables
import LtnTsTools.SectionExtractor
import LtnTsTools.SectionBounds
import LtnTsTools.SectionCarriage
import LtnTsTools.SectionChecks
import LtnTsTools.SectionReassembly
import LtnTsTools.SectionVerdicts
import LtnTsTools.SectionWhole
import LtnTsTools.PsiExtraction
import LtnTsTools.PsiDecoding
import LtnTsTools.StreamStatistics
import LtnTsTools.TickClock
import LtnTsTools.PidTable
import LtnTsTools.HistoryClone
import LtnTsTools.StreamTotals
import LtnTsTools.PaddingRate
import LtnTsTools.HistoryMetric
import LtnTsTools.HistoryExpiry
import LtnTsTools.ContinuityAccounting
import LtnTsTools.PacketizerContinuity
import LtnTsTools.BitString
import LtnTsTools.CrcDetection
import LtnTsTools.BitParser
import LtnTsTools.BitReader
import LtnTsTools.BitWriter
import LtnTsTools.BitFlush
import LtnTsTools.BitOverrun
import LtnTsTools.BitCopy
import LtnTsTools.PesPacket
import LtnTsTools.PesSyntax
import LtnTsTools.PesPack
import LtnTsTools.PesBounds
import LtnTsTools.PesBitCount
import LtnTsTools.Clocks
import LtnTsTools.HoldBack
import LtnTsTools.MachineBank
import LtnTsTools.Memmem
import LtnTsTools.ExpGolomb
import LtnTsTools.Monitor
import LtnTsTools.MonitorEvents
import LtnTsTools.MonitorRuns
import LtnTsTools.MonitorAlarms
import LtnTsTools.NalBitReader
import LtnTsTools.SliceCounter
import LtnTsTools.SeiTimestamp
import LtnTsTools.NalHeaders
import LtnTsTools.NalCollection
import LtnTsTools.Stuffing
import LtnTsTools.EmulationPrevention
import LtnTsTools.OrderedOutput
import LtnTsTools.PesExtractor
import LtnTsTools.PesHeaderSearch
import LtnTsTools.Reframer
import LtnTsTools.AlarmHysteresis
import LtnTsTools.PriorityOne
import LtnTsTools.SyncAlarms
import LtnTsTools.PatAlarm
import LtnTsTools.EarlyExit
import LtnTsTools.ThroughputHires
import LtnTsTools.ThroughputAggregates
import LtnTsTools.Histogram
import LtnTsTools.HistogramSummary
import LtnTsTools.VideoBufferClock
import LtnTsTools.PesExtractorSafety
import LtnTsTools.PesIsolation
import LtnTsTools.PesReassembly
import LtnTsTools.Demux
import LtnTsTools.PcrSearch
import LtnTsTools.PcrQuery
import LtnTsTools.PcrLayout
import LtnTsTools.ClockArithmetic
import LtnTsTools.RtpAnalyzer
import LtnTsTools.RtpFrames
import LtnTsTools.SmootherRtp
import LtnTsTools.SmootherRtpSchedule
import LtnTsTools.SmootherRtpFrames
import LtnTsTools.ClockMonotonicity
import LtnTsTools.ClockUnwrapping
import LtnTsTools.ClockAddition
import LtnTsTools.PointerQueue
import LtnTsTools.SegmentWriter
import LtnTsTools.VideoBuffer
import LtnTsTools.Ac3Header
import LtnTsTools.AlarmReporting
import LtnTsTools.PcrMeasurement
import LtnTsTools.SmootherQueue
import LtnTsTools.SmootherDelivery
import LtnTsTools.SmootherAccounting
import LtnTsTools.Draining
import LtnTsTools.SmootherWriter
import LtnTsTools.SmootherStream
import LtnTsTools.SmootherSchedule
import LtnTsTools.StreamModel
import LtnTsTools.ModelEvents
import LtnTsTools.ModelCompleteness
import LtnTsTools.ModelQuery
import LtnTsTools.ServiceDescriptions
import LtnTsTools.ServiceEnumeration
import LtnTsTools.RecentWindow
import LtnTsTools.DemuxRuntime
import LtnTsTools.ModelDecoders
import LtnTsTools.GeneratedTables
import LtnTsTools.ModelPhases
import LtnTsTools.GeneratedModel
import LtnTsTools.Metering
import LtnTsTools.PacketRates
import LtnTsTools.Throughput
import LtnTsTools.FrameStatistics
import LtnTsTools.PesTransport
import LtnTsTools.Neighbours
import LtnTsTools.PcrIntervals
import LtnTsTools.MonitorReferences
