import MonitoringTool.Backend.Framing
import MonitoringTool.Lib.Counter
import MonitoringTool.Lib.OrderedRanges
import MonitoringTool.Lib.Run
import MonitoringTool.Sniffer.TcpOrder
import MonitoringTool.Sniffer.TcpOrderOrdered
import MonitoringTool.Sniffer.ExtractPair
import MonitoringTool.Sniffer.ParseWindow
import MonitoringTool.Lib.ListModify
import MonitoringTool.Sniffer.PairChain
import MonitoringTool.Sniffer.Polling
import MonitoringTool.Sniffer.ExtractData
import MonitoringTool.Sniffer.Metrics.MetricAvg
import MonitoringTool.Sniffer.Metrics.Rate
import MonitoringTool.Sniffer.Metrics.Throughput
import MonitoringTool.Lib.LinkedList
import MonitoringTool.Sniffer.FlowHashTable
import MonitoringTool.Sniffer.FlowMap
import MonitoringTool.Sniffer.Independence
import MonitoringTool.Sniffer.Threads
import MonitoringTool.Sniffer.Protocols
import MonitoringTool.Sniffer.PacketPreprocess
import MonitoringTool.Sniffer.Orientation
import MonitoringTool.Sniffer.TableRuns
import MonitoringTool.Sniffer.ExtractNodes
import MonitoringTool.Sniffer.ProtocolRun
import MonitoringTool.Sniffer.PairTrace
import MonitoringTool.Sniffer.Notifications
import MonitoringTool.Sniffer.PairOrder
import MonitoringTool.Lib.Custody
import MonitoringTool.Sniffer.PacketCustody
import MonitoringTool.Lib.Base128
import MonitoringTool.Sniffer.Server
import MonitoringTool.Sniffer.FrameReads
import MonitoringTool.Sniffer.Pipeline
import MonitoringTool.Sniffer.Shutdown
import MonitoringTool.Sniffer.PipelineAccounts
import MonitoringTool.Sniffer.TcpOrderCoverage
import MonitoringTool.Sniffer.TcpOrderTranslation
import MonitoringTool.Sniffer.TcpOrderSorted
import MonitoringTool.Sniffer.PacketKept
import MonitoringTool.Sniffer.Recognition
import MonitoringTool.Sniffer.RequestParsers
import MonitoringTool.Lib.Tally
import MonitoringTool.Sniffer.Metrics.HashTable
import MonitoringTool.Sniffer.Metrics.MetricCumDistr
import MonitoringTool.Lib.Spread
import MonitoringTool.Sniffer.Metrics.Averages
import MonitoringTool.Sniffer.Metrics.ErrRate
import MonitoringTool.Sniffer.PayloadLength
import MonitoringTool.Sniffer.HeaderEnd
import MonitoringTool.Sniffer.HeaderParam
import MonitoringTool.Sniffer.HeaderValue
import MonitoringTool.Lib.Buckets
import MonitoringTool.Lib.Acknowledge
import MonitoringTool.Sniffer.FinBranch
import MonitoringTool.Sniffer.Metrics.HashChains
import MonitoringTool.Sniffer.Metrics.RequestPath
import MonitoringTool.Sniffer.IpAddress
import MonitoringTool.Sniffer.ResponseTexts
import MonitoringTool.Sniffer.CaptureLoop
import MonitoringTool.Sniffer.HttpRequestLine
import MonitoringTool.Frontend.Number
import MonitoringTool.Frontend.Address
import MonitoringTool.Sniffer.FlowCounters
import MonitoringTool.Sniffer.RepeatedSyn
import MonitoringTool.Sniffer.MemCachedOperands
import MonitoringTool.Frontend.NumberText
import MonitoringTool.Frontend.Form
import MonitoringTool.Sniffer.Metrics.ActiveMetrics
import MonitoringTool.Sniffer.HeaderLines
import MonitoringTool.Lib.SinglyLinked
import MonitoringTool.Sniffer.Queue
import MonitoringTool.Sniffer.PairTail
import MonitoringTool.Sniffer.TcpOrderReads
import MonitoringTool.Lib.Lens
import MonitoringTool.Lib.Reader
import MonitoringTool.Sniffer.Protobuf.Integers
import MonitoringTool.Sniffer.Protobuf.Descriptors
import MonitoringTool.Sniffer.Protobuf.Pack
import MonitoringTool.Sniffer.Protobuf.Unpack
import MonitoringTool.Lib.WireFormat
import MonitoringTool.Sniffer.Protobuf.Scan
import MonitoringTool.Sniffer.Protobuf.Arrays
import MonitoringTool.Sniffer.Protobuf.RoundTrip
import MonitoringTool.Sniffer.Protobuf.Analysis
import MonitoringTool.Sniffer.Protobuf.Messages
import MonitoringTool.Sniffer.Protobuf.Overrun
import MonitoringTool.Backend.Analysis
import MonitoringTool.Backend.InitSent
import MonitoringTool.Sniffer.Protobuf.Required
import MonitoringTool.Backend.CodedInput
import MonitoringTool.Backend.Metric
import MonitoringTool.Backend.MetricReceived
import MonitoringTool.Backend.MetricsDelivered
import MonitoringTool.Sniffer.MySqlPackets
