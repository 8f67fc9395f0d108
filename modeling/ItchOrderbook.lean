import ItchOrderbook.BookActions
import ItchOrderbook.BookAgreement
import ItchOrderbook.BookLinks
import ItchOrderbook.BookRep
import ItchOrderbook.BookReplay
import ItchOrderbook.BookView
import ItchOrderbook.ByteFields
import ItchOrderbook.ByteReader
import ItchOrderbook.CensusPieces
import ItchOrderbook.CheckedRuns
import ItchOrderbook.Decimals
import ItchOrderbook.Decoding
import ItchOrderbook.DictSums
import ItchOrderbook.DisjointMessages
import ItchOrderbook.ExitStatus
import ItchOrderbook.FifoBook
import ItchOrderbook.FifoRefinement
import ItchOrderbook.FinishedOrders
import ItchOrderbook.Framer
import ItchOrderbook.FramingResumption
import ItchOrderbook.ItchCount
import ItchOrderbook.KeyedList
import ItchOrderbook.MappedFile
import ItchOrderbook.Memory
import ItchOrderbook.MessageTable
import ItchOrderbook.Messages
import ItchOrderbook.NamedOrders
import ItchOrderbook.NodeQueue
import ItchOrderbook.NodeRenaming
import ItchOrderbook.OrderBook
import ItchOrderbook.Ownership
import ItchOrderbook.Parser
import ItchOrderbook.PartialFills
import ItchOrderbook.PartialMaps
import ItchOrderbook.PrefixCode
import ItchOrderbook.ReadSafety
import ItchOrderbook.RebuiltBook
import ItchOrderbook.ReferenceBook
import ItchOrderbook.ReferenceConsistency
import ItchOrderbook.ReferenceFraming
import ItchOrderbook.ReferenceReplay
import ItchOrderbook.ReferenceRobustness
import ItchOrderbook.ReferenceStops
import ItchOrderbook.ReferenceTotals
import ItchOrderbook.Relabelling
import ItchOrderbook.RepCheck
import ItchOrderbook.ReplaceExpansion
import ItchOrderbook.ReplayAgreement
import ItchOrderbook.ReplayCorrectness
import ItchOrderbook.ReplayRobustness
import ItchOrderbook.SessionCensus
import ItchOrderbook.SessionFraming
import ItchOrderbook.SessionReconciliation
import ItchOrderbook.ShareLedger
import ItchOrderbook.SymbolExtract
import ItchOrderbook.SymbolIsolation
import ItchOrderbook.SymbolNames
import ItchOrderbook.TimePriority
import ItchOrderbook.WireFormat
import ItchOrderbook.WrappedReductions
