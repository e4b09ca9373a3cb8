import BinOs.KernelHeapIsolation
import BinOs.LineEditorRuns
import BinOs.KeyboardModifiers
import BinOs.KeyboardShortcuts
import BinOs.ScrolledPictures
import BinOs.SerialFormat
import BinOs.HandlerInstallation
import BinOs.InterruptDispatch
import BinOs.HandlerDispatch
import BinOs.RtcTimeOfDay
import BinOs.ConsoleRuns
import BinOs.HistoryWalk
import BinOs.InputLinePicture
import BinOs.EchoedWords
import BinOs.WordKill
import BinOs.SerialReads
import BinOs.KernelHeapContents
import BinOs.AlignedTiling
import BinOs.KernelHeapAlignment
import BinOs.KeyboardRepeat
import BinOs.RtcYear
import BinOs.NumeralValues
import BinOs.Utility
import BinOs.PointerDigits
import BinOs.PicMaskWord
import BinOs.MemoryMoves
import BinOs.TimedWaits
import BinOs.MemoryComparison
import BinOs.RsdpSearch
import BinOs.StubTransparency
import BinOs.CursorMoves
import BinOs.PackedFields
import BinOs.SegmentDescriptors
import BinOs.GateSequences
import BinOs.UnsignedNumerals
import BinOs.OrderSigns
import BinOs.StringComparison
import BinOs.KeyboardStream
import BinOs.SerialFailures
import BinOs.SerialProgress
import BinOs.AllocatorTest
import BinOs.SpeakerTones
import BinOs.VectorEntry
import BinOs.RtcControl
