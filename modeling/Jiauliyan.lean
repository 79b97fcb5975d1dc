import Jiauliyan.Execution
import Jiauliyan.Ring
import Jiauliyan.Tiling
import Jiauliyan.Memory
import Jiauliyan.CString
import Jiauliyan.Malloc
import Jiauliyan.FreeList
import Jiauliyan.Carving
import Jiauliyan.Coalescing
import Jiauliyan.Conservation
import Jiauliyan.HeapSafety
import Jiauliyan.MemoryInit
import Jiauliyan.KernelImage
import Jiauliyan.Console
import Jiauliyan.Vga
import Jiauliyan.TerminalRefinement
import Jiauliyan.ShiftQueue
import Jiauliyan.Serial
import Jiauliyan.Keyboard
import Jiauliyan.KeyboardBound
import Jiauliyan.InputOrder
import Jiauliyan.Framing
import Jiauliyan.Client
import Jiauliyan.Pic
import Jiauliyan.Polling
import Jiauliyan.Correlation
import Jiauliyan.Server
import Jiauliyan.Replies
import Jiauliyan.Requests
import Jiauliyan.StringCompare
import Jiauliyan.Stdio
import Jiauliyan.FileMap
import Jiauliyan.FileRefinement
import Jiauliyan.FileIsolation
import Jiauliyan.FileTable
import Jiauliyan.OpenModes
import Jiauliyan.Bytestreams
import Jiauliyan.Cursors
import Jiauliyan.StreamCursor
import Jiauliyan.Format
import Jiauliyan.FormatArguments
import Jiauliyan.FormatHeap
import Jiauliyan.FileOps
import Jiauliyan.ClosedFile
import Jiauliyan.FilePosition
import Jiauliyan.TempScreen
import Jiauliyan.Stripping
import Jiauliyan.ImageConvert
import Jiauliyan.ImageTransfer
import Jiauliyan.Numeral
import Jiauliyan.PutUint
import Jiauliyan.FormatUint
import Jiauliyan.Strtoul
import Jiauliyan.MemoryRegion
import Jiauliyan.MallocSize
import Jiauliyan.FopenSlots
import Jiauliyan.Lockstep
import Jiauliyan.RecycledMemory
import Jiauliyan.Realloc
import Jiauliyan.ScreenEcho
import Jiauliyan.StringOrder
import Jiauliyan.StrtoulRange
import Jiauliyan.FloatingPoint
import Jiauliyan.Strtod
import Jiauliyan.StrtodRange
import Jiauliyan.FieldWidth
import Jiauliyan.Sprintf
import Jiauliyan.FormatReturn
import Jiauliyan.FormatScan
import Jiauliyan.FormatDouble
import Jiauliyan.Runs
import Jiauliyan.MemMove
import Jiauliyan.StringSearch
import Jiauliyan.Tokens
import Jiauliyan.Concatenation
import Jiauliyan.PendingBytes
import Jiauliyan.LineReads
import Jiauliyan.WriteErrors
import Jiauliyan.X86
import Jiauliyan.CharacterPaths
import Jiauliyan.ShiftKeys
import Jiauliyan.Segments
import Jiauliyan.LuaPattern
import Jiauliyan.FormEncoding
import Jiauliyan.LineEditing
import Jiauliyan.ImageTermination
import Jiauliyan.ExactMath
import Jiauliyan.SquareRoot
import Jiauliyan.FractionDigits
import Jiauliyan.Trim
import Jiauliyan.WordFill
import Jiauliyan.LuaFormat
import Jiauliyan.LuaMatch
import Jiauliyan.LuaNumber
import Jiauliyan.PatternMeaning
import Jiauliyan.StringFind
import Jiauliyan.StringGsub
import Jiauliyan.InterruptDispatch
import Jiauliyan.InterruptStubs
import Jiauliyan.IrqRuns
import Jiauliyan.Setjmp
import Jiauliyan.ProtectedCalls
import Jiauliyan.Links
import Jiauliyan.LuaTable
import Jiauliyan.LuaTableNodes
import Jiauliyan.LuaTableContents
import Jiauliyan.LuaTableResize
import Jiauliyan.LuaTableRehash
import Jiauliyan.LuaTableRuns
import Jiauliyan.LuaTableBorder
import Jiauliyan.LuaTableNext
import Jiauliyan.JsonText
import Jiauliyan.DescriptorTables
import Jiauliyan.Dkjson
import Jiauliyan.DkjsonEncode
import Jiauliyan.DkjsonEnds
import Jiauliyan.DkjsonFinds
import Jiauliyan.DkjsonQuotes
import Jiauliyan.DkjsonReads
import Jiauliyan.DkjsonStrings
import Jiauliyan.DkjsonTables
import Jiauliyan.DkjsonWrites
