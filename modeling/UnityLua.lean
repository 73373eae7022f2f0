import UnityLua.Library.Arena
import UnityLua.Library.DoublyLinked
import UnityLua.Library.HashDictionary
import UnityLua.Library.RefTable
import UnityLua.Library.Program
import UnityLua.Library.WholeDoubles
import UnityLua.Library.HiddenState
import UnityLua.Library.Run
import UnityLua.Library.ListDictionary
import UnityLua.Library.Traversal
import UnityLua.Library.BitFields
import UnityLua.Library.HalfLines
import UnityLua.Library.ByteStrings
import UnityLua.Library.DecimalDigits
import UnityLua.ObjectTranslator
import UnityLua.ObjectIds
import UnityLua.ObjectMaps
import UnityLua.ObjectIdentity
import UnityLua.ReferenceOwners
import UnityLua.ReferenceOwnership
import UnityLua.LuaList
import UnityLua.LuaListRefinement
import UnityLua.LuaValue
import UnityLua.CheckType
import UnityLua.MethodWrapper
import UnityLua.ArgumentMatching
import UnityLua.CachedCalls
import UnityLua.LuaLib
import UnityLua.LuaState
import UnityLua.StackNeutrality
import UnityLua.LuaDelegate
import UnityLua.Library.StackCode
import UnityLua.GenerateMethod
import UnityLua.OverrideCode
import UnityLua.ClassGeneration
import UnityLua.TableObjects
import UnityLua.MemberCache
import UnityLua.MemberReads
import UnityLua.MemberWrites
import UnityLua.Library.StackPaths
import UnityLua.VerifiableCode
import UnityLua.GenerateDelegate
import UnityLua.DelegateCode
import UnityLua.EventHandlers
import UnityLua.Closing
import UnityLua.NamespaceLookup
import UnityLua.ThreadAnchors
import UnityLua.ReferenceLeaks
import UnityLua.ScalarTrip
import UnityLua.ValueTrip
import UnityLua.CallbackStacks
import UnityLua.ChunkLengths
import UnityLua.SuccessfulMatch
import UnityLua.FailedMatch
import UnityLua.TypeChecks
import UnityLua.BaseMethods
import UnityLua.Library.CellPaths
import UnityLua.Library.Splitting
import UnityLua.TableHeap
import UnityLua.DottedPaths
import UnityLua.PathAssignments
import UnityLua.Library.Activations
import UnityLua.NestedCalls
import UnityLua.Library.CleanFailure
import UnityLua.Operands
import UnityLua.OperandErrors
import UnityLua.ClassMembers
import UnityLua.EscapingExceptions
import UnityLua.GlobalsList
import UnityLua.TableArrays
import UnityLua.ThreadStacks
import UnityLua.FindChildren
import UnityLua.WrapperEquality
import UnityLua.TreePrinter
import UnityLua.BitFields
import UnityLua.LineClipping
import UnityLua.TableDiff
import UnityLua.LuaLexer
import UnityLua.LuaParser
import UnityLua.ValueText
import UnityLua.Library.Loops
import UnityLua.LuaStrings
import UnityLua.Utf8Scanning
import UnityLua.Library.Shuffles
import UnityLua.RandomTable
import UnityLua.IdCounter
import UnityLua.LocalTime
import UnityLua.Library.Cutting
import UnityLua.LuaPatterns
import UnityLua.SplitStr
import UnityLua.Library.Trimming
import UnityLua.StrTrim
import UnityLua.NetHeap
import UnityLua.UserdataTrip
import UnityLua.Library.Links
import UnityLua.HashTables
import UnityLua.HashTableChains
import UnityLua.HashTableValues
import UnityLua.HashTableRehash
import UnityLua.HashTableSizes
import UnityLua.HashTableRuns
import UnityLua.HashTableTraversal
import UnityLua.HashTableBorders
import UnityLua.Library.DoubleEquality
import UnityLua.HashTableKeys
import UnityLua.Collector
import UnityLua.CollectorCycle
import UnityLua.CollectorProgram
import UnityLua.CollectorMarks
import UnityLua.CollectorTracing
import UnityLua.CollectorInvariant
import UnityLua.CollectorWrites
import UnityLua.CollectorMarking
import UnityLua.CollectorObjects
import UnityLua.CollectorSteps
import UnityLua.CollectorAtomic
import UnityLua.CollectorSweeping
import UnityLua.CollectorSafety
import UnityLua.CollectorStrings
