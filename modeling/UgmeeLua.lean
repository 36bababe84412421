import UgmeeLua.Lexer.Scanner
import UgmeeLua.Lexer.LineNumber
import UgmeeLua.Lexer.CComment
import UgmeeLua.Lexer.LongString
import UgmeeLua.Strlib.Addquoted
import UgmeeLua.Strlib.Occurrence
import UgmeeLua.Strlib.Pieces
import UgmeeLua.Shell.Loadline
import UgmeeLua.Parser.Grouping
import UgmeeLua.Code.ConstantFolding
import UgmeeLua.Vm.Bitwise
import UgmeeLua.Vm.ExecuteSafe
import UgmeeLua.Chunk.RoundTrip
import UgmeeLua.Chunk.UndumpReads
import UgmeeLua.Ltable.RehashExact
import UgmeeLua.Ltable.Getn
import UgmeeLua.Ltable.Traversal
import UgmeeLua.Vm.SharedVariables
import UgmeeLua.Vm.Protected
import UgmeeLua.Ulib.Authed
import UgmeeLua.Ulib.Revocation
import UgmeeLua.Vm.CallArguments
import UgmeeLua.Vm.CallTwins
import UgmeeLua.Strlib.Slice
import UgmeeLua.Vm.Compare
import UgmeeLua.Tablib.Remove
import UgmeeLua.Tablib.Sort
import UgmeeLua.Chunk.Blocks
import UgmeeLua.Tablib.Partition
import UgmeeLua.Tablib.Sorted
import UgmeeLua.Lstring.Interned
import UgmeeLua.Vm.Concat
import UgmeeLua.Lgc.Atomic
import UgmeeLua.Shell.Arguments
import UgmeeLua.Ulib.Query
import UgmeeLua.Ulib.Probe
import UgmeeLua.Lauxlib.Buffer
import UgmeeLua.Lauxlib.Ref
import UgmeeLua.Ulib.RemoveGroup
import UgmeeLua.Lib.Blank
import UgmeeLua.Ulib.SplitArgs
import UgmeeLua.Ulib.CommandLine
import UgmeeLua.Ulib.WriteRead
import UgmeeLua.Ulib.GetUser
import UgmeeLua.Ulib.UmsgLoss
import UgmeeLua.Ulib.Delivered
import UgmeeLua.Ltable.Chained
import UgmeeLua.Code.Constants
import UgmeeLua.Code.JumpLists
import UgmeeLua.Code.Patching
import UgmeeLua.Code.Generator
import UgmeeLua.Code.Locals
import UgmeeLua.Code.LocalNames
import UgmeeLua.Ulib.PatternSafe
import UgmeeLua.Ulib.Subcommand
import UgmeeLua.Ulib.SubcommandRuns
import UgmeeLua.Ulib.SubcommandLines
import UgmeeLua.Lobject.FloatByte
import UgmeeLua.Lobject.Chunkid
import UgmeeLua.Lib.Nesting
import UgmeeLua.Parser.Levels
import UgmeeLua.Parser.LevelBound
import UgmeeLua.Lgc.Invariant
import UgmeeLua.Lgc.Stores
import UgmeeLua.Lgc.Actions
import UgmeeLua.Lgc.Allocation
import UgmeeLua.Lgc.Upvalues
import UgmeeLua.Lgc.Freeing
import UgmeeLua.Lgc.Closing
import UgmeeLua.Lgc.Sweeping
import UgmeeLua.Lgc.Finalizing
import UgmeeLua.Lgc.Cycle
import UgmeeLua.Lgc.Runs
import UgmeeLua.Lgc.Finalizers
import UgmeeLua.Lgc.Sound
import UgmeeLua.Lgc.Garbage
import UgmeeLua.Vm.TagCache
