import Lorelei.Coroutine.Simulation
import Lorelei.Coroutine.Switch
import Lorelei.Variadic.RoundTrip
import Lorelei.Variadic.Printf
import Lorelei.Lib.Intern
import Lorelei.Trampoline.Codegen
import Lorelei.Variadic.Extract
import Lorelei.Trampoline.Table
import Lorelei.Trampoline.Alloc
import Lorelei.Trampoline.World
import Lorelei.Trampoline.Callback
import Lorelei.Trampoline.Crossing
import Lorelei.Trampoline.Substituter
import Lorelei.Trampoline.Substitution
import Lorelei.Trampoline.Restore
import Lorelei.Trampoline.Platform
import Lorelei.Trampoline.Arch.X8664
import Lorelei.Trampoline.Arch.AArch64
import Lorelei.Trampoline.Arch.RiscV64
import Lorelei.Trampoline.Stub
import Lorelei.Lib.SortedTable
import Lorelei.TLC.Requested
import Lorelei.ThunkInterface.Exchange
import Lorelei.Lib.FirstOwner
import Lorelei.Support.StringExtras
import Lorelei.DLCall.ThunkDatabase
import Lorelei.DLCall.Interning
import Lorelei.DLCall.Layers
import Lorelei.Support.ConfigFile
import Lorelei.Support.ConfigQuote
import Lorelei.Support.ConfigLoad
import Lorelei.Support.LoggingRule
import Lorelei.Support.Logging
import Lorelei.DLCall.PackEntries
import Lorelei.HostRT.Discovery
import Lorelei.HostRT.Discovered
import Lorelei.ClangExtras.QualType
import Lorelei.TLC.ProcSnippet
import Lorelei.TLC.Pass
import Lorelei.TLC.Pipeline
import Lorelei.TLC.BuilderChoice
import Lorelei.Lib.Worklist
import Lorelei.TLC.Declarations
import Lorelei.TLC.Stat
import Lorelei.TLC.CallbackTree
import Lorelei.TLC.Generate
import Lorelei.TLC.CallbackAliases
import Lorelei.TLC.WalksEnd
import Lorelei.ClangExtras.FunctionInfo
import Lorelei.TLC.CodeTemplates
import Lorelei.TLC.ThunkLayers
import Lorelei.TLC.LayerRun
import Lorelei.TLC.LayerSteps
import Lorelei.TLC.LayerIdentity
import Lorelei.TLC.FormatIdentity
import Lorelei.TLC.CallsCarried
import Lorelei.TLC.GuardedArguments
import Lorelei.Support.Expansion
import Lorelei.Support.ExpandedTwice
import Lorelei.Variadic.FormatBytes
import Lorelei.Variadic.Scanf
import Lorelei.TLC.FormatPositions
import Lorelei.DLCall.Overwrites
import Lorelei.DLCall.EntrySources
import Lorelei.HostRT.NextLibrary
import Lorelei.HostRT.HostLibrary
import Lorelei.TLC.CallbackPaths
import Lorelei.TLC.TreesComplete
import Lorelei.Lib.Joined
import Lorelei.TLC.EmitInit
import Lorelei.Support.ConfigSections
import Lorelei.Support.ConfigEntries
import Lorelei.Lib.Storage
import Lorelei.Lib.StorageRanges
import Lorelei.Lib.StorageReads
import Lorelei.Support.VarSizeArray
import Lorelei.Support.VarSizeArrayContents
import Lorelei.Support.VarSizeArrayRuns
import Lorelei.Support.VarSizeArrayRefines
import Lorelei.Support.VarSizeArrayAliases
import Lorelei.Support.ConfigCycles
import Lorelei.HLR.Preprocess
import Lorelei.ClangExtras.RewriteInsertion
import Lorelei.Support.Format
import Lorelei.Lib.CondVar
import Lorelei.GuestRT.ThreadCreate
import Lorelei.GuestRT.ThreadCreateRuns
import Lorelei.TLC.GenerateOutput
import Lorelei.Support.LoggingGrammar
import Lorelei.Lib.OrderedMap
import Lorelei.TLC.ManifestSummary
import Lorelei.Support.SplitJoin
import Lorelei.Support.ConfigIndex
import Lorelei.Support.NestedExpansion
import Lorelei.Json11.Parser
import Lorelei.Json11.Grammar
import Lorelei.Json11.Accepts
import Lorelei.Json11.Documents
import Lorelei.Json11.Errors
import Lorelei.HLR.SourceStatistics
import Lorelei.HLR.Stat
import Lorelei.ClangExtras.Rewriter
import Lorelei.HLR.MarkMacros
import Lorelei.HLR.Rewrite
import Lorelei.HLR.Batch
import Lorelei.GuestRT.HostProcAddress
import Lorelei.HostRT.DiscoveryOrder
import Lorelei.HLR.FunctionExprs
import Lorelei.TLC.Dumped
import Lorelei.GuestRT.ThunkContext
import Lorelei.MakeThunk.Symbols
