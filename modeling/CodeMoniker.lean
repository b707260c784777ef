import CodeMoniker.FacetCompile
import CodeMoniker.RuleReports
import CodeMoniker.ExtractionCache
import CodeMoniker.DaemonStaleness
import CodeMoniker.LiveSignals
import CodeMoniker.NotesRun
import CodeMoniker.RegistrySafety
import CodeMoniker.QueryDenotation
import CodeMoniker.ChangeIndex
import CodeMoniker.FingerprintText
import CodeMoniker.PairingRounds
import CodeMoniker.RollupExactness
import CodeMoniker.TreeChildren
import CodeMoniker.CorridorScope
import CodeMoniker.MemoryCatalogRuns
import CodeMoniker.CorridorExact
import CodeMoniker.GraphDiffAccount
import CodeMoniker.HunkCoverage
import CodeMoniker.PythonPropagation
import CodeMoniker.CandidateRefresh
import CodeMoniker.TsReexports
import CodeMoniker.ReceiverRuns
import CodeMoniker.RustForwardRuns
import CodeMoniker.AliasExactness
import CodeMoniker.ProfileSelection
import CodeMoniker.Requirements
import CodeMoniker.SearchAccounts
import CodeMoniker.GroupLogic
import CodeMoniker.Quantifiers
import CodeMoniker.DisjointChains
import CodeMoniker.Collections
import CodeMoniker.TypeMetrics
import CodeMoniker.CheckDrivers
import CodeMoniker.SourceLabels
import CodeMoniker.RecordTables
import CodeMoniker.LineNumbers
import CodeMoniker.RefDeduper
