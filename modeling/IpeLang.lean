import IpeLang.Lib.Loop
import IpeLang.Lib.SortedMap
import IpeLang.Lib.ScopedRow
import IpeLang.Lib.ClassStore
import IpeLang.Lib.Reach
import IpeLang.Types.Ty
import IpeLang.Types.Diagnostic
import IpeLang.Types.UnionFind
import IpeLang.Types.Zonk
import IpeLang.Types.Unify
import IpeLang.Types.Occurs
import IpeLang.Types.Fuel
import IpeLang.Types.Meet
import IpeLang.Types.UnifyRun
import IpeLang.Types.Halting
import IpeLang.Types.ReadBack
import IpeLang.Types.Value
import IpeLang.Types.Solution
import IpeLang.Types.Instance
import IpeLang.Types.Acyclic
import IpeLang.Types.Progress
import IpeLang.Types.MostGeneral
import IpeLang.Types.Order
import IpeLang.Lib.Machine
import IpeLang.Watch.Process
import IpeLang.Watch.LastGood
import IpeLang.Lib.Text
import IpeLang.Lib.Tables
import IpeLang.Lib.BinarySearch
import IpeLang.Lib.Semver
import IpeLang.Lib.SemverText
import IpeLang.Lib.Json
import IpeLang.Lib.Replay
import IpeLang.Package.Fields
import IpeLang.Package.Capability
import IpeLang.Package.Index
import IpeLang.Package.Admission
import IpeLang.Package.Diff
import IpeLang.Package.EntryText
import IpeLang.Package.Lockfile
import IpeLang.Debugger.RecordBuffer
import IpeLang.Debugger.SessionLog
import IpeLang.Hot.Arm
import IpeLang.Hot.Classify
import IpeLang.Hot.Swap
import IpeLang.Hot.Token
import IpeLang.Hot.Blanks
import IpeLang.Lib.Saturating
import IpeLang.Lib.Recency
import IpeLang.Lib.Broadcast
import IpeLang.Lib.Split
import IpeLang.Lib.Percent
import IpeLang.Runtime.Revocation
import IpeLang.Runtime.Cache
import IpeLang.Runtime.PubSub
import IpeLang.Runtime.Encoding
import IpeLang.Runtime.Route
import IpeLang.Runtime.Dsn
import IpeLang.Runtime.Csrf
import IpeLang.Runtime.Html
import IpeLang.Runtime.IpeId
import IpeLang.Runtime.Diff
import IpeLang.Runtime.Money
import IpeLang.Types.Equatable
import IpeLang.Lib.PatternTree
import IpeLang.Exhaust.Pattern
import IpeLang.Exhaust.Useful
import IpeLang.Exhaust.Typing
import IpeLang.Exhaust.Witness
import IpeLang.Exhaust.Expand
import IpeLang.Exhaust.Case
import IpeLang.Exhaust.Coverage
import IpeLang.Watch.Coalesce
import IpeLang.Package.CacheSlot
import IpeLang.Runtime.RawBody
import IpeLang.Parse.Kept
import IpeLang.Runtime.PathSealed
import IpeLang.Runtime.Codec
import IpeLang.Types.ReadRun
import IpeLang.Types.Ground
import IpeLang.Package.ContainedPath
import IpeLang.Runtime.Additive
import IpeLang.Runtime.Ssrf
import IpeLang.Types.Rows
import IpeLang.Watch.Baseline
import IpeLang.Project.Inject
import IpeLang.Project.Order
import IpeLang.Ir.TailCalls
import IpeLang.Ir.LetInline
import IpeLang.Ir.CloneMeaning
