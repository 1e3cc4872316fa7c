import StubProfile.Profile.Records
import StubProfile.Profile.Lifecycle
import StubProfile.Profile.Process
import StubProfile.Tools.Targets
import StubProfile.Tools.CacheHistory
import StubProfile.Tools.CacheRoundTrip
import StubProfile.Tools.FuncMap
import StubProfile.Probe.CountExact
import StubProfile.Probe.Coherence
import StubProfile.Probe.ExitAccounting
import StubProfile.Probe.CountGate
import StubProfile.Probe.ExitContract
import StubProfile.Profile.Opening
import StubProfile.Profile.StartStop
import StubProfile.Profile.OutputFile
import StubProfile.Probe.ExitGate
import StubProfile.Profile.Parser
import StubProfile.Probe.Ownership
import StubProfile.Lib.BlockHeap
import StubProfile.Lib.LongestPrefix
import StubProfile.Lib.SparseArray
import StubProfile.Route.Bitmap
import StubProfile.Route.BitmapTable
import StubProfile.Route.BitmapSearch
import StubProfile.Route.AuxTrie
import StubProfile.Route.MemCache
import StubProfile.Route.Tags
import StubProfile.Route.Ts
import StubProfile.Route.Shape
import StubProfile.Route.Painting
import StubProfile.Route.Pool
import StubProfile.Route.Growth
import StubProfile.Route.TsInsert
import StubProfile.Route.TsDelete
import StubProfile.Route.TsCorrect
import StubProfile.Route.Overlap
import StubProfile.Route.LazySearch
import StubProfile.Route.PrintAux
import StubProfile.Route.AbsentDelete
import StubProfile.Probe.Registration
import StubProfile.Probe.CounterReport
import StubProfile.Tools.Constructors
import StubProfile.Profile.RecordIdentity
import StubProfile.Profile.CounterRead
import StubProfile.Tools.Numbering
import StubProfile.Route.Allocator
import StubProfile.Route.NodeMemory
import StubProfile.Route.NodeAccounting
import StubProfile.Links.Runs
import StubProfile.Manager.Capacity
import StubProfile.Route.FreeList
import StubProfile.Route.RandomIps
import StubProfile.Profile.Descriptors
import StubProfile.Profile.EvlistRuns
import StubProfile.Tools.TracedRun
