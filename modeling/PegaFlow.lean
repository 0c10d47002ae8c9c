import PegaFlow.ChunkedPrefill
import PegaFlow.QueryProbe
import PegaFlow.RdmaFetch
import PegaFlow.PushDone
import PegaFlow.DecodeFanin
import PegaFlow.PdHandoff
import PegaFlow.SaveIntents
import PegaFlow.RcBatches
import PegaFlow.ExpectedImmCounts
import PegaFlow.FailedRecving
import PegaFlow.HllTracker
import PegaFlow.QueryLeases
import PegaFlow.EntryBuilders
import PegaFlow.BackupDispatch
import PegaFlow.MetaStoreCounters
import PegaFlow.MetaStoreFencing
import PegaFlow.FetchPlan
import PegaFlow.GpuRegistration
import PegaFlow.SsdRingPruning
import PegaFlow.GpuLayoutGeometry
import PegaFlow.GpuPlaces
import PegaFlow.SsdReadback
import PegaFlow.PinnedReclaim
import PegaFlow.ReadCacheBackup
import PegaFlow.MetaStoreHints
import PegaFlow.RegistrationCalls
import PegaFlow.PrefetchResults
import PegaFlow.CopyBackends
import PegaFlow.SlidingBoundary
import PegaFlow.HybridResume
