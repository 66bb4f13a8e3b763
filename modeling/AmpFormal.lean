import AmpFormal.TransitionRuns
import AmpFormal.LinkedStack
import AmpFormal.PagePoolFastModel
import AmpFormal.PagePoolFastSequential
import AmpFormal.PagePoolFastThreads
import AmpFormal.PagePoolFastSolo
import AmpFormal.SchedulerModel
import AmpFormal.ScheduleEffects
import AmpFormal.ScheduleTrace
import AmpFormal.PageDemand
import AmpFormal.PageShortage
import AmpFormal.StepCompleteEffects
import AmpFormal.SchedulerRuns
import AmpFormal.SchedulerLifecycle
import AmpFormal.SchedulerQueues
import AmpFormal.SchedulerProgress
import AmpFormal.IntervalTiling
import AmpFormal.SchedulerPrefill
import AmpFormal.ResourceLedger
import AmpFormal.PagePoolFastExclusion
import AmpFormal.SchedulerPages
import AmpFormal.SchedulerAborts
import AmpFormal.SchedulerAccounting
import AmpFormal.SchedulerBatches
import AmpFormal.PageBudget
import AmpFormal.SchedulerCompletion
import AmpFormal.FirstMaximum
import AmpFormal.SpeculativeModel
import AmpFormal.GreedyDecoding
import AmpFormal.SpeculativeVerification
import AmpFormal.GuardedRejection
import AmpFormal.RejectionSampling
import AmpFormal.FlashAttnDispatch
import AmpFormal.ModelCheck
import AmpFormal.BarrierPhases
import AmpFormal.MatmulKernel
import AmpFormal.MatmulProduct
import AmpFormal.FlashAttnKernel
import AmpFormal.FlashAttnCoverage
import AmpFormal.CacheAsyncModel
import AmpFormal.CacheAsyncMoves
import AmpFormal.CacheAsyncCoherence
import AmpFormal.CacheAsyncSettling
import AmpFormal.CacheAsyncWakeups
import AmpFormal.ExactFloats
import AmpFormal.ErrorFolds
import AmpFormal.ParityCheck
import AmpFormal.FileDirectory
import AmpFormal.CacheStoreModel
import AmpFormal.CacheAsyncShutdownModel
import AmpFormal.CacheAsyncShutdownMoves
import AmpFormal.CacheAsyncRefinement
import AmpFormal.CacheAsyncShutdown
import AmpFormal.CacheAsyncDurability
import AmpFormal.CacheStoreThreads
import AmpFormal.CacheFastModel
import AmpFormal.CacheFastRefinement
import AmpFormal.CacheFastThreads
import AmpFormal.CacheFastLimit
import AmpFormal.PagePoolModel
import AmpFormal.PagePoolRepresentation
import AmpFormal.PagePoolFastRepresentation
import AmpFormal.PoolAgreement
import AmpFormal.LeakScanThreads
import AmpFormal.LeakScanAlone
import AmpFormal.InjectiveFolds
import AmpFormal.CacheEntryCodec
import AmpFormal.CacheStoreHistory
import AmpFormal.CacheStoreFailures
import AmpFormal.CacheStoreCrash
import AmpFormal.MatrixLayouts
import AmpFormal.GemmVendorModel
import AmpFormal.GemmVendorProduct
import AmpFormal.GemmFallback
import AmpFormal.OnlineSoftmax
import AmpFormal.FlashAttnRow
import AmpFormal.FlashAttnSoftmax
import AmpFormal.Sha256
import AmpFormal.CacheDigestModel
import AmpFormal.CacheDigest
import AmpFormal.DelimitedText
import AmpFormal.CacheFingerprint
import AmpFormal.SecondChance
import AmpFormal.CacheFastIndexModel
import AmpFormal.CacheFastClock
import AmpFormal.CacheFastRepresentation
import AmpFormal.CacheFastEviction
import AmpFormal.PagePoolNumaModel
import AmpFormal.PagePoolNuma
import AmpFormal.PagePoolFastCounters
import AmpFormal.PageEntitlements
import AmpFormal.RequestAccounting
import AmpFormal.SpeculativeAccounting
import AmpFormal.Fp8Model
import AmpFormal.Fp8Codecs
import AmpFormal.GridRounding
import AmpFormal.MinifloatGrid
import AmpFormal.Fp8Rounding
import AmpFormal.HalvingModel
import AmpFormal.MinimumSelection
import AmpFormal.HalvingRuns
import AmpFormal.HalvingTermination
import AmpFormal.HalvingSearch
import AmpFormal.HalvingBudget
import AmpFormal.TextPatterns
import AmpFormal.DiagnoseModel
import AmpFormal.PastConditions
import AmpFormal.BarrierScan
import AmpFormal.LoopCarriedRaces
import AmpFormal.BottomUpInsertion
import AmpFormal.SuggestFixModel
import AmpFormal.KernelScopes
import AmpFormal.BarrierFix
import AmpFormal.LoopBoundMismatches
import AmpFormal.PhaseRules
import AmpFormal.FlashAttnMachine
import AmpFormal.FlashAttnPhases
import AmpFormal.FlashAttnExact
import AmpFormal.FlashAttnGrid
import AmpFormal.WmmaKernel
import AmpFormal.WmmaProduct
import AmpFormal.DrawPrograms
import AmpFormal.SpeculativeDraws
import AmpFormal.SpeculativeGeneration
import AmpFormal.PagePoolFastConservation
import AmpFormal.SyclKernel
import AmpFormal.SyclProduct
import AmpFormal.ParityDump
import AmpFormal.RelativeErrors
import AmpFormal.PluginValidation
import AmpFormal.SchedulerFairness
import AmpFormal.TokenDistSoftmax
import AmpFormal.MedusaVerify
import AmpFormal.CacheAsyncFiles
import AmpFormal.CacheAsyncRecovery
import AmpFormal.SchedulerGeneration
