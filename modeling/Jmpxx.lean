import Jmpxx.Transition
import Jmpxx.Lists
import Jmpxx.Throwing
import Jmpxx.Search
import Jmpxx.Spelling
import Jmpxx.Store
import Jmpxx.StoreLedger
import Jmpxx.StoreRefinement
import Jmpxx.StoreWrap
import Jmpxx.RichError
import Jmpxx.ErrorCode
import Jmpxx.Conversions
import Jmpxx.Reflect
import Jmpxx.Transport
import Jmpxx.TransportLifetime
import Jmpxx.Propagation
import Jmpxx.Unwind
import Jmpxx.UnwindStack
import Jmpxx.UnwindArm
import Jmpxx.UnwindFlight
import Jmpxx.UnwindLanding
import Jmpxx.UnwindSound
import Jmpxx.UnwindEscape
import Jmpxx.UnwindProcess
import Jmpxx.Policies
import Jmpxx.Monadic
import Jmpxx.Manifest
import Jmpxx.ManifestReader
import Jmpxx.ManifestDescent
import Jmpxx.ManifestInvoke
import Jmpxx.ManifestChain
import Jmpxx.ReflectTruth
import Jmpxx.TransportContents
import Jmpxx.CallChain
import Jmpxx.ForcedUnwind
import Jmpxx.UnwindWalk
import Jmpxx.Resolve
import Jmpxx.ResolveChains
import Jmpxx.ResolveFailure
import Jmpxx.Labels
import Jmpxx.Json
import Jmpxx.Report
import Jmpxx.Acceptance
import Jmpxx.Lines
import Jmpxx.StoreCheck
import Jmpxx.StoreCheckContent
import Jmpxx.StoreCheckRuns
import Jmpxx.ManifestLayout
import Jmpxx.Assembly
import Jmpxx.Normalize
import Jmpxx.Amalgamate
import Jmpxx.AmalgamateMeaning
import Jmpxx.AmalgamateCopies
import Jmpxx.AuditReader
import Jmpxx.AuditTable
import Jmpxx.AuditFrames
import Jmpxx.SpellingScopes
import Jmpxx.ReflectMessage
import Jmpxx.AuditEnds
import Jmpxx.AuditElf
import Jmpxx.AuditRuns
import Jmpxx.SceneAudit
import Jmpxx.ManifestClient
import Jmpxx.TransportStorage
import Jmpxx.TransportVariants
import Jmpxx.Bridges
import Jmpxx.BridgesMeaning
import Jmpxx.DecodeBoundary
import Jmpxx.FuzzDriver
import Jmpxx.FuzzDriverRuns
import Jmpxx.TransportAccess
import Jmpxx.AmalgamateLines
