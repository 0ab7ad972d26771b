import Quasicode.Main
import Quasicode.Proofs.AllocatedFields
import Quasicode.Proofs.CallArity
import Quasicode.Proofs.CircularGlobals
import Quasicode.Proofs.DeclarationOrder
import Quasicode.Proofs.DefiniteInit
import Quasicode.Proofs.DispatchSoundness
import Quasicode.Proofs.GuaranteedReturn
import Quasicode.Proofs.HiddenMembers
import Quasicode.Proofs.HierarchyBuilt
import Quasicode.Proofs.InitializationOrder
import Quasicode.Proofs.LaterSources
import Quasicode.Proofs.OverloadChoice
import Quasicode.Proofs.QuietPrograms
import Quasicode.Proofs.ScopeForest
import Quasicode.Proofs.SourcesAnalyzed
import Quasicode.Proofs.StaticContexts
import Quasicode.Proofs.TableOperations
import Quasicode.Proofs.TypeJoin
import Quasicode.Proofs.TypedBeforeRead
import Quasicode.Proofs.ScanStability
import Quasicode.Proofs.ReadProgress
import Quasicode.Proofs.OverrideOrder
import Quasicode.Proofs.PartitionCalls
import Quasicode.Proofs.KeyFamilies
import Quasicode.Proofs.StringLiterals
