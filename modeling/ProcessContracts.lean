import ProcessContracts.Proofs.Narrations
import ProcessContracts.Program.Construction
import ProcessContracts.Proofs.Approximations
import ProcessContracts.Proofs.ContractSoundness
import ProcessContracts.Proofs.Contexts
import ProcessContracts.Proofs.RenamedChannels
import ProcessContracts.Proofs.Renumbering
import ProcessContracts.Proofs.Rounds
import ProcessContracts.Proofs.Specialization
import ProcessContracts.Proofs.FailedUnits
import ProcessContracts.Proofs.Totality
import ProcessContracts.Proofs.Judgements
import ProcessContracts.Proofs.CallGraph
import ProcessContracts.Proofs.Warnings
import ProcessContracts.Proofs.RenumberedTraces
import ProcessContracts.Proofs.RenumberedSearches
import ProcessContracts.Proofs.Bookkeeping
import ProcessContracts.Proofs.Reflexivity
import ProcessContracts.Proofs.RestrictiveSteps
import ProcessContracts.Proofs.HiddenTraces
import ProcessContracts.Proofs.TraceAlgebra
import ProcessContracts.Proofs.Termination
import ProcessContracts.Proofs.SimplifiedChecks
import ProcessContracts.Proofs.UnitOrder
import ProcessContracts.Proofs.InterfaceChannels
import ProcessContracts.Proofs.SurvivingFormals
import ProcessContracts.Proofs.FoldedInstances
import ProcessContracts.Proofs.WiderSearches
import ProcessContracts.Proofs.DecidedSearches
import ProcessContracts.Proofs.Evaluation
import ProcessContracts.Proofs.SilentSets
import ProcessContracts.Proofs.SinglePass
import ProcessContracts.Proofs.ClosedStates
import ProcessContracts.Proofs.Additions
import ProcessContracts.Proofs.Binding
import ProcessContracts.Proofs.Acceptance
import ProcessContracts.Proofs.ProcedureReports
