import ControlGames.Index
import ControlGames.Failure
import ControlGames.IndexSet
import ControlGames.Event
import ControlGames.Memory
import ControlGames.StateSet
import ControlGames.Store
import ControlGames.Builder
import ControlGames.Reachability
import ControlGames.Invariance
import ControlGames.Dot
import ControlGames.Scenario.Grid
import ControlGames.Scenario.Tank
import ControlGames.Main
import ControlGames.IndexSet.Membership
import ControlGames.Proofs.Attractor
import ControlGames.Proofs.Plays
import ControlGames.Proofs.SortedLayout
import ControlGames.Proofs.SearchStep
import ControlGames.Proofs.SearchInvariants
import ControlGames.Proofs.SearchRun
import ControlGames.Proofs.ReachAvoidValues
import ControlGames.Proofs.ReachAvoidPlays
import ControlGames.Proofs.LosingStates
import ControlGames.Proofs.PeelingStep
import ControlGames.Proofs.PeelingInvariants
import ControlGames.Proofs.PeelingRun
import ControlGames.Proofs.InvarianceKernel
import ControlGames.Proofs.SafePlays
import ControlGames.Proofs.KernelTargets
import ControlGames.Proofs.ReachAvoidWinners
import ControlGames.Proofs.AddedTransitions
import ControlGames.Proofs.IndexSets
import ControlGames.Proofs.SearchSafety
import ControlGames.Proofs.EqualRegions
import ControlGames.Proofs.EqualValues
import ControlGames.Proofs.ParallelSearches
import ControlGames.Proofs.DeletedTransitions
import ControlGames.Proofs.GrowingTargets
import ControlGames.Proofs.GrowingSafeSets
import ControlGames.Proofs.Bisimulations
import ControlGames.Proofs.SharedParts
import ControlGames.Proofs.Successors
import ControlGames.Proofs.GroupTilings
import ControlGames.Proofs.CanonicalStores
import ControlGames.Proofs.RejectedTransitions
import ControlGames.Proofs.Allocations
import ControlGames.Proofs.IndexSetHistories
import ControlGames.Proofs.StoreHistories
import ControlGames.Proofs.StateSetKinds
import ControlGames.Proofs.NumberedTransitions
import ControlGames.Proofs.GridTransitions
import ControlGames.Proofs.GridDistances
import ControlGames.Proofs.GridValues
import ControlGames.Proofs.ReportLines
import ControlGames.Proofs.GridReports
import ControlGames.Proofs.PlainSearch
import ControlGames.Proofs.BreadthFirst
import ControlGames.Proofs.SearchLog
import ControlGames.Proofs.SearchCounters
import ControlGames.Proofs.FindingOrder
import ControlGames.Proofs.TankControllers
import ControlGames.Proofs.PeelingLog
import ControlGames.Proofs.PeelingCounters
import ControlGames.Proofs.ControllerCounts
import ControlGames.Proofs.Cursors
import ControlGames.Proofs.IndexSetCapacities
import ControlGames.Proofs.Drawings
import ControlGames.Proofs.GridArrows
