import NetSynthesis.Text.LowerCase
import NetSynthesis.Text.Quoted
import NetSynthesis.Text.Blank
import NetSynthesis.Text.DecimalDigit
import NetSynthesis.Assembly
import NetSynthesis.BranchAndBound
import NetSynthesis.Checker
import NetSynthesis.DisjointSets
import NetSynthesis.EquationSystem
import NetSynthesis.Isomorphism
import NetSynthesis.Minimization
import NetSynthesis.NetClass
import NetSynthesis.Options
import NetSynthesis.PhaseMonitor
import NetSynthesis.RegionClass
import NetSynthesis.Separation
import NetSynthesis.Synthesis
import NetSynthesis.TrackedSystem
import NetSynthesis.WordSearch
import NetSynthesis.Proofs.LabelledGraph
import NetSynthesis.Proofs.WellFormedSystem
import NetSynthesis.Proofs.BreadthFirst
import NetSynthesis.Proofs.TreeVectors
import NetSynthesis.Proofs.RegionWeights
import NetSynthesis.Proofs.KernelSolutions
import NetSynthesis.Proofs.SolutionLattice
import NetSynthesis.Proofs.ValidRegions
import NetSynthesis.Proofs.ListedRegions
import NetSynthesis.Proofs.ListedClasses
import NetSynthesis.Proofs.UnseparatedStates
import NetSynthesis.Proofs.ChosenRegions
import NetSynthesis.Proofs.KeptRegions
import NetSynthesis.Proofs.DisjointForest
import NetSynthesis.Proofs.SearchSoundness
import NetSynthesis.Proofs.ExceptSteps
import NetSynthesis.Proofs.SynthesisRun
import NetSynthesis.Proofs.WellFormedNet
import NetSynthesis.Proofs.AssembledNet
import NetSynthesis.Proofs.SynthesizedNet
import NetSynthesis.Proofs.FreshNames
import NetSynthesis.Proofs.PlaceNames
import NetSynthesis.Proofs.SimplePaths
import NetSynthesis.Proofs.UnfoldingWalk
import NetSynthesis.Proofs.UnfoldedSystem
import NetSynthesis.Proofs.UnfoldingTree
import NetSynthesis.Proofs.SynthesizedLanguage
import NetSynthesis.Proofs.RegionPoints
import NetSynthesis.Proofs.SwitchRows
import NetSynthesis.Proofs.ProgramPoints
import NetSynthesis.Proofs.EventLocations
import NetSynthesis.Proofs.ProgramMeaning
import NetSynthesis.Proofs.ProgramAnswers
import NetSynthesis.Proofs.SearchAnswers
import NetSynthesis.Proofs.SearchCompleteness
import NetSynthesis.Proofs.RunCompleteness
import NetSynthesis.Proofs.LabelledNet
import NetSynthesis.Proofs.NetRegions
import NetSynthesis.Proofs.NetCompleteness
import NetSynthesis.Proofs.LanguageCompleteness
import NetSynthesis.Proofs.ProgramExactness
import NetSynthesis.Proofs.GatheredRegions
import NetSynthesis.Proofs.RequestedClass
import NetSynthesis.Proofs.GeneratedClasses
import NetSynthesis.Proofs.FailureReports
import NetSynthesis.Proofs.FailedGroups
import NetSynthesis.Proofs.WeakerRequests
import NetSynthesis.Proofs.EarlyStops
import NetSynthesis.Proofs.AccountedProblems
import NetSynthesis.Proofs.IsomorphismWalk
import NetSynthesis.Proofs.IsomorphismVerdict
import NetSynthesis.Proofs.RaisedMarkings
import NetSynthesis.Proofs.UncoveredWays
import NetSynthesis.Proofs.MarkingExploration
import NetSynthesis.Proofs.ExplorationVerdicts
import NetSynthesis.Proofs.ReachableMarkings
import NetSynthesis.Proofs.CheckerVerdicts
import NetSynthesis.Proofs.CheckedIsomorphism
import NetSynthesis.Proofs.VerifiedNets
import NetSynthesis.Proofs.LatticeBasis
import NetSynthesis.Proofs.MemoizedVectors
import NetSynthesis.Proofs.RegionBasis
import NetSynthesis.Proofs.WordLines
import NetSynthesis.Proofs.WordFrames
import NetSynthesis.Proofs.FreeCandidates
import NetSynthesis.Proofs.WordPlaces
import NetSynthesis.Proofs.WordRegions
import NetSynthesis.Proofs.SolvableWords
import NetSynthesis.Proofs.NormalWords
import NetSynthesis.Proofs.SearchedWords
import NetSynthesis.Proofs.CompleteSearch
import NetSynthesis.Proofs.UnreachableParts
import NetSynthesis.Proofs.UsableAnswers
import NetSynthesis.Proofs.CurrentTrees
import NetSynthesis.Proofs.UnfoldedLocations
import NetSynthesis.Proofs.PlainRegions
import NetSynthesis.Proofs.InitialTokens
import NetSynthesis.Proofs.RegionArithmetic
import NetSynthesis.Proofs.BasisSearches
import NetSynthesis.Proofs.PlaceProperties
import NetSynthesis.Proofs.BlockOrder
import NetSynthesis.Proofs.JoinedClasses
import NetSynthesis.Proofs.ShortestPaths
import NetSynthesis.Proofs.RestatedEquations
import NetSynthesis.Proofs.CanonicalWords
import NetSynthesis.Proofs.ClassNames
import NetSynthesis.Proofs.EditedSystem
import NetSynthesis.Proofs.ReductionRounds
import NetSynthesis.Proofs.UnfoldingSteps
