import ModuleGraph.Main
import ModuleGraph.Proofs.EdgeExactness
import ModuleGraph.Proofs.ContentIndependence
import ModuleGraph.Proofs.CommentIndependence
import ModuleGraph.Proofs.InputOrder
import ModuleGraph.Proofs.SharedSession
import ModuleGraph.Proofs.DocumentRoundTrip
import ModuleGraph.Proofs.IndentReadBack
import ModuleGraph.Proofs.CurlyReadBack
import ModuleGraph.Proofs.Coherence
import ModuleGraph.Proofs.FamilyAgreement
import ModuleGraph.Proofs.Discovery
import ModuleGraph.Proofs.LineEndings
import ModuleGraph.Proofs.DotReading
import ModuleGraph.Proofs.CycleExactness
import ModuleGraph.Proofs.NodeRoles
import ModuleGraph.Proofs.ClusterCenters
import ModuleGraph.Proofs.RankDistribution
import ModuleGraph.Proofs.CycleOrder
import ModuleGraph.Proofs.BetweennessExactness
import ModuleGraph.Proofs.RankConvergence
import ModuleGraph.Proofs.Blanking
import ModuleGraph.Proofs.NameSharing
import ModuleGraph.Proofs.ResolutionOrder
import ModuleGraph.Proofs.ResolutionStability
import ModuleGraph.Proofs.LineJoining
import ModuleGraph.Proofs.LineScan
import ModuleGraph.Proofs.TypeBlocks
import ModuleGraph.Proofs.PublicNames
import ModuleGraph.Proofs.ImporterSpelling
import ModuleGraph.Proofs.StatementLines
import ModuleGraph.Proofs.ReExports
import ModuleGraph.Proofs.LiteralBrackets
import ModuleGraph.Proofs.DotSegments
import ModuleGraph.Proofs.RankedNodes
import ModuleGraph.Proofs.Snapshot
import ModuleGraph.Proofs.AliasOrder
import ModuleGraph.Proofs.AliasExpansion
import ModuleGraph.Proofs.AliasComments
import ModuleGraph.Proofs.ChartEntries
import ModuleGraph.Proofs.FileIds
import ModuleGraph.Proofs.ForwardSearch
import ModuleGraph.Proofs.SearchLoop
import ModuleGraph.Proofs.SearchRoots
import ModuleGraph.Proofs.AdjacencyExactness
