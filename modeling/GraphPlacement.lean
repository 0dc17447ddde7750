import GraphPlacement.CommandLine
import GraphPlacement.Decimal.Fixed
import GraphPlacement.EdgePlacer.Calls
import GraphPlacement.Main
import GraphPlacement.Pool.Operations
import GraphPlacement.Random.Counter
import GraphPlacement.Proofs.Borrowing
import GraphPlacement.Proofs.Capacity
import GraphPlacement.Proofs.Ceiling
import GraphPlacement.Proofs.Checks
import GraphPlacement.Proofs.Files
import GraphPlacement.Proofs.Ladder
import GraphPlacement.Proofs.Lightest
import GraphPlacement.Proofs.Loads
import GraphPlacement.Proofs.Raises
import GraphPlacement.Proofs.Recounts
import GraphPlacement.Proofs.Schedules
import GraphPlacement.Proofs.Slots
import GraphPlacement.Proofs.Steps
import GraphPlacement.Proofs.WriteOnce
import GraphPlacement.Proofs.Edges.Books
import GraphPlacement.Proofs.Edges.Decisions
import GraphPlacement.Proofs.Edges.Direction
import GraphPlacement.Proofs.Edges.Headroom
import GraphPlacement.Proofs.Edges.HostOfRecord
import GraphPlacement.Proofs.Edges.Ladder
import GraphPlacement.Proofs.Edges.Participation
import GraphPlacement.Proofs.Edges.Passes
import GraphPlacement.Proofs.Edges.Problems
import GraphPlacement.Proofs.Edges.Refusals
import GraphPlacement.Proofs.Edges.Renumbering
import GraphPlacement.Proofs.Edges.Rules
import GraphPlacement.Proofs.Edges.Stops
import GraphPlacement.Proofs.Edges.Streams
import GraphPlacement.Proofs.Floats.Arithmetic
import GraphPlacement.Proofs.Floats.Counts
import GraphPlacement.Proofs.Floats.Sums
import GraphPlacement.Proofs.Groups.Balanced
import GraphPlacement.Proofs.Groups.Books
import GraphPlacement.Proofs.Groups.Choice
import GraphPlacement.Proofs.Groups.Locality
import GraphPlacement.Proofs.Groups.Renumbering
import GraphPlacement.Proofs.Groups.Repeats
import GraphPlacement.Proofs.Jobs.Cuts
import GraphPlacement.Proofs.Jobs.EdgeFaults
import GraphPlacement.Proofs.Jobs.Edges
import GraphPlacement.Proofs.Jobs.GroupCuts
import GraphPlacement.Proofs.Jobs.GroupFaults
import GraphPlacement.Proofs.Listing.Layouts
import GraphPlacement.Proofs.Listing.NodeMap
import GraphPlacement.Proofs.Listing.Numbers
import GraphPlacement.Proofs.Listing.Placements
