import StreamEngine.Compute.Standard
import StreamEngine.Graph.Forward
import StreamEngine.Graph.Split
import StreamEngine.Lifecycle.Retire
import StreamEngine.Main
import StreamEngine.Proofs.Affine.Coordinates
import StreamEngine.Proofs.DataMove.Tokens
import StreamEngine.Proofs.DataMove.Alignment
import StreamEngine.Proofs.DataMove.Copying
import StreamEngine.Proofs.DataMove.Legs
import StreamEngine.Proofs.DataMove.Routing
import StreamEngine.Proofs.DataMove.DenseRouting
import StreamEngine.Proofs.DataMove.StridedRouting
import StreamEngine.Proofs.Slicing.Lines
import StreamEngine.Proofs.Slicing.Allocation
import StreamEngine.Proofs.Outcome
import StreamEngine.Proofs.Slicing.Calls
import StreamEngine.Proofs.Slabs
import StreamEngine.Proofs.Element.Layout
import StreamEngine.Proofs.Element.Content
import StreamEngine.Proofs.Element.Copying
import StreamEngine.Proofs.Lifecycle.Registry
import StreamEngine.Proofs.Lifecycle.Soundness
import StreamEngine.Proofs.Lifecycle.Creating
import StreamEngine.Proofs.Lifecycle.Asking
import StreamEngine.Proofs.Lifecycle.Answering
import StreamEngine.Proofs.Lifecycle.Computing
import StreamEngine.Proofs.Lifecycle.Retiring
import StreamEngine.Proofs.Lifecycle.Loads
import StreamEngine.Proofs.Lifecycle.Pool
import StreamEngine.Proofs.Graph.References
import StreamEngine.Proofs.Lifecycle.Frames
import StreamEngine.Proofs.Lifecycle.Ownership
import StreamEngine.Proofs.Lifecycle.Chains
import StreamEngine.Proofs.Lifecycle.Departures
import StreamEngine.Proofs.Lifecycle.Links
import StreamEngine.Proofs.Lifecycle.Requesting
import StreamEngine.Proofs.Lifecycle.Leaving
import StreamEngine.Proofs.Lifecycle.Consistency
import StreamEngine.Proofs.Lifecycle.Endings
import StreamEngine.Proofs.Lifecycle.Registration
import StreamEngine.Proofs.Lifecycle.Lifetimes
import StreamEngine.Proofs.Lifecycle.Completing
import StreamEngine.Proofs.Lifecycle.Contents
import StreamEngine.Proofs.Lifecycle.Stores
import StreamEngine.Proofs.Lifecycle.Origins
import StreamEngine.Proofs.Lifecycle.Bindings
import StreamEngine.Proofs.Linear.Addresses
import StreamEngine.Proofs.Linear.Shares
import StreamEngine.Proofs.Linear.Ragged
import StreamEngine.Proofs.Graph.Splitting
import StreamEngine.Proofs.Graph.Lookup
import StreamEngine.Proofs.Graph.Changes
import StreamEngine.Proofs.Graph.Edges
import StreamEngine.Proofs.Graph.Parents
import StreamEngine.Proofs.Graph.Standing
import StreamEngine.Proofs.Graph.Forwarding
import StreamEngine.Proofs.DataMove.Grids
import StreamEngine.Proofs.DataMove.Banks
import StreamEngine.Proofs.Element.Writing
import StreamEngine.Proofs.Lifecycle.Pending
import StreamEngine.Proofs.Lifecycle.Evolution
import StreamEngine.Proofs.Lifecycle.Declared
import StreamEngine.Proofs.Lifecycle.Regularity
import StreamEngine.Proofs.Lifecycle.BlockStates
import StreamEngine.Proofs.Lifecycle.Reading
import StreamEngine.Proofs.Lifecycle.Pristine
import StreamEngine.Proofs.Lifecycle.Results
import StreamEngine.Proofs.Lifecycle.Queueing
import StreamEngine.Proofs.Lifecycle.Refusals
import StreamEngine.Proofs.Lifecycle.Commuting
import StreamEngine.Proofs.Lifecycle.Labels
import StreamEngine.Proofs.Lifecycle.Offers
import StreamEngine.Proofs.Lifecycle.Reducing
import StreamEngine.Proofs.DataMove.Regions
import StreamEngine.Proofs.Linear.Nests
import StreamEngine.Proofs.Linear.Decoding
import StreamEngine.Proofs.Slicing.LookingAhead
import StreamEngine.Proofs.Slicing.Rising
import StreamEngine.Proofs.Graph.Naming
import StreamEngine.Proofs.Graph.Splittable
import StreamEngine.Proofs.Linear.Flattening
import StreamEngine.Proofs.Affine.Conversion
import StreamEngine.Proofs.Linear.Reuse
import StreamEngine.Proofs.Affine.Boxes
import StreamEngine.Proofs.Affine.Regions
import StreamEngine.Proofs.Graph.Conversion
import StreamEngine.Proofs.Element.Splitting
import StreamEngine.Proofs.Element.Rewinding
import StreamEngine.Proofs.DataMove.Parts
import StreamEngine.Proofs.DataMove.Travel
import StreamEngine.Proofs.Lifecycle.Numbering
import StreamEngine.Proofs.Lifecycle.Ticking
import StreamEngine.Proofs.Lifecycle.Entering
import StreamEngine.Proofs.Lifecycle.Isolation
