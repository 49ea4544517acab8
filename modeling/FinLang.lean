import FinLang.Main
import FinLang.Proofs.Machine.Placed
import FinLang.Proofs.Heap.Usage
import FinLang.Proofs.Heap.Coherence
import FinLang.Proofs.Heap.Links
import FinLang.Proofs.Machine.Moves
import FinLang.Proofs.Machine.Nesting
import FinLang.Proofs.Machine.Upkeep
import FinLang.Proofs.Machine.Regular
import FinLang.Proofs.Machine.Bodies
import FinLang.Proofs.Machine.Scoping
import FinLang.Proofs.Tree.Completeness
import FinLang.Proofs.Tree.Lockstep
import FinLang.Proofs.Tree.Layout
import FinLang.Proofs.Token.Tiling
import FinLang.Proofs.Agree
import FinLang.Proofs.Mirror.Heap
import FinLang.Proofs.Mirror.Machine
import FinLang.Proofs.Mirror.Nesting
import FinLang.Proofs.Mirror.Call
import FinLang.Proofs.Mirror.Host
import FinLang.Proofs.Heap.Contents
import FinLang.Proofs.Heap.Handover
import FinLang.Proofs.Machine.Constants
import FinLang.Proofs.Machine.Keeping
import FinLang.Proofs.Machine.Moments
import FinLang.Proofs.Machine.Flows
import FinLang.Proofs.Machine.Signals
import FinLang.Proofs.Machine.Boundaries
import FinLang.Proofs.Machine.Veil
import FinLang.Proofs.Machine.Oblivious
import FinLang.Proofs.Machine.Binding
import FinLang.Proofs.Heap.Reclaim
import FinLang.Proofs.Heap.Confined
import FinLang.Proofs.Heap.Atomic
import FinLang.Proofs.Operation.Frame
import FinLang.Proofs.Heap.Snapshots
import FinLang.Proofs.Machine.Entry
import FinLang.Proofs.Machine.Extras
import FinLang.Proofs.Token.Literals
import FinLang.Proofs.Tree.Pointing
import FinLang.Proofs.Tree.Shapes
import FinLang.Proofs.Operation.Indexed
import FinLang.Proofs.Token.Numbers
import FinLang.Proofs.Store.Handles
import FinLang.Proofs.Store.Chains
import FinLang.Proofs.Tree.WellFormed
import FinLang.Proofs.Heap.Felled
import FinLang.Proofs.Machine.Crossing
import FinLang.Proofs.Machine.Fuel
import FinLang.Proofs.Machine.Jumps
import FinLang.Proofs.Machine.Exits
