import SlottedLeaf.Leaf.Split
import SlottedLeaf.Leaf.Image
import SlottedLeaf.Leaf.Walk
import SlottedLeaf.Row.Table
import SlottedLeaf.Main
import SlottedLeaf.Proofs.OrderedSet
import SlottedLeaf.Proofs.SplitProtocol
import SlottedLeaf.Proofs.Sessions
import SlottedLeaf.Proofs.Saving
import SlottedLeaf.Proofs.Unstopped
import SlottedLeaf.Proofs.Certifying
import SlottedLeaf.Proofs.Noting
import SlottedLeaf.Proofs.Persistence
import SlottedLeaf.Proofs.Laziness
import SlottedLeaf.Proofs.BrokenSplits
import SlottedLeaf.Proofs.Twins
import SlottedLeaf.Proofs.Interchange
import SlottedLeaf.Proofs.Reporting
import SlottedLeaf.Proofs.Conservation
import SlottedLeaf.Proofs.Forms
import SlottedLeaf.Proofs.Refusals
import SlottedLeaf.Proofs.Room
import SlottedLeaf.Proofs.Parting
import SlottedLeaf.Proofs.Finding
import SlottedLeaf.Proofs.Encodings
import SlottedLeaf.Proofs.Rewriting
import SlottedLeaf.Proofs.Grammar
import SlottedLeaf.Proofs.Heads
import SlottedLeaf.Proofs.Undoing
import SlottedLeaf.Proofs.Crowding
import SlottedLeaf.Proofs.Accounting
import SlottedLeaf.Proofs.Words
import SlottedLeaf.Proofs.Fields
import SlottedLeaf.Proofs.Inspecting
