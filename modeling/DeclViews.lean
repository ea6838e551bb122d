import DeclViews.Datum
import DeclViews.Node.Printer
import DeclViews.Proofs.Atom.Sharing
import DeclViews.Proofs.Builder.Listing
import DeclViews.Proofs.Builder.NameSharing
import DeclViews.Proofs.Builder.Refusal
import DeclViews.Proofs.Builder.Viability
import DeclViews.Proofs.File.Bookkeeping
import DeclViews.Proofs.File.Interleaving
import DeclViews.Proofs.File.Interruption
import DeclViews.Proofs.File.Invalidation
import DeclViews.Proofs.File.Transparency
import DeclViews.Proofs.Import.Binding
import DeclViews.Proofs.Import.DefaultName
import DeclViews.Proofs.Outline.Order
import DeclViews.Proofs.Outline.Provenance
import DeclViews.Proofs.Outline.Rearrangement
import DeclViews.Proofs.Slot.Sharing
import DeclViews.Proofs.View.Burial
import DeclViews.Proofs.View.EarlyExit
import DeclViews.Proofs.Workspace.Interleaving
import DeclViews.Proofs.Workspace.Registry
import DeclViews.Proofs.Workspace.Replay
