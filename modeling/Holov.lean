import Holov.Main
import Holov.Position.LineTable
import Holov.Proofs.Grammar
import Holov.Proofs.Lexing
import Holov.Proofs.Segmentation
import Holov.Proofs.Execution
import Holov.Proofs.Relocation
import Holov.Proofs.Relocation.Parser
import Holov.Proofs.Relocation.Execution
import Holov.Proofs.Layout
import Holov.Proofs.Grammar.Following
import Holov.Proofs.Relocation.Lexing
import Holov.Proofs.Chunks
import Holov.Proofs.Execution.Call
import Holov.Proofs.Execution.Parts
import Holov.Proofs.Provenance.Lexing
import Holov.Proofs.Provenance.Parser
import Holov.Proofs.Provenance
import Holov.Proofs.Effects
import Holov.Proofs.BoundedSink
import Holov.Proofs.FlatScope
import Holov.Proofs.Execution.Simulation
import Holov.Proofs.Renaming
import Holov.Proofs.Stripping
import Holov.Proofs.Grammar.Rendering
import Holov.Proofs.Lexing.Image
import Holov.Proofs.Delimiters
import Holov.Proofs.FrameEffect
import Holov.Proofs.Termination
import Holov.Proofs.Diagnostics
import Holov.Proofs.Reading
import Holov.Proofs.Completion
import Holov.Proofs.Lexing.Comments
import Holov.Proofs.Lexing.Faults
import Holov.Proofs.Weakening
import Holov.Proofs.CallForms
import Holov.Proofs.LineTable
import Holov.Proofs.Listing.Tokens
import Holov.Proofs.Listing.Program
import Holov.Proofs.Literals
import Holov.Proofs.Progress.Walk
import Holov.Proofs.Progress
