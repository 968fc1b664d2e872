import Simplicity.BitString.Lemmas
import Simplicity.Ty.Text
import Simplicity.Expression.Builder
import Simplicity.Main
import Simplicity.Proofs.Typing.Reordering
import Simplicity.Proofs.Expression.Building
import Simplicity.Proofs.Program.Binding
import Simplicity.Proofs.Limits
import Simplicity.Proofs.Root.Invariance
import Simplicity.Proofs.Expression.Unsharing
import Simplicity.Proofs.Expression.Replacement
import Simplicity.Proofs.Program.Witness
import Simplicity.Proofs.Checked.Program
import Simplicity.Proofs.Value.Inversion
import Simplicity.Proofs.Bounds.Exact
import Simplicity.Proofs.Program.Duplicates
import Simplicity.Proofs.Typing.Term
import Simplicity.Proofs.Typing.Tree
import Simplicity.Proofs.Typing.Naming
import Simplicity.Proofs.Typing.Failure
import Simplicity.Proofs.Program.Delimitation
import Simplicity.Proofs.Stream.Canonical
import Simplicity.Proofs.Stream.Script
import Simplicity.Proofs.Hash.Padding
import Simplicity.Proofs.Hash.Text
import Simplicity.Proofs.CommandLine
import Simplicity.Proofs.Ty.Width
import Simplicity.Proofs.Typing.Rounds
import Simplicity.Proofs.Stream.Packing
import Simplicity.Proofs.Value.Word
import Simplicity.Proofs.Root.Agreement
