import FormCompiler.Main
import FormCompiler.Proofs.Lowering.Contents
import FormCompiler.Proofs.Lowering.Literals
import FormCompiler.Proofs.Resolution.Branches
import FormCompiler.Proofs.Resolution.Failures
import FormCompiler.Proofs.Resolution.Layouts
import FormCompiler.Proofs.Resolution.Privacy
import FormCompiler.Proofs.Resolution.Ranges
import FormCompiler.Proofs.Resolution.Registration
import FormCompiler.Proofs.Resolution.Termination
import FormCompiler.Proofs.Semantics.Guards
import FormCompiler.Proofs.Syntax.Layout
import FormCompiler.Proofs.Syntax.Places
import FormCompiler.Proofs.Wasm.Sections
import FormCompiler.Proofs.Wasm.Unwinding
import FormCompiler.Proofs.Lowering.Constructors
import FormCompiler.Proofs.Resolution.Substitution
