import ScriptInject.Arena.Shape
import ScriptInject.Arena.Traversal
import ScriptInject.Compiler
import ScriptInject.Proofs.Accounting
import ScriptInject.Proofs.Compiling
import ScriptInject.Proofs.Consistency
import ScriptInject.Proofs.Coverage.Script
import ScriptInject.Proofs.Fetching.Assigned
import ScriptInject.Proofs.Injecting
import ScriptInject.Proofs.Preparing
import ScriptInject.Proofs.Recovering
import ScriptInject.Proofs.Registering
import ScriptInject.Proofs.Respelling
import ScriptInject.Proofs.Spans.Script
import ScriptInject.Proofs.Strictness
import ScriptInject.Proofs.Stripping
import ScriptInject.Proofs.Supplying
import ScriptInject.Proofs.Targeting
import ScriptInject.Proofs.Widening.Script
import ScriptInject.Proofs.Progress
import ScriptInject.Proofs.Chains.Term
import ScriptInject.Proofs.Chains.Text
import ScriptInject.Proofs.Chains.Reading
import ScriptInject.Proofs.Chains.Parsing
import ScriptInject.Proofs.Slicing
import ScriptInject.Proofs.Grounding
import ScriptInject.Proofs.Planting
import ScriptInject.Proofs.Printing
import ScriptInject.Proofs.TypeNames
import ScriptInject.Proofs.Searching
import ScriptInject.Proofs.Children
import ScriptInject.Proofs.Flags
import ScriptInject.Proofs.Sparing.Rules
