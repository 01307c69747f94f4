import BrownLang.Main
import BrownLang.Proofs.Execution.Whereabouts
import BrownLang.Proofs.Loading.LabelTable
import BrownLang.Proofs.Loading.Mentions
import BrownLang.Proofs.Execution.Blame
import BrownLang.Proofs.Structured.Interpreter
import BrownLang.Proofs.Structured.Matching
import BrownLang.Proofs.Structured.Embedding
import BrownLang.Proofs.Structured.Simulation
import BrownLang.Proofs.Structured.Lowering
import BrownLang.Proofs.Syntax.Canonical
import BrownLang.Proofs.Syntax.Scanning
import BrownLang.Proofs.Syntax.Spelling
import BrownLang.Proofs.Syntax.ReadExpr
import BrownLang.Proofs.Syntax.ReadStmt
import BrownLang.Proofs.Syntax.RoundTrip
import BrownLang.Proofs.Syntax.Grammar
import BrownLang.Proofs.Syntax.Derivation
import BrownLang.Proofs.Execution.Coupling
import BrownLang.Proofs.Execution.Transition
import BrownLang.Proofs.Execution.Variables
import BrownLang.Proofs.Execution.Log
import BrownLang.Proofs.Execution.Observation
import BrownLang.Proofs.Syntax.WellFormed
import BrownLang.Proofs.Execution.Safety
import BrownLang.Proofs.Loading.Redefinition
import BrownLang.Proofs.Syntax.Locations
import BrownLang.Proofs.Execution.Accrual
import BrownLang.Proofs.Execution.Words
import BrownLang.Proofs.Execution.ActiveCalls
import BrownLang.Proofs.Execution.Interruption
import BrownLang.Proofs.Syntax.Totality
import BrownLang.Proofs.Syntax.Parts
import BrownLang.Proofs.Execution.Halting
import BrownLang.Proofs.Execution.Strictness
import BrownLang.Proofs.Screen.Drawing
import BrownLang.Proofs.Screen.Blending
import BrownLang.Proofs.Screen.Clipping
import BrownLang.Proofs.Execution.CallConvention
import BrownLang.Proofs.CommandLine.Status
import BrownLang.Proofs.Screen.Rasterisation
import BrownLang.Proofs.Memory.Accesses
import BrownLang.Proofs.Structured.Desugaring
import BrownLang.Proofs.Execution.Path
import BrownLang.Proofs.Structured.Counting
import BrownLang.Proofs.Loading.StaticData
import BrownLang.Proofs.Execution.Sprites
import BrownLang.Proofs.Screen.History
import BrownLang.Proofs.Screen.Presenting
import BrownLang.Proofs.Screen.Coverage
import BrownLang.Proofs.Syntax.LineEnds
import BrownLang.Proofs.Syntax.Layout
import BrownLang.Proofs.Syntax.Spacing
import BrownLang.Proofs.Loading.Listing
import BrownLang.Proofs.Structured.Renumbering
import BrownLang.Proofs.Execution.Footprint
import BrownLang.Proofs.Syntax.Literals
import BrownLang.Proofs.Execution.Timeline
import BrownLang.Proofs.Execution.Bookkeeping
