import Lox.Main
import Lox.Bytecode.Machine
import Lox.Inspect
import Lox.Proofs.SymbolTable.Contents
import Lox.Bytecode.Instruction
import Lox.Compilation.Translation
import Lox.Syntax.Grammar
import Lox.Compilation.Requirements
import Lox.Proofs.Draft.Invariants
import Lox.Proofs.Token.Tiling
import Lox.Proofs.Layout
import Lox.Proofs.Diagnostics
import Lox.Proofs.Structure
import Lox.Proofs.Draft.Scopes
import Lox.Proofs.Pools
import Lox.Proofs.Symbols
import Lox.Proofs.Draft.Constants
import Lox.Proofs.Draft.Sketch
import Lox.Proofs.Grammar
import Lox.Proofs.Translation.Expression
import Lox.Proofs.Translation.Statement
import Lox.Proofs.Translation.Program
import Lox.Proofs.Parsing.Expression
import Lox.Proofs.Parsing.Statement
import Lox.Proofs.Composition.Behaviour
import Lox.Proofs.Acceptance
import Lox.Bytecode.Verified
import Lox.Proofs.Bytecode.Reading
import Lox.Proofs.Bytecode.Safety
import Lox.Proofs.Bytecode.Heights
import Lox.Proofs.Translation.Balance
import Lox.Proofs.Lockstep.Alike
import Lox.Proofs.Isolation.Beside
import Lox.Proofs.Isolation.Statement
import Lox.Proofs.Isolation.Pieces
import Lox.Proofs.Progress
import Lox.Proofs.Verification
import Lox.Semantics.Evaluation
import Lox.Proofs.Worlds
import Lox.Proofs.Simulation.Machine
import Lox.Proofs.Simulation.Instructions
import Lox.Proofs.Simulation.Expression
import Lox.Proofs.Simulation.Statement
import Lox.Proofs.Preservation
import Lox.Proofs.Evaluation
import Lox.Proofs.SymbolTable.Refinement
import Lox.Proofs.Limits
import Lox.Proofs.Renaming
import Lox.Proofs.Session
import Lox.Proofs.Counted
import Lox.LocalScope.Stack
import Lox.Proofs.LocalScope
import Lox.Proofs.Draft.Operations
import Lox.Proofs.Rejection
import Lox.Proofs.StringPool
import Lox.Compilation.PostOrder
import Lox.Syntax.Rendering
import Lox.Proofs.Lockstep.Quiet
import Lox.Proofs.PostOrder
import Lox.Proofs.Listing.Faithful
import Lox.Proofs.Skipping
import Lox.Proofs.Number.RoundTrip
import Lox.Proofs.SymbolTable.Searches
import Lox.Proofs.Reprinting
import Lox.Proofs.MissingBrace
