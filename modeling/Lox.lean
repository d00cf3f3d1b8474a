import Lox.Main
import Lox.Syntax.Printer
import Lox.Proofs.Declared
import Lox.Proofs.Trail
import Lox.Proofs.World
import Lox.Proofs.Coherent
import Lox.Proofs.Coherent.Store
import Lox.Proofs.Coherent.Step
import Lox.Proofs.Coherent.Result
import Lox.Proofs.Like
import Lox.Proofs.Parse
import Lox.Proofs.Fresh
import Lox.Proofs.Moment
import Lox.Proofs.Lexical
import Lox.Proofs.Host
import Lox.Proofs.Kept
import Lox.Proofs.ReadOnly
import Lox.Proofs.Resolve
import Lox.Proofs.Like.Store
import Lox.Proofs.Lockstep
import Lox.Proofs.Lockstep.Step
import Lox.Proofs.Reached
import Lox.Proofs.Split
import Lox.Proofs.Names
import Lox.Proofs.Ready
import Lox.Proofs.Ready.Step
import Lox.Proofs.Found
import Lox.Proofs.Keywords
import Lox.Proofs.Placement
import Lox.Proofs.Clear
import Lox.Proofs.Clear.Step
import Lox.Proofs.Redeclared
import Lox.Proofs.Grammar
import Lox.Proofs.Grammar.Sound
import Lox.Proofs.Grammar.Complete
import Lox.Proofs.Tiling
import Lox.Proofs.Around
import Lox.Proofs.Described
import Lox.Proofs.Distance
import Lox.Proofs.Violations
import Lox.Proofs.Renaming
import Lox.Proofs.Renaming.Value
import Lox.Proofs.Renaming.Store
import Lox.Proofs.Renaming.Machine
import Lox.Proofs.Renaming.Step
import Lox.Proofs.Renaming.Unused
import Lox.Proofs.Renaming.Scope
import Lox.Proofs.Renaming.Resolve
import Lox.Proofs.Renaming.Place
import Lox.Proofs.Renaming.Binding
import Lox.Proofs.Renaming.Reached
import Lox.Proofs.Renamed
import Lox.Proofs.Onto
import Lox.Proofs.Growth
import Lox.Proofs.After
import Lox.Proofs.Enclosing
import Lox.Proofs.Super
import Lox.Proofs.Calls
import Lox.Proofs.Held
import Lox.Proofs.Receiver
import Lox.Proofs.Moving
import Lox.Proofs.Operand
import Lox.Proofs.Moving.Value
import Lox.Proofs.Moving.Store
import Lox.Proofs.Moving.Machine
import Lox.Proofs.Moving.Step
import Lox.Proofs.Moving.Resolve
import Lox.Proofs.Moving.Place
import Lox.Proofs.Moving.Reached
import Lox.Proofs.Rounds
import Lox.Proofs.ForLoop
import Lox.Proofs.Shift
import Lox.Proofs.CallDepth
import Lox.Proofs.Blame
import Lox.Proofs.Located
import Lox.Proofs.Refused
import Lox.Proofs.Bodies
import Lox.Proofs.Members
import Lox.Proofs.Arrays
import Lox.Proofs.Rendering
import Lox.Proofs.Recovery.Bounded
import Lox.Proofs.Recovery.Confined
import Lox.Proofs.Spacing
import Lox.Proofs.ScopeChain
import Lox.Proofs.Grounded
import Lox.Proofs.Grounded.Step
import Lox.Proofs.Lineage
import Lox.Proofs.Pure
import Lox.Proofs.Gap
import Lox.Proofs.Again
import Lox.Proofs.Numeral
import Lox.Proofs.Form
import Lox.Proofs.Fitted
import Lox.Proofs.Unambiguous
