import Lox.Main
import Lox.Node.Equality
import Lox.Proofs.Command.Levels
import Lox.Proofs.Grammar.Canonical
import Lox.Proofs.Grammar.FirstError
import Lox.Proofs.Session.Accounting
import Lox.Proofs.Session.Joining
import Lox.Proofs.Session.Names
import Lox.Proofs.Tree.Reload
import Lox.Proofs.Number.Display
import Lox.Proofs.Session.Display
import Lox.Proofs.Store.Scopes
import Lox.Proofs.Store.Tiers
import Lox.Proofs.Machine.Mirror
import Lox.Proofs.Machine.For
import Lox.Proofs.Machine.Rows
import Lox.Proofs.Command.Prompt
import Lox.Proofs.Grammar.Below
import Lox.Proofs.Tree.Loading
import Lox.Proofs.Tree.Shape
import Lox.Proofs.Command.Invalid
import Lox.Proofs.Grammar.Walk
import Lox.Proofs.Grammar.Termination
import Lox.Proofs.Grammar.Truncation
import Lox.Proofs.Machine.LoopFree
import Lox.Proofs.Store.Building
import Lox.Proofs.Session.Ending
import Lox.Proofs.Machine.Watch
import Lox.Proofs.Machine.Stack
import Lox.Proofs.Session.Stack
import Lox.Proofs.Lexeme.Spacing
import Lox.Proofs.Value.Equality
