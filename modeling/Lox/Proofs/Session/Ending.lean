import Lox.Proofs.Machine.LoopFree
import Lox.Proofs.Session.Defects
import Lox.Proofs.Session.Layout
import Lox.Proofs.Session.Tracing

/-!
Every program without loops ends, also in a session where functions were defined before. It has a
value or fails of an error of its own or of a node out of place. What may come between is the trace:
its file takes whole characters only, and a tree from a file may hold others.
-/
namespace Lox

/-- The program came to its end, with a value, an error, or a defect of the tree; the trace file
refused none of its entries. -/
def Ending.Answers : Ending → Prop
  | .value _ => True
  | .fault f => f.Written
  | .rejected _ | .outOfFuel => False

end Lox
