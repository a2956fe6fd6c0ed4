import Verdict.Lang.FreeVars
import Verdict.Lang.Print
import Verdict.Lang.Visit

/-! # Nodes of all kinds -/

namespace Verdict

namespace Node

def print : Node → String
  | value v => v.print
  | expr e => e.print
  | formula f => f.print
  | place p => p.print
  | command c => c.print

def freeVars : Node → Names
  | value v => v.freeVars
  | expr e => e.freeVars
  | formula f => f.freeVars
  | place p => p.freeVars
  | command c => c.freeVars

def origin : Node → Origin
  | value v => v.origin
  | place p => p.origin
  | command c => c.origin
  | expr _ | formula _ => none

/-- Whether a node has no content of its own, so that it stands for all its like. -/
def isBlank : Node → Bool
  | value (.unit _) | place (.wildcard _) | command (.noop _) => true
  | _ => false

end Node

/-- The nodes of a function in the order in which they come into play. -/
def Function.nodes (f : Function) : List Node :=
  f.precondition.visit (fun _ => true) ++ Command.visitAll (fun _ => true) f.body ++
    f.result.visit (fun _ => true) ++ f.postcondition.visit (fun _ => true)

/-- A text with where it was read, if that is known. -/
def locatedText (text : String) (o : Origin) : Option (String × Span) := o.span?.map (text, ·)

/-- The texts of the parts of a function, with where they were read: its signature, its inputs and its
nodes that have content. -/
def Function.located (f : Function) : List (String × Span) :=
  (locatedText f.signature f.origin).toList ++
    f.inputs.filterMap (fun d => locatedText (Command.declare d).print d.origin) ++
    (f.nodes.filter fun n => !n.isBlank).filterMap fun n => locatedText n.print n.origin

end Verdict
