import Verdict.Reading.Commands
import Verdict.Lang.Visit

/-! # Reading programs

A program is a sequence of function definitions. Each function is read on its own, so that all
functions with a problem are reported. -/

namespace Verdict.Reading

/-- The clauses of a function. -/
structure Clauses where
  precondition : Formula
  postcondition : Formula
  result : Value
  body : List Command

/-- Reads the clauses of a function, `seen` being the heads of those before. -/
def clauses (unitAt : Span → Origin) (seen : List String) (parts : Clauses) :
    List STree → Read Clauses
  | [] => return parts
  | .symbol s _ :: _ => fail s .duplicateClause
  | .list s ts :: rest => do
    let head := (SExp.headOf (STree.eraseAll ts)).getD ""
    if seen.contains head then fail s .duplicateClause
    else
      let parts ← match head, ts with
        | "requires", [_, f] =>
          (formula unitAt f).map fun f => { parts with precondition := f }
        | "ensures", [_, f] =>
          (formula unitAt f).map fun f => { parts with postcondition := f }
        | "returns", [_, v] => (value unitAt v).map fun v => { parts with result := v }
        | "body", _ :: cs => (block unitAt cs).map fun cs => { parts with body := cs }
        | _, _ => fail s .unknownClause
      clauses unitAt (head :: seen) parts rest

/-- Reads a function. Without a clause for it, contracts are trivial, the result is `default` and the
body is empty. -/
def function (unitAt : Span → Origin) (default : Value) : STree → Read Function
  | .list s (.symbol _ "defun" :: .symbol _ name :: ins :: out :: rest) => do
    let ins ← inputs ins
    let out ← type out
    let parts ← clauses unitAt [] ⟨.lit true, .lit true, default, []⟩ rest
    return ⟨name, ins, out, parts.precondition, parts.postcondition, parts.result, parts.body,
      s.origin⟩
  | .list s (.symbol _ "defun" :: rest) =>
    match rest with
    | name :: _ :: _ :: _ => fail name.span .functionName
    | _ => fail s .incompleteFunction
  | t => fail t.span .expectedFunction

/-- The functions that can be read, and the problems of the others. -/
def functions (unitAt : Span → Origin) (default : Value) : List STree → List Function × List Failure
  | [] => ([], [])
  | t :: ts =>
    let (fs, es) := functions unitAt default ts
    match function unitAt default t with
    | .ok f => (f :: fs, es)
    | .error e => (fs, e :: es)

/-- Where a node was read if it is a unit literal. -/
def unitSpan? : Node → Option Span
  | .value (.unit o) => o.span?
  | _ => none

/-- Where the unit literals of a function stand. -/
def unitSpans (f : Function) : List Span :=
  let nodes := f.precondition.visit (fun _ => true) ++ f.postcondition.visit (fun _ => true) ++
    f.result.visit (fun _ => true) ++ Command.visitAll (fun _ => true) f.body
  nodes.filterMap unitSpan?

/-- The origin at the span that starts first. -/
def firstSpan : List Span → Origin
  | [] => none
  | s :: ss => (ss.foldl (fun a b => if b.start < a.start then b else a) s).origin

end Verdict.Reading

namespace Verdict

/-- What a source file holds: the functions that can be read, and the errors. If the text is not a
sequence of S-expressions, there is no program. -/
structure ProgramText where
  program : Option Program
  errors : List SyntaxError

namespace Program

/-- Reads the program of a source file. The unit literals of a program are one node, which stands
where the first of them is written. -/
def read (f : SourceFile) : ProgramText :=
  match STree.readAll f with
  | (_, some e) => ⟨none, [e]⟩
  | (trees, none) =>
    let (fs, _) := Reading.functions Span.origin (.unit none) trees
    let first := Reading.firstSpan (fs.flatMap Reading.unitSpans)
    let (fs, es) := Reading.functions (fun _ => first) (.unit first) trees
    ⟨some ⟨fs⟩, es.map Reading.Failure.toSyntaxError⟩

end Program

end Verdict
