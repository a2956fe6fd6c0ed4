import Verdict.Lang.Syntax
import Verdict.Text.Decimal

/-! # Printing programs

The text of values, formulas, commands and functions. Operands are bracketed where they are compound,
and a nested block is shown only when a whole block is printed. -/

namespace Verdict

def Operator.print : Operator → String
  | add => "+"
  | sub => "-"
  | mul => "*"
  | div => "/"
  | rem => "%"

def Comparison.print : Comparison → String
  | ge => ">="
  | le => "<="
  | gt => ">"
  | lt => "<"

def Quantifier.print : Quantifier → String
  | all => "forall"
  | some => "exists"

/-- Whether an integer expression is an operation. -/
def Expr.isCompound : Expr → Bool
  | .op _ _ _ => true
  | _ => false

/-- Whether a value is bracketed as an operand. -/
def Value.isCompound : Value → Bool
  | .place _ _ | .unit _ | .tuple _ _ | .array _ _ | .call _ _ _ | .select _ _ _ _
  | .store _ _ _ _ _ | .missing => false
  | .expr e _ => e.isCompound
  | .formula _ _ | .ref _ _ _ | .deref _ _ | .ite _ _ _ _ => true

def Formula.isCompound : Formula → Bool
  | .lit _ | .value _ | .not _ => false
  | _ => true

/-- A text in brackets if it is compound. -/
def brace (compound : Bool) (text : String) : String :=
  if compound then "(" ++ text ++ ")" else text

mutual

def Place.print : Place → String
  | .name x _ => x
  | .wildcard _ => "_"
  | .elem .array x i _ => x ++ "[" ++ i.print ++ "]"
  | .elem .tuple x i _ => x ++ "." ++ brace i.isCompound i.print

def Value.print : Value → String
  | .expr e _ => e.print
  | .formula f _ => f.print
  | .place p _ => p.print
  | .tuple [v] _ => "(" ++ v.print ++ ",)"
  | .tuple vs _ => "(" ++ Value.printAll vs ++ ")"
  | .array vs _ => "[" ++ Value.printAll vs ++ "]"
  | .call f vs _ => f ++ "(" ++ Value.printAll vs ++ ")"
  | .ref v mutable _ => (if mutable then "&mut " else "&") ++ brace v.isCompound v.print
  | .deref v _ => "*" ++ brace v.isCompound v.print
  | .unit _ => "()"
  | .ite c t e _ =>
    "if " ++ c.print ++ " \x7b " ++ t.print ++ " \x7d else \x7b " ++ e.print ++ " \x7d"
  | .select .array b i _ => brace b.isCompound b.print ++ "[" ++ i.print ++ "]"
  | .select .tuple b i _ => brace b.isCompound b.print ++ "." ++ brace i.isCompound i.print
  | .store .array b i e _ =>
    brace b.isCompound b.print ++ "\x7b[" ++ i.print ++ "] := " ++ e.print ++ "\x7d"
  | .store .tuple b i e _ =>
    brace b.isCompound b.print ++ "\x7b." ++ i.print ++ " := " ++ e.print ++ "\x7d"
  | .missing => "?"

/-- The values of a list as written, with commas between them. -/
def Value.printAll : List Value → String
  | [] => ""
  | [v] => v.print
  | v :: vs => v.print ++ ", " ++ Value.printAll vs

def Expr.print : Expr → String
  | .num n => toString n.toInt
  | .value v => v.print
  | .op o a b =>
    brace a.isCompound a.print ++ " " ++ o.print ++ " " ++ brace b.isCompound b.print

def Formula.print : Formula → String
  | .lit true => "true"
  | .lit false => "false"
  | .and f g => brace f.isCompound f.print ++ " && " ++ brace g.isCompound g.print
  | .or f g => brace f.isCompound f.print ++ " || " ++ brace g.isCompound g.print
  | .not f => "!" ++ brace f.isCompound f.print
  | .value v => v.print
  | .equal a b => brace a.isCompound a.print ++ " == " ++ brace b.isCompound b.print
  | .compare c a b =>
    brace a.isCompound a.print ++ " " ++ c.print ++ " " ++ brace b.isCompound b.print
  | .quant q x t f => q.print ++ " " ++ x ++ ": " ++ t.print ++ ". " ++ f.print

end

namespace Declaration

/-- A declared variable with its type, if that is known. -/
def pattern (d : Declaration) : String :=
  let qualifier := if d.mutable then "mut " else ""
  if d.name == "_" then "_"
  else if d.type.isUnknown then qualifier ++ d.name
  else qualifier ++ d.name ++ ": " ++ d.type.print

end Declaration

def commas (ss : List String) : String := String.intercalate ", " ss

def Assignment.print (a : Assignment) : String := a.target.print ++ " = " ++ a.value.print

/-- A cascade of conditions on one line, its blocks left out. `first` tells whether it is the start
of the cascade. -/
def Branches.summary (first : Bool) : Branches → String
  | .otherwise block => if block.isEmpty then "" else " else \x7b .. \x7d"
  | .branch c _ rest =>
    (if first then "" else " else ") ++ "if " ++ c.print ++ " \x7b .. \x7d" ++ rest.summary false

/-- A command on one line, its blocks left out. -/
def Command.print : Command → String
  | .declare d => "let " ++ d.pattern
  | .bind d v => "let " ++ d.pattern ++ " = " ++ v.print
  | .bindTuple ds v _ => "let (" ++ commas (ds.map Declaration.pattern) ++ ") = " ++ v.print
  | .assign a => a.print
  | .assignAll as _ =>
    "(" ++ commas (as.map fun a => a.target.print) ++ ") = (" ++
      commas (as.map fun a => a.value.print) ++ ")"
  | .assert f _ => "assert(" ++ f.print ++ ")"
  | .assume f _ => "assume(" ++ f.print ++ ")"
  | .invariant f _ => "invariant(" ++ f.print ++ ")"
  | .cond bs _ => bs.summary true
  | .forRange i lo hi _ _ _ => "for " ++ i ++ " in " ++ lo.print ++ ".." ++ hi.print ++ " \x7b .. \x7d"
  | .whileLoop c _ _ _ _ => "while " ++ c.print ++ " \x7b .. \x7d"
  | .noop _ => "noop"

/-- The blanks in front of a line: three for each level. -/
def tab (level : Nat) : String := String.ofList (List.replicate (3 * level) ' ')

mutual

/-- A command with its blocks, one line each, at a level of indentation. -/
def Command.printLines (level : Nat) : Command → String
  | .cond bs _ => bs.printLines level true
  | .forRange i lo hi inv body _ =>
    tab level ++ "for " ++ i ++ " in " ++ lo.print ++ ".." ++ hi.print ++ " \x7b\n" ++
      tab level ++ "   //%invariant " ++ inv.print ++ "\n" ++
      Command.printBlock (level + 1) body ++ tab level ++ "\x7d\n"
  | .whileLoop c inv variant body _ =>
    tab level ++ "while " ++ c.print ++ " \x7b\n" ++
      tab level ++ "   //%invariant " ++ inv.print ++ "\n" ++
      (match variant with
        | none => ""
        | some e => tab level ++ "   //%variant " ++ e.print ++ "\n") ++
      Command.printBlock (level + 1) body ++ tab level ++ "\x7d\n"
  | c => tab level ++ c.print ++ "\n"

def Branches.printLines (level : Nat) (first : Bool) : Branches → String
  | .otherwise block =>
    (if block.isEmpty then ""
      else tab level ++ "\x7d else \x7b\n" ++ Command.printBlock (level + 1) block) ++
      tab level ++ "\x7d\n"
  | .branch c block rest =>
    tab level ++ (if first then "if " else "\x7d else if ") ++ c.print ++ " \x7b\n" ++
      Command.printBlock (level + 1) block ++ rest.printLines level false

/-- A block, one line for each command. -/
def Command.printBlock (level : Nat) : List Command → String
  | [] => ""
  | c :: cs => c.printLines level ++ Command.printBlock level cs

end

/-- Why a block cannot be printed at a level. -/
inductive LevelError where
  | negative
  /-- The blanks in front of a line are more than a word can count. -/
  | tooDeep
deriving DecidableEq, Repr

def LevelError.message : LevelError → String
  | negative => "strings: negative Repeat count"
  | tooDeep => "strings: Repeat output length overflow"

/-- The greatest level at which lines can be printed: a signed word counts their blanks. -/
def deepestLevel : Nat := (Text.wordSize 63 - 1) / 3

/-- A block at any level. If there is no command, there is nothing to indent. -/
def Command.printBlockAt (level : Int) (block : List Command) : Except LevelError String :=
  if block.isEmpty then .ok ""
  else if level < 0 then .error .negative
  else if level > deepestLevel then .error .tooDeep
  else .ok (Command.printBlock level.toNat block)

namespace Function

/-- The header of a function. -/
def signature (f : Function) : String :=
  "fn " ++ f.name ++ "(" ++ commas (f.inputs.map Declaration.pattern) ++ ") -> " ++ f.output.print

/-- The last line of a body, which gives the result. -/
def printResult (f : Function) : String :=
  match f.result with
  | .unit _ => ""
  | v => "   " ++ v.print ++ "\n"

/-- A function with its contract and body. -/
def print (f : Function) : String :=
  "//%precondition " ++ f.precondition.print ++ "\n" ++
    "//%postcondition " ++ f.postcondition.print ++ "\n" ++
    f.signature ++ " \x7b\n" ++ Command.printBlock 1 f.body ++ f.printResult ++ "\x7d\n"

end Function

/-- A program, with an empty line between functions. -/
def Program.print (p : Program) : String :=
  String.intercalate "\n" (p.functions.map Function.print)

end Verdict
