/-! # Modes of verification -/

namespace Verdict

/-- What is shown about the end of loops. -/
inductive Termination where
  /-- Every `while` loop ends, as its variant shows. -/
  | total
  /-- Nothing. -/
  | unchecked
deriving DecidableEq, Repr

/-- What a call means. -/
inductive CallMode where
  /-- The precondition of the callee has to hold, and its postcondition is assumed. -/
  | contracts
  /-- The result depends on the arguments, and nothing else is known of it. -/
  | uninterpreted
deriving DecidableEq, Repr

def Termination.print : Termination → String
  | total => "total"
  | unchecked => "partial"

def CallMode.print : CallMode → String
  | contracts => "contracts"
  | uninterpreted => "uninterpreted"

/-- A name that no mode has. -/
inductive ModeError where
  | termination (name : String)
  | calls (name : String)
deriving DecidableEq, Repr

def ModeError.message : ModeError → String
  | termination name => "unknown termination mode \"" ++ name ++ "\""
  | calls name => "unknown call mode \"" ++ name ++ "\""

def Termination.ofName (name : String) : Except ModeError Termination :=
  if name = "total" then .ok .total
  else if name = "partial" then .ok .unchecked
  else .error (.termination name)

def CallMode.ofName (name : String) : Except ModeError CallMode :=
  if name = "contracts" then .ok .contracts
  else if name = "uninterpreted" then .ok .uninterpreted
  else .error (.calls name)

/-- The modes of generation. -/
structure Modes where
  termination : Termination
  calls : CallMode
deriving DecidableEq, Repr

/-- Loops have to end, and calls obey contracts. -/
def Modes.standard : Modes := ⟨.total, .contracts⟩

end Verdict
