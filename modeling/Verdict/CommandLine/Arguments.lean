import Verdict.Text.Duration
import Verdict.Text.Numeral

/-! # Arguments of a command

The arguments of a command are flags and operands in any order. A flag is written `--name value` or
`--name=value`. A switch is a flag that may stand without a value, which then is true; switches may have
a letter too, and letters can be put together as in `-ab`. What starts with `-test.` is meant for those
who test the program, and is passed over. After `--` there are only operands. -/

namespace Verdict

/-- What the value of a flag is. -/
inductive FlagKind where
  | switch
  | text
  | integer
  | count
  | duration
deriving DecidableEq, Repr

/-- A flag of a command. -/
structure Flag where
  name : String
  /-- The letter of a switch. -/
  letter : Option Char
  kind : FlagKind
deriving DecidableEq, Repr

inductive FlagValue where
  | switch (b : Bool)
  | text (s : String)
  | integer (n : Int)
  | count (n : Nat)
  | duration (nanoseconds : Int)
deriving DecidableEq, Repr

/-- Why the arguments of a command cannot be used. -/
inductive UsageError where
  | unknownCommand (name : String)
  | badFlag (text : String)
  | unknownFlag (name : String)
  | unknownLetter (letter : Char)
  | missingValue (flag : String)
  | invalidValue (flag value : String)
deriving DecidableEq, Repr

def UsageError.message : UsageError → String
  | unknownCommand name => "unknown command " ++ name
  | badFlag text => "bad flag " ++ text
  | unknownFlag name => "unknown flag --" ++ name
  | unknownLetter c => "unknown flag -" ++ c.toString
  | missingValue flag => "flag --" ++ flag ++ " needs a value"
  | invalidValue flag value => "invalid value " ++ value ++ " for flag --" ++ flag

namespace FlagKind

/-- The truth value that a word stands for. -/
def readSwitch? (s : String) : Option Bool :=
  if s ∈ ["1", "t", "T", "true", "TRUE", "True"] then some true
  else if s ∈ ["0", "f", "F", "false", "FALSE", "False"] then some false
  else none

def read? (kind : FlagKind) (s : String) : Option FlagValue :=
  match kind with
  | switch => (readSwitch? s).map .switch
  | text => some (.text s)
  | integer => (Text.readSignedNumeral? 64 s).map .integer
  | count => (Text.readUnsignedNumeral? 64 s).map .count
  | duration => (Text.readDuration? s).map .duration

end FlagKind

namespace Flag

/-- Reads the value of a flag, together with the name of the flag. -/
def value (f : Flag) (s : String) : Except UsageError (String × FlagValue) :=
  match f.kind.read? s with
  | some v => .ok (f.name, v)
  | none => .error (.invalidValue f.name s)

/-- Whether a flag may stand without a value. -/
def isSwitch (f : Flag) : Bool := f.kind == .switch

end Flag

/-- The flags that are set, in their order, and the operands. -/
structure Arguments where
  values : List (String × FlagValue)
  operands : List String
deriving DecidableEq, Repr

namespace Arguments

/-- The last value of a flag. -/
def get? (a : Arguments) (name : String) : Option FlagValue :=
  (a.values.reverse.find? fun v => v.1 == name).map Prod.snd

def isOn (a : Arguments) (name : String) : Bool := a.get? name == some (.switch true)

/-- The text of a flag, or a text to take its place. -/
def textD (a : Arguments) (name dflt : String) : String :=
  match a.get? name with
  | some (.text s) => s
  | _ => dflt

def addValue (a : Arguments) (v : String × FlagValue) : Arguments :=
  { a with values := v :: a.values }

def addOperand (a : Arguments) (s : String) : Arguments :=
  { a with operands := s :: a.operands }

/-- What the flags of tests start with. -/
def testMark : List Char := "test.".toList

/-- The switches that letters set. A value may follow the last letter after an equality sign. From
the mark of tests on, there are no more letters. -/
def letters (flags : List Flag) : List Char → Except UsageError (List (String × FlagValue))
  | [] => .ok []
  | c :: cs =>
    if testMark.isPrefixOf (c :: cs) then .ok []
    else
      match flags.find? fun f => f.letter == some c with
      | none => .error (.unknownLetter c)
      | some f =>
        match cs with
        | '=' :: v :: vs => (f.value (String.ofList (v :: vs))).map ([·])
        | _ => do return (← f.value "true") :: (← letters flags cs)

/-- The name in a flag, and the value that follows it after an equality sign. -/
def splitFlag (cs : List Char) : String × Option String :=
  let name := String.ofList (cs.takeWhile (· != '='))
  match cs.dropWhile (· != '=') with
  | [] => (name, none)
  | _ :: value => (name, some (String.ofList value))

/-- The flag that is set, and its value if it is written together with the name or can be left out. -/
def longFlag (flags : List Flag) (cs : List Char) : Except UsageError (Flag × Option String) :=
  match cs with
  | [] | '-' :: _ | '=' :: _ => .error (.badFlag (String.ofList ('-' :: '-' :: cs)))
  | cs =>
    let (name, value) := splitFlag cs
    match flags.find? fun f => f.name == name with
    | none => .error (.unknownFlag name)
    | some f => .ok (f, value.orElse fun _ => if f.isSwitch then some "true" else none)

def read (flags : List Flag) : List String → Except UsageError Arguments
  | [] => .ok ⟨[], []⟩
  | s :: rest =>
    match s.toList with
    | ['-', '-'] => .ok ⟨[], rest⟩
    | '-' :: '-' :: cs =>
      match longFlag flags cs with
      | .error e => .error e
      | .ok (f, some value) => do return (← read flags rest).addValue (← f.value value)
      | .ok (f, none) =>
        match rest with
        | [] => .error (.missingValue f.name)
        | value :: rest => do return (← read flags rest).addValue (← f.value value)
    | '-' :: c :: cs => do
      let vs ← letters flags (c :: cs)
      let a ← read flags rest
      return { a with values := vs ++ a.values }
    | _ => (read flags rest).map fun a => a.addOperand s

/-- Whether the argument after `s` is the value of a flag, as far as the given flags tell: a flag
without an equality sign takes it, unless it is known to be a switch. -/
def takesNext (flags : List Flag) (s : String) : Bool :=
  match s.toList with
  | '-' :: '-' :: cs =>
    !cs.contains '=' && !flags.any fun f => f.isSwitch && f.name == String.ofList cs
  | ['-', c] =>
    c != '=' && c.utf8Size == 1 && !flags.any fun f => f.isSwitch && f.letter == some c
  | _ => false

/-- The words among arguments that are neither flags nor values of flags. A flag that takes the last
argument ends the search. -/
def words (flags : List Flag) : List String → List String
  | [] => []
  | s :: rest =>
    if s = "--" then []
    else if takesNext flags s then
      match rest with
      | _ :: r :: rest => words flags (r :: rest)
      | _ => []
    else if s = "" || s.toList.head? == some '-' then words flags rest
    else s :: words flags rest

/-- The arguments without the first word that is `word`. -/
def eraseWord (flags : List Flag) (word : String) : List String → List String
  | [] => []
  | s :: rest =>
    if s = "--" then s :: rest
    else if takesNext flags s then
      match rest with
      | v :: rest => s :: v :: eraseWord flags word rest
      | [] => [s]
    else if s = word then rest
    else s :: eraseWord flags word rest

end Arguments

end Verdict
