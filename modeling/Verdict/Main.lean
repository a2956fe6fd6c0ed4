import Verdict.CommandLine.Execution
import Verdict.Text.Utf8

/-! # The program

Reads the file that is named on the command line and writes what there is to say about it. Programs are
not started from here, so that every solver counts as missing. -/

namespace Verdict

/-- Why a file could not be read. A failure to open it comes with its name, and a failure to read what
has been opened does not. -/
def FileError.ofFailure : IO.Error → FileError
  | .noFileOrDirectory _ _ _ => .path .missing
  | .inappropriateType (some _) _ _ => .path .notDirectory
  | .inappropriateType none _ _ => .directory
  | .invalidArgument (some _) _ _ => .path .nameTooLong
  | _ => .denied

def readCharacters (name : String) : IO (Except FileError (List Char)) := do
  try
    let bytes ← IO.FS.readBinFile name
    return .ok (Text.decodeUtf8 (bytes.toList.map UInt8.toNat))
  catch e => return .error (.ofFailure e)

/-- The surroundings in which the only file is the one that has been read. -/
def Surroundings.ofFile (contents : Except FileError (List Char)) : Surroundings :=
  ⟨fun _ => contents, fun name _ => .cannotStart (.ofName ⟨[]⟩ name)⟩

/-- The contents of the file that an invocation is about. -/
def Invocation.contents (i : Invocation) : IO (Except FileError (List Char)) :=
  match i.operands with
  | [name] => readCharacters name
  | _ => return .error (.path .missing)

end Verdict

/-- Carries out a command line. -/
def main (args : List String) : IO UInt32 := do
  match Verdict.Invocation.read args with
  | .error e =>
    IO.eprintln ("Error: " ++ e.message)
    return 1
  | .ok i =>
    let outcome := i.execute (.ofFile (← i.contents))
    IO.print outcome.text
    return UInt32.ofNat outcome.status
