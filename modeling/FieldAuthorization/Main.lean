import FieldAuthorization.CommandLine.Run

/-!
The program: the command line in the surroundings of a process.
-/

set_option autoImplicit false
set_option relaxedAutoImplicit false

namespace FieldAuthorization.CommandLine

/-- The entry of a path whose file could not be read. Reading a directory fails without a name;
where a name is given, a part of the path before its end is no directory. -/
def entryOfError : IO.Error → FileEntry
  | .noFileOrDirectory _ _ _ => .missing
  | .invalidArgument _ _ _ => .missing
  | .inappropriateType (some _) _ _ => .missing
  | .inappropriateType none _ _ => .directory
  | _ => .unreadable

def readEntry (path : String) : IO FileEntry := do
  try
    return .file (← IO.FS.readBinFile path).toList
  catch e =>
    return entryOfError e

def readInput : IO FileEntry := do
  try
    return .file (← (← IO.getStdin).readBinToEnd).toList
  catch _ =>
    return .unreadable

def ofDefinition? (definition : List UInt8) : Option (String × String) :=
  let isEquals (b : UInt8) : Bool := b == 61
  let name := definition.takeWhile (fun b => !isEquals b)
  if name.isEmpty then none
  else
    some (Text.ofUtf8 name, Text.ofUtf8 ((definition.dropWhile (fun b => !isEquals b)).drop 1))

/-- The variables of a process from their definitions, each of which ends in a zero byte. -/
def environmentOfBytes (bytes : List UInt8) : Environment :=
  (bytes.splitBy (fun a _ => a != 0)).filterMap
    (fun definition => ofDefinition? (definition.filter (· != 0)))

/-- The variables that the process was started with. -/
def readEnvironment : IO Environment := do
  match ← readEntry "/proc/self/environ" with
  | .file bytes => return environmentOfBytes bytes
  | _ => return []

end FieldAuthorization.CommandLine

open FieldAuthorization in
def main (arguments : List String) : IO UInt32 := do
  let around : CommandLine.Surroundings IO :=
    ⟨CommandLine.readEntry, CommandLine.readInput, ← CommandLine.readEnvironment⟩
  let outcome ← CommandLine.run around arguments
  IO.print outcome.output
  if let some report := outcome.report then
    IO.eprintln report
  return outcome.exitCode
