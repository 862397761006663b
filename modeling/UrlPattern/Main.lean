import UrlPattern.CommandLine

/-!
# The program

Reads the files that a command names and prints what the command line says.

Specification: `SPEC_FULL.md` §10.10 (lines 283–294).
-/

namespace UrlPattern

/-- The content of a file, or why it cannot be read. -/
def readFileText (path : String) : IO (Except String String) := do
  try
    return .ok (← IO.FS.readFile path)
  catch
    | .noFileOrDirectory .. => return .error "No such file or directory (os error 2)"
    | e => return .error (toString e)

/-- The file that a command reads, if it reads one. -/
def CommandLine.Command.path? : CommandLine.Command → Option String
  | .check path _ => some path
  | _ => none

end UrlPattern

open UrlPattern in
/-- Runs the program on its arguments. -/
def main (args : List String) : IO UInt32 := do
  let files : CommandLine.Files ←
    match (CommandLine.Command.ofArguments? args).bind (·.path?) with
    | some path => do
      let content ← readFileText path
      pure fun _ ↦ content
    | none => pure fun _ ↦ .error ""
  let outcome := CommandLine.run files args
  IO.print outcome.stdout
  IO.eprint outcome.stderr
  return UInt32.ofNat outcome.code
