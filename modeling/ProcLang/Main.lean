import ProcLang.Command

/-!
The compiler as a program: `-i` and the source file, `-o` and the output file, and options.
-/

namespace ProcLang

/-- The call that arguments spell, read on from what is known of it. -/
def readArguments (input output : Option String) (inv : Invocation) :
    List String → Option Invocation
  | [] => do
    let input ← input
    let output ← output
    return { inv with input := input, output := output }
  | "-i" :: path :: rest => readArguments (some path) output inv rest
  | "-o" :: path :: rest => readArguments input (some path) inv rest
  | flag :: rest => do
    let inv ← inv.withFlag flag
    readArguments input output inv rest

/-- The text of a file, if it can be read. -/
def readSource (path : String) : IO (Option String) := do
  try
    return String.fromUTF8? (← IO.FS.readBinFile path)
  catch _ => return none

/-- Write the output; the flag tells whether that went well. -/
def writeOutput (path text : String) : IO Bool := do
  try
    IO.FS.writeFile path text
    return true
  catch _ => return false

/-- Run the command. -/
def runCommand (inv : Invocation) : IO UInt32 := do
  let report := inv.run (← readSource inv.input)
  let report ←
    match report.output with
    | none => pure report
    | some text =>
      if ← writeOutput inv.output text then pure report else pure (report.failCreate inv.output)
  IO.print report.stdout
  IO.eprint report.stderr
  return report.exit.toUInt32

end ProcLang

def main (args : List String) : IO UInt32 := do
  match ProcLang.readArguments none none default args with
  | some inv => ProcLang.runCommand inv
  | none =>
    IO.eprintln "usage: minic -i <input> -o <output> [--no-ui] [--lex] [--parse] [--no-comments]"
    return 1
