import ProcLang.Ast.Printer
import ProcLang.Compilation
import ProcLang.Observer.Handshake

/-!
The command line of the compiler, without its input and output: what it prints and what it writes,
given what it was called with and what it read.
-/

namespace ProcLang

/-- What the command is called with. -/
structure Invocation where
  input : String
  output : String
  /-- List the tokens and stop. -/
  listTokens : Bool := false
  /-- Print the program and stop. -/
  printProgram : Bool := false
  /-- Do not print the events. -/
  quiet : Bool := false
  /-- Write no comments. -/
  noComments : Bool := false
deriving DecidableEq, Inhabited

namespace Invocation

/-- The call with one more option, if it is one. -/
def withFlag (inv : Invocation) (flag : String) : Option Invocation :=
  if flag = "--lex" then some { inv with listTokens := true }
  else if flag = "--parse" then some { inv with printProgram := true }
  else if flag = "--no-ui" then some { inv with quiet := true }
  else if flag = "--no-comments" then some { inv with noComments := true }
  else none

/-- The options of the compilation. -/
def options (inv : Invocation) : Options := { comments := !inv.noComments }

end Invocation

/-- What the command does: what it prints, the code it ends with, and the text to write. -/
structure Report where
  exit : UInt8 := 0
  stdout : String := ""
  stderr : String := ""
  output : Option String := none
deriving DecidableEq, Inhabited

namespace Report

/-- The report with a failure at its end. -/
def fail (r : Report) (message : String) : Report :=
  { r with exit := 1, stderr := r.stderr ++ "minic: " ++ message ++ "\n", output := none }

/-- The report if the output cannot be created. -/
def failCreate (r : Report) (path : String) : Report := r.fail ("cannot create " ++ path)

end Report

namespace Invocation

/-- The report of a result that is printed. -/
def reportPrinted : Except CompileError String → Report
  | .error e => Report.fail {} e.text
  | .ok text => { stdout := text }

/-- The report of a result that is written, behind the events of the compilation. -/
def reportCompiled (events : List Event) (result : Except CompileError String) : Report :=
  let traced : Report := { stderr := String.join (events.map fun e => e.line ++ "\n") }
  match result with
  | .error e => traced.fail e.text
  | .ok text => { traced with output := some text }

/-- The listing of tokens. -/
def tokenListing (file source : String) : Except CompileError String :=
  (tokenize file source).map fun tokens => String.join (tokens.map fun t => t.listing ++ "\n")

/-- The printed program. -/
def programText (file source : String) : Except CompileError String := do
  let tokens ← tokenize file source
  let ast ← parse tokens
  return ast.root.elim "" (Stmt.render 0)

/-- What the command does with a source text, if there is one. -/
def run (inv : Invocation) (source : Option String) : Report :=
  match source with
  | none => Report.fail {} ("cannot read " ++ inv.input)
  | some source =>
    if inv.listTokens then reportPrinted (tokenListing inv.input source)
    else if inv.printProgram then reportPrinted (programText inv.input source)
    else if inv.quiet then
      reportCompiled [] (compile inv.options inv.input source .silent ()).1
    else
      let (result, session) := compile inv.options inv.input source (Consumer.observer {}) {}
      reportCompiled session.received.toList result

end Invocation

end ProcLang
