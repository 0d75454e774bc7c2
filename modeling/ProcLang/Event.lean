import ProcLang.Ast
import ProcLang.Register
import ProcLang.Text.Quoted

/-!
What a compilation reports while it runs.  An event says in which part of the work it arises and
what has happened there; it may name a place, a node, a register, a location and a text.
-/

namespace ProcLang

/-- The part of the work in which an event arises. -/
inductive Mode where
  | lexer
  | parser
  | codegen
  | finished
  | error
deriving DecidableEq, Inhabited

/-- The word for a part of the work. -/
def Mode.name : Mode → String
  | lexer => "lexer"
  | parser => "parser"
  | codegen => "codegen"
  | finished => "finished"
  | error => "error"

/-- What has happened. -/
inductive Happening where
  | tokenStart
  | word
  | tokenEnd
  | nodeStart
  | nodeEnd
  | parameterSet
  | registerSet
  | registerCleared
  | done
  | failed
deriving DecidableEq, Inhabited

/-- The word for what has happened. -/
def Happening.name : Happening → String
  | tokenStart => "token-start"
  | word => "word"
  | tokenEnd => "token-end"
  | nodeStart => "node-start"
  | nodeEnd => "node-end"
  | parameterSet => "parameter-set"
  | registerSet => "register-set"
  | registerCleared => "register-cleared"
  | done => "done"
  | failed => "failed"

/-- One report of a compilation. -/
structure Event where
  mode : Mode
  happening : Happening
  span : Option Span := none
  text : Option String := none
  node : Option NodeId := none
  register : Option Register := none
  location : Option Location := none
deriving DecidableEq, Inhabited

/-- The part of an event's line that names a register or a location. -/
def Event.placing : Option Register → Option Location → String
  | some r, some l => " " ++ r.name ++ " <- " ++ l.text
  | some r, none => " " ++ r.name
  | none, some l => " " ++ l.text
  | none, none => ""

/-- The line of an event. -/
def Event.line (e : Event) : String :=
  "[" ++ e.mode.name ++ "] " ++ e.happening.name
    ++ (e.span.elim "" fun s => " @" ++ s.text)
    ++ (e.node.elim "" fun n => " #" ++ toString n)
    ++ Event.placing e.register e.location
    ++ (e.text.elim "" fun t => " " ++ Text.quoted t)

end ProcLang
