import ProcLang.Generation.Program
import ProcLang.Observer
import ProcLang.Parsing.Program
import ProcLang.Token.Stream

/-!
The whole way from source text to the text of an assembler program, under an observer.  The observer
is told the end of the compilation: that it is finished, or the error, unless the compilation was
cancelled.
-/

namespace ProcLang

variable {ω : Type}

/-- The assembler program of a source text. -/
def assemble (options : Options) (file source : String) (o : Observer ω) (w : ω) :
    Except CompileError Program × ω :=
  match o.watch some w (tokenStage file source ()) with
  | ((.error e, _), w) => (.error e, w)
  | ((.ok tokens, _), w) =>
    match o.watch some w (Parsing.program (.ofTokens tokens)) with
    | ((.error e, _), w) => (.error e, w)
    | ((.ok ast, _), w) =>
      match o.watch Generation.Mark.event? w (generate options file ast) with
      | ((.error e, _), w) => (.error e, w)
      | ((.ok program, _), w) => (.ok program, w)

/-- The event of an error. -/
def failureEvent (e : CompileError) : Event :=
  { mode := .error, happening := .failed, span := e.span?, text := some e.text }

/-- Tell an observer of an error, unless it is a cancellation.  The answer does not matter. -/
def reportFailure (o : Observer ω) (w : ω) (e : CompileError) : ω :=
  if e = .cancelled then w else (o.notify w (failureEvent e)).2

/-- The event of a finished compilation. -/
def finishedEvent (file : String) : Event :=
  { mode := .finished, happening := .done, text := some file }

/-- The text of the assembler program of a source text. -/
def compile (options : Options) (file source : String) (o : Observer ω) (w : ω) :
    Except CompileError String × ω :=
  match assemble options file source o w with
  | (.error e, w) => (.error e, reportFailure o w e)
  | (.ok program, w) =>
    match o.notify w (finishedEvent file) with
    | (some e, w) => (.error e, w)
    | (none, w) => (.ok (program.text options), w)

end ProcLang
