import ProcLang.Generation.Statement

/-!
Code for whole programs.
-/

namespace ProcLang

namespace Generation

/-- Code for a program. -/
def program (options : Options) (ast : Ast) : Gen Unit :=
  match ast.root with
  | none => Stage.fail (.semantic none .emptyProgram)
  | some root => blockOf options root .entry

/-- The instructions among marks. -/
def codeOf (marks : List (Mark × State)) : List Instr := marks.filterMap (·.1.instr?)

end Generation

/-- The run of code generation on a program: its marks, and the assembler program or the error. -/
def generate (options : Options) (source : String) (ast : Ast) :
    Outcome Generation.Mark Generation.State Program :=
  let run := Generation.program options ast {}
  { marks := run.marks
    state := run.state
    result := run.result.map fun _ =>
      { source := source
        externs := run.state.externs
        code := Generation.codeOf run.marks
        constants := run.state.constants } }

end ProcLang
