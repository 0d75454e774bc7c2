import ProcLang.Proofs.Generation.Import
import ProcLang.Proofs.Generation.Steps

/-!
How code generation is put together.  It consists of steps, notes on expressions, comments, checks of the
register file and imports, within nodes whose start and end are reported, and the options decide only what
becomes of the comments and the checks.  `Built` says this of the code generation under two options at
once, along with the names it imports and the strings it comes to.  What every step keeps, the whole of
code generation keeps, also where it fails.
-/

namespace ProcLang

/-! ### The names of a program -/

namespace Stmt

mutual

/-- The names of the procedures, calls, declarations and assignments of a statement. -/
def names : Stmt → List String
  | .block _ body => namesOf body
  | .procedure _ signature none => [signature.name]
  | .procedure _ signature (some body) => signature.name :: body.names
  | .call _ name _ => [name]
  | .declaration _ name _ _ => [name]
  | .assignment _ name _ => [name]
  | .branch _ _ thenBranch none => thenBranch.names
  | .branch _ _ thenBranch (some elseBranch) => thenBranch.names ++ elseBranch.names
  | .loop _ _ body => body.names
  | .continueLoop _ | .breakLoop _ | .giveBack .. | .expression _ => []

/-- The names of statements. -/
def namesOf : List Stmt → List String
  | [] => []
  | first :: rest => first.names ++ namesOf rest

end

end Stmt

/-! ### The strings of a program -/

/-- The strings of an expression, in order. -/
def Expr.strings : Expr → List String
  | .literal _ (.string raw) => [raw]
  | .literal _ (.integer _) | .var .. | .misplaced .. => []
  | .unary _ _ e => e.strings
  | .binary _ _ lhs rhs => lhs.strings ++ rhs.strings

/-- The strings of expressions, in order. -/
def Expr.stringsOf (es : List Expr) : List String := es.flatMap strings

namespace Stmt

mutual

/-- The strings of a statement, in order.  No code is made of the body of an external procedure. -/
def strings : Stmt → List String
  | .block _ body => stringsOf body
  | .procedure _ _ none => []
  | .procedure _ signature (some body) => if signature.external then [] else body.strings
  | .call _ _ args => Expr.stringsOf args
  | .declaration _ _ _ init => Expr.stringsOf init.toList
  | .assignment _ _ value => value.strings
  | .branch _ condition thenBranch none => condition.strings ++ thenBranch.strings
  | .branch _ condition thenBranch (some elseBranch) =>
    condition.strings ++ (thenBranch.strings ++ elseBranch.strings)
  | .loop _ condition body => condition.strings ++ body.strings
  | .giveBack _ value => Expr.stringsOf value.toList
  | .continueLoop _ | .breakLoop _ | .expression _ => []

/-- The strings of statements, in order. -/
def stringsOf : List Stmt → List String
  | [] => []
  | first :: rest => first.strings ++ stringsOf rest

end

end Stmt

namespace Generation

/-! ### Nodes -/

/-- Work on a node between the reports of its start and its end. -/
def node {α : Type} (tag : Tag) (kind : NodeKind) (work : Gen α) : Gen α := do
  nodeEvent .nodeStart tag kind
  let a ← work
  nodeEvent .nodeEnd tag kind
  return a

theorem expressionNode_eq (tag : Tag) (kind : NodeKind) (work : Location → Gen DataType) :
    expressionNode tag kind work = node tag kind (do
      let location ← freshLocation
      let type ← work location
      annotate tag.id location type
      return (location, type)) := by
  simp only [expressionNode, node, bind_assoc, pure_bind]

theorem statementNode_eq (tag : Tag) (kind : NodeKind) (work : Gen Unit) :
    statementNode tag kind work = node tag kind work := by
  simp only [statementNode, node]
  congr

theorem block_eq (role : Role) (tag : Tag) (stmts : List Stmt) (body : Gen Unit) :
    block role tag stmts body = node tag .block (do
      let scope ← scopeFor role stmts
      let s ← Stage.get
      openFrame role scope.localBytes
      Stage.modify fun s => { s with scopes := scope :: s.scopes }
      let parameters ← bindParameters scope.stackHeight role.params
      body
      closeFrame role scope parameters
      setDepth fun _ => s.stackDepth
      Stage.modify fun s => { s with scopes := s.scopes.drop 1 }) := by
  rw [← statementNode_eq]
  simp only [statementNode, block, bind_assoc]

/-! ### How code generation is built -/

/-- The code generation `x` under the options `o` and `y` under the options `o'` are built alike.  Both
declare the names as external, and come to the strings in their order. -/
inductive Built (strict quiet : Prop) (o o' : Options) :
    {α : Type} → List String → List String → Gen α → Gen α → Prop
  | plain {α : Type} {V : α → Prop} {raws : List String} {x : Gen α} :
    Step strict quiet raws V x → Built strict quiet o o' [] raws x x
  | fail {α : Type} {names raws : List String} {e : CompileError} : e ≠ .cancelled →
    Built strict quiet o o' names raws (Stage.fail e : Gen α) (Stage.fail e)
  | given {α β : Type} {V : α → Prop} {names raws : List String} {x : Gen α} {f g : α → Gen β} :
    Step strict quiet [] V x → (∀ a, V a → Built strict quiet o o' names raws (f a) (g a)) →
    Built strict quiet o o' names raws (x >>= f) (x >>= g)
  | bind {α β : Type} {names names' raws raws' : List String} {x y : Gen α} {f g : α → Gen β} :
    Built strict quiet o o' names raws x y → (∀ a, Built strict quiet o o' names' raws' (f a) (g a)) →
    Built strict quiet o o' (names ++ names') (raws ++ raws') (x >>= f) (y >>= g)
  | node {α : Type} {names raws : List String} {x y : Gen α} (tag : Tag) (kind : NodeKind) :
    Built strict quiet o o' names raws x y →
    Built strict quiet o o' names raws (node tag kind x) (node tag kind y)
  | annotate {id : NodeId} {l : Location} {type : DataType} :
    Built strict quiet o o' [] [] (annotate id l type) (annotate id l type)
  | comment {text : String} : OneLine strict text →
    Built strict quiet o o' [] [] (comment o text) (comment o' text)
  | check : Built strict quiet o o' [] [] (checkRegisters o) (checkRegisters o')
  | addExtern {name : String} : Neat strict name →
    Built strict quiet o o' [name] [] (addExtern name) (addExtern name)

section Rules

variable {strict quiet : Prop} {o o' : Options} {α β : Type} {names raws raws' : List String} {x y : Gen α}
  {f g : α → Gen β}

theorem Built.after {V : α → Prop} (hx : Step strict quiet [] V x)
    (hf : ∀ a, Built strict quiet o o' names raws (f a) (g a)) :
    Built strict quiet o o' names raws (x >>= f) (x >>= g) :=
  .given hx fun a _ => hf a

theorem Built.behind (hx : Built strict quiet o o' [] [] x y)
    (hf : ∀ a, Built strict quiet o o' names raws (f a) (g a)) :
    Built strict quiet o o' names raws (x >>= f) (y >>= g) :=
  .bind hx hf

theorem Built.both (hx : Built strict quiet o o' [] raws x y)
    (hf : ∀ a, Built strict quiet o o' names raws' (f a) (g a)) :
    Built strict quiet o o' names (raws ++ raws') (x >>= f) (y >>= g) :=
  .bind hx hf

theorem Built.before (hx : Built strict quiet o o' names raws x y)
    (hf : ∀ a, Built strict quiet o o' [] [] (f a) (g a)) :
    Built strict quiet o o' names raws (x >>= f) (y >>= g) := by
  have h := hx.bind hf
  rwa [List.append_nil, List.append_nil] at h

theorem built_refuse {tag : Tag} {cause : SemanticCause} :
    Built strict quiet o o' names raws (refuse tag cause : Gen α) (refuse tag cause) :=
  .fail error_semantic

end Rules

/-! ### Expressions -/

section Expressions

variable {strict quiet : Prop} {o o' : Options} {tag : Tag} {raws raws' : List String}

theorem built_expressionNode {kind : NodeKind} {work : Location → Gen DataType}
    (h : ∀ l, Built strict quiet o o' [] raws (work l) (work l)) :
    Built strict quiet o o' [] raws (expressionNode tag kind work) (expressionNode tag kind work) := by
  rw [expressionNode_eq]
  exact .node tag kind (.after plain_freshLocation fun l => (h l).before fun _ =>
    .behind .annotate fun _ => .plain (V := fun _ => True) (.pure trivial))

theorem built_eager {op : ArithOp ⊕ Comparison} {lhs rhs : Gen (Location × DataType)}
    (hl : Built strict quiet o o' [] raws lhs lhs) (hr : Built strict quiet o o' [] raws' rhs rhs)
    (l : Location) :
    Built strict quiet o o' [] (raws ++ raws') (eager op lhs rhs l) (eager op lhs rhs l) :=
  hl.both fun _ => .after plain_copyOf fun _ => hr.before fun _ =>
    .plain (V := fun _ => True) (.bind plain_registerOf fun _ => .bind plain_registerOf fun _ =>
      .bind plain_applyEager fun _ => .bind .release fun _ => .bind .release fun _ => .bind .swap fun _ =>
      .pure trivial)

theorem neat_labelName (op : LogicOp) : Neat strict op.labelName := by
  apply neat_of_all
  cases op <;> decide

theorem built_shortCircuit {op : LogicOp} {lhs rhs : Gen (Location × DataType)}
    (hl : Built strict quiet o o' [] raws lhs lhs) (hr : Built strict quiet o o' [] raws' rhs rhs)
    (l : Location) :
    Built strict quiet o o' [] (raws ++ raws') (shortCircuit op lhs rhs l) (shortCircuit op lhs rhs l) := by
  refine .given (plain_freshLabel _) fun behind hbehind => ?_
  have hneat : Neat strict behind.name := hbehind ▸ neat_labelName op
  exact hl.both fun _ => .after plain_freshLocation fun _ => .after .registerFor fun _ =>
    .after plain_truthOf fun _ => .after .release fun _ =>
    .after (.emit ⟨trivial, trivial⟩ rfl) fun _ => .after (.emit hneat rfl) fun _ => hr.before fun _ =>
    .plain (V := fun _ => True) (.bind plain_truthOf fun _ => .bind .release fun _ =>
      .bind (.emit hneat rfl) fun _ => .bind .swap fun _ => .pure trivial)

/-- Code generation for an expression comes to its strings. -/
theorem built_expression : ∀ (e : Expr) (context : DataType),
    Built strict quiet o o' [] e.strings (expression e context) (expression e context)
  | .literal _ (.integer _), _ => built_expressionNode fun _ => .plain plain_integerLiteral
  | .literal _ (.string _), _ => built_expressionNode fun _ => .plain .string
  | .var _ _, _ => built_expressionNode fun _ => .plain plain_variableValue
  | .unary _ _ operand, _ => built_expressionNode fun _ =>
    (built_expression operand _).before fun _ => .plain (V := fun _ => True) (.bind plain_copyOf fun _ =>
      .bind plain_applyUnary fun _ => .bind .release fun _ => .bind .swap fun _ => .pure trivial)
  | .binary _ (.arith _) lhs rhs, _ => built_expressionNode
    (built_eager (built_expression lhs .int) (built_expression rhs .int))
  | .binary _ (.compare _) lhs rhs, _ => built_expressionNode
    (built_eager (built_expression lhs .int) (built_expression rhs .int))
  | .binary _ (.logic _) lhs rhs, _ => built_expressionNode
    (built_shortCircuit (built_expression lhs .int) (built_expression rhs .int))
  | .misplaced _ _, _ => built_expressionNode fun _ => built_refuse

theorem built_argumentValues : ∀ args : List (Expr × DataType),
    Built strict quiet o o' [] (Expr.stringsOf (args.map (·.1))) (argumentValues args) (argumentValues args)
  | [] => .plain (V := fun _ => True) (.pure trivial)
  | (arg, type) :: rest => (built_expression arg type).both fun _ =>
    (built_argumentValues rest).before fun _ => .plain (V := fun _ => True) (.pure trivial)

end Expressions

/-! ### Statements -/

section Statements

variable {strict quiet : Prop} {o o' : Options} {tag : Tag} {name : String} {names raws : List String}

theorem built_call {args : List Expr} (h : Neat strict name) :
    Built strict quiet o o' [] (Expr.stringsOf args) (call o tag name args) (call o' tag name args) := by
  refine .given plain_callee fun p hp => ?_
  have hargs : (args.zip (p.params.map (·.1))).map (·.1) = args :=
    List.map_fst_zip (Nat.le_of_eq (by rw [List.length_map, hp]))
  have hvalues := @built_argumentValues strict quiet o o' (args.zip (p.params.map (·.1)))
  rw [hargs] at hvalues
  exact .after (plain_argumentTargets _ _) fun _ =>
    .behind (.comment (.append (fun _ => by decide) h.oneLine)) fun _ => hvalues.before fun _ =>
    .plain (.bind (.forEach (fun _ => plain_placeArgument) _) fun _ =>
      .bind (.emit ⟨trivial, trivial⟩ rfl) fun _ => .bind (plain_callSaved h) fun _ =>
      .bind (.forEach (fun _ => .release) _) fun _ => plain_restoreParameters)

theorem built_assign {v : Variable} {value : Expr} :
    Built strict quiet o o' [] value.strings (assign v value) (assign v value) :=
  (built_expression _ _).before fun _ => .plain (.bind plain_registerOf fun _ =>
    .bind plain_storeVariable fun _ => .release)

theorem built_declaration {type : DataType} {init : Option Expr} (h : Neat strict name) :
    Built strict False o o' [] (Expr.stringsOf init.toList) (declaration o tag name type init)
      (declaration o' tag name type init) := by
  refine .after plain_currentScope fun scope => ?_
  split
  · exact built_refuse
  · refine .behind (.comment ?_) fun _ => ?_
    · have htype : OneLine strict (type.name ++ " ") := fun _ => by cases type <;> decide
      exact ((htype.append h.oneLine).append fun _ => by decide).append (oneLine_signed _)
    · cases init with
      | some value =>
        have hstrings : Expr.stringsOf (some value).toList = value.strings := List.append_nil _
        rw [hstrings]
        exact built_assign.before fun _ => .plain (plain_modifyScope fun _ h => neat_declare h _)
      | none => exact .plain (plain_modifyScope fun _ h => neat_declare h _)

theorem built_assignment {value : Expr} (h : Neat strict name) :
    Built strict quiet o o' [] value.strings (assignment o tag name value) (assignment o' tag name value) :=
  .after plain_lookup fun _ => .behind (.comment (h.oneLine.append fun _ => by decide)) fun _ => built_assign

theorem built_returnValue {returns : DataType} {value : Expr} :
    Built strict quiet o o' [] value.strings (returnValue tag returns value)
      (returnValue tag returns value) := by
  unfold returnValue
  split
  · exact built_refuse
  · exact (built_expression _ _).before fun _ => .plain (.bind plain_registerOf fun _ =>
      .bind plain_copy fun _ => .release)

theorem built_giveBack {value : Option Expr} :
    Built strict quiet o o' [] (Expr.stringsOf value.toList) (giveBack tag value) (giveBack tag value) := by
  refine .after .get fun s => ?_
  cases value with
  | some e =>
    have hstrings : Expr.stringsOf (some e).toList = e.strings := List.append_nil _
    rw [hstrings]
    exact built_returnValue.before fun _ => .plain plain_jump
  | none => exact .plain plain_jump

theorem built_skipUnless {condition : Expr} {target : Label} (h : Neat strict target.name) :
    Built strict quiet o o' [] condition.strings (skipUnless condition target)
      (skipUnless condition target) :=
  (built_expression _ _).before fun _ => .plain (.bind plain_testZero fun _ => .emit h rfl)

theorem built_branch {condition : Expr} {thenCode thenCode' : Gen Unit}
    (h : Built strict quiet o o' names raws thenCode thenCode') :
    Built strict quiet o o' names (condition.strings ++ raws) (branch o condition thenCode none)
      (branch o' condition thenCode' none) := by
  refine .after (plain_freshLabel _) fun _ => .given (plain_freshLabel _) fun behind hbehind => ?_
  have hneat : Neat strict behind.name := hbehind ▸ neat_of_all (by decide)
  exact .behind (.comment fun _ => by decide) fun _ => (built_skipUnless hneat).both fun _ =>
    h.before fun _ => .plain (.emit hneat rfl)

theorem built_branchElse {condition : Expr} {thenCode thenCode' elseCode elseCode' : Gen Unit}
    {names' raws' : List String} (h : Built strict quiet o o' names raws thenCode thenCode')
    (h' : Built strict quiet o o' names' raws' elseCode elseCode') :
    Built strict quiet o o' (names ++ names') (condition.strings ++ (raws ++ raws'))
      (branch o condition thenCode (some elseCode)) (branch o' condition thenCode' (some elseCode')) := by
  refine .given (plain_freshLabel _) fun otherwise hotherwise =>
    .given (plain_freshLabel _) fun behind hbehind => ?_
  have helse : Neat strict otherwise.name := hotherwise ▸ neat_of_all (by decide)
  have hneat : Neat strict behind.name := hbehind ▸ neat_of_all (by decide)
  exact .behind (.comment fun _ => by decide) fun _ => (built_skipUnless helse).both fun _ =>
    h.bind fun _ => .after (.emit hneat rfl) fun _ => .after (.emit helse rfl) fun _ =>
    h'.before fun _ => .plain (.emit hneat rfl)

theorem built_loop {condition : Expr} {body body' : Role → Gen Unit}
    (h : ∀ role, role.Neat strict → Built strict quiet o o' names raws (body role) (body' role)) :
    Built strict quiet o o' names (condition.strings ++ raws) (loop o condition body)
      (loop o' condition body') := by
  refine .given (plain_freshLabel _) fun head hhead => .given (plain_freshLabel _) fun start hstart =>
    .given (plain_freshLabel _) fun behind hbehind => .given (plain_freshLabel _) fun exit hexit => ?_
  have hneat : Neat strict head.name := hhead ▸ neat_of_all (by decide)
  have hneat' : Neat strict exit.name := hexit ▸ neat_of_all (by decide)
  have hrole : (Role.loop head start behind).Neat strict :=
    ⟨hneat, hstart ▸ neat_of_all (by decide), hbehind ▸ neat_of_all (by decide)⟩
  exact .behind (.comment fun _ => by decide) fun _ => .after (.emit hneat rfl) fun _ =>
    (built_skipUnless hneat').both fun _ => (h _ hrole).before fun _ => .plain (.emit hneat' rfl)

/-- An external procedure is imported; any other imports what its body imports. -/
theorem built_procedure {signature : Signature} {body body' : Option (Role → Gen Unit)}
    (hname : Neat strict signature.name) (hsome : body.isSome = body'.isSome)
    (h : ∀ code ∈ body, ∀ code' ∈ body', ∀ role, role.Neat strict →
      Built strict False o o' names raws (code role) (code' role)) :
    Built strict False o o' (if signature.external then [signature.name] else names)
      (if signature.external then [] else raws) (procedure tag signature body)
      (procedure tag signature body') := by
  refine .after (plain_modifyScope fun _ h => h) fun _ => ?_
  split
  · exact .addExtern hname
  · cases body with
    | none =>
      cases body' with
      | none => exact built_refuse
      | some code' => cases hsome
    | some code =>
      cases body' with
      | none => cases hsome
      | some code' =>
        refine .after plain_currentScope fun scope => ?_
        split
        · have hcode := h code rfl code' rfl
            (.procedure signature.name signature.returns signature.bindings) hname
          exact .after (.emit hname rfl) fun _ => .after (.emit hname rfl) fun _ =>
            .after plain_setDepth fun _ => hcode.before fun _ => .plain plain_setDepth
        · exact built_refuse

theorem built_statementNode {kind : NodeKind} {work work' : Gen Unit}
    (h : Built strict quiet o o' names raws work work') :
    Built strict quiet o o' names raws (statementNode tag kind work) (statementNode tag kind work') := by
  rw [statementNode_eq, statementNode_eq]
  exact h.node tag kind

/-- A block imports what its statements import. -/
theorem built_block {role : Role} {stmts : List Stmt} {body body' : Gen Unit}
    (hrole : role.Neat strict) (h : Built strict False o o' names raws body body') :
    Built strict False o o' names raws (block role tag stmts body) (block role tag stmts body') := by
  rw [block_eq, block_eq]
  refine .node tag .block (.given (plain_scopeFor hrole stmts) fun scope hscope => ?_)
  refine .after .get fun s => .after plain_openFrame fun _ => .after (.setScopes id ?_) fun _ => ?_
  · intro scopes hscopes inner hinner
    rcases List.mem_cons.mp hinner with rfl | hmem
    · exact hscope
    · exact hscopes inner hmem
  · refine .after (plain_bindParameters _) fun parameters => h.before fun _ =>
      .plain (.bind (plain_closeFrame hrole hscope) fun _ => .bind plain_setDepth fun _ =>
        .setScopes id ?_)
    intro scopes hscopes inner hinner
    exact hscopes inner (List.mem_of_mem_drop hinner)

mutual

/-- The code of a statement imports the names that the statement declares as external, and comes to its
strings. -/
theorem built_statement : ∀ st : Stmt, (∀ name ∈ st.names, Neat strict name) →
    Built strict False o o' st.imports st.strings (statement o st) (statement o' st)
  | .block tag body, h => built_statementNode (.behind (.comment fun _ => by decide) fun _ =>
    built_block trivial (built_statements body h))
  | .procedure tag signature none, h => by
    have hbuilt : Built strict False o o' (if signature.external then [signature.name] else [])
        (if signature.external then [] else []) (procedure tag signature none)
        (procedure tag signature none) :=
      built_procedure (h _ List.mem_cons_self) rfl fun code hcode => by cases hcode
    rw [ite_self] at hbuilt
    exact built_statementNode hbuilt
  | .procedure tag signature (some body), h => built_statementNode
    (built_procedure (h _ List.mem_cons_self) rfl fun code hcode code' hcode' role hrole => by
      obtain rfl := Option.some.inj hcode
      obtain rfl := Option.some.inj hcode'
      exact built_blockOf body role hrole fun name hname => h name (List.mem_cons_of_mem _ hname))
  | .call _ _ _, h => built_statementNode (built_call (h _ List.mem_cons_self))
  | .declaration _ _ _ _, h => built_statementNode (built_declaration (h _ List.mem_cons_self))
  | .assignment _ _ _, h => built_statementNode (built_assignment (h _ List.mem_cons_self))
  | .branch _ _ thenBranch none, h =>
    built_statementNode (built_branch (built_blockOf thenBranch .plain trivial h))
  | .branch tag condition thenBranch (some elseBranch), h => by
    -- a block behind `else` has no report of its own, all else is a statement
    have hthen := built_blockOf thenBranch .plain trivial fun name hname =>
      h name (List.mem_append_left _ hname)
    have hnames : ∀ name ∈ elseBranch.names, Neat strict name := fun name hname =>
      h name (List.mem_append_right _ hname)
    cases elseBranch with
    | block elseTag body =>
      exact built_statementNode (built_branchElse hthen (built_block trivial
        (built_statements body hnames)))
    | _ => exact built_statementNode (built_branchElse hthen (built_statement _ hnames))
  | .loop _ _ body, h =>
    built_statementNode (built_loop fun role hrole => built_blockOf body role hrole h)
  | .continueLoop _, _ => built_statementNode (.plain plain_jump)
  | .breakLoop _, _ => built_statementNode (.plain plain_jump)
  | .giveBack _ _, _ => built_statementNode built_giveBack
  | .expression _, _ => built_statementNode built_refuse

theorem built_statements : ∀ stmts : List Stmt, (∀ name ∈ Stmt.namesOf stmts, Neat strict name) →
    Built strict False o o' (Stmt.importsOf stmts) (Stmt.stringsOf stmts) (statements o stmts)
      (statements o' stmts)
  | [], _ => .plain (V := fun _ => True) (.pure trivial)
  | first :: rest, h =>
    (built_statement first fun name hname => h name (List.mem_append_left _ hname)).bind fun _ =>
      .behind .check fun _ =>
      built_statements rest fun name hname => h name (List.mem_append_right _ hname)

theorem built_blockOf : ∀ (st : Stmt) (role : Role), role.Neat strict →
    (∀ name ∈ st.names, Neat strict name) →
    Built strict False o o' st.imports st.strings (blockOf o st role) (blockOf o' st role)
  | .block _ body, _, hrole, h => built_block hrole (built_statements body h)
  | .procedure .., _, _, _ | .call .., _, _, _ | .declaration .., _, _, _ | .assignment .., _, _, _
  | .branch .., _, _, _ | .loop .., _, _, _ | .continueLoop _, _, _, _ | .breakLoop _, _, _, _
  | .giveBack .., _, _, _ | .expression _, _, _, _ => .node _ _ built_refuse

end

end Statements

/-! ### What every run keeps -/

/-- A report of code generation, a plain instruction, or a comment if the options ask for comments. -/
def Mark.Regular (strict : Prop) (o : Options) : Mark → Prop
  | .event e => e.mode = .codegen
  | .instr i => i.Tidy strict ∧ (i.isComment = true → o.comments = true)

section Runs

variable {strict quiet : Prop} {o o' : Options}

theorem regular_of_plain {m : Mark} (h : m.Plain strict) : m.Regular strict o := by
  cases m with
  | event e => exact h.1
  | instr i =>
    cases i with
    | comment text => exact h.elim
    | _ => exact ⟨h, fun hcomment => by cases hcomment⟩

/-- A check of a lawful register file does nothing. -/
theorem checkRegisters_of_good {s : State} (hs : s.Good strict) :
    checkRegisters o s = (pure () : Gen Unit) s := by
  unfold checkRegisters
  split
  · change Stage.bind Stage.get _ s = _
    simp only [Stage.bind, Stage.get, hs.lawful.check]
    rfl
  · rfl

/-- Every run from a good state leaves regular marks and asks for no cancellation; if it succeeds, its
state is good and it has imported its names. -/
theorem Built.ensures {α : Type} {names raws : List String} {x y : Gen α}
    (h : Built strict quiet o o' names raws x y) : ∀ s : State, s.Good strict →
      Stage.Ensures (fun m _ => m.Regular strict o) (· ≠ .cancelled) x s fun _ s' =>
        s'.Good strict ∧ s'.externs = importAll s.externs names := by
  induction h with
  | plain hx =>
    intro s hs
    exact ((hx.gives s hs).weaken (fun _ _ h' => regular_of_plain h'.1) fun _ he => he).mono fun _ _ h' =>
      ⟨h'.2.1, h'.2.2.1⟩
  | fail he => exact fun s _ => Stage.ensures_fail.mpr he
  | given hx _ ih =>
    intro s hs
    refine Stage.ensures_bind.mpr
      (((hx.gives s hs).weaken (fun _ _ h' => regular_of_plain h'.1) fun _ he => he).mono ?_)
    rintro a s' ⟨ha, hs', hexterns, -⟩
    refine (ih a ha s' hs').mono fun _ s'' h' => ⟨h'.1, ?_⟩
    rw [h'.2, hexterns]
  | bind _ _ ihx ihf =>
    intro s hs
    refine Stage.ensures_bind.mpr ((ihx s hs).mono ?_)
    rintro a s' ⟨hs', hexterns⟩
    refine (ihf a s' hs').mono fun _ s'' h' => ⟨h'.1, ?_⟩
    rw [h'.2, hexterns, importAll_append]
  | node tag kind _ ih =>
    intro s hs
    unfold Generation.node nodeEvent notify
    simp only [Stage.ensures_bind, Stage.ensures_mark, Stage.ensures_return]
    exact ⟨rfl, (ih s hs).mono fun _ _ h' => ⟨rfl, h'⟩⟩
  | annotate =>
    exact fun s hs => Stage.ensures_modify.mpr ⟨⟨hs.lawful, hs.scopes, hs.externs⟩, rfl⟩
  | comment htext =>
    intro s hs
    unfold Generation.comment
    split
    next hcomments => exact Stage.ensures_mark.mpr ⟨⟨htext, fun _ => hcomments⟩, hs, rfl⟩
    next => exact Stage.ensures_return.mpr ⟨hs, rfl⟩
  | check =>
    intro s hs
    exact .of_eq (checkRegisters_of_good hs) (Stage.ensures_return.mpr ⟨hs, rfl⟩)
  | @addExtern name hname =>
    intro s hs
    refine Stage.ensures_modify.mpr ?_
    change _ ∧ _ = importName s.externs name
    unfold importName
    split
    · exact ⟨hs, rfl⟩
    · refine ⟨⟨hs.lawful, hs.scopes, fun other hmem => ?_⟩, rfl⟩
      rcases List.mem_append.mp hmem with hmem | hmem
      · exact hs.externs other hmem
      · rw [List.mem_singleton.mp hmem]
        exact hname

end Runs

/-! ### Programs -/

section Programs

variable {strict : Prop} {o o' : Options} {source : String} {ast : Ast}

/-- The state before code generation is good. -/
theorem good_init : State.Good strict {} where
  lawful := .empty
  scopes := fun _ hmem => absurd hmem List.not_mem_nil
  externs := fun _ hmem => absurd hmem List.not_mem_nil

theorem built_program {root : Stmt} (hroot : ast.root = some root)
    (h : ∀ name ∈ root.names, Neat strict name) :
    Built strict False o o' root.imports root.strings (program o ast) (program o' ast) := by
  unfold program
  rw [hroot]
  exact built_blockOf root .entry trivial h

theorem built_program_none (hroot : ast.root = none) :
    Built strict False o o' [] [] (program o ast) (program o' ast) := by
  unfold program
  rw [hroot]
  exact .fail fun h => by cases h

/-- The code generation for a program is built in this way, whatever the program. -/
theorem exists_built_program (o o' : Options) (ast : Ast) :
    ∃ names, Built False False o o' names (Stmt.stringsOf ast.root.toList) (program o ast)
      (program o' ast) := by
  cases hroot : ast.root with
  | none => exact ⟨_, built_program_none hroot⟩
  | some root =>
    have hstrings : Stmt.stringsOf (some root).toList = root.strings := List.append_nil _
    exact ⟨_, hstrings ▸ built_program hroot fun _ _ => False.elim⟩

theorem regular_of_mem_program {p : Mark × State} (h : p ∈ (program o ast {}).marks) :
    p.1.Regular False o := by
  obtain ⟨names, hbuilt⟩ := exists_built_program o o ast
  exact (hbuilt.ensures {} good_init).marks h

/-- Every report of code generation is in its own mode. -/
theorem mode_of_mem_generate {p : Mark × State} (h : p ∈ (generate o source ast).marks) {event : Event}
    (hevent : p.1.event? = some event) : event.mode = .codegen := by
  obtain ⟨m, s⟩ := p
  cases m with
  | event e =>
    obtain rfl := Option.some.inj hevent
    exact regular_of_mem_program h
  | instr i => cases hevent

end Programs

end Generation

end ProcLang
