import ProcLang.Proofs.Asm.Label
import ProcLang.Proofs.Generation.Nodes
import ProcLang.Proofs.Stack.Discipline

/-!
The global names of an assembler program.  Three kinds of names meet there: the entries of procedures,
the imported names and the labels of the constants.  Each kind alone has no name twice.  Between the
kinds there are two ways to clash, and no others: a body imports a name that the program defines, and a
procedure is called like the label of a constant.
-/

namespace ProcLang

/-! ### The names of an assembler program -/

/-- The entry that an instruction makes. -/
def Instr.symbol? : Instr → Option String
  | .symbol name => some name
  | _ => none

namespace Program

/-- The entries of a program, in order. -/
def symbols (p : Program) : List String := p.code.filterMap Instr.symbol?

/-- The labels of the constants of a program, in order. -/
def constantLabels (p : Program) : List String := p.constants.entries.map Prod.fst

/-- All names that a program binds. -/
def boundNames (p : Program) : List String := p.symbols ++ p.externs ++ p.constantLabels

theorem constantLabels_eq (p : Program) :
    p.constantLabels = (List.range p.constants.strings.length).map ConstantPool.label := by
  refine List.ext_getElem ?_ fun i _ _ => ?_
  · simp [constantLabels, ConstantPool.entries]
  · simp [constantLabels, ConstantPool.entries]

theorem mem_constantLabels {p : Program} {name : String} :
    name ∈ p.constantLabels ↔ ∃ k < p.constants.strings.length, name = ConstantPool.label k := by
  rw [constantLabels_eq]
  simp only [List.mem_map, List.mem_range, eq_comm]

end Program

/-- The label of a constant tells its place. -/
theorem ConstantPool.label_injective : Function.Injective ConstantPool.label := by
  intro m n h
  have hlist := congrArg String.toList h
  simp only [ConstantPool.label, String.toList_append, List.append_cancel_left_eq] at hlist
  exact toDigits_inj (by simpa using hlist)

theorem Program.nodup_constantLabels (p : Program) : p.constantLabels.Nodup := by
  rw [constantLabels_eq]
  exact List.nodup_range.map ConstantPool.label_injective

/-! ### The names of a program -/

/-- The procedures of a program. -/
def Ast.procedures (ast : Ast) : List Stmt :=
  match ast.root with
  | some (.block _ procs) => procs
  | _ => []

namespace Stmt

/-- The names of the procedures with a body. -/
def definedNames (procs : List Stmt) : List String :=
  procs.filterMap fun
    | .procedure _ signature (some _) => some signature.name
    | _ => none

/-- The names that are imported in the bodies of procedures. -/
def bodyImports (procs : List Stmt) : List String :=
  procs.flatMap fun
    | .procedure _ _ (some body) => body.imports
    | _ => []

end Stmt

section WellFormed

open Stmt

variable {names : List NameScope} {procs : List Stmt} {name : String}

theorem exists_of_mem_definedNames (h : name ∈ definedNames procs) :
    ∃ tag signature body, .procedure tag signature (some body) ∈ procs ∧ signature.name = name := by
  obtain ⟨st, hst, hname⟩ := List.mem_filterMap.mp h
  cases st with
  | procedure tag signature body =>
    cases body with
    | none => cases hname
    | some body => exact ⟨tag, signature, body, hst, Option.some.inj hname⟩
  | _ => cases hname

/-- Names that are declared before are not defined again. -/
theorem not_mem_definedNames (hwf : ProceduresWellFormed names procs) (hnames : names ≠ [])
    (h : name ∈ (names.headD {}).procedures) : name ∉ definedNames procs := by
  intro hmem
  obtain ⟨tag, signature, body, hst, rfl⟩ := exists_of_mem_definedNames hmem
  exact Generation.not_mem_procedures hwf hst hnames h

theorem nodup_definedNames (hwf : ProceduresWellFormed names procs) (hnames : names ≠ []) :
    (definedNames procs).Nodup := by
  induction procs generalizing names with
  | nil => exact .nil
  | cons st rest ih =>
    obtain ⟨n, outer, rfl⟩ := List.exists_cons_of_ne_nil hnames
    have hrest := ih hwf.2 (by simp [declareIn])
    cases st with
    | procedure tag signature body =>
      cases body with
      | none => exact hrest
      | some body =>
        refine List.nodup_cons.mpr ⟨?_, hrest⟩
        exact not_mem_definedNames hwf.2 (by simp [declareIn]) (by simp [declareIn, declare])
    | _ => exact hwf.1.elim

/-- An external procedure of a program has a name that the program does not define. -/
theorem ne_of_mem_definedNames (hwf : ProceduresWellFormed names procs) (hnames : names ≠ [])
    (hdefined : name ∈ definedNames procs) {tag : Tag} {signature : Signature}
    (hmem : .procedure tag signature none ∈ procs) : signature.name ≠ name := by
  induction procs generalizing names with
  | nil => cases hmem
  | cons st rest ih =>
    obtain ⟨n, outer, rfl⟩ := List.exists_cons_of_ne_nil hnames
    have hne : st.declareIn (n :: outer) ≠ [] := by simp [declareIn]
    rcases List.mem_cons.mp hmem with rfl | hrest
    · rintro rfl
      exact not_mem_definedNames hwf.2 hne (by simp [declareIn, declare]) hdefined
    · cases st with
      | procedure tag' signature' body =>
        cases body with
        | none => exact ih hwf.2 hne hdefined hrest
        | some body =>
          rcases List.mem_cons.mp hdefined with rfl | hdefined
          · intro heq
            exact Generation.not_mem_procedures hwf.2 hrest hne (by simp [declareIn, declare, heq])
          · exact ih hwf.2 hne hdefined hrest
      | _ => exact hwf.1.elim

/-- A program imports the names of its external procedures, and what the bodies import. -/
theorem mem_importsOf (hwf : ProceduresWellFormed names procs) :
    name ∈ importsOf procs ↔
      (∃ tag signature, .procedure tag signature none ∈ procs ∧ signature.name = name) ∨
        name ∈ bodyImports procs := by
  induction procs generalizing names with
  | nil => simp [importsOf, bodyImports]
  | cons st rest ih =>
    rw [importsOf, List.mem_append, ih hwf.2]
    cases st with
    | procedure tag signature body =>
      cases body with
      | none =>
        have hhead : (Stmt.procedure tag signature none).imports = [signature.name] := by
          rw [imports, if_pos hwf.1.1]
        have hbodies : bodyImports (.procedure tag signature none :: rest) = bodyImports rest := rfl
        rw [hhead, hbodies, List.mem_singleton, ← or_assoc]
        refine or_congr_left ⟨?_, ?_⟩
        · rintro (rfl | ⟨tag', signature', hmem, rfl⟩)
          · exact ⟨tag, signature, List.mem_cons_self, rfl⟩
          · exact ⟨tag', signature', List.mem_cons_of_mem _ hmem, rfl⟩
        · rintro ⟨tag', signature', hmem, rfl⟩
          rcases List.mem_cons.mp hmem with heq | hmem
          · cases heq
            exact .inl rfl
          · exact .inr ⟨tag', signature', hmem, rfl⟩
      | some body =>
        have hext : signature.external = false := by
          cases body with
          | block => exact hwf.1.1
          | _ => exact hwf.1.elim
        have hhead : (Stmt.procedure tag signature (some body)).imports = body.imports := by
          rw [imports, hext]
          rfl
        have hbodies : bodyImports (.procedure tag signature (some body) :: rest) =
            body.imports ++ bodyImports rest := rfl
        rw [hhead, hbodies, List.mem_append, or_left_comm]
        refine or_congr_left ⟨?_, ?_⟩
        · rintro ⟨tag', signature', hmem, rfl⟩
          exact ⟨tag', signature', List.mem_cons_of_mem _ hmem, rfl⟩
        · rintro ⟨tag', signature', hmem, rfl⟩
          rcases List.mem_cons.mp hmem with heq | hmem
          · cases heq
          · exact ⟨tag', signature', hmem, rfl⟩
    | _ => exact hwf.1.elim

end WellFormed

/-! ### The names of generated code -/

namespace Generation

section Programs

variable {options : Options} {source : String} {ast : Ast} {pool : List String}

theorem ProcedureCode.symbols {scopes : ScopeStack} {signature : Signature} {body : List Stmt}
    {names : List NameScope} {n n' : Nat} {code : List Instr} {ls : List Spot}
    (hscopes : Outermost scopes) (htypes : ∀ p ∈ signature.params, p.type ≠ .void)
    (hnodup : (signature.params.map (·.name)).Nodup)
    (hwf : Stmt.BodyWellFormed names signature body)
    (h : ProcedureCode options pool scopes signature body n code n' ls) :
    code.filterMap Instr.symbol? = [signature.name] := by
  obtain ⟨c, _, defs, rfl, -, -, hshaped⟩ := h.shaped hscopes htypes hnodup hwf
  have htyped := hshaped.typed (fun l _ => .label l ∈ c) (fun _ _ => False.elim) hshaped.present
  have hnone : c.filterMap Instr.symbol? = [] := by
    refine List.filterMap_eq_nil_iff.mpr fun i hi => ?_
    cases i with
    | symbol name => exact absurd hi htyped.not_symbol
    | _ => rfl
  change signature.name :: c.filterMap Instr.symbol? = _
  rw [hnone]

/-- The entries of the code of a program are the procedures that it defines. -/
theorem ProgramCode.symbols {scopes : ScopeStack} {procs : List Stmt} {names : NameScope}
    {n n' : Nat} {code : List Instr} {ls : List Spot} (hscopes : Outermost scopes)
    (hwf : Stmt.ProceduresWellFormed [names] procs)
    (h : ProgramCode options pool scopes procs n code n' ls) :
    code.filterMap Instr.symbol? = Stmt.definedNames procs := by
  induction h generalizing names with
  | nil => rfl
  | external _ ih => exact ih hscopes.after hwf.2
  | @procedure scopes tag signature bodyTag body rest n₁ c₁ n₂ c₂ n₃ ls₁ ls₂ _ hproc _ ih =>
    obtain ⟨htypes, hnodup, _, hbody⟩ := wellFormed_of_mem_procedures hwf List.mem_cons_self
    have hfirst := hproc.symbols hscopes.after htypes hnodup hbody
    have hglobal : (Instr.global signature.name :: c₁).filterMap Instr.symbol? = [signature.name] := by
      rw [List.filterMap_cons_none rfl, hfirst]
    rw [List.filterMap_append, hglobal, ih hscopes.after hwf.2]
    rfl

/-- The imports of the assembler program are those of the program, each once. -/
theorem externs_of_generate {root : Stmt} (hroot : ast.root = some root) {p : Program}
    (hgen : (generate options source ast).result = .ok p) :
    p.externs = importAll [] root.imports := by
  obtain ⟨hr, rfl⟩ := ok_generate hgen
  have hbuilt : Built False False options options root.imports root.strings (program options ast)
      (program options ast) :=
    built_program hroot fun _ _ => False.elim
  exact ((hbuilt.ensures {} good_init).value hr).2

/-- When the global names of a program are distinct.  The entries are the procedures that the program
defines, the imports are the names that it declares as external anywhere; in each of the three kinds no
name occurs twice.  The names are distinct altogether if and only if no body imports a name that the
program defines, and no procedure has the name of a constant. -/
theorem nodup_boundNames_iff {tokens : List Token} (hparse : parse tokens = .ok ast) {p : Program}
    (hgen : (generate options source ast).result = .ok p) :
    p.symbols = Stmt.definedNames ast.procedures ∧
    p.externs = importAll [] (Stmt.importsOf ast.procedures) ∧
    p.symbols.Nodup ∧ p.externs.Nodup ∧ p.constantLabels.Nodup ∧
    (p.boundNames.Nodup ↔
      (∀ name ∈ Stmt.definedNames ast.procedures, name ∉ Stmt.bodyImports ast.procedures) ∧
      ∀ k < p.constants.strings.length,
        ConstantPool.label k ∉ Stmt.definedNames ast.procedures ∧
        ConstantPool.label k ∉ Stmt.importsOf ast.procedures) := by
  obtain ⟨rootTag, procs, hroot, hwf⟩ := wellFormed_of_parse hparse
  obtain ⟨n, ls, -, hcode⟩ := programCode_of_generate hroot hwf hgen
  have hprocs : ast.procedures = procs := by rw [Ast.procedures, hroot]
  rw [hprocs]
  have hsymbols : p.symbols = Stmt.definedNames procs :=
    hcode.symbols ⟨entryScope, rfl, rfl, rfl, rfl, rfl⟩ hwf
  have hexterns : p.externs = importAll [] (Stmt.importsOf procs) := externs_of_generate hroot hgen
  have hmem : ∀ name, name ∈ p.externs ↔ name ∈ Stmt.importsOf procs := fun name => by
    rw [hexterns, mem_importAll]
    simp
  have hdistinct : p.symbols.Nodup := hsymbols ▸ nodup_definedNames hwf (List.cons_ne_nil _ _)
  have honce : p.externs.Nodup := hexterns ▸ nodup_importAll _ .nil
  -- a name that is defined can only be imported in a body
  have hbodies : ∀ name ∈ Stmt.definedNames procs,
      (name ∈ Stmt.importsOf procs ↔ name ∈ Stmt.bodyImports procs) := fun name hdefined => by
    rw [mem_importsOf hwf]
    refine ⟨fun h => h.elim ?_ id, .inr⟩
    rintro ⟨tag, signature, hst, heq⟩
    exact absurd heq (ne_of_mem_definedNames hwf (List.cons_ne_nil _ _) hdefined hst)
  refine ⟨hsymbols, hexterns, hdistinct, honce, p.nodup_constantLabels, ?_⟩
  rw [Program.boundNames, List.nodup_append, List.nodup_append, hsymbols]
  constructor
  · rintro ⟨⟨-, -, hapart⟩, -, hlabels⟩
    refine ⟨fun name hdefined hbody => ?_, fun k hk => ⟨fun h => ?_, fun h => ?_⟩⟩
    · exact hapart name hdefined name ((hmem name).mpr ((hbodies name hdefined).mpr hbody)) rfl
    · exact hlabels _ (List.mem_append_left _ h) _ (Program.mem_constantLabels.mpr ⟨k, hk, rfl⟩) rfl
    · exact hlabels _ (List.mem_append_right _ ((hmem _).mpr h)) _
        (Program.mem_constantLabels.mpr ⟨k, hk, rfl⟩) rfl
  · rintro ⟨hapart, hlabels⟩
    refine ⟨⟨hsymbols ▸ hdistinct, honce, fun name hdefined other himported heq => ?_⟩,
      p.nodup_constantLabels, fun name hname other hlabel heq => ?_⟩
    · subst heq
      exact hapart name hdefined ((hbodies name hdefined).mp ((hmem name).mp himported))
    · subst heq
      obtain ⟨k, hk, rfl⟩ := Program.mem_constantLabels.mp hlabel
      rcases List.mem_append.mp hname with h | h
      · exact (hlabels k hk).1 h
      · exact (hlabels k hk).2 ((hmem _).mp h)

/-- The names of a program with an import in a body and a constant. -/
theorem nodup_boundNames_iff_main : ∃ tokens ast p,
    tokenize "t.mc" "void main() \x7b extern void puts(int s); puts(\"a\"); \x7d" = .ok tokens ∧
    parse tokens = .ok ast ∧ (generate {} "t.mc" ast).result = .ok p ∧
    p.boundNames = ["main", "puts", "str_0"] ∧ p.boundNames.Nodup := by
  have hpasses : passes "t.mc" "void main() \x7b extern void puts(int s); puts(\"a\"); \x7d"
      (fun ast => (generate {} "t.mc" ast).result.toOption.any fun p =>
        p.boundNames = ["main", "puts", "str_0"] ∧
        (∀ name ∈ Stmt.definedNames ast.procedures, name ∉ Stmt.bodyImports ast.procedures) ∧
        ∀ k < p.constants.strings.length,
          ConstantPool.label k ∉ Stmt.definedNames ast.procedures ∧
          ConstantPool.label k ∉ Stmt.importsOf ast.procedures) = true := by
    decide +kernel
  obtain ⟨tokens, ast, htokens, hparse, htest⟩ := exists_of_passes hpasses
  cases hgen : (generate {} "t.mc" ast).result with
  | error e => simp [hgen, Except.toOption] at htest
  | ok p =>
    rw [hgen] at htest
    obtain ⟨hnames, hapart⟩ := of_decide_eq_true htest
    exact ⟨tokens, ast, p, htokens, hparse, hgen, hnames,
      (nodup_boundNames_iff hparse hgen).2.2.2.2.2.mpr hapart⟩

/-- A text is accepted as a program whose global names are not distinct. -/
def BindsTwice (text : String) : Prop :=
  ∃ tokens ast p, tokenize "t.mc" text = .ok tokens ∧ parse tokens = .ok ast ∧
    (generate {} "t.mc" ast).result = .ok p ∧ ¬ p.boundNames.Nodup

theorem bindsTwice_of_passes {text : String} (h : passes "t.mc" text (fun ast =>
      (generate {} "t.mc" ast).result.toOption.any fun p => ¬ p.boundNames.Nodup) = true) :
    BindsTwice text := by
  obtain ⟨tokens, ast, htokens, hparse, htest⟩ := exists_of_passes h
  cases hgen : (generate {} "t.mc" ast).result with
  | error e => simp [hgen, Except.toOption] at htest
  | ok p =>
    rw [hgen] at htest
    exact ⟨tokens, ast, p, htokens, hparse, hgen, of_decide_eq_true htest⟩

/-- The global names of a program need not be distinct: a name is imported in a body and defined, and a
procedure has the name of a constant. -/
theorem boundNames_not_nodup :
    BindsTwice "void main() \x7b extern int foo(); \x7d int foo() \x7b return 1; \x7d" ∧
    BindsTwice "extern void str_0(int s); void main() \x7b str_0(\"a\"); \x7d" :=
  ⟨bindsTwice_of_passes (by decide +kernel), bindsTwice_of_passes (by decide +kernel)⟩

end Programs

end Generation

end ProcLang
