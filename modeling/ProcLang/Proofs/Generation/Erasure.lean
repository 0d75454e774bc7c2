import ProcLang.Proofs.Generation.Outcome
import ProcLang.Proofs.Generation.Nodes
import ProcLang.Proofs.Observer.Refusal
import ProcLang.Proofs.Parsing.Sound
import ProcLang.Proofs.Token.Printing

/-!
The options of code generation.  They decide whether comments are written and whether the register file
is checked.  The check never fails, so it changes nothing.  The comments change nothing either, but for
the comments themselves: without them a run has the same end and the same reports, and the same
instructions in between.  So the printed program without comments is the one with comments, without the
lines of comments.
-/

namespace ProcLang

/-! ### Runs seen through some of their marks -/

namespace Stage

variable {μ σ α β : Type} {keep : μ → Bool}

/-- A stage, of whose marks only some are kept. -/
def only (keep : μ → Bool) (x : Stage μ σ α) : Stage μ σ α := fun s =>
  ⟨(x s).marks.filter fun p => keep p.1, (x s).result, (x s).state⟩

theorem only_bind (x : Stage μ σ α) (f : α → Stage μ σ β) :
    only keep (x >>= f) = only keep x >>= fun a => only keep (f a) := by
  funext s
  change only keep (bind x f) s = bind (only keep x) (fun a => only keep (f a)) s
  simp only [only, bind]
  rcases x s with ⟨marks, _ | a, s'⟩
  · rfl
  · simp

theorem only_true (x : Stage μ σ α) (s : σ) : only (fun _ => true) x s = x s := by
  simp [only]

/-- Stages agree from a state if their first parts do, and their second parts do from where the first
parts end. -/
theorem bind_eq {x y : Stage μ σ α} {f g : α → Stage μ σ β} {s : σ} (hx : y s = x s)
    (hf : ∀ a, (x s).result = .ok a → g a (x s).state = f a (x s).state) :
    (y >>= g) s = (x >>= f) s := by
  change bind y g s = bind x f s
  unfold bind
  rw [hx]
  rcases hrun : x s with ⟨marks, e | a, s'⟩
  · rfl
  · rw [hrun] at hf
    simp only [hf a rfl]

end Stage

namespace Generation

/-! ### Two options -/

section Options

variable {strict quiet : Prop} {o o' : Options} {keep : Mark → Bool}

/-- Where comments are not looked at, writing one does nothing. -/
theorem only_comment (hnone : ∀ text, keep (.instr (.comment text)) = false) (text : String) :
    Stage.only keep (comment o text) = (pure () : Gen Unit) := by
  funext s
  unfold comment
  split
  · change (⟨[(Mark.instr (.comment text), s)].filter fun p => keep p.1, .ok (), s⟩ :
      Outcome Mark State Unit) = ⟨[], .ok (), s⟩
    rw [List.filter_cons_of_neg (by simp [hnone]), List.filter_nil]
  · rfl

/-- Where comments are written alike, or are not looked at, the options make no difference. -/
theorem Built.only_eq {α : Type} {names raws : List String} {x y : Gen α}
    (h : Built strict quiet o o' names raws x y)
    (hkeep : o.comments = o'.comments ∨ ∀ text, keep (.instr (.comment text)) = false) :
    ∀ s : State, s.Good strict → Stage.only keep y s = Stage.only keep x s := by
  induction h with
  | plain _ | fail _ | annotate | addExtern _ => exact fun s _ => rfl
  | given hx _ ih =>
    intro s hs
    rw [Stage.only_bind, Stage.only_bind]
    refine Stage.bind_eq rfl fun a ha => ?_
    have hend := (hx.gives s hs).value ha
    exact ih a hend.1 _ hend.2.1
  | bind hx _ ihx ihf =>
    intro s hs
    rw [Stage.only_bind, Stage.only_bind]
    refine Stage.bind_eq (ihx s hs) fun a ha => ?_
    exact ihf a _ ((hx.ensures s hs).value ha).1
  | node tag kind _ ih =>
    intro s hs
    unfold Generation.node
    simp only [Stage.only_bind]
    refine Stage.bind_eq rfl fun _ _ => ?_
    exact Stage.bind_eq (ih _ hs) fun _ _ => rfl
  | comment _ =>
    intro s _
    rcases hkeep with heq | hnone
    · unfold Generation.comment
      rw [heq]
    · rw [only_comment hnone, only_comment hnone]
  | check =>
    intro s hs
    unfold Stage.only
    rw [checkRegisters_of_good hs, checkRegisters_of_good hs]

theorem only_program (o o' : Options) (keep : Mark → Bool) (ast : Ast)
    (hkeep : o.comments = o'.comments ∨ ∀ text, keep (.instr (.comment text)) = false) :
    Stage.only keep (program o' ast) {} = Stage.only keep (program o ast) {} := by
  obtain ⟨names, hbuilt⟩ := exists_built_program o o' ast
  exact hbuilt.only_eq hkeep {} good_init

/-- The checks of the register file make no difference at all. -/
theorem generate_eq (source : String) (ast : Ast) (h : o.comments = o'.comments) :
    generate o source ast = generate o' source ast := by
  have hrun := only_program o o' (fun _ => true) ast (.inl h)
  rw [Stage.only_true, Stage.only_true] at hrun
  unfold generate
  rw [hrun]

end Options

/-! ### Runs without comments -/

section Comments

variable {o o' : Options}

/-- A mark that is a comment. -/
def Mark.isComment : Mark → Bool
  | .instr i => i.isComment
  | .event _ => false

/-- The run without its comments. -/
def uncomment (run : Outcome Mark State Program) : Outcome Mark State Program :=
  ⟨run.marks.filter fun p => !p.1.isComment, run.result.map Program.uncommented, run.state⟩

theorem codeOf_filter (marks : List (Mark × State)) :
    codeOf (marks.filter fun p => !p.1.isComment) = (codeOf marks).filter (!·.isComment) := by
  induction marks with
  | nil => rfl
  | cons p marks ih =>
    obtain ⟨m, s⟩ := p
    cases m with
    | event e => exact ih
    | instr i =>
      have hcode : codeOf ((.instr i, s) :: marks) = i :: codeOf marks := rfl
      rw [hcode, List.filter_cons, List.filter_cons, ← ih]
      change codeOf (if (!i.isComment) = true then _ else _) = _
      split <;> rfl

theorem events_uncomment (run : Outcome Mark State Program) :
    (uncomment run).marks.filterMap (·.1.event?) = run.marks.filterMap (·.1.event?) := by
  unfold uncomment
  rw [List.filterMap_filter]
  refine List.filterMap_congr fun p _ => ?_
  obtain ⟨m, s⟩ := p
  cases m with
  | event e => rfl
  | instr i => simp [Mark.event?]

/-- A run under options that ask for no comments writes none. -/
theorem isComment_of_mem_program {ast : Ast} (h : o.comments = false) {p : Mark × State}
    (hp : p ∈ (program o ast {}).marks) : p.1.isComment = false := by
  have hregular := regular_of_mem_program hp
  obtain ⟨m, s⟩ := p
  cases m with
  | event e => rfl
  | instr i =>
    refine Bool.eq_false_iff.mpr fun hi => ?_
    have hon := hregular.2 hi
    rw [h] at hon
    cases hon

/-- Without comments all is as with them, but for the comments. -/
theorem generate_uncommented (o : Options) (source : String) (ast : Ast) (h : o'.comments = false) :
    generate o' source ast = uncomment (generate o source ast) := by
  have hrun := only_program o o' (fun m => !m.isComment) ast (.inr fun _ => rfl)
  obtain ⟨hmarks, hresult, hstate⟩ := Outcome.mk.inj hrun
  have hself : ((program o' ast {}).marks.filter fun p => !p.1.isComment) = (program o' ast {}).marks :=
    List.filter_eq_self.mpr fun p hp => by rw [isComment_of_mem_program h hp, Bool.not_false]
  rw [hself] at hmarks
  simp only [generate, uncomment, hmarks, hresult, hstate, codeOf_filter]
  cases (program o ast {}).result <;> rfl

end Comments

end Generation

/-! ### The names of a program that was read -/

namespace Grammar

/-- Every name is that of an identifier among the tokens. -/
def Spells (ts : List Token) (names : List String) : Prop :=
  ∀ name ∈ names, ∃ t ∈ ts, t.kind = .identifier ∧ t.string = name

section Spells

variable {ts us : List Token} {names names' : List String}

theorem spells_nil : Spells ts [] := fun _ h => absurd h List.not_mem_nil

theorem spells_singleton {t : Token} (ht : t ∈ ts) (hkind : t.kind = .identifier) :
    Spells ts [t.string] := by
  intro name hname
  exact ⟨t, ht, hkind, (List.mem_singleton.mp hname).symm⟩

theorem Spells.append (h : Spells ts names) (h' : Spells ts names') : Spells ts (names ++ names') :=
  fun name hname => (List.mem_append.mp hname).elim (h name) (h' name)

theorem Spells.mono (h : Spells ts names) (hsub : ts ⊆ us) : Spells us names := by
  intro name hname
  obtain ⟨t, ht, hspelled⟩ := h name hname
  exact ⟨t, hsub ht, hspelled⟩

theorem spells_signature {external : Bool} {signature : Signature} (h : SignatureOf external ts signature) :
    Spells ts [signature.name] := by
  cases h with
  | mk _ hname _ => exact spells_singleton (by simp) hname

theorem spells_external {st : Stmt} (h : External ts st) : Spells ts st.names := by
  cases h with
  | mk _ hsig _ => exact (spells_signature hsig).mono (by simp)

mutual

theorem spells_statement : ∀ {ts : List Token} (st : Stmt), Statement ts st → Spells ts st.names
  | _, .block tag body, h => by
    cases h with
    | block h =>
      cases h with
      | mk _ hbody _ => exact (spells_statements body hbody).mono (by simp)
    | _ h => cases h
  | _, .procedure tag signature body, h => by
    cases h with
    | external h => exact spells_external h
    | _ h => cases h
  | _, .call tag name args, h => by
    cases h with
    | call hname _ _ => exact spells_singleton (by simp) hname
    | _ h => cases h
  | _, .declaration tag name type init, h => by
    cases h with
    | declaration _ hname _ | initialised _ hname _ _ _ => exact spells_singleton (by simp) hname
    | _ h => cases h
  | _, .assignment tag name value, h => by
    cases h with
    | assignment hname _ _ _ => exact spells_singleton (by simp) hname
    | _ h => cases h
  | _, .branch tag condition thenBranch none, h => by
    cases h with
    | branch h =>
      cases h with
      | alone _ _ hthen => exact (spells_statement thenBranch (.block hthen)).mono (by simp)
    | _ h => cases h
  | _, .branch tag condition thenBranch (some elseBranch), h => by
    cases h with
    | branch h =>
      cases h with
      | otherwise _ _ hthen _ helse =>
        exact .append ((spells_statement thenBranch (.block hthen)).mono fun t ht => by simp [ht])
          ((spells_statement elseBranch (.block helse)).mono fun t ht => by simp [ht])
      | chained _ _ hthen _ helse =>
        exact .append ((spells_statement thenBranch (.block hthen)).mono fun t ht => by simp [ht])
          ((spells_statement elseBranch (.branch helse)).mono fun t ht => by simp [ht])
    | _ h => cases h
  | _, .loop tag condition body, h => by
    cases h with
    | loop _ _ hbody => exact (spells_statement body (.block hbody)).mono (by simp)
    | _ h => cases h
  | _, .continueLoop _, _ | _, .breakLoop _, _ | _, .giveBack .., _ | _, .expression _, _ => spells_nil

theorem spells_statements :
    ∀ {ts : List Token} (body : List Stmt), Sequence Statement ts body → Spells ts (Stmt.namesOf body)
  | _, [], _ => spells_nil
  | _, first :: rest, h => by
    cases h with
    | cons hfirst hrest =>
      exact .append ((spells_statement first hfirst).mono (by simp))
        ((spells_statements rest hrest).mono (by simp))

end

theorem spells_procedure {st : Stmt} (h : Procedure ts st) : Spells ts st.names := by
  cases h with
  | external h => exact spells_external h
  | defined hsig hbody =>
    exact .append ((spells_signature hsig).mono (by simp))
      ((spells_statement _ (.block hbody)).mono (by simp))

theorem spells_procedures {body : List Stmt} (h : Sequence Procedure ts body) :
    Spells ts (Stmt.namesOf body) := by
  induction h with
  | nil => exact spells_nil
  | cons hfirst _ ih => exact .append ((spells_procedure hfirst).mono (by simp)) (ih.mono (by simp))

end Spells

end Grammar

/-- The identifiers of a text are neat. -/
theorem neat_of_tokenize {file source : String} {tokens : List Token}
    (h : tokenize file source = .ok tokens) {t : Token} (ht : t ∈ tokens) (hkind : t.kind = .identifier) :
    Neat True t.string := by
  intro _
  obtain ⟨before, stop, rfl, hproper, hstop⟩ := proper_of_tokenize h
  rcases List.mem_append.mp ht with ht | ht
  · cases hproper t ht with
    | fixed hspelling _ =>
      rw [hkind] at hspelling
      cases hspelling
    | identifier _ hvalue hname =>
      unfold Token.string
      rw [hvalue]
      exact hname.all
    | number hnumber _ =>
      rw [hkind] at hnumber
      cases hnumber
    | string hstring _ _ =>
      rw [hkind] at hstring
      cases hstring
  · -- the last token is the end
    rw [List.mem_singleton.mp ht] at hkind
    have heof : stop.kind = .eof := congrArg Prod.fst hstop
    rw [heof] at hkind
    cases hkind

/-- The names of a program that was read from a text are neat. -/
theorem neat_of_parse {file source : String} {tokens : List Token} {ast : Ast}
    (ht : tokenize file source = .ok tokens) (hp : parse tokens = .ok ast) :
    ∃ root, ast.root = some root ∧ ∀ name ∈ root.names, Neat True name := by
  obtain ⟨tag, body, hroot, hbody, _⟩ := Parsing.derives_of_parse hp
  refine ⟨.block tag body, hroot, fun name hname => ?_⟩
  obtain ⟨t, hmem, hkind, rfl⟩ := Grammar.spells_procedures hbody name hname
  exact neat_of_tokenize ht ((List.takeWhile_sublist _).subset hmem) hkind

/-- The lines of a program that was read from a text can be told apart; it keeps the name of the file. -/
theorem tidy_of_generate {options : Options} {file source : String} {tokens : List Token} {ast : Ast}
    (ht : tokenize file source = .ok tokens) (hp : parse tokens = .ok ast) {p : Program}
    (hgen : (generate options file ast).result = .ok p) : p.Tidy ∧ p.source = file := by
  obtain ⟨root, hroot, hnames⟩ := neat_of_parse ht hp
  have hbuilt : Generation.Built True False options options root.imports root.strings
      (Generation.program options ast) (Generation.program options ast) :=
    Generation.built_program hroot hnames
  have hrun := hbuilt.ensures {} Generation.good_init
  rw [Generation.result_generate] at hgen
  cases hr : (Generation.program options ast {}).result with
  | error e =>
    rw [hr] at hgen
    cases hgen
  | ok u =>
    rw [hr] at hgen
    obtain rfl := Except.ok.inj hgen
    refine ⟨⟨(hrun.value hr).1.externs, fun i hi => ?_⟩, rfl⟩
    obtain ⟨⟨m, s⟩, hmem, hinstr⟩ := List.mem_filterMap.mp hi
    have hregular := hrun.marks hmem
    cases m with
    | event e => cases hinstr
    | instr j =>
      obtain rfl := Option.some.inj hinstr
      exact hregular.1

/-! ### Compilations without comments -/

section Compilation

variable {ω : Type} {ob : Observer ω} {w : ω} {on off : Options} {file source : String}

theorem Observer.Passive.watch_eq {μ σ α : Type} (h : ob.Passive) (view : μ → Option Event)
    (run : Outcome μ σ α) :
    ob.watch view w run = ((run.result, run.state), ob.told w (run.marks.filterMap fun p => view p.1)) := by
  refine Prod.ext (h.watch w run) ?_
  have hplay := @Script.play_ofRun ω μ σ α ob w view run
  rw [Script.play, Script.ofRun, hear_of_passive h] at hplay
  exact (congrArg Prod.snd hplay).symm

theorem assemblyScript_uncommented (hoff : off.comments = false) :
    assemblyScript off file source =
      ⟨(assemblyScript on file source).events,
        (assemblyScript on file source).result.map Program.uncommented⟩ := by
  unfold assemblyScript Script.andThen Script.ofRun
  cases (tokenStage file source ()).result with
  | error e => rfl
  | ok tokens =>
    dsimp only
    cases (Parsing.program (.ofTokens tokens)).result with
    | error e => rfl
    | ok ast =>
      dsimp only
      rw [Generation.generate_uncommented on file ast hoff, Generation.events_uncomment]
      rfl

theorem tidy_of_assemblyScript {p : Program} (h : (assemblyScript on file source).result = .ok p) :
    p.Tidy ∧ p.source = file := by
  unfold assemblyScript Script.andThen Script.ofRun at h
  cases ht : (tokenStage file source ()).result with
  | error e =>
    simp only [ht] at h
    cases h
  | ok tokens =>
    simp only [ht] at h
    cases hp : (Parsing.program (.ofTokens tokens)).result with
    | error e =>
      simp only [hp] at h
      cases h
    | ok ast =>
      simp only [hp] at h
      exact tidy_of_generate ht hp h

/-- The text of a compilation without comments, from the one with comments. -/
theorem outcome_uncommented (hon : on.comments = true) (hoff : off.comments = false) {text : String}
    (h : outcome on file source = .ok text) :
    ∃ body, text = headline file ++ body ∧
      outcome off file source = .ok (headline file ++ withoutComments body) ∧
      ('\n' ∉ file.toList → outcome off file source = .ok (withoutComments text)) := by
  have hscript := @assemblyScript_uncommented on off file source hoff
  unfold outcome at h ⊢
  cases hresult : (assemblyScript on file source).result with
  | error e =>
    rw [hresult] at h
    cases h
  | ok p =>
    rw [hresult] at h hscript
    obtain rfl : p.text on = text := Except.ok.inj h
    obtain ⟨htidy, rfl⟩ := tidy_of_assemblyScript hresult
    have htext : p.text on = headline p.source ++ unlines p.rows := p.text_eq (.inl hon)
    refine ⟨unlines p.rows, htext, ?_, fun hline => ?_⟩
    · rw [hscript, ← Program.text_uncommented htidy]
      rfl
    · rw [hscript, htext, Program.withoutComments_text htidy hline]
      rfl

/-- What the options do.  The checks of the register file change nothing in any run of code generation.
A run without comments ends as the one with comments does, in the same state and with the same reports,
and its program is the same without the comments.  So is a compilation without comments: it reports the
same, has the same error, or its text is the one with comments without the lines of comments.  The first
line is kept in any case; it is one line if the name of the file is. -/
theorem options_keep_meaning (hob : ob.Passive) (hon : on.comments = true) (hoff : off.comments = false) :
    (∀ o o' : Options, o.comments = o'.comments → ∀ file ast,
      ob.watch Generation.Mark.event? w (generate o file ast) =
        ob.watch Generation.Mark.event? w (generate o' file ast)) ∧
    (∀ file ast result state w',
      ob.watch Generation.Mark.event? w (generate on file ast) = ((result, state), w') →
      ob.watch Generation.Mark.event? w (generate off file ast) =
        ((result.map Program.uncommented, state), w')) ∧
    ∀ file source,
      (compile off file source ob w).2 = (compile on file source ob w).2 ∧
      (∀ e, (compile off file source ob w).1 = .error e ↔ (compile on file source ob w).1 = .error e) ∧
      ∀ text, (compile on file source ob w).1 = .ok text →
        ∃ body, text = headline file ++ body ∧
          (compile off file source ob w).1 = .ok (headline file ++ withoutComments body) ∧
          ('\n' ∉ file.toList → (compile off file source ob w).1 = .ok (withoutComments text)) := by
  refine ⟨fun o o' h file ast => ?_, fun file ast result state w' h => ?_, fun file source => ?_⟩
  · rw [Generation.generate_eq file ast h]
  · rw [hob.watch_eq] at h
    obtain ⟨hend, rfl⟩ := Prod.mk.inj h
    obtain ⟨rfl, rfl⟩ := Prod.mk.inj hend
    rw [hob.watch_eq, Generation.generate_uncommented on file ast hoff, Generation.events_uncomment]
    rfl
  · rw [compile_of_passive hob, compile_of_passive hob]
    have hscript := @assemblyScript_uncommented on off file source hoff
    refine ⟨?_, fun e => ?_, fun text h => outcome_uncommented hon hoff h⟩
    · dsimp only [transcript]
      rw [hscript]
      cases (assemblyScript on file source).result <;> rfl
    · dsimp only [outcome]
      rw [hscript]
      cases (assemblyScript on file source).result <;> simp [Except.map]

/-- A program whose code has comments in it. -/
theorem options_keep_meaning_branch :
    ((assemble {} "t.mc" "void f(int a) \x7b if (a) \x7b \x7d \x7d" .silent ()).1.map
      fun p => p.code.any (·.isComment)).toOption = some true ∧
    ∃ text, (compile {} "t.mc" "void f(int a) \x7b if (a) \x7b \x7d \x7d" .silent ()).1 = .ok text ∧
      (compile { comments := false } "t.mc" "void f(int a) \x7b if (a) \x7b \x7d \x7d" .silent ()).1 =
        .ok (withoutComments text) := by
  refine ⟨by decide +kernel, ?_⟩
  have hsome : (compile {} "t.mc" "void f(int a) \x7b if (a) \x7b \x7d \x7d" .silent ()).1.toOption.isSome =
      true := by
    decide +kernel
  cases hresult : (compile {} "t.mc" "void f(int a) \x7b if (a) \x7b \x7d \x7d" .silent ()).1 with
  | error e =>
    rw [hresult] at hsome
    cases hsome
  | ok text =>
    have hmeaning := @options_keep_meaning Unit .silent () {} { comments := false } (fun _ _ => rfl) rfl rfl
    obtain ⟨_, _, _, hline⟩ := (hmeaning.2.2 "t.mc" _).2.2 text hresult
    exact ⟨text, rfl, hline (by decide)⟩

end Compilation

end ProcLang
