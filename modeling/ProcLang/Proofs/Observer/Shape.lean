import ProcLang.Proofs.Observer.Refusal

/-!
The shape of the reports of a compilation.  They come in blocks, one for each part of the work that is
reached, with one last report behind them.  The block of the lexer goes token by token, those of the
parser and of code generation are well bracketed; the block of a part that fails is the beginning of
such a block.
-/

namespace ProcLang

section Compilation

variable {ω : Type} {ob : Observer ω} {w : ω} {options : Options} {file source : String}

/-- The reports of the parts of a compilation.  A part that is not reached reports nothing. -/
structure Blocks (options : Options) (file source : String) (lexed parsed generated : List Event) :
    Prop where
  lexer : Reported LexerBlock (tokenize file source) lexed
  parser : ∀ tokens, tokenize file source = .ok tokens →
    Reported ParserBlock ((parse tokens).map Ast.size) parsed
  generator : ∀ tokens ast, tokenize file source = .ok tokens → parse tokens = .ok ast →
    Reported (fun _ => GeneratorBlock) ((generate options file ast).result.map fun _ => ()) generated
  unread : ∀ e, tokenize file source = .error e → parsed = [] ∧ generated = []
  ungenerated : ∀ tokens e, tokenize file source = .ok tokens → parse tokens = .error e → generated = []

/-- The reports on the way to the assembler program, and that no part of the work ends itself by a
cancellation. -/
theorem exists_blocks (options : Options) (file source : String) : ∃ lexed parsed generated,
    Blocks options file source lexed parsed generated ∧
    (assemblyScript options file source).events = lexed ++ parsed ++ generated ∧
    (assemblyScript options file source).result ≠ .error .cancelled := by
  obtain ⟨hlexer, hlexed⟩ := reported_tokenStage file source
  cases ht : tokenize file source with
  | error e =>
    have hother : ∀ tokens, tokenize file source ≠ .ok tokens := by simp [ht]
    rw [assemblyScript, Script.andThen_error ht]
    refine ⟨_, [], [], ⟨hlexer, ?_, ?_, fun _ _ => ⟨rfl, rfl⟩, fun _ _ _ _ => rfl⟩, ?_, ?_⟩
    · exact fun tokens htokens => absurd htokens (hother tokens)
    · exact fun tokens _ htokens => absurd htokens (hother tokens)
    · rw [List.append_nil, List.append_nil]
      rfl
    · exact fun h => hlexed (by rw [ht, Except.error.inj h])
  | ok tokens =>
    have hsame : ∀ tokens', tokenize file source = .ok tokens' → tokens' = tokens := by simp [ht, eq_comm]
    obtain ⟨hparser, hparsed⟩ := reported_program tokens
    rw [assemblyScript, Script.andThen_ok ht]
    cases hp : parse tokens with
    | error e =>
      rw [Script.andThen_error hp]
      refine ⟨_, _, [], ⟨hlexer, ?_, ?_, ?_, fun _ _ _ _ => rfl⟩, (List.append_nil _).symm, ?_⟩
      · intro tokens' htokens
        obtain rfl := hsame tokens' htokens
        exact hparser
      · intro tokens' ast htokens hast
        obtain rfl := hsame tokens' htokens
        rw [hp] at hast
        cases hast
      · intro e he
        rw [ht] at he
        cases he
      · exact fun h => hparsed (by rw [hp, Except.error.inj h])
    | ok ast =>
      rw [Script.andThen_ok hp]
      obtain ⟨hgenerator, hgenerated⟩ := Generation.reported_generate options file ast
      refine ⟨_, _, _, ⟨hlexer, ?_, ?_, ?_, ?_⟩, (List.append_assoc ..).symm, hgenerated⟩
      · intro tokens' htokens
        obtain rfl := hsame tokens' htokens
        exact hparser
      · intro tokens' ast' htokens hast
        obtain rfl := hsame tokens' htokens
        obtain rfl := Except.ok.inj (hp.symm.trans hast)
        exact hgenerator
      · intro e he
        rw [ht] at he
        cases he
      · intro tokens' e htokens he
        obtain rfl := hsame tokens' htokens
        rw [hp] at he
        cases he

/-- The shape of the reports of a compilation to which nobody objects.  Behind the blocks of its parts
comes one last report, that it is finished or that it failed, as its result is. -/
theorem events_shape (hob : ob.Passive) : ∃ lexed parsed generated last,
    eventsTold options file source ob w = lexed ++ parsed ++ generated ++ [last] ∧
    Blocks options file source lexed parsed generated ∧
    (last.mode = .finished ↔ ∃ text, (compile options file source ob w).1 = .ok text) ∧
    (last.mode = .error ↔ ∃ e, (compile options file source ob w).1 = .error e) := by
  obtain ⟨lexed, parsed, generated, hblocks, hevents, hcancelled⟩ := exists_blocks options file source
  rw [eventsTold_of_passive hob, compile_of_passive hob, transcript, hevents, outcome]
  cases hresult : (assemblyScript options file source).result with
  | ok p =>
    refine ⟨lexed, parsed, generated, finishedEvent file, rfl, hblocks, ?_, ?_⟩
    · exact iff_of_true rfl ⟨_, rfl⟩
    · refine iff_of_false (fun h => by cases h) ?_
      rintro ⟨e, he⟩
      cases he
  | error e =>
    have hending : ending file (.error e) = [failureEvent e] := by
      refine if_neg fun h => hcancelled ?_
      rw [hresult, h]
    rw [hending]
    refine ⟨lexed, parsed, generated, failureEvent e, rfl, hblocks, ?_, ?_⟩
    · refine iff_of_false (fun h => by cases h) ?_
      rintro ⟨text, htext⟩
      cases htext
    · exact iff_of_true rfl ⟨e, rfl⟩

/-- A text that fails in the middle of a node: the reports of the parser break off. -/
theorem events_shape_unclosed : ∃ lexed parsed last size rest,
    eventsTold {} "t.mc" "int f() \x7b return (1; \x7d" .silent () = lexed ++ parsed ++ [last] ∧
    last.mode = .error ∧ ParserBlock size (parsed ++ rest) := by
  have hfails : ((tokenize "t.mc" "int f() \x7b return (1; \x7d").map
      fun tokens => (parse tokens).toOption.isNone).toOption = some true := by
    decide +kernel
  have hresult : (compile {} "t.mc" "int f() \x7b return (1; \x7d" .silent ()).1.toOption.isNone = true := by
    decide +kernel
  obtain ⟨lexed, parsed, generated, last, hevents, hblocks, -, herror⟩ :=
    @events_shape Unit .silent () {} "t.mc" "int f() \x7b return (1; \x7d" fun _ _ => rfl
  have hlast : last.mode = .error := by
    cases hcompiled : (compile {} "t.mc" "int f() \x7b return (1; \x7d" .silent ()).1 with
    | ok text =>
      rw [hcompiled] at hresult
      cases hresult
    | error e => exact herror.mpr ⟨e, hcompiled⟩
  cases ht : tokenize "t.mc" "int f() \x7b return (1; \x7d" with
  | error e =>
    rw [ht] at hfails
    cases hfails
  | ok tokens =>
    cases hp : parse tokens with
    | ok ast => simp [ht, hp, Except.map, Except.toOption] at hfails
    | error e =>
      have hparser := hblocks.parser tokens ht
      rw [hp] at hparser
      obtain ⟨size, rest, hblock⟩ := hparser
      rw [hblocks.ungenerated tokens e ht hp, List.append_nil] at hevents
      exact ⟨lexed, parsed, last, size, rest, hevents, hlast, hblock⟩

end Compilation

end ProcLang
