import ProcLang.Proofs.Observer.Bracket
import ProcLang.Token.Stream

/-!
The reports of the reading of a text.  They come token by token, each with a start, the words read so far
and an end.  A reading that fails breaks off in front of a token or in the middle of one.
-/

namespace ProcLang

/-- The reports of one token: its start, its words and its end, all in its place. -/
inductive TokenReports (t : Token) : List Event → Prop
  | mk {start stop : Event} {words : List Event} : start.happening = .tokenStart →
    (∀ event ∈ words, event.happening = .word) → stop.happening = .tokenEnd →
    (∀ event ∈ start :: words ++ [stop], event.mode = .lexer ∧ event.span = some t.span) →
    TokenReports t (start :: words ++ [stop])

/-- The reports of tokens, the last of which is the end. -/
inductive LexerBlock : List Token → List Event → Prop
  | last {t : Token} {events : List Event} : t.kind = .eof → TokenReports t events →
    LexerBlock [t] events
  | cons {t : Token} {ts : List Token} {events rest : List Event} : TokenReports t events →
    LexerBlock ts rest → LexerBlock (t :: ts) (events ++ rest)

theorem LexerBlock.mode {tokens : List Token} {events : List Event} (h : LexerBlock tokens events) :
    ∀ event ∈ events, event.mode = .lexer := by
  have htoken : ∀ {t : Token} {events : List Event}, TokenReports t events →
      ∀ event ∈ events, event.mode = .lexer := by
    intro t events ht event hevent
    cases ht with
    | mk _ _ _ hall => exact (hall event hevent).1
  induction h with
  | last _ ht => exact htoken ht
  | cons ht _ ih => exact fun event hevent => (List.mem_append.mp hevent).elim (htoken ht event) (ih event)

/-! ### Readings -/

theorem tokenReports_word (t : Token) (word : List Char) :
    TokenReports t (lexerEvent .tokenStart t.span none :: wordEvents t.span word ++ [tokenEndEvent t]) := by
  have hword : ∀ event ∈ wordEvents t.span word, ∃ text, event = lexerEvent .word t.span text := by
    intro event hevent
    obtain ⟨text, -, rfl⟩ := List.mem_map.mp hevent
    exact ⟨some text, rfl⟩
  refine .mk rfl (fun event hevent => ?_) rfl fun event hevent => ?_
  · obtain ⟨text, rfl⟩ := hword event hevent
    rfl
  · rcases List.mem_append.mp hevent with hevent | hevent
    · rcases List.mem_cons.mp hevent with rfl | hevent
      · exact ⟨rfl, rfl⟩
      · obtain ⟨text, rfl⟩ := hword event hevent
        exact ⟨rfl, rfl⟩
    · rw [List.mem_singleton.mp hevent]
      exact ⟨rfl, rfl⟩

/-- The reports of a reading, by how it ends: with the end of the text, with a failure, or with a token
behind which the reading goes on. -/
inductive ScanReports : Scan → Prop
  | stop {t : Token} {events : List Event} : t.kind = .eof → TokenReports t events →
    ScanReports ⟨events, .ok t, none⟩
  | failure {t : Token} {events rest : List Event} {e : CompileError} : e ≠ .cancelled →
    TokenReports t (events ++ rest) → ScanReports ⟨events, .error e, none⟩
  | token {t : Token} {events : List Event} {p : Position × List Char} : TokenReports t events →
    ScanReports ⟨events, .ok t, some p⟩

theorem reports_scan (file : String) (pos : Position) (cs : List Char) :
    ScanReports (scan file pos cs) := by
  have hcause : ∀ span cause, CompileError.lexical span cause ≠ .cancelled := fun _ _ h => by cases h
  simp only [scan]
  split
  · exact .stop rfl (tokenReports_word _ [])
  · exact .failure (hcause _ _) (tokenReports_word default [])
  · split
    · exact .failure (hcause _ _) (tokenReports_word ⟨.eof, (pos.past (trivia cs).1).within file, .none⟩ _)
    · exact .token (tokenReports_word _ _)

/-- The lexer reports token by token, and does not end itself by a cancellation. -/
theorem reported_scans (file : String) (pos : Position) (cs : List Char) :
    Reported LexerBlock (tokensOf (scans file pos cs)) ((scans file pos cs).flatMap (·.events)) ∧
      tokensOf (scans file pos cs) ≠ .error .cancelled := by
  fun_induction scans file pos cs with
  | case1 pos cs first hnext =>
    have hscan : ScanReports first := reports_scan file pos cs
    clear_value first
    rw [List.flatMap_singleton]
    cases hscan with
    | stop heof ht => exact ⟨.last heof ht, fun h => by cases h⟩
    | @failure t events rest e he ht =>
      have hblock := LexerBlock.cons ht (.last rfl (tokenReports_word ⟨.eof, default, .none⟩ []))
      rw [List.append_assoc] at hblock
      exact ⟨⟨_, _, hblock⟩, fun h => he (Except.error.inj h)⟩
    | token _ => cases hnext
  | case2 pos cs first p rest hnext ih =>
    have hscan : ScanReports first := reports_scan file pos cs
    clear_value first
    rw [List.flatMap_cons]
    cases hscan with
    | stop _ _ => cases hnext
    | failure _ _ => cases hnext
    | @token t events p ht =>
      change Reported LexerBlock ((tokensOf (scans file _ rest)).map (t :: ·)) _ ∧
        (tokensOf (scans file _ rest)).map (t :: ·) ≠ _
      obtain ⟨hrest, herror⟩ := ih
      cases hresult : tokensOf (scans file _ rest) with
      | ok ts =>
        rw [hresult] at hrest
        exact ⟨.cons ht hrest, fun h => by cases h⟩
      | error e =>
        rw [hresult] at hrest herror
        obtain ⟨ts, more, hblock⟩ := hrest
        have hwhole := LexerBlock.cons ht hblock
        rw [← List.append_assoc] at hwhole
        exact ⟨⟨_, _, hwhole⟩, fun h => herror (congrArg Except.error (Except.error.inj h))⟩

/-- The reports of the lexer, as a stage of a compilation. -/
theorem reported_tokenStage (file source : String) :
    Reported LexerBlock (tokenize file source)
        ((tokenStage file source ()).marks.filterMap fun p => some p.1) ∧
      tokenize file source ≠ .error .cancelled := by
  have hevents : ((tokenStage file source ()).marks.filterMap fun p => some p.1) =
      (scans file {} source.toList).flatMap (·.events) := by
    simp [tokenStage, List.filterMap_flatMap, List.filterMap_map]
  rw [hevents]
  exact reported_scans file {} source.toList

end ProcLang
