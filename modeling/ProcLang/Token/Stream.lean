import ProcLang.Event
import ProcLang.Stage
import ProcLang.Token.Lexeme
import ProcLang.Token.Trivia

/-!
A source text as a sequence of tokens.  The text is read from left to right, one token after the
trivia before it, until the end of the text or the first failure; either ends the sequence, the
end with a token of its own.
-/

namespace ProcLang

/-- The texts reported while a word is read byte by byte, `before` being read already.  A character
of which only some bytes are read shows as U+FFFD. -/
def wordReports (before : List Char) : List Char → List String
  | [] => []
  | c :: rest =>
    List.replicate (c.utf8Size - 1) (String.ofList (before ++ ['�']))
      ++ String.ofList (before ++ [c]) :: wordReports (before ++ [c]) rest

/-- The reading of one token: what it reports, the token or the failure, and where the reading goes
on, unless it is over. -/
structure Scan where
  events : List Event
  result : Except CompileError Token
  next : Option (Position × List Char)

/-- An event of the reading at a place. -/
def lexerEvent (happening : Happening) (span : Span) (text : Option String) : Event :=
  { mode := .lexer, happening := happening, span := some span, text := text }

/-- The reports of a word at a place. -/
def wordEvents (span : Span) (word : List Char) : List Event :=
  (wordReports [] word).map fun text => lexerEvent .word span (some text)

/-- The report of a finished token. -/
def tokenEndEvent (token : Token) : Event := lexerEvent .tokenEnd token.span (some token.report)

/-- The token at the head of a text that starts at a position. -/
def scan (file : String) (pos : Position) (cs : List Char) : Scan :=
  let here := pos.past (trivia cs).1
  let span := here.within file
  match (trivia cs).2 with
  | [] =>
    let token : Token := { kind := .eof, span := span }
    ⟨[lexerEvent .tokenStart span none, tokenEndEvent token], .ok token, none⟩
  | '/' :: '*' :: _ => ⟨[], .error (.lexical span .unterminatedComment), none⟩
  | c :: rest =>
    let reading := readLexeme c rest
    let begun := lexerEvent .tokenStart span none :: wordEvents span reading.word
    match reading.result with
    | .error cause => ⟨begun, .error (.lexical span cause), none⟩
    | .ok lexeme =>
      let token : Token := ⟨lexeme.kind, span, lexeme.value⟩
      ⟨begun ++ [tokenEndEvent token], .ok token, some (here.past lexeme.text, lexeme.rest)⟩

/-- A token takes up some of the text. -/
theorem scan_next_length {file : String} {pos p : Position} {cs rest : List Char}
    (h : (scan file pos cs).next = some (p, rest)) : rest.length < cs.length := by
  have hcs := congrArg List.length (trivia_append cs)
  rw [List.length_append] at hcs
  simp only [scan] at h
  split at h
  · cases h
  · cases h
  · rename_i c after _ heq
    split at h
    · cases h
    · rename_i lexeme hl
      cases h
      obtain ⟨hne, happ⟩ := splits_of_readLexeme hl
      have hlen := congrArg List.length happ
      rw [List.length_append] at hlen
      rw [heq] at hcs
      have := List.length_pos_iff.mpr hne
      omega

/-- The readings of a text that starts at a position, up to its end or the first failure. -/
def scans (file : String) (pos : Position) (cs : List Char) : List Scan :=
  let first := scan file pos cs
  match _h : first.next with
  | none => [first]
  | some (p, rest) => first :: scans file p rest
termination_by cs.length
decreasing_by exact scan_next_length _h

/-- A sequence of tokens that is taken one by one: the readings still to come, and the failure that
ended it and was not yet asked for. -/
structure TokenStream where
  pending : List Scan
  failure : Option CompileError := none

namespace TokenStream

/-- The tokens of a source text. -/
def ofSource (file : String) (source : String) : TokenStream :=
  { pending := scans file {} source.toList }

/-- The token that stands for a failure: it carries the text of the error. -/
def failureToken (e : CompileError) : Token :=
  { kind := .error, span := e.span?.getD default, value := .text e.text }

/-- The next token, if the sequence is not over.  A failure is a last token, and is kept. -/
def next (stream : TokenStream) : Option Token × TokenStream :=
  match stream.pending with
  | [] => (none, stream)
  | ⟨_, .ok token, _⟩ :: rest => (some token, { stream with pending := rest })
  | ⟨_, .error e, _⟩ :: _ => (some (failureToken e), { pending := [], failure := some e })

/-- Hand over the failure that ended the sequence. -/
def takeFailure (stream : TokenStream) : Option CompileError × TokenStream :=
  (stream.failure, { stream with failure := none })

/-- The tokens of some readings, with a last one for a failure, and the failure. -/
def collect : List Scan → List Token × Option CompileError
  | [] => ([], none)
  | ⟨_, .ok token, _⟩ :: rest => ((token :: (collect rest).1), (collect rest).2)
  | ⟨_, .error e, _⟩ :: _ => ([failureToken e], some e)

/-- All tokens that are left, and the stream behind them. -/
def drain (stream : TokenStream) : List Token × TokenStream :=
  let (tokens, failure) := collect stream.pending
  (tokens, { pending := [], failure := failure.orElse fun _ => stream.failure })

end TokenStream

/-- The tokens of readings that all succeed, or the first failure. -/
def tokensOf : List Scan → Except CompileError (List Token)
  | [] => .ok []
  | ⟨_, .error e, _⟩ :: _ => .error e
  | ⟨_, .ok token, _⟩ :: rest => (tokensOf rest).map (token :: ·)

/-- The tokens of a source text. -/
def tokenize (file : String) (source : String) : Except CompileError (List Token) :=
  tokensOf (scans file {} source.toList)

/-- The reading of a source text as a stage: its reports and the tokens. -/
def tokenStage (file : String) (source : String) : Stage Event Unit (List Token) := fun _ =>
  let readings := scans file {} source.toList
  ⟨readings.flatMap fun s => s.events.map (·, ()), tokensOf readings, ()⟩

end ProcLang
