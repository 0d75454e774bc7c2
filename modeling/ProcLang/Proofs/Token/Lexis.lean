import ProcLang.Error
import ProcLang.Proofs.Token.Utf8

/-!
The lexical grammar, over bytes.  A text is read apart into pieces, each a lexeme behind trivia, and
what is left behind them.  The classes of lexemes are said without reading: a run of digits, a
string, a name, a mark.  A lexeme is the longest of any class that starts at its place, and it does
not start where a comment opens.

Main statement: there is only one way to read a text apart, whether up to its end or up to a place
where no lexeme can stand (`Reads.unique`).
-/

namespace ProcLang.Lexis

abbrev newline : UInt8 := 0x0a
abbrev quote : UInt8 := 0x22
abbrev star : UInt8 := 0x2a
abbrev slash : UInt8 := 0x2f

/-- Space, tab, newline, carriage return or form feed. -/
def isBlankByte (b : UInt8) : Bool :=
  b == 0x20 || b == 0x09 || b == newline || b == 0x0d || b == 0x0c

def isDigitByte (b : UInt8) : Bool := 0x30 ≤ b && b ≤ 0x39

/-- A letter or an underscore. -/
def isNameStartByte (b : UInt8) : Bool :=
  (0x41 ≤ b && b ≤ 0x5a) || (0x61 ≤ b && b ≤ 0x7a) || b == 0x5f

def isNameByte (b : UInt8) : Bool := isDigitByte b || isNameStartByte b

/-! ### Trivia -/

/-- A byte and the next are read together inside a block comment. -/
def Paired (b : UInt8) (next : Option UInt8) : Prop :=
  b = slash ∧ (next = some slash ∨ next = some star) ∨ b = star ∧ next = some slash

/-- The inside of a block comment of which some levels are open, up to the end of the outermost.
Two slashes are passed over as a pair. -/
inductive Inside : Nat → List UInt8 → Prop
  | closed : Inside 0 []
  | slashes {d : Nat} {t : List UInt8} : Inside (d + 1) t → Inside (d + 1) (slash :: slash :: t)
  | deeper {d : Nat} {t : List UInt8} : Inside (d + 2) t → Inside (d + 1) (slash :: star :: t)
  | up {d : Nat} {t : List UInt8} : Inside d t → Inside (d + 1) (star :: slash :: t)
  | other {d : Nat} {b : UInt8} {t : List UInt8} :
    ¬ Paired b t.head? → Inside (d + 1) t → Inside (d + 1) (b :: t)

/-- Trivia in front of some bytes: blanks, comments that run up to a newline or to the end of the
text, and block comments. -/
inductive Trivia (rest : List UInt8) : List UInt8 → Prop
  | nil : Trivia rest []
  | blank {b : UInt8} {t : List UInt8} : isBlankByte b → Trivia rest t → Trivia rest (b :: t)
  | line {body t : List UInt8} : newline ∉ body → (∀ b ∈ (t ++ rest).head?, b = newline) →
    Trivia rest t → Trivia rest (slash :: slash :: (body ++ t))
  | block {body t : List UInt8} : Inside 1 body → Trivia rest t →
    Trivia rest (slash :: star :: (body ++ t))

/-- A text starts with a blank or with what opens a comment. -/
def OpensTrivia (text : List UInt8) : Prop :=
  (∃ b ∈ text.head?, isBlankByte b) ∨ [slash, slash] <+: text ∨ [slash, star] <+: text

/-- A block comment that is open once does not end in a text. -/
def Unterminated (text : List UInt8) : Prop := ∀ body, Inside 1 body → ¬ body <+: text

/-! ### Lexemes -/

/-- The bytes are a lexeme of some class. -/
inductive IsLexeme : List UInt8 → Prop
  | number {b : UInt8} {run : List UInt8} : (∀ x ∈ b :: run, isDigitByte x) → IsLexeme (b :: run)
  | string {contents : List UInt8} : quote ∉ contents → IsLexeme (quote :: (contents ++ [quote]))
  | name {b : UInt8} {run : List UInt8} : isNameStartByte b → (∀ x ∈ run, isNameByte x) →
    IsLexeme (b :: run)
  | mark {k : TokenKind} {s : String} : k ∈ TokenKind.doubleMarks ++ TokenKind.singleMarks →
    k.spelling? = some s → IsLexeme (bytesOf s)

/-- The number that a digit continues. -/
def shift (n : Nat) (b : UInt8) : Nat := 10 * n + (b.toNat - 0x30)

/-- The number that digits spell. -/
def decimal (run : List UInt8) : Nat := run.foldl shift 0

/-- What a lexeme is and what it carries, by its bytes alone. -/
inductive Means : List UInt8 → TokenKind → TokenValue → Prop
  | number {b : UInt8} {run : List UInt8} : (∀ x ∈ b :: run, isDigitByte x) →
    decimal (b :: run) < UInt64.size →
    Means (b :: run) .number (.number (UInt64.ofNat (decimal (b :: run))))
  | string {text : String} : quote ∉ bytesOf text →
    Means (quote :: (bytesOf text ++ [quote])) .stringLiteral (.text text)
  | keyword {k : TokenKind} {s : String} : k ∈ TokenKind.keywords → k.spelling? = some s →
    Means (bytesOf s) k .none
  | identifier {name : String} {b : UInt8} {run : List UInt8} : bytesOf name = b :: run →
    isNameStartByte b → (∀ x ∈ run, isNameByte x) →
    (∀ k ∈ TokenKind.keywords, k.spelling? ≠ some name) →
    Means (bytesOf name) .identifier (.text name)
  | mark {k : TokenKind} {s : String} : k ∈ TokenKind.doubleMarks ++ TokenKind.singleMarks →
    k.spelling? = some s → Means (bytesOf s) k .none

/-- No lexeme that starts where `l` does is longer. -/
def Longest (l more : List UInt8) : Prop :=
  ∀ m, IsLexeme m → m <+: l ++ more → m.length ≤ l.length

/-! ### Pieces of a text -/

/-- A lexeme and the trivia before it. -/
structure Piece where
  trivia : List UInt8
  lexeme : List UInt8
  kind : TokenKind
  value : TokenValue

/-- A piece stands at the head of a text, in front of `more`. -/
structure Piece.Fits (p : Piece) (more : List UInt8) : Prop where
  trivia : Trivia (p.lexeme ++ more) p.trivia
  settled : ¬ OpensTrivia (p.lexeme ++ more)
  means : Means p.lexeme p.kind p.value
  longest : Longest p.lexeme more
  apart : p.kind = .number → ∀ b ∈ more.head?, ¬ isNameStartByte b

/-- The bytes of some pieces, one behind the other, and of what is left. -/
def joined (pieces : List Piece) (left : List UInt8) : List UInt8 :=
  pieces.foldr (fun p more => p.trivia ++ (p.lexeme ++ more)) left

/-- Every piece fits in front of those behind it. -/
def Fit : List Piece → List UInt8 → Prop
  | [], _ => True
  | p :: pieces, left => p.Fits (joined pieces left) ∧ Fit pieces left

/-- The bytes of a place where no lexeme can stand, and why. -/
inductive Offends : List UInt8 → LexicalCause → Prop
  | comment {inside : List UInt8} : Unterminated inside →
    Offends (slash :: star :: inside) .unterminatedComment
  | string {contents : List UInt8} : quote ∉ contents →
    Offends (quote :: contents) .unterminatedString
  | runsOn {b x : UInt8} {run more : List UInt8} : (∀ y ∈ b :: run, isDigitByte y) →
    isNameStartByte x → Offends (b :: run ++ x :: more) .numberRunsOn
  | tooLarge {b : UInt8} {run more : List UInt8} {digits : String} :
    (∀ y ∈ b :: run, isDigitByte y) → (∀ x ∈ more.head?, ¬ isNameByte x) →
    UInt64.size ≤ decimal (b :: run) → bytesOf digits = (b :: run).dropWhile (· == 0x30) →
    Offends (b :: run ++ more) (.number (.tooLarge digits))
  | stray {c : Char} {more : List UInt8} : ¬ OpensTrivia (String.utf8EncodeChar c ++ more) →
    c ≠ '"' → (∀ m, IsLexeme m → ¬ m <+: String.utf8EncodeChar c ++ more) →
    Offends (String.utf8EncodeChar c ++ more) (.invalidCharacter c)

/-- A text is read apart into pieces, trivia behind them, and a rest, which is empty or a place
where no lexeme can stand. -/
structure Reads (text : List UInt8) (pieces : List Piece) (last rest : List UInt8) : Prop where
  text_eq : text = joined pieces (last ++ rest)
  fit : Fit pieces (last ++ rest)
  last : Trivia rest last
  stops : rest = [] ∨ ∃ cause, Offends rest cause

/-! ### Only one way: trivia -/

theorem Inside.ne_nil {d : Nat} {t : List UInt8} (h : Inside (d + 1) t) : t ≠ [] := by
  cases h <;> simp

/-- The next byte of a text is that of the comment it starts with. -/
theorem Inside.head?_append {d : Nat} {t more : List UInt8} (h : Inside (d + 1) t) :
    (t ++ more).head? = t.head? := by
  obtain ⟨b, t, rfl⟩ := List.exists_cons_of_ne_nil h.ne_nil
  rfl

/-- What `other` passes over is one byte alone, so no pair starts there. -/
theorem Inside.not_paired {d : Nat} {b : UInt8} {t u v : List UInt8} (hb : ¬ Paired b t.head?)
    (ht : Inside (d + 1) t) (heq : t ++ u = v) : ¬ Paired b v.head? := by
  rwa [← heq, ht.head?_append]

theorem paired_slashes (t : List UInt8) : Paired slash (slash :: t).head? := .inl ⟨rfl, .inl rfl⟩
theorem paired_deeper (t : List UInt8) : Paired slash (star :: t).head? := .inl ⟨rfl, .inr rfl⟩
theorem paired_up (t : List UInt8) : Paired star (slash :: t).head? := .inr ⟨rfl, rfl⟩

/-- A comment ends at one place only. -/
theorem Inside.unique {d : Nat} {x y u v : List UInt8} (hx : Inside d x) (hy : Inside d y)
    (heq : x ++ u = y ++ v) : x = y := by
  induction hx generalizing y with
  | closed => cases hy; rfl
  | slashes ht ih =>
    cases hy with
    | slashes ht' =>
      simp only [List.cons_append, List.cons.injEq, true_and] at heq
      rw [ih ht' heq]
    | deeper ht' | up ht' => simp [slash, star] at heq
    | other hb ht' =>
      obtain ⟨rfl, htail⟩ := List.cons.inj heq
      exact absurd (paired_slashes _) (ht'.not_paired hb htail.symm)
  | deeper ht ih =>
    cases hy with
    | slashes ht' | up ht' => simp [slash, star] at heq
    | deeper ht' =>
      simp only [List.cons_append, List.cons.injEq, true_and] at heq
      rw [ih ht' heq]
    | other hb ht' =>
      obtain ⟨rfl, htail⟩ := List.cons.inj heq
      exact absurd (paired_deeper _) (ht'.not_paired hb htail.symm)
  | up ht ih =>
    cases hy with
    | slashes ht' | deeper ht' => simp [slash, star] at heq
    | up ht' =>
      simp only [List.cons_append, List.cons.injEq, true_and] at heq
      rw [ih ht' heq]
    | other hb ht' =>
      obtain ⟨rfl, htail⟩ := List.cons.inj heq
      exact absurd (paired_up _) (ht'.not_paired hb htail.symm)
  | other hb ht ih =>
    cases hy with
    | slashes ht' =>
      obtain ⟨rfl, htail⟩ := List.cons.inj heq
      exact absurd (paired_slashes _) (ht.not_paired hb htail)
    | deeper ht' =>
      obtain ⟨rfl, htail⟩ := List.cons.inj heq
      exact absurd (paired_deeper _) (ht.not_paired hb htail)
    | up ht' =>
      obtain ⟨rfl, htail⟩ := List.cons.inj heq
      exact absurd (paired_up _) (ht.not_paired hb htail)
    | other hb' ht' =>
      obtain ⟨rfl, htail⟩ := List.cons.inj heq
      rw [ih ht' htail]

/-- A run of a class that stands at the head of a text is no longer than the run of the class that
stands there and cannot go on. -/
theorem length_le_of_run {α : Type} {q : α → Prop} {m run more : List α} (hm : ∀ b ∈ m, q b)
    (hmore : ∀ b ∈ more.head?, ¬ q b) (h : m <+: run ++ more) : m.length ≤ run.length := by
  induction m generalizing run with
  | nil => exact Nat.zero_le _
  | cons b m ih =>
    cases run with
    | nil =>
      obtain ⟨more', rfl⟩ := h
      exact absurd (hm b List.mem_cons_self) (hmore b rfl)
    | cons x run =>
      have hm' := ih (fun y hy => hm y (List.mem_cons_of_mem _ hy)) (List.cons_prefix_cons.mp h).2
      simpa using hm'

/-- Two runs of a class that cannot go on, at the head of one text, are the same. -/
theorem run_unique {α : Type} {q : α → Prop} {m run more more' : List α} (hm : ∀ b ∈ m, q b)
    (hrun : ∀ b ∈ run, q b) (hmore : ∀ b ∈ more.head?, ¬ q b) (hmore' : ∀ b ∈ more'.head?, ¬ q b)
    (heq : run ++ more = m ++ more') : run = m := by
  have hle := length_le_of_run hm hmore (heq ▸ List.prefix_append m more')
  have hge := length_le_of_run hrun hmore' (heq ▸ List.prefix_append run more)
  exact (List.append_inj heq (Nat.le_antisymm hge hle)).1

/-- Trivia cannot go on with a text. -/
structure Blocked (text : List UInt8) : Prop where
  blank : ∀ b ∈ text.head?, ¬ isBlankByte b
  line : ¬ [slash, slash] <+: text
  block : ∀ inside, text = slash :: star :: inside → Unterminated inside

theorem blocked_nil : Blocked [] := ⟨by simp, by simp, by simp⟩

theorem blocked_of_not_opensTrivia {text : List UInt8} (h : ¬ OpensTrivia text) : Blocked text where
  blank := fun b hb hblank => h (.inl ⟨b, hb, hblank⟩)
  line := fun hl => h (.inr (.inl hl))
  block := by
    rintro inside rfl
    exact absurd (.inr (.inr ⟨inside, rfl⟩)) h

/-- The three ways for trivia to stand where trivia cannot go on. -/
theorem Trivia.eq_nil {rest t more : List UInt8} (h : Trivia rest t) (hb : Blocked (t ++ more)) :
    t = [] := by
  cases h with
  | nil => rfl
  | blank hblank _ => exact absurd hblank (hb.blank _ rfl)
  | line _ _ _ => exact absurd ⟨_, rfl⟩ hb.line
  | block hbody _ =>
    refine absurd ?_ (hb.block _ rfl _ hbody)
    exact ⟨_, (List.append_assoc _ _ _).symm⟩

theorem Trivia.unique {r r' t t' : List UInt8} (h : Trivia r t) (hr : Blocked r)
    (h' : Trivia r' t') (hr' : Blocked r') (heq : t ++ r = t' ++ r') : t = t' := by
  induction h generalizing t' with
  | nil =>
    rw [List.nil_append] at heq
    rw [h'.eq_nil (heq ▸ hr)]
  | blank hblank ht ih =>
    cases h' with
    | nil => exact absurd hblank (hr'.blank _ (by rw [← List.nil_append r', ← heq]; rfl))
    | blank _ ht' =>
      obtain ⟨rfl, htail⟩ := List.cons.inj heq
      rw [ih ht' htail]
    | line _ _ _ | block _ _ =>
      obtain ⟨rfl, -⟩ := List.cons.inj heq
      exact absurd hblank (by decide)
  | line hbody hend ht ih =>
    cases h' with
    | nil => exact absurd ⟨_, heq⟩ hr'.line
    | blank hblank ht' =>
      obtain ⟨rfl, -⟩ := List.cons.inj heq
      exact absurd hblank (by decide)
    | @line body' t' hbody' hend' ht' =>
      simp only [List.cons_append, List.append_assoc, List.cons.injEq, true_and] at heq
      have hb := run_unique (q := (· ≠ newline)) (fun b hb h => hbody' (h ▸ hb))
        (fun b hb h => hbody (h ▸ hb)) (fun b hb h => h (hend b hb))
        (fun b hb h => h (hend' b hb)) heq
      subst hb
      rw [ih ht' (List.append_cancel_left heq)]
    | block _ _ => simp [slash, star] at heq
  | block hbody ht ih =>
    cases h' with
    | nil =>
      refine absurd ?_ (hr'.block _ heq.symm _ hbody)
      exact ⟨_, (List.append_assoc _ _ _).symm⟩
    | blank hblank ht' =>
      obtain ⟨rfl, -⟩ := List.cons.inj heq
      exact absurd hblank (by decide)
    | line _ _ _ => simp [slash, star] at heq
    | @block body' t' hbody' ht' =>
      simp only [List.cons_append, List.append_assoc, List.cons.injEq, true_and] at heq
      have hb := hbody.unique hbody' heq
      subst hb
      rw [ih ht' (List.append_cancel_left heq)]

/-! ### Only one way: lexemes -/

theorem not_nameStart_of_digit {b : UInt8} (h : isDigitByte b) : ¬ isNameStartByte b := by
  simp only [isDigitByte, isNameStartByte, Bool.and_eq_true, Bool.or_eq_true, decide_eq_true_eq,
    beq_iff_eq, UInt8.le_iff_toNat_le, ← UInt8.toNat_inj, UInt8.reduceToNat] at h ⊢
  omega

theorem ne_quote_of_digit {b : UInt8} (h : isDigitByte b) : b ≠ quote := by
  rintro rfl
  exact absurd h (by decide)

theorem ne_quote_of_nameStart {b : UInt8} (h : isNameStartByte b) : b ≠ quote := by
  rintro rfl
  exact absurd h (by decide)

/-- What a lexeme that starts with a byte is, by the class of the byte. -/
def Heads (b : UInt8) (t : List UInt8) : Prop :=
  (isDigitByte b → ∀ x ∈ b :: t, isDigitByte x) ∧
  (b = quote → ∃ contents, t = contents ++ [quote] ∧ quote ∉ contents) ∧
  (isNameStartByte b → ∀ x ∈ b :: t, isNameByte x) ∧
  (¬ isDigitByte b → b ≠ quote → ¬ isNameStartByte b →
    ∃ k ∈ TokenKind.doubleMarks ++ TokenKind.singleMarks, ∃ s, k.spelling? = some s ∧
      b :: t = bytesOf s)

/-- A mark starts as no other lexeme does. -/
theorem mark_bytes : ∀ k ∈ TokenKind.doubleMarks ++ TokenKind.singleMarks, ∀ s ∈ k.spelling?,
    ∃ b ∈ (bytesOf s).head?, ¬ isDigitByte b ∧ b ≠ quote ∧ ¬ isNameStartByte b := by
  decide

/-- A keyword is spelled as a name. -/
theorem keyword_bytes : ∀ k ∈ TokenKind.keywords, ∀ s ∈ k.spelling?,
    (bytesOf s).all isNameByte ∧ ∃ b ∈ (bytesOf s).head?, isNameStartByte b := by
  decide

/-- The class of a lexeme is known by its first byte. -/
theorem IsLexeme.heads {l : List UInt8} (h : IsLexeme l) : ∃ b t, l = b :: t ∧ Heads b t := by
  cases h with
  | @number b run hrun =>
    have hb := hrun b List.mem_cons_self
    exact ⟨b, run, rfl, fun _ => hrun, fun hq => absurd hq (ne_quote_of_digit hb),
      fun hn => absurd hn (not_nameStart_of_digit hb), fun hd => absurd hb hd⟩
  | @string contents hq =>
    exact ⟨quote, _, rfl, fun hd => absurd hd (by decide), fun _ => ⟨contents, rfl, hq⟩,
      fun hn => absurd hn (by decide), fun _ hne => absurd rfl hne⟩
  | @name b run hb hrun =>
    refine ⟨b, run, rfl, fun hd => absurd hb (not_nameStart_of_digit hd),
      fun hq => absurd hq (ne_quote_of_nameStart hb), fun _ => ?_, fun _ _ hn => absurd hb hn⟩
    intro x hx
    rcases List.mem_cons.mp hx with rfl | hx
    · simp [isNameByte, hb]
    · exact hrun x hx
  | @mark k s hk hs =>
    obtain ⟨b, hb, hd, hq, hn⟩ := mark_bytes k hk s hs
    obtain ⟨t, ht⟩ := List.head?_eq_some_iff.mp hb
    exact ⟨b, t, ht, fun h => absurd h hd, fun h => absurd h hq, fun h => absurd h hn,
      fun _ _ _ => ⟨k, hk, s, hs, ht.symm⟩⟩

theorem Means.isLexeme {l : List UInt8} {k : TokenKind} {v : TokenValue} (h : Means l k v) :
    IsLexeme l := by
  cases h with
  | number hrun _ => exact .number hrun
  | string hq => exact .string hq
  | @keyword k s hk hs =>
    obtain ⟨hrun, b, hb, hstart⟩ := keyword_bytes k hk s hs
    obtain ⟨t, ht⟩ := List.head?_eq_some_iff.mp hb
    rw [ht] at hrun ⊢
    exact .name hstart fun x hx => List.all_eq_true.mp hrun x (List.mem_cons_of_mem _ hx)
  | identifier hname hb hrun _ =>
    rw [hname]
    exact .name hb hrun
  | mark hk hs => exact .mark hk hs

/-- The kinds with a fixed spelling. -/
def fixedKinds : List TokenKind :=
  TokenKind.keywords ++ (TokenKind.doubleMarks ++ TokenKind.singleMarks)

theorem fixedKind_of_spelling : ∀ k ∈ fixedKinds, ∀ k' ∈ fixedKinds,
    k.spelling? = k'.spelling? → k = k' := by
  decide

/-- What a word that is no number and no string means: a fixed kind, or an identifier. -/
def WordMeans (name : String) (k : TokenKind) (v : TokenValue) : Prop :=
  k ∈ fixedKinds ∧ k.spelling? = some name ∧ v = .none ∨
  (∀ k' ∈ fixedKinds, k'.spelling? ≠ some name) ∧ k = .identifier ∧ v = .text name

theorem WordMeans.unique {name : String} {k k' : TokenKind} {v v' : TokenValue}
    (h : WordMeans name k v) (h' : WordMeans name k' v') : k = k' ∧ v = v' := by
  rcases h with ⟨hk, hs, rfl⟩ | ⟨hno, rfl, rfl⟩ <;>
    rcases h' with ⟨hk', hs', rfl⟩ | ⟨hno', rfl, rfl⟩
  · exact ⟨fixedKind_of_spelling k hk k' hk' (hs.trans hs'.symm), rfl⟩
  · exact absurd hs (hno' k hk)
  · exact absurd hs' (hno k' hk')
  · exact ⟨rfl, rfl⟩

/-- The meaning of a lexeme, by the class of its first byte. -/
theorem Means.of_head {b : UInt8} {t : List UInt8} {k : TokenKind} {v : TokenValue}
    (h : Means (b :: t) k v) :
    (isDigitByte b → k = .number ∧ decimal (b :: t) < UInt64.size ∧
      v = .number (UInt64.ofNat (decimal (b :: t)))) ∧
    (b = quote → ∃ text, t = bytesOf text ++ [quote] ∧ k = .stringLiteral ∧ v = .text text) ∧
    (¬ isDigitByte b → b ≠ quote → ∃ name, b :: t = bytesOf name ∧ WordMeans name k v) := by
  generalize hl : b :: t = l at h
  cases h with
  | number hrun hsize =>
    cases hl
    have hb := hrun b List.mem_cons_self
    exact ⟨fun _ => ⟨rfl, hsize, rfl⟩, fun hq => absurd hq (ne_quote_of_digit hb),
      fun hd => absurd hb hd⟩
  | @string text hq =>
    cases hl
    exact ⟨fun hd => absurd hd (by decide), fun _ => ⟨text, rfl, rfl, rfl⟩,
      fun _ hne => absurd rfl hne⟩
  | @keyword k s hk hs =>
    obtain ⟨-, b', hb', hstart⟩ := keyword_bytes k hk s hs
    rw [← hl] at hb'
    cases hb'
    exact ⟨fun hd => absurd hstart (not_nameStart_of_digit hd),
      fun hq => absurd hq (ne_quote_of_nameStart hstart),
      fun _ _ => ⟨s, rfl, .inl ⟨List.mem_append_left _ hk, hs, rfl⟩⟩⟩
  | @identifier name b' run hname hstart _ hno =>
    cases hl.trans hname
    refine ⟨fun hd => absurd hstart (not_nameStart_of_digit hd),
      fun hq => absurd hq (ne_quote_of_nameStart hstart),
      fun _ _ => ⟨name, rfl, .inr ⟨fun k' hk' hs => ?_, rfl, rfl⟩⟩⟩
    rcases List.mem_append.mp hk' with hk' | hk'
    · exact hno k' hk' hs
    · obtain ⟨b', hb', -, -, hn⟩ := mark_bytes k' hk' name hs
      rw [hname] at hb'
      cases hb'
      exact hn hstart
  | @mark k s hk hs =>
    obtain ⟨b', hb', hd, hq, -⟩ := mark_bytes k hk s hs
    rw [← hl] at hb'
    cases hb'
    exact ⟨fun h => absurd h hd, fun h => absurd h hq,
      fun _ _ => ⟨s, rfl, .inl ⟨List.mem_append_right _ hk, hs, rfl⟩⟩⟩

/-- A lexeme has one meaning. -/
theorem Means.unique {l : List UInt8} {k k' : TokenKind} {v v' : TokenValue} (h : Means l k v)
    (h' : Means l k' v') : k = k' ∧ v = v' := by
  obtain ⟨b, t, rfl, -⟩ := h.isLexeme.heads
  obtain ⟨hd, hq, hw⟩ := h.of_head
  obtain ⟨hd', hq', hw'⟩ := h'.of_head
  by_cases hdigit : isDigitByte b
  · obtain ⟨rfl, -, rfl⟩ := hd hdigit
    obtain ⟨rfl, -, rfl⟩ := hd' hdigit
    exact ⟨rfl, rfl⟩
  · by_cases hquote : b = quote
    · obtain ⟨text, ht, rfl, rfl⟩ := hq hquote
      obtain ⟨text', ht', rfl, rfl⟩ := hq' hquote
      cases bytesOf_inj.mp (List.append_cancel_right (ht.symm.trans ht'))
      exact ⟨rfl, rfl⟩
    · obtain ⟨name, hname, hm⟩ := hw hdigit hquote
      obtain ⟨name', hname', hm'⟩ := hw' hdigit hquote
      cases bytesOf_inj.mp (hname.symm.trans hname')
      exact hm.unique hm'

/-! ### Only one way: pieces -/

theorem Longest.eq {l l' more more' : List UInt8} (h : Longest l more) (h' : Longest l' more')
    (hl : IsLexeme l) (hl' : IsLexeme l') (heq : l ++ more = l' ++ more') : l = l' := by
  have hle := h' l hl (heq ▸ List.prefix_append l more)
  have hge := h l' hl' (heq ▸ List.prefix_append l' more')
  exact (List.append_inj heq (Nat.le_antisymm hle hge)).1

/-- At the head of a text stands one piece only. -/
theorem Piece.Fits.unique {p p' : Piece} {more more' : List UInt8} (h : p.Fits more)
    (h' : p'.Fits more')
    (heq : p.trivia ++ (p.lexeme ++ more) = p'.trivia ++ (p'.lexeme ++ more')) :
    p = p' ∧ more = more' := by
  obtain ⟨t, l, k, v⟩ := p
  obtain ⟨t', l', k', v'⟩ := p'
  have ht : t = t' := h.trivia.unique (blocked_of_not_opensTrivia h.settled) h'.trivia
    (blocked_of_not_opensTrivia h'.settled) heq
  subst ht
  have hrest := List.append_cancel_left heq
  have hl : l = l' := h.longest.eq h'.longest h.means.isLexeme h'.means.isLexeme hrest
  subst hl
  obtain ⟨hk, hv⟩ := h.means.unique h'.means
  simp only at hk hv
  subst hk hv
  exact ⟨rfl, List.append_cancel_left hrest⟩

theorem not_opensTrivia_of_head {b : UInt8} {t : List UInt8} (hblank : ¬ isBlankByte b)
    (hslash : b ≠ slash) : ¬ OpensTrivia (b :: t) := by
  rintro (⟨x, hx, h⟩ | h | h)
  · cases hx
    exact hblank h
  · exact hslash (List.cons_prefix_cons.mp h).1.symm
  · exact hslash (List.cons_prefix_cons.mp h).1.symm

theorem not_opensTrivia_of_digit {b : UInt8} {t : List UInt8} (h : isDigitByte b) :
    ¬ OpensTrivia (b :: t) := by
  refine not_opensTrivia_of_head (fun hblank => ?_) ?_
  · simp only [isBlankByte, Bool.or_eq_true, beq_iff_eq] at hblank
    rcases hblank with (((rfl | rfl) | rfl) | rfl) | rfl <;> exact absurd h (by decide)
  · rintro rfl
    exact absurd h (by decide)

theorem Offends.blocked {text : List UInt8} {cause : LexicalCause} (h : Offends text cause) :
    Blocked text := by
  cases h with
  | comment hun =>
    refine ⟨fun b hb => ?_, fun hl => ?_, fun inside heq => ?_⟩
    · cases hb
      decide
    · simp [slash, star] at hl
    · cases heq
      exact hun
  | string _ =>
    exact blocked_of_not_opensTrivia (not_opensTrivia_of_head (by decide) (by decide))
  | runsOn hrun _ | tooLarge hrun _ _ _ =>
    exact blocked_of_not_opensTrivia (not_opensTrivia_of_digit (hrun _ List.mem_cons_self))
  | stray hopen _ _ => exact blocked_of_not_opensTrivia hopen

/-- A number that fits at the head of a text is the whole run of digits there. -/
theorem Piece.Fits.number {p : Piece} {more more' : List UInt8} {b : UInt8} {run : List UInt8}
    (h : p.Fits more) (hrun : ∀ y ∈ b :: run, isDigitByte y)
    (hmore : ∀ x ∈ more'.head?, ¬ isDigitByte x) (heq : p.lexeme ++ more = b :: run ++ more') :
    p.lexeme = b :: run ∧ p.kind = .number ∧ decimal (b :: run) < UInt64.size := by
  have hb := hrun b List.mem_cons_self
  obtain ⟨b', t, hl, hdigits, -⟩ := h.means.isLexeme.heads
  have hhead : b' = b := by
    rw [hl] at heq
    exact (List.cons.inj heq).1
  subst hhead
  have hle : p.lexeme.length ≤ (b' :: run).length :=
    length_le_of_run (q := fun x => isDigitByte x) (hl ▸ hdigits hb) hmore
      (heq ▸ List.prefix_append p.lexeme more)
  have hge : (b' :: run).length ≤ p.lexeme.length :=
    h.longest _ (.number hrun) (heq ▸ List.prefix_append (b' :: run) more')
  have hlex : p.lexeme = b' :: run := (List.append_inj heq (Nat.le_antisymm hle hge)).1
  have hm := h.means
  rw [hlex] at hm
  obtain ⟨hk, hsize, -⟩ := hm.of_head.1 hb
  exact ⟨hlex, hk, hsize⟩

/-- No piece starts with the place where no lexeme can stand. -/
theorem Offends.not_fits {text more : List UInt8} {cause : LexicalCause} {p : Piece}
    (h : Offends text cause) (hp : p.Fits more) : p.lexeme ++ more ≠ text := by
  rintro rfl
  generalize htext : p.lexeme ++ more = text at h
  cases h with
  | comment _ => exact hp.settled (htext ▸ .inr (.inr ⟨_, rfl⟩))
  | string hq =>
    obtain ⟨b, t, hl, -, hquoted, -⟩ := hp.means.isLexeme.heads
    rw [hl] at htext
    obtain ⟨hb, htail⟩ := List.cons.inj htext
    obtain ⟨contents, rfl, -⟩ := hquoted hb
    rw [← htail] at hq
    simp at hq
  | @runsOn b x run more' hrun hx =>
    have hnot : ∀ y ∈ (x :: more').head?, ¬ isDigitByte y := by
      intro y hy hd
      cases hy
      exact not_nameStart_of_digit hd hx
    obtain ⟨hl, hk, -⟩ := hp.number hrun hnot htext
    rw [hl] at htext
    exact hp.apart hk x (by rw [List.append_cancel_left htext]; rfl) hx
  | tooLarge hrun hnot hsize _ =>
    obtain ⟨-, -, hlt⟩ := hp.number hrun (fun x hx hd => hnot x hx (by simp [isNameByte, hd])) htext
    omega
  | stray _ _ hnone => exact hnone _ hp.means.isLexeme (htext ▸ List.prefix_append _ _)

theorem Reads.blocked {text : List UInt8} {pieces : List Piece} {last rest : List UInt8}
    (h : Reads text pieces last rest) : Blocked rest := by
  rcases h.stops with rfl | ⟨cause, hoff⟩
  · exact blocked_nil
  · exact hoff.blocked

/-- Where the pieces of a text end, no further piece fits. -/
theorem Reads.not_fits {text last rest more : List UInt8} {p : Piece}
    (h : Reads text [] last rest) (hp : p.Fits more) :
    last ++ rest ≠ p.trivia ++ (p.lexeme ++ more) := by
  intro heq
  have ht := h.last.unique h.blocked hp.trivia (blocked_of_not_opensTrivia hp.settled) heq
  rw [ht] at heq
  have hrest := List.append_cancel_left heq
  rcases h.stops with rfl | ⟨cause, hoff⟩
  · obtain ⟨b, t, hl, -⟩ := hp.means.isLexeme.heads
    simp [hl] at hrest
  · exact hoff.not_fits hp hrest.symm

/-- **A text is read apart in one way only.** -/
theorem Reads.unique {text last rest last' rest' : List UInt8} {pieces pieces' : List Piece}
    (h : Reads text pieces last rest) (h' : Reads text pieces' last' rest') :
    pieces' = pieces ∧ last' = last ∧ rest' = rest := by
  -- Pieces are matched from the left; each pair shares what stands behind it.
  induction pieces generalizing text pieces' with
  | nil =>
    cases pieces' with
    | nil =>
      have heq : last ++ rest = last' ++ rest' := h.text_eq.symm.trans h'.text_eq
      have hl := h.last.unique h.blocked h'.last h'.blocked heq
      subst hl
      exact ⟨rfl, rfl, (List.append_cancel_left heq).symm⟩
    | cons p' pieces' =>
      exact absurd (h.text_eq.symm.trans h'.text_eq) (h.not_fits h'.fit.1)
  | cons p pieces ih =>
    cases pieces' with
    | nil => exact absurd (h'.text_eq.symm.trans h.text_eq) (h'.not_fits h.fit.1)
    | cons p' pieces' =>
      obtain ⟨hp, hmore⟩ := h.fit.1.unique h'.fit.1 (h.text_eq.symm.trans h'.text_eq)
      have hr : Reads (joined pieces (last ++ rest)) pieces last rest :=
        ⟨rfl, h.fit.2, h.last, h.stops⟩
      have hr' : Reads (joined pieces (last ++ rest)) pieces' last' rest' :=
        ⟨hmore, h'.fit.2, h'.last, h'.stops⟩
      obtain ⟨hps, hrest⟩ := ih hr hr'
      exact ⟨by rw [hp, hps], hrest⟩

end ProcLang.Lexis
