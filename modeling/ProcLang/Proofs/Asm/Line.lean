import ProcLang.Asm.Printer
import ProcLang.Token.Lexeme
import Mathlib.Tactic.Common

/-!
The lines of the text of a program.  Below its first line a program is printed line by line: an
instruction is one line if the names in it are words, and a line is an indented comment if and only if it
is the line of a comment.  So to print a program without its comments is to print it and to strike out
the lines of comments.

What is asked of names holds of those that come from a source text, not of any; it is asked only if
`strict` holds, so that what does without it can leave it out.
-/

namespace ProcLang

/-! ### Names and texts without line breaks -/

/-- The name is made of letters, digits and underscores, if that is asked for. -/
def Neat (strict : Prop) (name : String) : Prop := strict → ∀ c ∈ name.toList, isNameChar c = true

/-- The text has no line break in it, if that is asked for. -/
def OneLine (strict : Prop) (text : String) : Prop := strict → '\n' ∉ text.toList

section Names

variable {strict : Prop} {a b : String}

theorem neat_of_all (h : a.toList.all isNameChar = true) : Neat strict a :=
  fun _ => List.all_eq_true.mp h

theorem Neat.append (ha : Neat strict a) (hb : Neat strict b) : Neat strict (a ++ b) := by
  intro h c hc
  rw [String.toList_append, List.mem_append] at hc
  exact hc.elim (ha h c) (hb h c)

theorem OneLine.append (ha : OneLine strict a) (hb : OneLine strict b) : OneLine strict (a ++ b) := by
  intro h
  rw [String.toList_append, List.mem_append, not_or]
  exact ⟨ha h, hb h⟩

theorem Neat.oneLine (h : Neat strict a) : OneLine strict a := by
  intro hs hmem
  exact absurd (h hs _ hmem) (by decide)

theorem neat_natural (n : Nat) : Neat strict (toString n) := by
  intro _ c hc
  rw [Nat.toString_eq_ofList_toDigits, String.toList_ofList] at hc
  have hdigit : c.isDigit = true := Nat.isDigit_of_mem_toDigits (by decide) (by decide) hc
  simp [isNameChar, Char.isAlphanum, hdigit]

theorem oneLine_integer (n : Int) : OneLine strict (toString n) := by
  cases n with
  | ofNat n => exact (neat_natural n).oneLine
  | negSucc n => exact .append (fun _ => by decide) (neat_natural (n + 1)).oneLine

theorem oneLine_signed (n : Int) : OneLine strict (signed n) := by
  unfold signed
  split
  · exact oneLine_integer n
  · exact .append (fun _ => by decide) (oneLine_integer n)

end Names

/-! ### Instructions -/

/-- The label of an operand is neat, if it has one. -/
def Operand.Plain (strict : Prop) : Operand → Prop
  | .data label => Neat strict label
  | _ => True

/-- The operand has a width of its own: it is no number, and its label is neat. -/
def Operand.Sized (strict : Prop) : Operand → Prop
  | .imm _ => False
  | o => o.Plain strict

theorem Operand.Sized.plain {strict : Prop} {o : Operand} (h : o.Sized strict) : o.Plain strict := by
  cases o with
  | imm n => exact h.elim
  | _ => exact h

/-- The instruction is no comment, its first operand is no number, and the names in it are neat. -/
def Instr.Plain (strict : Prop) : Instr → Prop
  | .comment _ => False
  | .mov _ dst src | .alu _ _ dst src | .cmp _ dst src | .test _ dst src =>
    dst.Sized strict ∧ src.Plain strict
  | .neg _ dst | .idiv _ dst => dst.Sized strict
  | .movzx _ src | .movsx _ src | .lea _ src => src.Plain strict
  | .jmp l | .jcc _ l | .label l => Neat strict l.name
  | .call name | .global name | .symbol name => Neat strict name
  | .cqo | .setcc .. | .push _ | .pop _ | .ret => True

/-- The instruction is plain, or a comment of one line. -/
def Instr.Tidy (strict : Prop) : Instr → Prop
  | .comment text => OneLine strict text
  | i => i.Plain strict

/-- The line of an instruction, without the line break. -/
def Instr.row : Instr → String
  | .comment text => "    ; " ++ text
  | .global name => (global name).text
  | .symbol name => (symbol name).text
  | .label l => (label l).text
  | other => "    " ++ other.text

section Rows

variable {strict : Prop} {i : Instr}

theorem oneLine_nameAt (r : Register) (w : Width) : OneLine strict (r.nameAt w) := by
  intro _
  cases r <;> cases w <;> decide

theorem oneLine_address {o : Operand} (h : o.Plain strict) : OneLine strict o.address := by
  cases o with
  | imm n => exact oneLine_integer n
  | reg r => exact oneLine_nameAt r .quad
  | mem base displacement =>
    unfold Operand.address
    dsimp only
    split
    · exact .append (.append (fun _ => by decide) (oneLine_nameAt base .quad)) fun _ => by decide
    · exact .append (.append (.append (fun _ => by decide) (oneLine_nameAt base .quad))
        (oneLine_signed displacement)) fun _ => by decide
  | data label => exact .append (.append (fun _ => by decide) (Neat.oneLine h)) fun _ => by decide

theorem oneLine_operand {o : Operand} (h : o.Plain strict) (w : Width) : OneLine strict (o.text w) := by
  have hkeyword : OneLine strict (w.keyword ++ " ") := fun _ => by cases w <;> decide
  cases o with
  | imm n => exact oneLine_integer n
  | reg r => exact oneLine_nameAt r w
  | mem base displacement | data label => exact hkeyword.append (oneLine_address h)

theorem oneLine_operands {dst src : Operand} (h : dst.Sized strict ∧ src.Plain strict) (w : Width) :
    OneLine strict (Instr.operands w dst src) :=
  .append (.append (oneLine_operand h.1.plain w) fun _ => by decide) (oneLine_operand h.2 w)

theorem oneLine_label {l : Label} (h : Neat strict l.name) : OneLine strict l.text :=
  .append (.append (.append (fun _ => by decide) (neat_natural l.id).oneLine) fun _ => by decide) h.oneLine

theorem oneLine_text (h : i.Plain strict) : OneLine strict i.text := by
  cases i with
  | comment text => exact h.elim
  | mov w dst src | cmp w dst src | test w dst src =>
    exact .append (fun _ => by decide) (oneLine_operands h w)
  | alu op w dst src =>
    exact .append (.append (fun _ => by cases op <;> decide) fun _ => by decide) (oneLine_operands h w)
  | movzx dst src =>
    exact .append (.append (.append (fun _ => by decide) (oneLine_nameAt dst .long)) fun _ => by decide)
      (oneLine_operand h .byte)
  | movsx dst src =>
    exact .append (.append (.append (fun _ => by decide) (oneLine_nameAt dst .quad)) fun _ => by decide)
      (oneLine_operand h .byte)
  | lea dst src =>
    exact .append (.append (.append (fun _ => by decide) (oneLine_nameAt dst .quad)) fun _ => by decide)
      (oneLine_address h)
  | neg w dst | idiv w divisor =>
    exact .append (fun _ => by decide) (oneLine_operand (Operand.Sized.plain h) w)
  | setcc c dst =>
    exact .append (.append (.append (fun _ => by decide) fun _ => by cases c <;> decide) fun _ => by decide)
      (oneLine_nameAt dst .byte)
  | jmp l => exact .append (fun _ => by decide) (oneLine_label h)
  | jcc c l =>
    exact .append (.append (.append (fun _ => by decide) fun _ => by cases c <;> decide) fun _ => by decide)
      (oneLine_label h)
  | label l => exact .append (oneLine_label h) fun _ => by decide
  | call name | global name => exact .append (fun _ => by decide) (Neat.oneLine h)
  | symbol name => exact .append (Neat.oneLine h) fun _ => by decide
  | push r | pop r => exact .append (fun _ => by decide) (oneLine_nameAt r .quad)
  | cqo | ret => exact fun _ => by decide

/-- The line of an instruction is one line. -/
theorem oneLine_row (h : i.Tidy strict) : OneLine strict i.row := by
  cases i with
  | comment text => exact .append (fun _ => by decide) h
  | global name | symbol name | label l => exact oneLine_text h
  | _ => exact .append (fun _ => by decide) (oneLine_text h)

end Rows

/-! ### Lines of comments -/

/-- The line is an indented comment. -/
def isComment (line : List Char) : Bool := "    ;".toList.isPrefixOf line

/-- The line of an instruction is an indented comment if and only if the instruction is a comment. -/
theorem isComment_row {i : Instr} (h : i.Tidy True) : isComment i.row.toList = i.isComment := by
  cases i with
  | comment text => simp [isComment, Instr.row, Instr.isComment, List.isPrefixOf]
  | symbol name =>
    -- a name does not begin with a blank
    have hblank : isNameChar ' ' = false := by decide
    have hname := h trivial
    cases hchars : name.toList with
    | nil => simp [isComment, Instr.row, Instr.text, Instr.isComment, List.isPrefixOf, hchars]
    | cons c rest =>
      have hc : c ≠ ' ' := by
        rintro rfl
        have := hname ' ' (hchars ▸ List.mem_cons_self)
        simp [hblank] at this
      simp [isComment, Instr.row, Instr.text, Instr.isComment, List.isPrefixOf, hchars, hc.symm]
  | alu op w dst src =>
    cases op <;> simp [isComment, Instr.row, Instr.text, Instr.isComment, List.isPrefixOf, AluOp.mnemonic]
  | label l => simp [isComment, Instr.row, Instr.text, Instr.isComment, List.isPrefixOf, Label.text]
  | _ => simp [isComment, Instr.row, Instr.text, Instr.isComment, List.isPrefixOf]

/-- The lines of a text, each with its line break; what stands behind the last one is a line too. -/
def linesOf : List Char → List (List Char)
  | [] => []
  | c :: rest =>
    if c = '\n' then [c] :: linesOf rest
    else
      match linesOf rest with
      | [] => [[c]]
      | line :: lines => (c :: line) :: lines

/-- The text without its indented comments. -/
def withoutComments (text : String) : String :=
  String.ofList ((linesOf text.toList).filter (!isComment ·)).flatten

/-- The text of some lines. -/
def unlines (lines : List String) : String := String.join (lines.map (· ++ "\n"))

theorem linesOf_append {line : List Char} (h : '\n' ∉ line) (rest : List Char) :
    linesOf (line ++ '\n' :: rest) = (line ++ ['\n']) :: linesOf rest := by
  induction line with
  | nil => simp [linesOf]
  | cons c line ih =>
    obtain ⟨hc, hline⟩ := not_or.mp fun hmem => h (List.mem_cons.mpr hmem)
    simp [linesOf, ih hline, Ne.symm hc]

theorem toList_unlines (lines : List String) :
    (unlines lines).toList = lines.flatMap fun line => line.toList ++ ['\n'] := by
  simp [unlines, List.flatMap_map]

theorem unlines_append (lines lines' : List String) :
    unlines (lines ++ lines') = unlines lines ++ unlines lines' := by
  rw [← String.toList_inj, String.toList_append]
  simp only [toList_unlines, List.flatMap_append]

theorem unlines_cons (line : String) (lines : List String) :
    unlines (line :: lines) = line ++ "\n" ++ unlines lines := by
  rw [← String.toList_inj, String.toList_append, String.toList_append]
  simp only [toList_unlines, List.flatMap_cons]
  rfl

theorem unlines_map {α : Type} (f : α → String) (as : List α) :
    unlines (as.map f) = String.join (as.map fun a => f a ++ "\n") := by
  rw [unlines, List.map_map]
  rfl

theorem linesOf_unlines {lines : List String} (h : ∀ line ∈ lines, '\n' ∉ line.toList) :
    linesOf (unlines lines).toList = lines.map fun line => line.toList ++ ['\n'] := by
  rw [toList_unlines]
  induction lines with
  | nil => rfl
  | cons line lines ih =>
    obtain ⟨hline, hlines⟩ := List.forall_mem_cons.mp h
    rw [List.flatMap_cons, List.append_assoc, List.singleton_append, linesOf_append hline, ih hlines,
      List.map_cons]

/-- A line break makes no line a comment. -/
theorem isComment_concat (line : List Char) : isComment (line ++ ['\n']) = isComment line := by
  unfold isComment
  rw [Bool.eq_iff_iff, List.isPrefixOf_iff_prefix, List.isPrefixOf_iff_prefix, List.prefix_concat_iff]
  refine ⟨fun h => h.elim (fun heq => ?_) id, .inr⟩
  have hmem : '\n' ∈ "    ;".toList := heq ▸ List.mem_append_right _ List.mem_cons_self
  exact absurd hmem (by decide)

/-- Lines of comments are struck out. -/
theorem withoutComments_unlines {lines : List String} (h : ∀ line ∈ lines, '\n' ∉ line.toList) :
    withoutComments (unlines lines) = unlines (lines.filter fun line => !isComment line.toList) := by
  rw [← String.toList_inj, withoutComments, String.toList_ofList, linesOf_unlines h, toList_unlines,
    List.filter_map, List.flatMap_def]
  congr 2
  exact List.filter_congr fun line _ => by simp [isComment_concat]

/-! ### Programs -/

/-- The first line of the text of a program. -/
def headline (source : String) : String := "; minic output for " ++ source ++ "\n"

/-- The line of a string. -/
def constantRow (entry : String × String) : String := entry.1 ++ ": db " ++ byteList entry.2

namespace Program

/-- The lines of the text of a program below the first. -/
def rows (p : Program) : List String :=
  p.externs.map ("extern " ++ ·) ++ ["", "section .text"] ++ p.code.map Instr.row ++
    ["", "section .data"] ++ p.constants.entries.map constantRow

/-- The program without its comments. -/
def uncommented (p : Program) : Program := { p with code := p.code.filter (!·.isComment) }

theorem line_eq {options : Options} {i : Instr}
    (h : options.comments = true ∨ i.isComment = false) : i.line options = i.row ++ "\n" := by
  cases i with
  | comment text =>
    rcases h with h | h
    · exact if_pos h
    · cases h
  | _ => rfl

theorem unlines_sections : unlines ["", "section .text"] = "\nsection .text\n" ∧
    unlines ["", "section .data"] = "\nsection .data\n" := by
  decide

/-- A program is printed line by line, if its comments are printed or it has none. -/
theorem text_eq {options : Options} {p : Program}
    (h : options.comments = true ∨ ∀ i ∈ p.code, i.isComment = false) :
    p.text options = headline p.source ++ unlines p.rows := by
  have hcode : p.code.map (Instr.line options) = p.code.map fun i => i.row ++ "\n" :=
    List.map_congr_left fun i hi => line_eq (h.imp id fun hnone => hnone i hi)
  have htext : p.text options = headline p.source ++
      String.join (p.externs.map fun name => "extern " ++ name ++ "\n") ++ "\nsection .text\n" ++
      String.join (p.code.map (Instr.line options)) ++ "\nsection .data\n" ++
      String.join (p.constants.entries.map fun entry => constantRow entry ++ "\n") := rfl
  rw [htext, hcode, rows, unlines_append, unlines_append, unlines_append, unlines_append,
    unlines_sections.1, unlines_sections.2, unlines_map, unlines_map, unlines_map]
  simp only [String.append_assoc]

/-- What is asked of a program whose lines are to be told apart. -/
structure Tidy (p : Program) : Prop where
  externs : ∀ name ∈ p.externs, Neat True name
  code : ∀ i ∈ p.code, i.Tidy True

theorem mem_of_mem_intercalate {α : Type} {a : α} {between : List α} :
    ∀ {parts : List (List α)}, a ∈ between.intercalate parts → a ∈ between ∨ ∃ part ∈ parts, a ∈ part
  | [], h => by simp [List.intercalate] at h
  | [part], h => .inr ⟨part, List.mem_cons_self, by simpa [List.intercalate] using h⟩
  | part :: next :: rest, h => by
    have hsplit : between.intercalate (part :: next :: rest) =
        part ++ (between ++ between.intercalate (next :: rest)) := by
      simp [List.intercalate]
    rw [hsplit, List.mem_append, List.mem_append] at h
    rcases h with h | h | h
    · exact .inr ⟨part, List.mem_cons_self, h⟩
    · exact .inl h
    · refine (mem_of_mem_intercalate h).imp id ?_
      rintro ⟨other, hmem, ha⟩
      exact ⟨other, List.mem_cons_of_mem part hmem, ha⟩

theorem oneLine_byteList (raw : String) : OneLine True (byteList raw) := by
  intro _ hmem
  rw [byteList, String.toList_intercalate, List.map_map] at hmem
  rcases mem_of_mem_intercalate hmem with hbetween | ⟨part, hpart, hmem⟩
  · exact absurd hbetween (by decide)
  · obtain ⟨b, -, rfl⟩ := List.mem_map.mp hpart
    exact (neat_natural b.toNat).oneLine trivial hmem

/-- The line of a string is one line, and no comment. -/
theorem oneLine_constantRow {p : Program} {entry : String × String} (h : entry ∈ p.constants.entries) :
    '\n' ∉ (constantRow entry).toList ∧ isComment (constantRow entry).toList = false := by
  obtain ⟨index, hindex, rfl⟩ := List.mem_mapIdx.mp h
  have hlabel : OneLine True (ConstantPool.label index) :=
    .append (fun _ => by decide) (neat_natural index).oneLine
  refine ⟨OneLine.append (.append hlabel fun _ => by decide) (oneLine_byteList _) trivial, ?_⟩
  simp [isComment, constantRow, ConstantPool.label, List.isPrefixOf]

theorem Tidy.rows {p : Program} (h : p.Tidy) : ∀ row ∈ p.rows, '\n' ∉ row.toList := by
  intro row hrow
  simp only [Program.rows, List.mem_append, List.mem_cons, List.not_mem_nil, or_false, List.mem_map] at hrow
  rcases hrow with (((⟨name, hname, rfl⟩ | rfl | rfl) | ⟨i, hi, rfl⟩) | rfl | rfl) | ⟨entry, hentry, rfl⟩
  · exact OneLine.append (fun _ => by decide) (h.externs name hname).oneLine trivial
  · decide
  · decide
  · exact oneLine_row (h.code i hi) trivial
  · decide
  · decide
  · exact (oneLine_constantRow hentry).1

/-- The lines of a program without its comments are those of the program that are no comments. -/
theorem rows_uncommented {p : Program} (h : p.Tidy) :
    p.uncommented.rows = p.rows.filter fun row => !isComment row.toList := by
  have hexterns : (p.externs.map ("extern " ++ ·)).filter (fun row => !isComment row.toList) =
      p.externs.map ("extern " ++ ·) := by
    refine List.filter_eq_self.mpr fun row hrow => ?_
    obtain ⟨name, -, rfl⟩ := List.mem_map.mp hrow
    simp [isComment, List.isPrefixOf]
  have hcode : (p.code.map Instr.row).filter (fun row => !isComment row.toList) =
      (p.code.filter (!·.isComment)).map Instr.row := by
    rw [List.filter_map]
    congr 1
    exact List.filter_congr fun i hi => by simp [isComment_row (h.code i hi)]
  have hconstants : (p.constants.entries.map constantRow).filter (fun row => !isComment row.toList) =
      p.constants.entries.map constantRow := by
    refine List.filter_eq_self.mpr fun row hrow => ?_
    obtain ⟨entry, hentry, rfl⟩ := List.mem_map.mp hrow
    simp [(oneLine_constantRow hentry).2]
  simp only [rows, List.filter_append, hexterns, hcode, hconstants]
  rfl

/-- To print a program without its comments is to strike out the lines of comments. -/
theorem text_uncommented {options : Options} {p : Program} (h : p.Tidy) :
    p.uncommented.text options = headline p.source ++ withoutComments (unlines p.rows) := by
  have hnone : ∀ i ∈ p.uncommented.code, i.isComment = false := by
    intro i hi
    simpa using (List.mem_filter.mp hi).2
  rw [text_eq (.inr hnone), rows_uncommented h, withoutComments_unlines h.rows]
  rfl

/-- The first line is no comment either, if it is one line. -/
theorem withoutComments_text {options : Options} {p : Program} (h : p.Tidy)
    (hsource : '\n' ∉ p.source.toList) :
    withoutComments (headline p.source ++ unlines p.rows) = p.uncommented.text options := by
  have hheadline : OneLine True ("; minic output for " ++ p.source) :=
    .append (fun _ => by decide) fun _ => hsource
  have hcomment : isComment ("; minic output for " ++ p.source).toList = false := by
    simp [isComment, List.isPrefixOf]
  have hcons : ∀ rows, headline p.source ++ unlines rows =
      unlines (("; minic output for " ++ p.source) :: rows) := fun rows => (unlines_cons _ rows).symm
  have hfilter : (("; minic output for " ++ p.source) :: p.rows).filter (fun row => !isComment row.toList) =
      ("; minic output for " ++ p.source) :: p.rows.filter fun row => !isComment row.toList := by
    rw [List.filter_cons, hcomment]
    rfl
  rw [hcons, withoutComments_unlines (List.forall_mem_cons.mpr ⟨hheadline trivial, h.rows⟩),
    hfilter, ← hcons, text_uncommented h, withoutComments_unlines h.rows]

end Program

end ProcLang
