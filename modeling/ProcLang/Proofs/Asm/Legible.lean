import ProcLang.Proofs.Asm.Label
import ProcLang.Proofs.Generation.Erasure
import ProcLang.Proofs.Generation.Outcome
import ProcLang.Proofs.Token.Number

/-!
The text of an instruction tells the instruction.  Up to the first blank stands a word that tells the form of
the instruction, its operator and its condition; a word with a colon is a label or the name of a procedure.
Behind it stand the operands, the first one up to the first comma.  The width of an instruction shows in its
first operand, as the name of a register or as the word for a size; so that one must not be a number.
-/

namespace ProcLang

/-! ### Numbers -/

theorem integer_negSucc (n : Nat) :
    (toString (Int.negSucc n)).toList = '-' :: (toString (n + 1)).toList := by
  change ("-" ++ toString (n + 1)).toList = _
  rw [String.toList_append]
  rfl

/-- A number is written with digits and a sign. -/
theorem integer_chars (n : Int) : ∀ c ∈ (toString n).toList, c.isDigit ∨ c = '-' := by
  intro c hc
  cases n with
  | ofNat n => exact .inl (natural_chars n c hc)
  | negSucc n =>
    rw [integer_negSucc, List.mem_cons] at hc
    exact hc.elim .inr fun h => .inl (natural_chars _ c h)

theorem integer_inj {m n : Int} (h : (toString m).toList = (toString n).toList) : m = n := by
  -- no digit is a sign
  have hsign : ∀ m n : Nat, (toString m).toList ≠ '-' :: (toString n).toList := by
    intro m n heq
    exact absurd (natural_chars m '-' (heq ▸ List.mem_cons_self)) (by decide)
  cases m with
  | ofNat m =>
    cases n with
    | ofNat n => exact congrArg Int.ofNat (natural_inj (String.toList_inj.mp h))
    | negSucc n => exact absurd (h.trans (integer_negSucc n)) (hsign m _)
  | negSucc m =>
    cases n with
    | ofNat n => exact absurd (h.symm.trans (integer_negSucc m)) (hsign n _)
    | negSucc n =>
      rw [integer_negSucc, integer_negSucc] at h
      exact congrArg Int.negSucc (Nat.succ.inj (natural_inj (String.toList_inj.mp (List.cons.inj h).2)))

/-- A number with its sign; nothing for zero. -/
def offsetChars (n : Int) : List Char :=
  if n = 0 then [] else (if n < 0 then '-' else '+') :: (toString n.natAbs).toList

theorem toList_signed (n : Int) :
    (signed n).toList = (if n < 0 then '-' else '+') :: (toString n.natAbs).toList := by
  unfold signed
  cases n with
  | ofNat n => exact String.toList_append
  | negSucc n =>
    rw [if_pos (Int.negSucc_lt_zero n), if_pos (Int.negSucc_lt_zero n)]
    exact integer_negSucc n

theorem offsetChars_eq_nil {n : Int} : offsetChars n = [] ↔ n = 0 := by
  unfold offsetChars
  by_cases hn : n = 0 <;> simp [hn]

theorem offsetChars_inj {m n : Int} (h : offsetChars m = offsetChars n) : m = n := by
  by_cases hm : m = 0
  · have hn : n = 0 := offsetChars_eq_nil.mp (h.symm.trans (offsetChars_eq_nil.mpr hm))
    rw [hm, hn]
  · have hn : n ≠ 0 := fun hn => hm (offsetChars_eq_nil.mp (h.trans (offsetChars_eq_nil.mpr hn)))
    simp only [offsetChars, if_neg hm, if_neg hn] at h
    obtain ⟨hsign, habs⟩ := List.cons.inj h
    have heq := natural_inj (String.toList_inj.mp habs)
    have hiff : m < 0 ↔ n < 0 := by
      by_cases hm' : m < 0 <;> by_cases hn' : n < 0 <;> simp [hm', hn'] at hsign ⊢
    omega

/-! ### Names of registers -/

theorem nameAt_table : ∀ r ∈ Register.all, ∀ w ∈ [Width.byte, .long, .quad], ∀ r' ∈ Register.all,
    ∀ w' ∈ [Width.byte, .long, .quad], r.nameAt w = r'.nameAt w' → r = r' ∧ w = w' := by
  decide +kernel

/-- The name of a register tells the register and the width. -/
theorem nameAt_inj {r r' : Register} {w w' : Width} (h : r.nameAt w = r'.nameAt w') : r = r' ∧ w = w' := by
  have hall : ∀ r : Register, r ∈ Register.all := by
    intro r
    cases r <;> decide
  have hwidth : ∀ w : Width, w ∈ [Width.byte, .long, .quad] := by
    intro w
    cases w <;> decide
  exact nameAt_table r (hall r) w (hwidth w) r' (hall r') w' (hwidth w') h

theorem name_inj {r r' : Register} (h : r.name = r'.name) : r = r' :=
  (nameAt_inj (h : r.nameAt .quad = r'.nameAt .quad)).1

theorem nameAt_chars (r : Register) (w : Width) : ∀ c ∈ (r.nameAt w).toList, isNameChar c := by
  cases r <;> cases w <;> exact List.all_eq_true.mp (by decide)

/-! ### Operands -/

/-- The character does not stand in a number. -/
def isForeign (c : Char) : Bool := !(c.isDigit || c == '-')

/-- Which operands can be written alike: numbers, registers, and those in memory. -/
def Operand.sort : Operand → Nat
  | imm _ => 0
  | reg _ => 1
  | mem .. | data _ => 2

/-- The sort of an operand by its text. -/
def sortOf (text : List Char) : Nat := if '[' ∈ text then 2 else if text.any isForeign then 1 else 0

section Operands

variable {o o' : Operand} {w w' : Width}

theorem toList_address_mem (base : Register) (n : Int) :
    (Operand.mem base n).address.toList = '[' :: (base.name.toList ++ (offsetChars n ++ [']'])) := by
  unfold Operand.address offsetChars
  by_cases hn : n = 0
  · simp [hn]
  · simp [hn, toList_signed]

theorem toList_address_data (label : String) :
    (Operand.data label).address.toList = '[' :: ("rel".toList ++ ' ' :: (label.toList ++ [']'])) := by
  simp [Operand.address]

theorem sortOf_integer (n : Int) : sortOf (toString n).toList = 0 := by
  have hchars := integer_chars n
  have hbracket : '[' ∉ (toString n).toList := fun hmem => absurd (hchars _ hmem) (by decide)
  have hforeign : (toString n).toList.any isForeign = false := by
    refine List.any_eq_false.mpr fun c hc => ?_
    rcases hchars c hc with hdigit | rfl
    · simp [isForeign, hdigit]
    · decide
  rw [sortOf, if_neg hbracket, hforeign]
  rfl

theorem sortOf_nameAt (r : Register) (w : Width) : sortOf (r.nameAt w).toList = 1 := by
  cases r <;> cases w <;> decide

theorem sort_address (o : Operand) : sortOf o.address.toList = o.sort := by
  cases o with
  | imm n => exact sortOf_integer n
  | reg r => exact sortOf_nameAt r .quad
  | mem base n => simp [sortOf, toList_address_mem, Operand.sort]
  | data label => simp [sortOf, toList_address_data, Operand.sort]

theorem sort_text (w : Width) (o : Operand) : sortOf (o.text w).toList = o.sort := by
  cases o with
  | imm n => exact sortOf_integer n
  | reg r => exact sortOf_nameAt r w
  | mem base n => simp [sortOf, Operand.text, toList_address_mem, Operand.sort]
  | data label => simp [sortOf, Operand.text, toList_address_data, Operand.sort]

theorem offsetChars_head (n : Int) : ∀ c ∈ (offsetChars n ++ [']']).head?, ¬ isNameChar c := by
  unfold offsetChars
  split_ifs <;> rintro c ⟨⟩ <;> decide

theorem base_ne_rel {base : Register} {n : Int} {label : String} :
    (Operand.mem base n).address ≠ (Operand.data label).address := by
  intro h
  have hlist := congrArg String.toList h
  rw [toList_address_mem, toList_address_data] at hlist
  obtain ⟨hrel, -⟩ := name_unique (nameAt_chars base .quad) (List.all_eq_true.mp (by decide))
    (offsetChars_head n) (by rintro c ⟨⟩; decide) (List.cons.inj hlist).2
  cases base <;> exact absurd hrel (by decide)

/-- An operand without its size tells itself. -/
theorem address_inj (h : o.address = o'.address) : o = o' := by
  have hlist := congrArg String.toList h
  have hsort : o.sort = o'.sort := by rw [← sort_address, ← sort_address, h]
  cases o with
  | imm n =>
    cases o' with
    | imm n' => rw [integer_inj hlist]
    | _ => cases hsort
  | reg r =>
    cases o' with
    | reg r' => rw [name_inj h]
    | _ => cases hsort
  | mem base n =>
    cases o' with
    | mem base' n' =>
      rw [toList_address_mem, toList_address_mem] at hlist
      obtain ⟨hbase, hrest⟩ := name_unique (nameAt_chars base .quad) (nameAt_chars base' .quad)
        (offsetChars_head n) (offsetChars_head n') (List.cons.inj hlist).2
      rw [name_inj (String.toList_inj.mp hbase), offsetChars_inj (List.append_cancel_right hrest)]
    | data label => exact absurd h base_ne_rel
    | _ => cases hsort
  | data label =>
    cases o' with
    | mem base n => exact absurd h.symm base_ne_rel
    | data label' =>
      rw [toList_address_data, toList_address_data] at hlist
      have hlabel := (List.cons.inj (List.append_cancel_left (List.cons.inj hlist).2)).2
      rw [String.toList_inj.mp (List.append_cancel_right hlabel)]
    | _ => cases hsort

/-- The text of an operand tells the operand and, unless it is a number, its width. -/
theorem text_tells (h : o.text w = o'.text w') (hw : o.sort = 0 → w = w') : w = w' ∧ o = o' := by
  have hlist := congrArg String.toList h
  have hsort : o.sort = o'.sort := by rw [← sort_text w, ← sort_text w', h]
  have hmemory : ∀ {o o' : Operand}, w.keyword ++ " " ++ o.address = w'.keyword ++ " " ++ o'.address →
      w = w' ∧ o = o' := by
    intro o o' heq
    have hsplit := congrArg String.toList heq
    simp only [String.toList_append, List.append_assoc] at hsplit
    obtain ⟨hkeyword, hrest⟩ := name_unique (by cases w <;> exact List.all_eq_true.mp (by decide))
      (by cases w' <;> exact List.all_eq_true.mp (by decide)) (by rintro c ⟨⟩; decide)
      (by rintro c ⟨⟩; decide) hsplit
    refine ⟨?_, address_inj (String.toList_inj.mp (List.cons.inj hrest).2)⟩
    cases w <;> cases w' <;> first | rfl | exact absurd hkeyword (by decide)
  cases o with
  | imm n =>
    cases o' with
    | imm n' => exact ⟨hw rfl, by rw [integer_inj hlist]⟩
    | _ => cases hsort
  | reg r =>
    cases o' with
    | reg r' =>
      obtain ⟨rfl, rfl⟩ := nameAt_inj h
      exact ⟨rfl, rfl⟩
    | _ => cases hsort
  | mem base n =>
    cases o' with
    | mem base' n' => exact hmemory h
    | data label => exact hmemory h
    | _ => cases hsort
  | data label =>
    cases o' with
    | mem base n => exact hmemory h
    | data label' => exact hmemory h
    | _ => cases hsort

/-- No comma stands in an operand whose label is neat. -/
theorem comma_not_mem_text (h : o.Plain True) (w : Width) : ',' ∉ (o.text w).toList := by
  have hname : ∀ {text : List Char}, (∀ c ∈ text, isNameChar c) → ',' ∉ text := fun hchars hmem =>
    absurd (hchars _ hmem) (by decide)
  have hkeyword : ',' ∉ w.keyword.toList := by cases w <;> decide
  cases o with
  | imm n => exact fun hmem => absurd (integer_chars n _ hmem) (by decide)
  | reg r => exact hname (nameAt_chars r w)
  | mem base n =>
    have hoffset : ',' ∉ offsetChars n := by
      have hdigits : ',' ∉ (toString n.natAbs).toList := fun hmem =>
        absurd (natural_chars n.natAbs ',' hmem) (by decide)
      unfold offsetChars
      split_ifs
      · exact List.not_mem_nil
      · exact List.not_mem_cons_of_ne_of_not_mem (by decide) hdigits
      · exact List.not_mem_cons_of_ne_of_not_mem (by decide) hdigits
    simp [Operand.text, toList_address_mem, hkeyword, hname (nameAt_chars base .quad), Register.name, hoffset]
  | data label => simp [Operand.text, toList_address_data, hkeyword, hname (h trivial)]

/-- What stands in front of a comma and behind it. -/
theorem comma_split {a b x y : String} (ha : ',' ∉ a.toList) (hb : ',' ∉ b.toList)
    (h : a ++ ", " ++ x = b ++ ", " ++ y) : a = b ∧ x = y := by
  have hlist := congrArg String.toList h
  simp only [String.toList_append, List.append_assoc] at hlist
  obtain ⟨hfirst, hrest⟩ := split_unique ha hb hlist
  exact ⟨String.toList_inj.mp hfirst, String.toList_inj.mp (List.cons.inj hrest).2⟩

theorem sort_ne_zero_of_sized (h : o.Sized True) : o.sort ≠ 0 := by
  cases o with
  | imm n => exact h.elim
  | _ => exact fun hsort => by cases hsort

theorem operands_inj {dst src dst' src' : Operand} (hdst : dst.Sized True) (hdst' : dst'.Sized True)
    (h : Instr.operands w dst src = Instr.operands w' dst' src') : w = w' ∧ dst = dst' ∧ src = src' := by
  obtain ⟨hfirst, hsecond⟩ := comma_split (comma_not_mem_text hdst.plain w)
    (comma_not_mem_text hdst'.plain w') h
  obtain ⟨rfl, rfl⟩ := text_tells hfirst fun hsort => absurd hsort (sort_ne_zero_of_sized hdst)
  exact ⟨rfl, rfl, (text_tells hsecond fun _ => rfl).2⟩

end Operands

/-! ### Instructions -/

theorem Label.text_inj {l l' : Label} (h : l.text = l'.text) : l = l' := by
  have hid := Label.id_eq_of_text h
  obtain ⟨id, name⟩ := l
  obtain ⟨id', name'⟩ := l'
  obtain rfl : id = id' := hid
  simpa [Label.text] using h

namespace Instr

/-- The word in front of the operands. -/
def word : Instr → String
  | mov .. => "mov"
  | movzx .. => "movzx"
  | movsx .. => "movsx"
  | lea .. => "lea"
  | neg .. => "neg"
  | alu op .. => op.mnemonic
  | cmp .. => "cmp"
  | test .. => "test"
  | cqo => "cqo"
  | idiv .. => "idiv"
  | setcc c _ => "set" ++ c.suffix
  | jmp _ => "jmp"
  | jcc c _ => "j" ++ c.suffix
  | label l => l.text ++ ":"
  | call _ => "call"
  | push _ => "push"
  | pop _ => "pop"
  | ret => "ret"
  | comment _ => ";"
  | global _ => "global"
  | symbol name => name ++ ":"

/-- What stands behind the word and a blank, if anything does. -/
def rest? : Instr → Option String
  | mov w dst src | alu _ w dst src | cmp w dst src | test w dst src => some (operands w dst src)
  | movzx dst src => some (dst.nameAt .long ++ ", " ++ src.text .byte)
  | movsx dst src => some (dst.nameAt .quad ++ ", " ++ src.text .byte)
  | lea dst src => some (dst.nameAt .quad ++ ", " ++ src.address)
  | neg w o | idiv w o => some (o.text w)
  | setcc _ dst => some (dst.nameAt .byte)
  | jmp target | jcc _ target => some target.text
  | call name | global name => some name
  | push r | pop r => some r.name
  | comment text => some text
  | cqo | ret | label _ | symbol _ => none

/-- The instruction without its operands. -/
def form : Instr → Instr
  | mov .. => mov .quad default default
  | movzx .. => movzx default default
  | movsx .. => movsx default default
  | lea .. => lea default default
  | neg .. => neg .quad default
  | alu op .. => alu op .quad default default
  | cmp .. => cmp .quad default default
  | test .. => test .quad default default
  | idiv .. => idiv .quad default
  | setcc c _ => setcc c default
  | jmp _ => jmp default
  | jcc c _ => jcc c default
  | call _ => call ""
  | push _ => push default
  | pop _ => pop default
  | comment _ => comment ""
  | global _ => global ""
  | other => other

/-- The forms of instructions that are neither a label nor the name of a procedure. -/
def forms : List Instr :=
  [mov .quad default default, movzx default default, movsx default default, lea default default,
    neg .quad default, alu .add .quad default default, alu .sub .quad default default,
    alu .mul .quad default default, alu .xor .quad default default, cmp .quad default default,
    test .quad default default, cqo, idiv .quad default, setcc .e default, setcc .ne default,
    setcc .l default, setcc .le default, setcc .g default, setcc .ge default, jmp default, jcc .e default,
    jcc .ne default, jcc .l default, jcc .le default, jcc .g default, jcc .ge default, call "", push default,
    pop default, ret, comment "", global ""]

/-- The instruction is a label or the name of a procedure. -/
def isNamed : Instr → Bool
  | label _ | symbol _ => true
  | _ => false

/-- The instruction is a comment; or its first operand is no number, its names are made of letters, digits
and underscores, and so are the labels of strings. -/
def Legible : Instr → Prop
  | comment _ => True
  | i => i.Plain True

variable {i j : Instr}

theorem text_chars (i : Instr) :
    i.text.toList ++ [' '] = i.word.toList ++ ' ' :: (i.rest?.map fun r => r.toList ++ [' ']).getD [] := by
  cases i <;> simp [text, word, rest?]

theorem form_inj : ∀ f ∈ forms, ∀ g ∈ forms, f.word = g.word → f = g := by
  decide +kernel

theorem form_chars : ∀ f ∈ forms, ' ' ∉ f.word.toList ∧ ':' ∉ f.word.toList := by
  decide

theorem form_mem (h : i.isNamed = false) : i.form ∈ forms ∧ i.form.word = i.word := by
  cases i with
  | label l => cases h
  | symbol name => cases h
  | alu op w dst src => cases op <;> exact ⟨by simp [form, forms], rfl⟩
  | setcc c dst | jcc c l => cases c <;> exact ⟨by simp [form, forms], rfl⟩
  | _ => exact ⟨by simp [form, forms], rfl⟩

theorem word_chars (h : i.isNamed = false) : ' ' ∉ i.word.toList ∧ ':' ∉ i.word.toList := by
  obtain ⟨hmem, hword⟩ := form_mem h
  rw [← hword]
  exact form_chars _ hmem

theorem isNamed_iff : i.isNamed = true ↔ ':' ∈ i.word.toList := by
  cases hnamed : i.isNamed with
  | false => simp [(word_chars hnamed).2]
  | true =>
    cases i with
    | label l => simp [word]
    | symbol name => simp [word]
    | _ => cases hnamed

theorem blank_not_mem_word (h : i.Legible) : ' ' ∉ i.word.toList := by
  have hneat : ∀ {name : String}, Neat True name → ' ' ∉ name.toList := fun hname hmem =>
    absurd (hname trivial _ hmem) (by decide)
  cases i with
  | symbol name => simp [word, hneat h]
  | label l =>
    have hid : ' ' ∉ (toString l.id).toList := fun hmem => absurd (natural_chars l.id _ hmem) (by decide)
    simp only [word, Label.text, String.toList_append, List.mem_append, not_or]
    exact ⟨⟨⟨⟨by decide, hid⟩, by decide⟩, hneat h⟩, by decide⟩
  | _ => exact (word_chars rfl).1

/-- The text tells the word and what stands behind it. -/
theorem word_eq (hi : i.Legible) (hj : j.Legible) (h : i.text = j.text) :
    i.word = j.word ∧ i.rest? = j.rest? := by
  have hlist := congrArg (·.toList ++ [' ']) h
  simp only [text_chars] at hlist
  obtain ⟨hword, hrest⟩ := split_unique (blank_not_mem_word hi) (blank_not_mem_word hj) hlist
  refine ⟨String.toList_inj.mp hword, ?_⟩
  cases hr : i.rest? <;> cases hr' : j.rest? <;> simp [hr, hr'] at hrest ⊢
  exact String.toList_inj.mp hrest

/-- Labels and names of procedures are told apart by the point in front of a label. -/
theorem eq_of_named (hi : i.Legible) (hj : j.Legible) (hnamed : i.isNamed) (hnamed' : j.isNamed)
    (h : i.word = j.word) : i = j := by
  have hpoint : ∀ {l : Label} {name : String}, Neat True name → l.text ++ ":" ≠ name ++ ":" := by
    intro l name hname heq
    have hmem : '.' ∈ name.toList := by
      rw [← (String.append_left_inj ":").mp heq]
      simp [Label.text]
    exact absurd (hname trivial _ hmem) (by decide)
  cases i with
  | label l =>
    cases j with
    | label l' => rw [Label.text_inj ((String.append_left_inj ":").mp h)]
    | symbol name => exact absurd h (hpoint hj)
    | _ => cases hnamed'
  | symbol name =>
    cases j with
    | label l => exact absurd h.symm (hpoint hi)
    | symbol name' => rw [(String.append_left_inj ":").mp h]
    | _ => cases hnamed'
  | _ => cases hnamed

theorem operands_of_name {dst dst' : Register} {w : Width} {x y : String}
    (h : some (dst.nameAt w ++ ", " ++ x) = some (dst'.nameAt w ++ ", " ++ y)) : dst = dst' ∧ x = y := by
  have hcomma : ∀ r : Register, ',' ∉ (r.nameAt w).toList := fun r hmem =>
    absurd (nameAt_chars r w _ hmem) (by decide)
  obtain ⟨hname, hrest⟩ := comma_split (hcomma dst) (hcomma dst') (Option.some.inj h)
  exact ⟨(nameAt_inj hname).1, hrest⟩

/-- Of two instructions of one form the operands tell which is which. -/
theorem eq_of_form (hi : i.Legible) (hj : j.Legible) (hform : i.form = j.form) (h : i.rest? = j.rest?)
    (hnamed : i.isNamed = false) : i = j := by
  cases i with
  | mov w dst src =>
    cases j with
    | mov w' dst' src' =>
      obtain ⟨rfl, rfl, rfl⟩ := operands_inj hi.1 hj.1 (Option.some.inj h)
      rfl
    | _ => cases hform
  | movzx dst src =>
    cases j with
    | movzx dst' src' =>
      obtain ⟨rfl, hsrc⟩ := operands_of_name h
      rw [(text_tells hsrc fun _ => rfl).2]
    | _ => cases hform
  | movsx dst src =>
    cases j with
    | movsx dst' src' =>
      obtain ⟨rfl, hsrc⟩ := operands_of_name h
      rw [(text_tells hsrc fun _ => rfl).2]
    | _ => cases hform
  | lea dst src =>
    cases j with
    | lea dst' src' =>
      obtain ⟨rfl, hsrc⟩ := operands_of_name h
      rw [address_inj hsrc]
    | _ => cases hform
  | neg w o =>
    cases j with
    | neg w' o' =>
      obtain ⟨rfl, rfl⟩ := text_tells (Option.some.inj h) fun hsort => absurd hsort (sort_ne_zero_of_sized hi)
      rfl
    | _ => cases hform
  | idiv w o =>
    cases j with
    | idiv w' o' =>
      obtain ⟨rfl, rfl⟩ := text_tells (Option.some.inj h) fun hsort => absurd hsort (sort_ne_zero_of_sized hi)
      rfl
    | _ => cases hform
  | alu op w dst src =>
    cases j with
    | alu op' w' dst' src' =>
      obtain ⟨rfl, rfl, rfl⟩ := operands_inj hi.1 hj.1 (Option.some.inj h)
      cases hform
      rfl
    | _ => cases hform
  | cmp w dst src =>
    cases j with
    | cmp w' dst' src' =>
      obtain ⟨rfl, rfl, rfl⟩ := operands_inj hi.1 hj.1 (Option.some.inj h)
      rfl
    | _ => cases hform
  | test w dst src =>
    cases j with
    | test w' dst' src' =>
      obtain ⟨rfl, rfl, rfl⟩ := operands_inj hi.1 hj.1 (Option.some.inj h)
      rfl
    | _ => cases hform
  | cqo =>
    cases j with
    | cqo => rfl
    | _ => cases hform
  | setcc c dst =>
    cases j with
    | setcc c' dst' =>
      cases hform
      rw [(nameAt_inj (Option.some.inj h)).1]
    | _ => cases hform
  | jmp l =>
    cases j with
    | jmp l' => rw [Label.text_inj (Option.some.inj h)]
    | _ => cases hform
  | jcc c l =>
    cases j with
    | jcc c' l' =>
      cases hform
      rw [Label.text_inj (Option.some.inj h)]
    | _ => cases hform
  | call name =>
    cases j with
    | call name' => rw [Option.some.inj h]
    | _ => cases hform
  | push r =>
    cases j with
    | push r' => rw [name_inj (Option.some.inj h)]
    | _ => cases hform
  | pop r =>
    cases j with
    | pop r' => rw [name_inj (Option.some.inj h)]
    | _ => cases hform
  | ret =>
    cases j with
    | ret => rfl
    | _ => cases hform
  | comment text =>
    cases j with
    | comment text' => rw [Option.some.inj h]
    | _ => cases hform
  | global name =>
    cases j with
    | global name' => rw [Option.some.inj h]
    | _ => cases hform
  | label l => cases hnamed
  | symbol name => cases hnamed

theorem eq_of_text (hi : i.Legible) (hj : j.Legible) (h : i.text = j.text) : i = j := by
  obtain ⟨hword, hrest⟩ := word_eq hi hj h
  have hnamed : i.isNamed = j.isNamed := by
    rw [Bool.eq_iff_iff, isNamed_iff, isNamed_iff, hword]
  cases hcase : i.isNamed with
  | true => exact eq_of_named hi hj hcase (hnamed ▸ hcase) hword
  | false =>
    obtain ⟨hmem, hform⟩ := form_mem hcase
    obtain ⟨hmem', hform'⟩ := form_mem (hnamed ▸ hcase)
    exact eq_of_form hi hj (form_inj _ hmem _ hmem' (by rw [hform, hform', hword])) hrest hcase

/-- Everything generated for an accepted program is legible. -/
theorem legible_of_generate {options : Options} {file source : String} {tokens : List Token} {ast : Ast}
    {p : Program} (ht : tokenize file source = .ok tokens) (hp : parse tokens = .ok ast)
    (hgen : (generate options file ast).result = .ok p) : ∀ i ∈ p.code, i.Legible := by
  intro i hi
  have htidy := (tidy_of_generate ht hp hgen).1.code i hi
  cases i with
  | comment text => exact trivial
  | _ => exact htidy

/-- The text of an instruction loses nothing: where the first operand is no number and all names are made of
letters, digits and underscores, instructions of one text are equal.  All the code that is generated for a text
is of this kind. -/
theorem text_determines :
    (∀ i j : Instr, i.Legible → j.Legible → i.text = j.text → i = j) ∧
      ∀ (options : Options) (file source : String) (tokens : List Token) (ast : Ast) (p : Program),
        tokenize file source = .ok tokens → parse tokens = .ok ast →
        (generate options file ast).result = .ok p → ∀ i ∈ p.code, i.Legible :=
  ⟨fun _ _ hi hj h => eq_of_text hi hj h,
    fun _ _ _ _ _ _ ht hp hgen => legible_of_generate ht hp hgen⟩

/-- A program with a string in it: the instruction that loads the address, by its text. -/
theorem text_determines_lea :
    ∃ tokens ast p, tokenize "t.mc" "void f(int s) \x7b f(\"a, b\"); \x7d" = .ok tokens ∧
      parse tokens = .ok ast ∧ (generate {} "t.mc" ast).result = .ok p ∧ (∀ i ∈ p.code, i.Legible) ∧
      ∃ i ∈ p.code, i.text = "lea rsi, [rel str_0]" ∧ i = lea .rsi (.data "str_0") := by
  have hpasses : Generation.passes "t.mc" "void f(int s) \x7b f(\"a, b\"); \x7d"
      (fun ast => (generate {} "t.mc" ast).result.toOption.any fun p =>
        p.code.any (·.text = "lea rsi, [rel str_0]")) = true := by
    decide +kernel
  obtain ⟨tokens, ast, ht, hp, htest⟩ := Generation.exists_of_passes hpasses
  cases hgen : (generate {} "t.mc" ast).result with
  | error e => simp [hgen, Except.toOption] at htest
  | ok p =>
    rw [hgen] at htest
    obtain ⟨i, hi, htext⟩ := List.any_eq_true.mp htest
    have hlegible := text_determines.2 {} "t.mc" _ tokens ast p ht hp hgen
    have hlea : (lea .rsi (.data "str_0")).Legible := fun _ => List.all_eq_true.mp (by decide)
    refine ⟨tokens, ast, p, ht, hp, hgen, hlegible, i, hi, of_decide_eq_true htext, ?_⟩
    exact text_determines.1 i _ (hlegible i hi) hlea (of_decide_eq_true htext)

end Instr

end ProcLang
