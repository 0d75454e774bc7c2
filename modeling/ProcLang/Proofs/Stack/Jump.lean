import ProcLang.Proofs.Stack.Discipline

/-!
Jumps stay in their procedure.

A label is local to the entry under which it stands: at a place of the code, its text means the label
with this text that has the same entries before it.  Every jump of a program finds its label there.
The code of a procedure is typed, so each of its jumps goes to a label that it has itself; the numbers
of labels are given once, and the text of a label tells its number.
-/

namespace ProcLang

/-! ### Jumps in code -/

/-- The label that an instruction jumps to. -/
def Instr.jumpsTo? : Instr → Option Label
  | .jmp l | .jcc _ l => some l
  | _ => none

/-- An instruction is the entry of a procedure. -/
def Instr.isEntry : Instr → Bool
  | .symbol _ => true
  | _ => false

/-- The number of entries before a place of code. -/
def entriesBefore (code : List Instr) (place : Nat) : Nat := (code.take place).countP Instr.isEntry

/-- What the text of a local label means at a place of code: a place under the same entry, with a label
of this text. -/
def MeansAt (code : List Instr) (place : Nat) (text : String) (found : Nat) : Prop :=
  entriesBefore code found = entriesBefore code place ∧
    ∃ l, code[found]? = some (.label l) ∧ l.text = text

/-- Every jump of the code stands under an entry, and its label stands under the same one. -/
def JumpsClosed (code : List Instr) : Prop :=
  ∀ place i l, code[place]? = some i → i.jumpsTo? = some l → 0 < entriesBefore code place ∧
    ∃ found, code[found]? = some (.label l) ∧ entriesBefore code found = entriesBefore code place

section Code

variable {c c₁ c₂ code : List Instr}

theorem entriesBefore_append_left {place : Nat} (h : place < c₁.length) :
    entriesBefore (c₁ ++ c₂) place = entriesBefore c₁ place := by
  rw [entriesBefore, List.take_append_of_le_length (by omega), entriesBefore]

theorem entriesBefore_append_right (place : Nat) :
    entriesBefore (c₁ ++ c₂) (c₁.length + place) =
      c₁.countP Instr.isEntry + entriesBefore c₂ place := by
  rw [entriesBefore, List.take_length_add_append, List.countP_append, entriesBefore]

theorem jumpsClosed_nil : JumpsClosed [] := by
  intro place i l hi
  cases hi

theorem JumpsClosed.append (h₁ : JumpsClosed c₁) (h₂ : JumpsClosed c₂) : JumpsClosed (c₁ ++ c₂) := by
  intro place i l hi hl
  by_cases hplace : place < c₁.length
  · rw [List.getElem?_append_left hplace] at hi
    obtain ⟨hpos, found, hfound, hsame⟩ := h₁ place i l hi hl
    have hlt : found < c₁.length := (List.getElem?_eq_some_iff.mp hfound).1
    rw [entriesBefore_append_left hplace]
    refine ⟨hpos, found, ?_, ?_⟩
    · rw [List.getElem?_append_left hlt, hfound]
    · rw [entriesBefore_append_left hlt, hsame]
  · obtain ⟨place, rfl⟩ := Nat.exists_eq_add_of_le (Nat.le_of_not_lt hplace)
    rw [List.getElem?_append_right (by omega), Nat.add_sub_cancel_left] at hi
    obtain ⟨hpos, found, hfound, hsame⟩ := h₂ place i l hi hl
    rw [entriesBefore_append_right]
    refine ⟨by omega, c₁.length + found, ?_, ?_⟩
    · rw [List.getElem?_append_right (by omega), Nat.add_sub_cancel_left, hfound]
    · rw [entriesBefore_append_right, hsame]

/-- Code behind one entry whose jumps go to labels of its own. -/
theorem jumpsClosed_entry {name : String} (hentry : ∀ name, .symbol name ∉ c)
    (hjumps : ∀ i ∈ c, ∀ l, i.jumpsTo? = some l → .label l ∈ c) :
    JumpsClosed (.global name :: .symbol name :: c) := by
  have hbefore : ∀ place, entriesBefore (.global name :: .symbol name :: c) (place + 2) = 1 := by
    intro place
    have hnone : (c.take place).countP Instr.isEntry = 0 := by
      refine List.countP_eq_zero.mpr fun i hi => ?_
      cases i with
      | symbol name' => exact absurd (List.mem_of_mem_take hi) (hentry name')
      | _ => simp [Instr.isEntry]
    rw [entriesBefore, List.take_succ_cons, List.take_succ_cons,
      List.countP_cons_of_neg (by simp [Instr.isEntry]), List.countP_cons_of_pos rfl, hnone]
  intro place i l hi hl
  match place, hi with
  | 0, hi =>
    obtain rfl := Option.some.inj hi
    cases hl
  | 1, hi =>
    obtain rfl := Option.some.inj hi
    cases hl
  | place + 2, hi =>
    obtain ⟨found, hfound⟩ := List.getElem?_of_mem (hjumps i (List.mem_of_getElem? hi) l hl)
    exact ⟨by rw [hbefore]; exact Nat.one_pos, found + 2, hfound, by rw [hbefore, hbefore]⟩

/-- A number that is given once tells the place of its label. -/
theorem place_eq_of_id (hids : (labelIds code).Nodup) {place place' : Nat} {l l' : Label}
    (h : code[place]? = some (.label l)) (h' : code[place']? = some (.label l'))
    (hid : l.id = l'.id) : place = place' := by
  induction code generalizing place place' with
  | nil => cases h
  | cons i code ih =>
    rw [labelIds_cons] at hids
    have hrest := (List.nodup_append.mp hids).2.1
    -- a label at the head and one behind it would have the same number
    have hhead : ∀ {l l' : Label} {k : Nat}, i = .label l → code[k]? = some (.label l') →
        l.id ≠ l'.id := by
      rintro l l' k rfl hk heq
      exact (List.nodup_cons.mp hids).1 (heq ▸ mem_labelIds (List.mem_of_getElem? hk))
    match place, place' with
    | 0, 0 => rfl
    | 0, k + 1 => exact absurd hid (hhead (Option.some.inj h) h')
    | k + 1, 0 => exact absurd hid.symm (hhead (Option.some.inj h') h)
    | k + 1, k' + 1 => exact congrArg (· + 1) (ih hrest h h')

/-- Typed code jumps to labels that have a shape. -/
theorem Typed.jumpsTo {slots : Nat} {Λ : Label → Shape → Prop} {i : Instr} {l : Label} {out : Shape}
    (hl : i.jumpsTo? = some l) : ∀ {c : List Instr} {ls : List Generation.Spot} {sh : Shape} {k : Pointed},
      Typed slots Λ sh k c ls out → i ∈ c → ∃ sh', Λ l sh'
  | j :: c, _ :: _, sh, _, ⟨hadm, _, _, _, _, _, hc⟩, hi => by
    rcases List.mem_cons.mp hi with rfl | hi
    · cases i with
      | jmp target | jcc condition target =>
        obtain rfl := Option.some.inj hl
        exact ⟨sh, hadm⟩
      | _ => cases hl
    · exact hc.jumpsTo hl hi

end Code

namespace Generation

section Programs

variable {options : Options} {source : String} {ast : Ast} {pool : List String}

theorem ProcedureCode.jumpsClosed {scopes : ScopeStack} {signature : Signature} {body : List Stmt}
    {names : List NameScope} {n n' : Nat} {code : List Instr} {ls : List Spot}
    (hscopes : Outermost scopes) (htypes : ∀ p ∈ signature.params, p.type ≠ .void)
    (hnodup : (signature.params.map (·.name)).Nodup)
    (hwf : Stmt.BodyWellFormed names signature body)
    (h : ProcedureCode options pool scopes signature body n code n' ls) :
    JumpsClosed (.global signature.name :: code) := by
  obtain ⟨c, _, defs, rfl, -, -, hshaped⟩ := h.shaped hscopes htypes hnodup hwf
  -- the labels of the code are all that the typing has to know
  have htyped := hshaped.typed (fun l _ => .label l ∈ c) (fun _ _ => False.elim) hshaped.present
  refine jumpsClosed_entry (fun name => htyped.not_symbol) fun i hi l hl => ?_
  obtain ⟨-, hmem⟩ := htyped.jumpsTo hl hi
  exact hmem

theorem ProgramCode.jumpsClosed {scopes : ScopeStack} {procs : List Stmt} {names : NameScope}
    {n n' : Nat} {code : List Instr} {ls : List Spot} (hscopes : Outermost scopes)
    (hwf : Stmt.ProceduresWellFormed [names] procs)
    (h : ProgramCode options pool scopes procs n code n' ls) : JumpsClosed code := by
  induction h generalizing names with
  | nil => exact jumpsClosed_nil
  | external _ ih => exact ih hscopes.after hwf.2
  | procedure _ hproc _ ih =>
    obtain ⟨htypes, hnodup, _, hbody⟩ := wellFormed_of_mem_procedures hwf List.mem_cons_self
    exact (hproc.jumpsClosed hscopes.after htypes hnodup hbody).append (ih hscopes.after hwf.2)

/-- Jumps are closed within their procedure.  No two labels of the code have the same number or the same
text.  Every jump stands under the entry of a procedure; its label is written once, under the same
entry, and is what its text means at the jump. -/
theorem jumps_closed {tokens : List Token} (hparse : parse tokens = .ok ast) {p : Program}
    (hgen : (generate options source ast).result = .ok p) :
    (∀ (place place' : Nat) (l l' : Label), p.code[place]? = some (.label l) →
      p.code[place']? = some (.label l') → l.id = l'.id ∨ l.text = l'.text → place = place') ∧
    ∀ (place : Nat) (i : Instr) (l : Label), p.code[place]? = some i → i.jumpsTo? = some l →
      0 < entriesBefore p.code place ∧ p.code.count (.label l) = 1 ∧
      ∃ found, p.code[found]? = some (.label l) ∧ MeansAt p.code place l.text found ∧
        ∀ other, MeansAt p.code place l.text other → other = found := by
  obtain ⟨rootTag, procs, hroot, hwf⟩ := wellFormed_of_parse hparse
  obtain ⟨n, ls, -, hcode⟩ := programCode_of_generate hroot hwf hgen
  have hids : (labelIds p.code).Nodup := List.nodup_iff_count_le_one.mpr hcode.fresh.count_le_one
  have hclosed := hcode.jumpsClosed ⟨entryScope, rfl, rfl, rfl, rfl, rfl⟩ hwf
  refine ⟨fun place place' l l' h h' heq => ?_, fun place i l hi hl => ?_⟩
  · exact place_eq_of_id hids h h' (heq.elim id Label.id_eq_of_text)
  · obtain ⟨hpos, found, hfound, hsame⟩ := hclosed place i l hi hl
    refine ⟨hpos, ?_, found, hfound, ⟨hsame, l, hfound, rfl⟩, ?_⟩
    · have honce : p.code.count (.label l) ≤ 1 := by
        refine Nat.le_trans ?_ (hcode.fresh.count_le_one l.id)
        rw [labelIds, List.count_filterMap]
        refine List.countP_mono_left fun i _ hi => ?_
        rw [beq_iff_eq.mp hi]
        simp
      have hmem : 0 < p.code.count (.label l) :=
        List.count_pos_iff.mpr (List.mem_of_getElem? hfound)
      omega
    · rintro other ⟨-, l', hother, htext⟩
      exact place_eq_of_id hids hother hfound (Label.id_eq_of_text htext)

/-- A jump of the second procedure, out of a loop, finds its label under the second entry. -/
theorem jumps_closed_second : ∃ tokens ast p place l found,
    tokenize "t.mc"
      "int f(int a) \x7b return a && 1; \x7d int g(int a) \x7b while (a) \x7b \x7b break; \x7d \x7d \x7d" =
      .ok tokens ∧ parse tokens = .ok ast ∧ (generate {} "t.mc" ast).result = .ok p ∧
    p.code[place]? = some (.jmp l) ∧ l.name = "while_break" ∧ entriesBefore p.code place = 2 ∧
    p.code.count (.label l) = 1 ∧ MeansAt p.code place l.text found := by
  have hpasses : passes "t.mc"
      "int f(int a) \x7b return a && 1; \x7d int g(int a) \x7b while (a) \x7b \x7b break; \x7d \x7d \x7d"
      (fun ast => (generate {} "t.mc" ast).result.toOption.any fun p =>
        (List.range p.code.length).any fun place =>
          p.code[place]? = some (.jmp ⟨5, "while_break"⟩) ∧ entriesBefore p.code place = 2) = true := by
    decide +kernel
  obtain ⟨tokens, ast, htokens, hparse, htest⟩ := exists_of_passes hpasses
  cases hgen : (generate {} "t.mc" ast).result with
  | error e => simp [hgen, Except.toOption] at htest
  | ok p =>
    rw [hgen] at htest
    obtain ⟨place, -, hplace⟩ := List.any_eq_true.mp htest
    obtain ⟨hjump, hentries⟩ := of_decide_eq_true hplace
    obtain ⟨-, honce, found, -, hmeans, -⟩ := (jumps_closed hparse hgen).2 place _ _ hjump rfl
    exact ⟨tokens, ast, p, place, _, found, htokens, hparse, hgen, hjump, rfl, hentries, honce, hmeans⟩

end Programs

end Generation

end ProcLang
