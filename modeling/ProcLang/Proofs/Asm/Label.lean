import ProcLang.Proofs.Generation.Code

/-!
The labels of the code of a program.  A position in code is the list of the instructions from there
on, and a jump goes to the position of its label.  The labels of a piece of generated code have
numbers from a range of their own, and no number is given twice, so there is one position to go to.
-/

namespace ProcLang

/-! ### The texts of labels -/

theorem toDigits_inj {m n : Nat} (h : Nat.toDigits 10 m = Nat.toDigits 10 n) : m = n := by
  rw [← Nat.ofDigitChars_toDigits (b := 10) (n := m) (by decide) (by decide), h,
    Nat.ofDigitChars_toDigits (by decide) (by decide)]

/-- The text of a label tells its number: no digit is an underscore. -/
theorem Label.id_eq_of_text {l l' : Label} (h : l.text = l'.text) : l.id = l'.id := by
  have hsplit : ∀ l : Label,
      (l.text.toList.drop 2).takeWhile (· != '_') = Nat.toDigits 10 l.id := fun l => by
    have htext : l.text.toList.drop 2 = Nat.toDigits 10 l.id ++ '_' :: l.name.toList := by
      simp [Label.text, String.toList_append]
    have hdigits : ∀ c ∈ Nat.toDigits 10 l.id, (c != '_') = true := fun c hc => by
      refine bne_iff_ne.mpr ?_
      rintro rfl
      exact Nat.underscore_not_in_toDigits hc
    rw [htext, List.takeWhile_append_of_pos hdigits]
    simp
  exact toDigits_inj (by rw [← hsplit l, ← hsplit l', h])

/-! ### The numbers of labels -/

/-- The number of a label that is written. -/
@[simp] def Instr.labelId? : Instr → Option Nat
  | .label l => some l.id
  | _ => none

/-- The numbers of the labels in code, in order. -/
def labelIds (code : List Instr) : List Nat := code.filterMap Instr.labelId?

/-- The first position at which an instruction stands in code. -/
def position? (i : Instr) : List Instr → Option (List Instr)
  | [] => none
  | j :: rest => if j = i then some (j :: rest) else position? i rest

/-- The position to which a jump to a label goes. -/
def target? (l : Label) (code : List Instr) : Option (List Instr) := position? (.label l) code

theorem position?_append {i : Instr} {post : List Instr} : ∀ {pre : List Instr}, i ∉ pre →
    position? i (pre ++ i :: post) = some (i :: post)
  | [], _ => if_pos rfl
  | j :: pre, h => by
    obtain ⟨hne, hpre⟩ := not_or.mp fun hj => h (List.mem_cons.mpr hj)
    rw [List.cons_append, position?, if_neg (Ne.symm hne)]
    exact position?_append hpre

@[simp] theorem labelIds_append (c₁ c₂ : List Instr) : labelIds (c₁ ++ c₂) = labelIds c₁ ++ labelIds c₂ :=
  List.filterMap_append

@[simp] theorem labelIds_nil : labelIds [] = [] := rfl

theorem labelIds_cons (i : Instr) (c : List Instr) :
    labelIds (i :: c) = i.labelId?.toList ++ labelIds c := by
  rw [labelIds, List.filterMap_cons]
  cases i.labelId? <;> rfl

theorem mem_labelIds {l : Label} {code : List Instr} (h : .label l ∈ code) : l.id ∈ labelIds code :=
  List.mem_filterMap.mpr ⟨_, h, rfl⟩

/-- The one position of a label. -/
theorem target?_append {l : Label} {pre post : List Instr}
    (hids : ∀ i, (labelIds (pre ++ .label l :: post)).count i ≤ 1) :
    target? l (pre ++ .label l :: post) = some (.label l :: post) := by
  refine position?_append fun hmem => ?_
  have hcount := hids l.id
  rw [labelIds_append, labelIds_cons, Instr.labelId?, Option.toList_some, List.singleton_append,
    List.count_append, List.count_cons_self] at hcount
  have := List.count_pos_iff.mpr (mem_labelIds hmem)
  omega

/-- The labels of code are numbered from `n` on and below `n'`, each number at most once. -/
structure Fresh (n : Nat) (code : List Instr) (n' : Nat) : Prop where
  le : n ≤ n'
  count : ∀ i, (labelIds code).count i ≤ if n ≤ i ∧ i < n' then 1 else 0

namespace Fresh

variable {n₁ n₂ n₃ : Nat} {c c₁ c₂ : List Instr}

theorem append (h₁ : Fresh n₁ c₁ n₂) (h₂ : Fresh n₂ c₂ n₃) : Fresh n₁ (c₁ ++ c₂) n₃ := by
  have hle₁ := h₁.le
  have hle₂ := h₂.le
  refine ⟨by omega, fun i => ?_⟩
  have hc₁ := h₁.count i
  have hc₂ := h₂.count i
  rw [labelIds_append, List.count_append]
  split_ifs at hc₁ hc₂ ⊢ <;> omega

/-- Only the labels of the code matter. -/
theorem congr (h : Fresh n₁ c₁ n₂) (hids : labelIds c₂ = labelIds c₁) : Fresh n₁ c₂ n₂ :=
  ⟨h.le, hids ▸ h.count⟩

/-- Code without labels. -/
theorem plain (h : labelIds c = []) : Fresh n₁ c n₁ :=
  ⟨Nat.le_refl _, fun i => by rw [h]; exact Nat.zero_le _⟩

/-- A label of a smaller number, anywhere in the code. -/
theorem insert (h : Fresh n₂ (c₁ ++ c₂) n₃) (n₁ : Nat) (l : Label) (hl : n₁ ≤ l.id)
    (hl' : l.id < n₂) :
    Fresh n₁ (c₁ ++ .label l :: c₂) n₃ := by
  have hle := h.le
  refine ⟨by omega, fun i => ?_⟩
  have hc := h.count i
  rw [labelIds_append, List.count_append] at hc
  rw [labelIds_append, labelIds_cons, List.count_append, Instr.labelId?, Option.toList_some,
    List.singleton_append, List.count_cons]
  by_cases hi : i = l.id
  · subst hi
    rw [if_neg (by omega)] at hc
    rw [if_pos (by simp), if_pos (by omega)]
    omega
  · rw [if_neg (by simpa using Ne.symm hi)]
    split_ifs at hc ⊢ <;> omega

theorem cons (h : Fresh n₂ c n₃) (n₁ : Nat) (l : Label) (hl : n₁ ≤ l.id) (hl' : l.id < n₂) :
    Fresh n₁ (.label l :: c) n₃ :=
  @insert n₂ n₃ [] c h n₁ l hl hl'

theorem count_le_one (h : Fresh n₁ c n₂) (i : Nat) : (labelIds c).count i ≤ 1 := by
  have := h.count i
  split_ifs at this <;> omega

end Fresh

namespace Generation

/-! ### Code without labels -/

section Plain

variable {used : Used} {r q : Register} {code : List Instr}

theorem labelIds_of_forall (h : ∀ i ∈ code, ∀ l, i ≠ .label l) : labelIds code = [] := by
  refine List.filterMap_eq_nil_iff.mpr fun i hi => ?_
  cases i with
  | label l => exact absurd rfl (h _ hi l)
  | _ => rfl

theorem labelIds_map {α : Type} {f : α → Instr} {xs : List α} (h : ∀ x l, f x ≠ .label l) :
    labelIds (xs.map f) = [] := by
  refine labelIds_of_forall fun i hi => ?_
  obtain ⟨x, -, rfl⟩ := List.mem_map.mp hi
  exact h x

theorem labelIds_reach {access : Access} {src : Operand} (h : Reach used access code src) :
    labelIds code = [] := by
  cases h with
  | register _ => rfl
  | here => rfl
  | outer _ =>
    refine labelIds_of_forall fun i hi l => ?_
    rcases List.mem_cons.mp hi with rfl | hi
    · simp
    · rw [(List.mem_replicate.mp hi).2]
      simp

theorem labelIds_unaryCode (op : UnaryOp) : labelIds (unaryCode op r) = [] := by
  cases op <;> rfl

theorem labelIds_extendCode (type : DataType) : labelIds (extendCode r type) = [] := by
  cases type <;> rfl

theorem labelIds_eagerCode (op : ArithOp ⊕ Comparison) (type : DataType) :
    labelIds (eagerCode used op r q type) = [] := by
  cases op with
  | inr op => rfl
  | inl op =>
    rw [eagerCode, labelIds_append, labelIds_extendCode]
    cases op with
    | div =>
      rw [arithCode, divideCode]
      split <;> rfl
    | _ => rfl

theorem labelIds_note {options : Options} {text : String} : labelIds (note options text) = [] := by
  unfold note
  split <;> rfl

theorem labelIds_openCode (reserved : Nat) : labelIds (openCode reserved) = [] := by
  unfold openCode
  split <;> rfl

theorem labelIds_epiloguesCode : ∀ count, labelIds (epiloguesCode count) = []
  | 0 => rfl
  | count + 1 => labelIds_epiloguesCode count

theorem labelIds_savedCallCode (depth : Nat) (saved : List Register) (name : String) :
    labelIds (savedCallCode depth saved name) = [] := by
  have hpush := @labelIds_map _ Instr.push saved (by simp)
  have hpop := @labelIds_map _ Instr.pop saved.reverse (by simp)
  cases hpadded : (depth + 8 * saved.length) % 16 != 0 with
  | false | true => simp only [savedCallCode, hpadded, labelIds_append, hpush, hpop]; rfl

theorem labelIds_fetch (type : DataType) (src : Operand) : labelIds [fetch type r src] = [] := by
  cases type <;> rfl

theorem labelIds_loadInstr (place : Place) (src : Operand) :
    labelIds [loadInstr place r src] = [] := by
  unfold loadInstr
  split
  · rfl
  · exact labelIds_fetch ..

theorem labelIds_storeInstr (place : Place) (dst : Operand) :
    labelIds [storeInstr place dst r] = [] := by
  unfold storeInstr
  split
  · exact labelIds_fetch ..
  · rfl

end Plain

/-! ### The labels of generated code -/

section Generated

variable {pool : List String} {look : String → Option Place} {options : Options} {f : RegisterFile}

theorem ExprCode.fresh {used : Used} {e : Expr} {context type : DataType} {n n' : Nat}
    {code : List Instr} {r : Register} (h : ExprCode pool look used e context n code r type n') :
    Fresh n code n' := by
  induction h with
  | byte => exact .plain (labelIds_extendCode _)
  | word => exact .plain rfl
  | string => exact .plain rfl
  | var _ _ hway => exact .plain (by rw [labelIds_append, labelIds_reach hway, labelIds_loadInstr]; rfl)
  | unary _ _ ih => exact ih.append (.plain (labelIds_unaryCode _))
  | eager _ _ _ ih₁ ih₂ =>
    refine (ih₁.append ih₂).congr ?_
    simp [labelIds_cons, copyInstr, labelIds_eagerCode]
  | @logic used tag op lhs rhs context n n₂ n₃ c₁ c₂ r₁ r₂ t₁ t₂ dst _ _ _ ih₁ ih₂ =>
    have hall : Fresh (n + 1) ((c₁ ++ c₂) ++ []) n₃ := by simpa using ih₁.append ih₂
    refine (hall.insert n ⟨n, op.labelName⟩ (Nat.le_refl n) (Nat.lt_succ_self n)).congr ?_
    simp [labelIds_cons, nonzeroCode, truthCode]

theorem ArgsCode.fresh {used : Used} {args : List (Expr × DataType)} {n n' : Nat}
    {code : List Instr} {rs : List Register} (h : ArgsCode pool look used args n code rs n') :
    Fresh n code n' := by
  induction h with
  | nil => exact .plain rfl
  | cons he _ ih => exact he.fresh.append ih

theorem CallCode.fresh {h : Holding} {depth : Nat} {name : String} {args : List (Expr × DataType)}
    {n n' bytes : Nat} {code : List Instr}
    (hc : CallCode pool look h depth name args n code n' bytes) :
    Fresh n code n' := by
  obtain ⟨c, rs, ls, there, back, h', hargs, -, -, -, -, -, -, -, rfl⟩ := hc.parts
  have hmoves : ∀ moves, labelIds (moveCode moves) = [] := fun moves => labelIds_map (by simp [copyInstr])
  refine hargs.fresh.congr ?_
  simp [labelIds_cons, hmoves, labelIds_savedCallCode, clearInstr]

theorem AssignCode.fresh {used : Used} {place : Place} {value : Expr} {n n' : Nat}
    {code : List Instr} (h : AssignCode pool look used place value n code n') : Fresh n code n' := by
  obtain ⟨c, r, type, way, dst, hc, hway, rfl⟩ := h
  refine hc.fresh.congr ?_
  simp [labelIds_reach hway, labelIds_storeInstr]

theorem SkipCode.fresh {used : Used} {condition : Expr} {target : Label} {n n' : Nat}
    {code : List Instr} (h : SkipCode pool look used condition target n code n') : Fresh n code n' := by
  obtain ⟨c, r, type, dst, hc, -, rfl⟩ := h
  exact hc.fresh.congr (by simp [labelIds_cons, copyInstr])

theorem labelIds_framed (reserved : Nat) (c : List Instr) :
    labelIds (framed reserved c) = labelIds c := by
  simp [framed, labelIds_openCode, epilogueCode, labelIds_cons, copyInstr]

mutual

theorem StmtCode.fresh {scopes : ScopeStack} : ∀ {st : Stmt} {n n' : Nat} {code : List Instr}
    {ls : List Spot}, StmtCode options pool f scopes st n code n' ls → Fresh n code n'
  | _, _, _, _, _, .block h => h.fresh.congr (by simp [labelIds_note, labelIds_framed])
  | _, _, _, _, _, .procedure => .plain rfl
  | _, _, _, _, _, .call _ _ h => h.fresh.congr (by simp [labelIds_note])
  | _, _, _, _, _, @StmtCode.declaration _ _ _ _ _ _ _ _ none _ _ _ _ _ h => by
    obtain ⟨rfl, rfl⟩ := h
    exact .plain (by simp [labelIds_note])
  | _, _, _, _, _, @StmtCode.declaration _ _ _ _ _ _ _ _ (some _) _ _ _ _ _ h =>
    (AssignCode.fresh h).congr (by simp [labelIds_note])
  | _, _, _, _, _, .assignment _ h => h.fresh.congr (by simp [labelIds_note])
  | _, n, _, _, _, .branch hskip hthen => by
    have h := (hskip.fresh.append hthen.fresh).append (.plain labelIds_nil)
    have h := h.insert n ⟨n + 1, "if_end"⟩ (by simp) (by simp)
    exact h.congr (by simp [labelIds_note, labelIds_framed, labelIds_cons])
  | _, n, _, _, _, .branchElse hskip hthen helse => by
    have h := ((hskip.fresh.append hthen.fresh).append helse.fresh).append (.plain labelIds_nil)
    have h := h.insert (n + 1) ⟨n + 1, "if_end"⟩ (by simp) (by simp)
    rw [List.append_assoc] at h
    have h := h.insert n ⟨n, "if_else"⟩ (by simp) (by simp)
    exact h.congr (by simp [labelIds_note, labelIds_framed, labelIds_cons])
  | _, n, _, _, _, .loop hhead hstart hbehind hexit _ hskip hbody => by
    subst hhead hstart hbehind hexit
    have h := (hskip.fresh.append hbody.fresh).append (.plain labelIds_nil)
    have h := h.insert (n + 3) ⟨n + 3, "while_exit"⟩ (by simp) (by simp)
    have h := h.insert (n + 2) ⟨n + 2, "while_break"⟩ (by simp) (by simp)
    have h := h.insert (n + 1) ⟨n + 1, "while_continue"⟩ (by simp) (by simp)
    have h := h.cons n ⟨n, "while_head"⟩ (by simp) (by simp)
    refine h.congr ?_
    simp [labelIds_note, labelIds_openCode, labelIds_cons, epilogueCode, copyInstr]
  | _, _, _, _, _, .continueLoop _ => .plain (by simp [labelIds_epiloguesCode, labelIds_cons])
  | _, _, _, _, _, .breakLoop _ => .plain (by simp [labelIds_epiloguesCode, labelIds_cons])
  | _, _, _, _, _, .giveBack _ => .plain (by simp [labelIds_epiloguesCode, labelIds_cons])
  | _, _, _, _, _, .giveBackValue _ _ h =>
    h.fresh.congr (by simp [labelIds_epiloguesCode, labelIds_cons, copyInstr])

theorem ElseCode.fresh {scopes : ScopeStack} : ∀ {st : Stmt} {n n' : Nat} {code : List Instr}
    {ls : List Spot}, ElseCode options pool f scopes st n code n' ls → Fresh n code n'
  | _, _, _, _, _, .block h => h.fresh.congr (by simp [labelIds_framed])
  | _, _, _, _, _, .branch h => h.fresh

theorem StmtsCode.fresh {scopes : ScopeStack} : ∀ {body : List Stmt} {n n' : Nat} {code : List Instr}
    {ls : List Spot}, StmtsCode options pool f scopes body n code n' ls → Fresh n code n'
  | _, _, _, _, _, .nil => .plain rfl
  | _, _, _, _, _, .cons h hrest => h.fresh.append hrest.fresh

end

theorem ProcedureCode.fresh {scopes : ScopeStack} {signature : Signature} {body : List Stmt}
    {n n' : Nat} {code : List Instr} {ls : List Spot}
    (h : ProcedureCode options pool scopes signature body n code n' ls) : Fresh n code n' := by
  obtain ⟨first, f, c, _, -, hbody, rfl, -⟩ := h
  have h := (hbody.fresh.append (.plain labelIds_nil)).insert n ⟨n, signature.name ++ "_return"⟩
    (Nat.le_refl n) (Nat.lt_succ_self n)
  refine h.congr ?_
  simp [labelIds_openCode, labelIds_cons, epilogueCode, copyInstr, clearInstr]

theorem ProgramCode.fresh {scopes : ScopeStack} {procs : List Stmt} {n n' : Nat}
    {code : List Instr} {ls : List Spot} (h : ProgramCode options pool scopes procs n code n' ls) :
    Fresh n code n' := by
  induction h with
  | nil => exact .plain rfl
  | external _ ih => exact ih
  | procedure _ hproc _ ih =>
    refine (hproc.fresh.append ih).congr ?_
    simp [labelIds_cons]

end Generated

end Generation

end ProcLang
