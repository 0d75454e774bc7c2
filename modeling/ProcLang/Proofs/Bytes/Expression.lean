import ProcLang.Proofs.Machine.Guard
import ProcLang.Proofs.Simulation.Expression

/-!
The ranges of values.  A byte in a register is extended to the whole register, so it is a number in the
range of its type.  The code of an expression leaves a number in the range of the expression's type in
its register, if the parameters of a byte type that are in registers have such numbers: every
instruction that makes a byte extends it.

Nothing is asked of the values otherwise: variables may be without a value, and divisions may fail.
-/

namespace ProcLang

/-! ### Ranges -/

/-- A word is a number in the range of a type. -/
def DataType.Fits : DataType → Word → Prop
  | .u8, w => w.toNat ≤ 255
  | .s8, w => -128 ≤ w.toInt ∧ w.toInt ≤ 127
  | .int, _ | .void, _ => True

instance (type : DataType) (w : Word) : Decidable (type.Fits w) := by
  unfold DataType.Fits
  cases type <;> infer_instance

theorem DataType.fits_zeroExtend (b : BitVec 8) : DataType.u8.Fits (b.setWidth 64) := by
  have hlt := b.isLt
  have hnat : (b.setWidth 64).toNat = b.toNat := by
    rw [BitVec.toNat_setWidth]
    omega
  change (b.setWidth 64).toNat ≤ 255
  omega

theorem DataType.fits_signExtend (b : BitVec 8) : DataType.s8.Fits (b.signExtend 64) := by
  have hlow := @BitVec.le_two_mul_toInt 8 b
  have hhigh := @BitVec.two_mul_toInt_lt 8 b
  have hint : (b.signExtend 64).toInt = b.toInt := BitVec.toInt_signExtend_of_le (by decide)
  constructor <;> omega

/-! ### Types -/

/-- The type of an expression that is meant for a type, with the types of variables. -/
def Expr.typeIn (vars : String → DataType) : DataType → Expr → DataType
  | context, .literal _ (.integer _) => if context.isByte then context else .int
  | _, .var _ name => vars name
  | context, .unary _ op e => Generation.unaryType op (e.typeIn vars (op.operandContext context))
  | _, .binary _ (.arith _) l r => (l.typeIn vars .int).arith (r.typeIn vars .int)
  | _, .literal _ (.string _) | _, .binary .. | _, .misplaced .. => .int

/-- The register that an instruction writes, if it writes nothing else. -/
def Instr.sets? : Instr → Option Register
  | .mov _ (.reg r) _ | .movzx r _ | .movsx r _ | .lea r _ | .neg _ (.reg r) | .alu _ _ (.reg r) _
  | .setcc _ r => some r
  | _ => none

/-- The instruction writes no register. -/
def Instr.setsNone : Instr → Bool
  | .mov _ (.mem ..) _ | .cmp .. | .test .. | .label _ | .comment _ | .global _ | .symbol _ => true
  | _ => false

theorem Instr.plain_of_sets? {i : Instr} {r : Register} (hi : i.sets? = some r) :
    i.jumpsTo? = none ∧ i.isCall = false := by
  cases i with
  | jmp | jcc | call => cases hi
  | _ => exact ⟨rfl, rfl⟩

theorem Instr.plain_of_setsNone {i : Instr} (hi : i.setsNone = true) :
    i.jumpsTo? = none ∧ i.isCall = false := by
  cases i with
  | jmp | jcc | call => cases hi
  | _ => exact ⟨rfl, rfl⟩

namespace Machine

variable {labels : String → Word} {m m' : Machine} {i : Instr} {r q : Register}

/-- Only the register that is written changes. -/
theorem regs_of_sets? (hi : i.sets? = some r) (hexec : m.exec labels i = some m') (hq : q ≠ r) :
    m'.regs q = m.regs q := by
  unfold Instr.sets? at hi
  split at hi
  case h_8 => cases hi
  all_goals obtain rfl := Option.some.inj hi
  case h_4 =>
    obtain ⟨a, -, rfl⟩ := Option.map_eq_some_iff.mp hexec
    exact regs_set_of_ne _ _ _ hq
  case h_7 =>
    obtain ⟨flags, -, hwrite⟩ := Option.bind_eq_some_iff.mp hexec
    obtain rfl := Option.some.inj hwrite
    exact regs_set_of_ne _ _ _ hq
  all_goals
    obtain rfl := Option.some.inj hexec
    exact regs_set_of_ne _ _ _ hq

theorem regs_of_setsNone (hi : i.setsNone = true) (hexec : m.exec labels i = some m') :
    m'.regs = m.regs := by
  unfold Instr.setsNone at hi
  split at hi
  case h_8 => cases hi
  all_goals
    obtain rfl := Option.some.inj hexec
    rfl

/-- What is read at the width of a byte is a byte with zeros. -/
theorem fits_read_byte (o : Operand) : DataType.u8.Fits (m.read labels .byte o) := by
  cases o with
  | imm n | reg r => exact DataType.fits_zeroExtend _
  | mem base displacement | data label =>
    rw [read, Width.bytes, Memory.load_one]
    exact DataType.fits_zeroExtend _

/-- A number in the range of a type comes into a register; the other registers in use are kept. -/
structure Yields (used : Generation.Used) (r : Register) (type : DataType) (m m' : Machine) :
    Prop where
  fits : type.Fits (m'.regs r)
  others : ∀ q, used q = true → q ≠ r → m'.regs q = m.regs q

namespace Yields

variable {used used' : Generation.Used} {m₁ m₂ : Machine} {type type' : DataType}

theorem again (h₁ : Yields used r type m m₁) (h₂ : Yields used r type' m₁ m₂) :
    Yields used r type' m m₂ :=
  ⟨h₂.fits, fun q hq hne => (h₂.others q hq hne).trans (h₁.others q hq hne)⟩

theorem behind (h₁ : ∀ q, used q = true → m₁.regs q = m.regs q) (h₂ : Yields used r type m₁ m₂) :
    Yields used r type m m₂ :=
  ⟨h₂.fits, fun q hq hne => (h₂.others q hq hne).trans (h₁ q hq)⟩

/-- The register was free, so everything in use is kept. -/
theorem keeps (h : Yields used r type m m') (hr : used.Free r) {q : Register} (hq : used q = true) :
    m'.regs q = m.regs q :=
  h.others q hq (hr.ne hq)

end Yields

end Machine

namespace Generation

open Machine (Yields)

/-! ### Operators -/

section Operators

variable {P : Image} {G : Nat → String → Machine → Prop} {X : Label → Prop} {R : Machine → Prop}
  {b : Nat} {used : Used} {m : Machine} {r q : Register} {i : Instr} {type : DataType}

theorem guards_sets (hi : i.sets? = some r) : P.Guards G X R b [i] m (Yields used r .int m) := by
  obtain ⟨hjump, hcall⟩ := Instr.plain_of_sets? hi
  exact .one hjump hcall fun m' hexec _ =>
    ⟨trivial, fun q _ hq => Machine.regs_of_sets? hi hexec hq⟩

theorem guards_setsNone (hi : i.setsNone = true) :
    P.Guards G X R b [i] m fun m' => m'.regs = m.regs := by
  obtain ⟨hjump, hcall⟩ := Instr.plain_of_setsNone hi
  exact .one hjump hcall fun m' hexec _ => Machine.regs_of_setsNone hi hexec

theorem guards_copy (htype : type.Fits (m.regs q)) :
    P.Guards G X R b [copyInstr r q] m (Yields used r type m) := by
  refine .one rfl rfl fun m' hexec _ => ?_
  rw [exec_copy] at hexec
  obtain rfl := Option.some.inj hexec
  exact ⟨by rwa [Machine.regs_set_self], fun q _ hq => Machine.regs_set_of_ne _ _ _ hq⟩

/-- A load into a register extends a byte. -/
theorem guards_fetch (type : DataType) (r : Register) (src : Operand) :
    P.Guards G X R b [fetch type r src] m (Yields used r type m) := by
  cases type with
  | u8 =>
    refine .one rfl rfl fun m' hexec _ => ?_
    obtain rfl := Option.some.inj hexec
    refine ⟨?_, fun q _ hq => Machine.regs_set_of_ne _ _ _ hq⟩
    rw [Machine.regs_set_self]
    exact Machine.fits_read_byte src
  | s8 =>
    refine .one rfl rfl fun m' hexec _ => ?_
    obtain rfl := Option.some.inj hexec
    refine ⟨?_, fun q _ hq => Machine.regs_set_of_ne _ _ _ hq⟩
    rw [Machine.regs_set_self]
    exact DataType.fits_signExtend _
  | int => exact guards_sets rfl
  | void => exact (guards_sets rfl).mono fun m' h => ⟨trivial, h.others⟩

theorem guards_extend (r : Register) (type : DataType) :
    P.Guards G X R b (extendCode r type) m (Yields used r type m) := by
  cases type with
  | u8 => exact guards_fetch .u8 r (.reg r)
  | s8 => exact guards_fetch .s8 r (.reg r)
  | int | void => exact .nil ⟨trivial, fun _ _ _ => rfl⟩

theorem guards_truth {condition : Condition} :
    P.Guards G X R b (truthCode condition r) m (Yields used r .int m) :=
  (guards_sets (i := .setcc condition r) rfl).append fun _ h₁ =>
    (guards_sets (i := .movzx r (.reg r)) rfl).mono fun _ => h₁.again

theorem guards_compared {x y : Operand} {condition : Condition} :
    P.Guards G X R b (.cmp .quad x y :: truthCode condition r) m (Yields used r .int m) :=
  (guards_setsNone (i := .cmp .quad x y) rfl).append fun _ h₁ =>
    guards_truth.mono fun _ => .behind fun q _ => congrFun h₁ q

theorem guards_unary (op : UnaryOp) (htype : type.Fits (m.regs r)) :
    P.Guards G X R b (unaryCode op r) m (Yields used r (unaryType op type) m) := by
  cases op with
  | plus => exact .nil ⟨htype, fun _ _ _ => rfl⟩
  | negate => exact guards_sets rfl
  | not => exact guards_compared

/-- The division itself changes `rax` and `rdx` only. -/
theorem guards_quotient {dividend : Register} {divisor : Operand} :
    P.Guards G X R b (quotientCode dividend divisor) m fun m' =>
      (∀ q, q ≠ .rax → q ≠ .rdx → m'.regs q = m.regs q) ∧ m'.mem = m.mem := by
  refine .cons rfl rfl fun m₁ hexec₁ _ => .cons rfl rfl fun m₂ hexec₂ _ =>
    .one rfl rfl fun m₃ hexec₃ _ => ?_
  change m.exec P.labels (copyInstr .rax dividend) = some m₁ at hexec₁
  rw [exec_copy] at hexec₁
  obtain rfl := Option.some.inj hexec₁
  obtain rfl := Option.some.inj hexec₂
  obtain ⟨⟨quotient, remainder⟩, -, rfl⟩ := Option.map_eq_some_iff.mp hexec₃
  exact ⟨fun q hrax hrdx => by simp [hrax, hrdx], rfl⟩

theorem guards_divide {lhs rhs : Register} (hused : used.Sound) :
    P.Guards G X R b (divideCode used lhs rhs) m (Yields used lhs .int m) := by
  by_cases hrdx : used .rdx = true
  · rw [divideCode, if_pos hrdx]
    -- `rdx` is in use: it is pushed, and popped again from where it was pushed
    refine .cons rfl rfl fun m₁ hexec₁ _ => guards_quotient.append fun m₂ h₂ => ?_
    obtain rfl := Option.some.inj hexec₁
    obtain ⟨hregs, hmem⟩ := h₂
    refine .cons rfl rfl fun m₃ hexec₃ _ => .one rfl rfl fun m₄ hexec₄ _ => ?_
    obtain rfl := Option.some.inj hexec₃
    rw [exec_copy] at hexec₄
    obtain rfl := Option.some.inj hexec₄
    have hpop : m₂.mem.load (m₂.regs .rsp).toNat 8 = m.regs .rdx := by
      rw [hmem, hregs .rsp (by decide) (by decide)]
      exact Machine.load_pushed
    refine ⟨trivial, fun q hq hne => ?_⟩
    rw [Machine.regs_set_of_ne _ _ _ hne]
    by_cases hqd : q = .rdx
    · subst hqd
      rw [Machine.regs_set_self, hpop]
    · obtain ⟨hqRax, -, hqRsp⟩ := ne_of_allocatable (hused q hq)
      rw [Machine.regs_set_of_ne _ _ _ hqd, Machine.regs_set_of_ne _ _ _ hqRsp, hregs q hqRax hqd,
        Machine.regs_pushed_of_ne hqRsp]
  · rw [divideCode, if_neg hrdx]
    refine guards_quotient.append fun m₂ h₂ => ?_
    obtain ⟨hregs, -⟩ := h₂
    have hcopy : ∀ {b}, P.Guards G X R b [copyInstr lhs .rax] m₂ (Yields used lhs .int m₂) :=
      guards_sets rfl
    refine hcopy.mono fun m₃ h₃ => ⟨trivial, fun q hq hne => (h₃.others q hq hne).trans ?_⟩
    exact hregs q (ne_of_allocatable (hused q hq)).1 fun hqd => hrdx (hqd ▸ hq)

theorem guards_arith {lhs rhs : Register} {op : ArithOp} (hused : used.Sound) :
    P.Guards G X R b (arithCode used op lhs rhs) m (Yields used lhs .int m) := by
  cases op with
  | div => exact guards_divide hused
  | _ => exact guards_sets rfl

/-- Arithmetic on two bytes of one type extends its result. -/
theorem guards_eager {lhs rhs : Register} {op : ArithOp ⊕ Comparison} {t₁ t₂ : DataType}
    (hused : used.Sound) : P.Guards G X R b (eagerCode used op lhs rhs (t₁.arith t₂)) m
      (Yields used lhs (eagerType op t₁ t₂) m) := by
  cases op with
  | inl op =>
    exact (guards_arith hused).append fun _ h₁ => (guards_extend lhs _).mono fun _ => h₁.again
  | inr op => exact guards_compared

end Operators

/-! ### Expressions -/

section Expressions

variable {P : Image} {G : Nat → String → Machine → Prop} {X : Label → Prop} {R : Machine → Prop}
  {b : Nat} {pool : List String} {look : String → Option Place} {used used' : Used} {e : Expr}
  {context type : DataType} {n n' : Nat} {code : List Instr} {m m' : Machine} {r : Register}
  {vars : String → DataType}

/-- The type that code is written for is the type of the expression. -/
theorem ExprCode.typeIn_eq (h : ExprCode pool look used e context n code r type n')
    (hvars : ∀ {name place}, look name = some place → vars name = place.type) :
    e.typeIn vars context = type := by
  induction h with
  | byte hbyte => exact if_pos hbyte
  | word hbyte => exact if_neg (by simp [hbyte])
  | string => rfl
  | var hlook => exact hvars hlook
  | unary _ _ ih => rw [Expr.typeIn, ih]
  | @eager _ _ op _ _ _ _ _ _ _ _ _ _ _ _ _ _ _ _ ih₁ ih₂ =>
    cases op with
    | inl op => rw [eagerOp, Expr.typeIn, ih₁, ih₂]; rfl
    | inr op => rfl
  | logic => rfl

/-- The variables in registers are in use and in the ranges of their types. -/
def Ranged (used : Used) (look : String → Option Place) (m : Machine) : Prop :=
  ∀ {name place q}, look name = some place → place.access = .register q →
    used q = true ∧ place.type.Fits (m.regs q)

/-- Ranges stay while the registers in use are kept. -/
theorem Ranged.keeps (h : Ranged used look m) (hkeeps : ∀ q, used q = true → m'.regs q = m.regs q)
    (hle : ∀ q, used q = true → used' q = true) : Ranged used' look m' := by
  intro name place q hlook haccess
  obtain ⟨hq, hfits⟩ := h hlook haccess
  exact ⟨hle q hq, by rwa [hkeeps q hq]⟩

/-- Instructions that all write the same register. -/
theorem guards_setsAll : ∀ {b : Nat} {c : List Instr} {m : Machine}, (∀ i ∈ c, i.sets? = some r) →
    P.Guards G X R b c m fun m' => ∀ q, q ≠ r → m'.regs q = m.regs q
  | _, [], _, _ => .nil fun _ _ => rfl
  | _, i :: c, m, h => by
    have hfirst : ∀ {b}, P.Guards G X R b [i] m (Yields (fun _ => true) r .int m) :=
      guards_sets (h i List.mem_cons_self)
    refine hfirst.append fun m₁ h₁ => ?_
    refine (guards_setsAll fun i hi => h i (List.mem_cons_of_mem _ hi)).mono fun m₂ h₂ q hq => ?_
    rw [h₂ q hq, h₁.others q rfl hq]

/-- The way to a variable changes a free register at most. -/
theorem Reach.guards {access : Access} {o : Operand} (h : Reach used access code o) :
    P.Guards G X R b code m fun m' => ∀ q, used q = true → m'.regs q = m.regs q := by
  cases h with
  | register _ | here => exact .nil fun _ _ => rfl
  | @outer q further offset hq =>
    have hsets : ∀ i ∈ outward q further, i.sets? = some q := by
      intro i hi
      rcases List.mem_cons.mp hi with rfl | hi
      · rfl
      · rw [List.eq_of_mem_replicate hi]
        rfl
    exact (guards_setsAll hsets).mono fun m' h' p hp => h' p (hq.ne hp)

/-- A variable that is loaded is in the range of its type. -/
theorem Reach.guards_load {place : Place} {src : Operand}
    (h : Reach (used.add r) place.access code src)
    (hplace : ∀ q, place.access = .register q → place.type.Fits (m.regs q)) :
    P.Guards G X R b (code ++ [loadInstr place r src]) m (Yields used r place.type m) := by
  obtain ⟨type, access⟩ := place
  refine h.guards.append fun m₁ h₁ => ?_
  have hkeeps : ∀ q, used q = true → m₁.regs q = m.regs q := fun q hq => h₁ q (Used.le_add hq)
  cases access with
  | register q =>
    cases h with
    | register hq =>
      have hfits : type.Fits (m₁.regs q) := by
        rw [h₁ q hq]
        exact hplace q rfl
      exact (guards_copy hfits).mono fun m₂ => .behind hkeeps
  | frame out offset => exact (guards_fetch type r src).mono fun m₂ => .behind hkeeps

/-- A copy in front of some code. -/
theorem guards_copied {src dst : Register} {Q : Machine → Prop} (htype : type.Fits (m.regs src))
    (h : ∀ m₁, Yields used dst type m m₁ → P.Guards G X R b code m₁ Q) :
    P.Guards G X R b (copyInstr dst src :: code) m Q :=
  (guards_copy htype).append h

/-- The value of an expression is in the range of its type, and what is in use is kept. -/
theorem ExprCode.guards (hunique : P.Unique)
    (h : ExprCode pool look used e context n code r type n') : ∀ {b : Nat} {m : Machine}, used.Sound →
      Ranged used look m → P.Guards G X R b code m (Yields used r type m) := by
  induction h with
  | @byte used tag value context n r _ _ hr =>
    intro b m _ _
    have hlow : ∀ {b}, P.Guards G X R b [.mov .byte (.reg r) (.imm (signedWord value))] m
        (Yields used r .int m) := guards_sets rfl
    exact hlow.append fun m₁ h₁ => (guards_extend r context).mono fun _ => h₁.again
  | word | string => exact fun _ _ => guards_sets rfl
  | var hlook _ hreach =>
    intro b m _ hranged
    exact hreach.guards_load fun q haccess => (hranged hlook haccess).2
  | @unary used tag op e context n code r type n' dst hcode hdst ih =>
    intro b m hused hranged
    refine (ih hused hranged).append fun m₁ h₁ => ?_
    refine guards_copied h₁.fits fun m₂ (h₂ : Yields (used.add r) dst type m₁ m₂) => ?_
    refine (guards_unary op h₂.fits).mono fun m₃ (h₃ : Yields used dst _ m₂ m₃) => ⟨h₃.fits, ?_⟩
    intro q hq hne
    rw [h₃.others q hq hne, h₂.others q (Used.le_add hq) hne, h₁.keeps hcode.free hq]
  | @eager used tag op lhs rhs context n₁ n₂ n₃ c₁ c₂ r₁ r₂ t₁ t₂ dst hlhs hdst hrhs ih₁ ih₂ =>
    intro b m hused hranged
    rw [List.append_assoc]
    refine (ih₁ hused hranged).append fun m₁ h₁ => ?_
    refine guards_copied h₁.fits fun m₂ (h₂ : Yields (used.add r₁) dst t₁ m₁ m₂) => ?_
    have hkeeps : ∀ q, used q = true → m₂.regs q = m.regs q := fun q hq => by
      rw [h₂.keeps hdst (Used.le_add hq), h₁.keeps hlhs.free hq]
    have hused₂ : ((used.add r₁).add dst).Sound := (hused.add hlhs.free.1).add hdst.1
    have hle : ∀ q, used q = true → ((used.add r₁).add dst) q = true :=
      fun q hq => Used.le_add (Used.le_add hq)
    refine (ih₂ hused₂ (hranged.keeps hkeeps hle)).append fun m₃ h₃ => ?_
    refine (guards_eager (hused₂.add hrhs.free.1)).mono fun m₄ h₄ => ⟨h₄.fits, fun q hq hne => ?_⟩
    rw [h₄.others q (Used.le_add (hle q hq)) hne, h₃.keeps hrhs.free (hle q hq), hkeeps q hq]
  | @logic used tag op lhs rhs context n n₂ n₃ c₁ c₂ r₁ r₂ t₁ t₂ dst hlhs hdst hrhs ih₁ ih₂ =>
    intro b m hused hranged
    have hcode : c₁ ++ nonzeroCode dst r₁ ++ .cmp .quad (.reg dst) (.imm 0) ::
        .jcc op.decided ⟨n, op.labelName⟩ :: c₂ ++ nonzeroCode dst r₂ ++ [.label ⟨n, op.labelName⟩] =
        c₁ ++ (nonzeroCode dst r₁ ++ ([.cmp .quad (.reg dst) (.imm 0)] ++
          (.jcc op.decided ⟨n, op.labelName⟩ :: (c₂ ++ nonzeroCode dst r₂) ++
            [.label ⟨n, op.labelName⟩]))) := by simp
    rw [hcode]
    refine (ih₁ hused hranged).append fun m₁ h₁ => ?_
    have htruth : ∀ {b}, P.Guards G X R b (nonzeroCode dst r₁) m₁ (Yields used dst .int m₁) :=
      guards_compared
    refine htruth.append fun m₂ h₂ => (guards_setsNone rfl).append fun m₃ h₃ => ?_
    have hkeeps : ∀ q, used q = true → m₃.regs q = m.regs q := fun q hq => by
      rw [congrFun h₃ q, h₂.keeps hdst.of_add hq, h₁.keeps hlhs.free hq]
    refine .skip hunique ⟨trivial, fun q hq _ => hkeeps q hq⟩ ?_
    refine (ih₂ (hused.add hdst.1) (hranged.keeps hkeeps fun _ => Used.le_add)).append fun m₄ h₄ => ?_
    have htruth' : ∀ {b}, P.Guards G X R b (nonzeroCode dst r₂) m₄ (Yields used dst .int m₄) :=
      guards_compared
    refine htruth'.mono fun m₅ h₅ => ⟨trivial, fun q hq hne => ?_⟩
    rw [h₅.others q hq hne, h₄.keeps hrhs.free (Used.le_add hq), hkeeps q hq]

end Expressions

end Generation

end ProcLang
