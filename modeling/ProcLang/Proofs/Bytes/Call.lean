import ProcLang.Proofs.Bytes.Expression
import ProcLang.Proofs.Simulation.Call

/-!
The ranges of arguments.  Each argument of a call is computed into a register of its own and moved to
its argument register, where it is in the range of its type.  Nothing cuts it on the way to the type of
the parameter.  Behind the call every register that was in use has its word again.
-/

namespace ProcLang

/-- A push that keeps the stack pointer in the lower half did not wrap around. -/
theorem Machine.Low.pushed {m : Machine} {w : Word} (h : (m.pushed w).Low) :
    8 ≤ (m.regs .rsp).toNat := by
  unfold Machine.Low at h
  rw [Machine.rsp_pushed, BitVec.toNat_sub] at h
  have hlt := (m.regs .rsp).isLt
  have h8 : (8 : Word).toNat = 8 := rfl
  omega

/-- The argument registers have numbers in the ranges of some types, as far as there are registers. -/
def Machine.Passes (m : Machine) (types : List DataType) : Prop :=
  ∀ (i : Nat) (type : DataType) (r : Register), types[i]? = some type →
    Register.arguments[i]? = some r → type.Fits (m.regs r)

theorem Machine.passes_of_forall₂ {m : Machine} {types : List DataType}
    (h : List.Forall₂ DataType.Fits types ((Register.arguments.take types.length).map m.regs)) :
    m.Passes types := by
  intro i type r htype hr
  obtain ⟨hlt, rfl⟩ := List.getElem?_eq_some_iff.mp htype
  have hget : ((Register.arguments.take types.length).map m.regs)[i]? = some (m.regs r) := by
    rw [List.getElem?_map, List.getElem?_take_of_lt hlt, hr]
    rfl
  obtain ⟨hlt', hi⟩ := List.getElem?_eq_some_iff.mp hget
  rw [← hi]
  exact h.get hlt hlt'

namespace Generation

open Machine (Yields)

section Calls

variable {P : Image} {G : Nat → String → Machine → Prop} {X : Label → Prop} {R : Machine → Prop}
  {b : Nat} {pool : List String} {look : String → Option Place} {vars : String → DataType}
  {used : Used} {args : List (Expr × DataType)} {n n' : Nat} {code : List Instr}
  {rs : List Register} {m : Machine}

/-- The types of some expressions, each meant for a type. -/
def argumentTypes (vars : String → DataType) (args : List (Expr × DataType)) : List DataType :=
  args.map fun (e, context) => e.typeIn vars context

/-- The arguments come into registers of their own, in the ranges of their types. -/
theorem ArgsCode.guards (hunique : P.Unique)
    (hvars : ∀ {name place}, look name = some place → vars name = place.type)
    (h : ArgsCode pool look used args n code rs n') : ∀ {b : Nat} {m : Machine}, used.Sound →
      Ranged used look m → P.Guards G X R b code m fun m' =>
        (∀ q, used q = true → m'.regs q = m.regs q) ∧
        List.Forall₂ DataType.Fits (argumentTypes vars args) (rs.map m'.regs) := by
  induction h with
  | nil => exact fun _ _ => .nil ⟨fun _ _ => rfl, .nil⟩
  | @cons used e context rest n₁ n₂ n₃ c₁ c₂ r type rs hcode hrest ih =>
    intro b m hused hranged
    refine (hcode.guards hunique hused hranged).append fun m₁ h₁ => ?_
    have hkeeps : ∀ q, used q = true → m₁.regs q = m.regs q := fun q => h₁.keeps hcode.free
    refine (ih (hused.add hcode.free.1) (hranged.keeps hkeeps fun _ => Used.le_add)).mono ?_
    rintro m₂ ⟨hkeeps₂, hfits⟩
    refine ⟨fun q hq => (hkeeps₂ q (Used.le_add hq)).trans (hkeeps q hq), .cons ?_ hfits⟩
    show (e.typeIn vars context).Fits (m₂.regs r)
    rw [hcode.typeIn_eq hvars, hkeeps₂ r (Used.add_self _ _)]
    exact h₁.fits

/-! ### The call -/

variable {h h' : Holding} {val : Location → Word}

theorem Moves.guards {moves : List (Register × Register)} (hmoves : Moves h moves h') :
    ∀ {b : Nat} {m : Machine}, h.Valued val m →
      P.Guards G X R b (moveCode moves) m fun m' => h'.Valued val m' := by
  induction hmoves with
  | nil => exact fun hval => .nil hval
  | @cons h dst src rest h' _ _ _ ih =>
    intro b m hval
    refine .cons rfl rfl fun m₁ hexec _ => ih ?_
    change m.exec P.labels (copyInstr dst src) = some m₁ at hexec
    rw [exec_copy] at hexec
    obtain rfl := Option.some.inj hexec
    exact hval.move dst src

/-- A call, with the stack moved by 8 bytes around it or not. -/
theorem guards_padded (padded : Bool) {name : String}
    (hG : ∀ m₁ : Machine, (∀ r, r ≠ .rsp → m₁.regs r = m.regs r) → G b name m₁) :
    P.Guards G X R b ((if padded then [adjustInstr .sub 8] else []) ++ .call name ::
      (if padded then [adjustInstr .add 8] else [])) m m.Returned := by
  cases padded with
  | false => exact .call (hG m fun _ _ => rfl) fun _ hreturned => hreturned
  | true =>
    refine .cons rfl rfl fun m₁ hsub hlow => ?_
    obtain ⟨flags, hsub'⟩ := exec_adjust P.labels m .sub 8
    rw [hsub'] at hsub
    obtain rfl := Option.some.inj hsub
    have h8 : 8 ≤ (m.regs .rsp).toNat := Machine.Low.pushed (w := 0) hlow
    have hcall : P.Guards G X R b [.call name] ((m.set .rsp (m.regs .rsp - 8)).withFlags flags)
        ((m.set .rsp (m.regs .rsp - 8)).withFlags flags).Returned :=
      .call (hG _ fun r hr => Machine.regs_set_of_ne _ _ _ hr) fun _ hreturned => hreturned
    refine hcall.append fun m₂ hreturned => .one rfl rfl fun m₃ hadd _ => ?_
    obtain ⟨flags', hadd'⟩ := exec_adjust P.labels m₂ .add 8
    rw [hadd'] at hadd
    obtain rfl := Option.some.inj hadd
    exact returned_adjust h8 hreturned

/-- Registers are saved around some code and have their words again behind it. -/
theorem guards_saved {c : List Instr} : ∀ {saved : List Register} {m : Machine},
    (∀ r ∈ saved, r ∈ Register.allocatable) →
    (∀ m₁ : Machine, (∀ r, r ≠ .rsp → m₁.regs r = m.regs r) → P.Guards G X R b c m₁ m₁.Returned) →
    P.Guards G X R b (saved.map .push ++ c ++ saved.reverse.map .pop) m
      fun m' => (∀ r ∈ saved, m'.regs r = m.regs r) ∧ m.Returned m'
  | [], m, _, hinner => by simpa using hinner m fun _ _ => rfl
  | r :: saved, m, hsaved, hinner => by
    have hcode : (r :: saved).map Instr.push ++ c ++ (r :: saved).reverse.map Instr.pop =
        .push r :: ((saved.map .push ++ c ++ saved.reverse.map .pop) ++ [.pop r]) := by simp
    rw [hcode]
    refine .cons rfl rfl fun m₁ hpush hlow => ?_
    obtain rfl := Option.some.inj hpush
    have hrest := guards_saved (m := m.pushed (m.regs r))
      (fun q hq => hsaved q (List.mem_cons_of_mem _ hq))
      fun m₁ hm₁ => hinner m₁ fun q hq => (hm₁ q hq).trans (Machine.regs_pushed_of_ne hq)
    refine hrest.append fun m₂ hm₂ => .one rfl rfl fun m₃ hpop _ => ?_
    exact returned_pop hsaved hlow.pushed hm₂.2 hm₂.1 hpop

theorem guards_savedCall {depth : Nat} {saved : List Register} {name : String}
    (hsaved : ∀ r ∈ saved, r ∈ Register.allocatable)
    (hG : ∀ m₁ : Machine, (∀ r, r ≠ .rsp → m₁.regs r = m.regs r) → G b name m₁) :
    P.Guards G X R b (savedCallCode depth saved name) m
      fun m' => ∀ r ∈ saved, m'.regs r = m.regs r := by
  have hcode : savedCallCode depth saved name = saved.map .push ++
      ((if (depth + 8 * saved.length) % 16 != 0 then [adjustInstr .sub 8] else []) ++ .call name ::
        (if (depth + 8 * saved.length) % 16 != 0 then [adjustInstr .add 8] else [])) ++
      saved.reverse.map .pop := by
    simp [savedCallCode]
  rw [hcode]
  refine (guards_saved hsaved fun m₁ hm₁ => guards_padded _ fun m₂ hm₂ => ?_).mono fun _ h => h.1
  exact hG m₂ fun r hr => (hm₂ r hr).trans (hm₁ r hr)

/-- At a call the argument registers have numbers in the ranges of the arguments' types, and behind it
the registers in use have their words again. -/
theorem CallCode.guards {depth bytes : Nat} {name : String} (hunique : P.Unique)
    (hvars : ∀ {name place}, look name = some place → vars name = place.type)
    (hcall : CallCode pool look h depth name args n code n' bytes) (hsound : h.used.Sound)
    (hapart : h.Apart) (hranged : Ranged h.used look m)
    (hG : ∀ m' : Machine, m'.Passes (argumentTypes vars args) → G b name m') :
    P.Guards G X R b code m fun m' => ∀ q, h.used q = true → m'.regs q = m.regs q := by
  obtain ⟨-, c, rs, ls, there, back, h', hargs, hlen, hnodup, hnew, hthere, hplaced, hback, -, rfl⟩ :=
    hcall
  obtain ⟨hrs, hfree⟩ := hargs.free
  have hsound₁ : (h.putAll (rs.zip ls)).used.Sound :=
    Holding.sound_putAll hsound fun r hr => (hfree r hr).1
  have hsound' := hthere.sound hsound₁
  have hcode : c ++ moveCode there ++ clearInstr ::
      savedCallCode depth (Register.allocatable.filter h'.used) name ++ moveCode back =
      c ++ (moveCode there ++ ([clearInstr] ++
        (savedCallCode depth (Register.allocatable.filter h'.used) name ++ moveCode back))) := by simp
  rw [hcode]
  -- the arguments, each in a register of its own
  refine (hargs.guards hunique hvars hsound hranged).behind hargs.callFree fun m₁ ⟨hkeeps₁, hfits⟩ => ?_
  have hapart₁ : (h.putAll (rs.zip ls)).Apart := hapart.putAll hnodup hnew
  obtain ⟨val, hval₁⟩ := hapart₁.valued m₁
  rw [hval₁.map_eq (Holding.map_putAll hrs hlen)] at hfits
  -- the moves to the argument registers
  refine (hthere.guards hval₁).behind callFree_moveCode fun m₂ hval₂ => ?_
  have hclear : P.Guards G X R b [clearInstr] m₂ (Yields h'.used .rax .int m₂) := guards_sets rfl
  refine hclear.behind (by simp [clearInstr]) fun m₃ h₃ => ?_
  have hval₃ : h'.Valued val m₃ := fun {r l} hr => by
    have hused : h'.used r = true := by simp [Holding.used, hr]
    rw [h₃.others r hused (ne_of_allocatable (hsound' r hused)).1, hval₂ hr]
  -- the call itself
  have hsaved : ∀ r ∈ Register.allocatable.filter h'.used, r ∈ Register.allocatable :=
    fun r hr => (List.mem_filter.mp hr).1
  refine (guards_savedCall hsaved fun m' hm' => hG m' ?_).append fun m₄ hm₄ => ?_
  · have hargsp : ∀ r ∈ Register.arguments, r ≠ .rsp := by decide
    have hlength : (argumentTypes vars args).length = ls.length := by
      rw [hfits.length_eq, List.length_map]
    refine Machine.passes_of_forall₂ ?_
    rw [hlength, List.map_congr_left fun r hr => hm' r (hargsp r (List.mem_of_mem_take hr)),
      hval₃.map_eq hplaced]
    exact hfits
  · have hval₄ : (h'.forget ls).Valued val m₄ := fun {r l} hr => by
      have hr' : h' r = some l := (Option.filter_eq_some_iff.mp hr).1
      have hused : h'.used r = true := by simp [Holding.used, hr']
      rw [hm₄ r (List.mem_filter.mpr ⟨hsound' r hused, hused⟩), hval₃ hr']
    -- the moves back
    refine (hback.guards hval₄).mono fun m₅ hval₅ q hq => ?_
    obtain ⟨l, hl⟩ := Option.isSome_iff_exists.mp hq
    have hq₁ : h.putAll (rs.zip ls) q = some l := by
      rw [Holding.putAll_of_not_mem fun hmem => (hfree q hmem).ne hq rfl, hl]
    rw [hval₅ hl, ← hval₁ hq₁, hkeeps₁ q hq]

end Calls

end Generation

end ProcLang
