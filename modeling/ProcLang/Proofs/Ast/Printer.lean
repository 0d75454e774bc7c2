import ProcLang.Ast.Printer
import ProcLang.Proofs.Parsing.Grammar
import ProcLang.Proofs.Token.Number

/-!
The printed form of a tree tells the tree, but for its tags.  An expression in front of a rest is told by
its first character: a digit, a quote, a letter or a parenthesis; it ends where no name goes on, at the
second quote, or at its own parenthesis.  A statement is told by the word it opens with, and every
statement ends its last line, so what comes behind it cannot be mistaken for a part of it; the end of a
block stands less far to the right than its statements.  Names have to be identifiers and strings must not
have a quote in them, as in every tree that is read from a text.
-/

namespace ProcLang

/-! ### Texts in front of a rest -/

/-- No name goes on with the text. -/
def Apart (x : List Char) : Prop := ∀ c ∈ x.head?, ¬ isNameChar c

/-- In front of any rest that no name goes on with, the text of a value tells what is kept of the value, and
the rest. -/
def Tells {α β : Type} (Legible : α → Prop) (text : α → List Char) (kept : α → β) : Prop :=
  ∀ a a', Legible a → Legible a' → ∀ x y, Apart x → Apart y → text a ++ x = text a' ++ y →
    kept a = kept a' ∧ x = y

theorem apart_cons {c : Char} {x : List Char} (h : isNameChar c = false) : Apart (c :: x) := by
  rintro _ ⟨⟩
  simp [h]

theorem IsIdentifier.unique {name name' : String} (h : IsIdentifier name) (h' : IsIdentifier name')
    {x y : List Char} (hx : Apart x) (hy : Apart y) (heq : name.toList ++ x = name'.toList ++ y) :
    name = name' ∧ x = y := by
  obtain ⟨hname, hrest⟩ := name_unique h.all h'.all hx hy heq
  exact ⟨String.toList_inj.mp hname, hrest⟩

section Separated

variable {α β : Type} {Legible : α → Prop} {text : α → List Char} {kept : α → β} {mark : Char}
  {sep : List Char}

theorem apart_items (hmark : isNameChar mark = false) (as : List α) (x : List Char) :
    Apart (as.flatMap (fun a => mark :: sep ++ text a) ++ ')' :: x) := by
  cases as with
  | nil => exact apart_cons (by decide)
  | cons a as => exact apart_cons hmark

/-- Items behind a separator each, up to a parenthesis. -/
theorem Tells.items (h : Tells Legible text kept) (hmark : isNameChar mark = false) (hne : mark ≠ ')') :
    ∀ {as as' : List α} {x y : List Char}, (∀ a ∈ as, Legible a) → (∀ a ∈ as', Legible a) →
      as.flatMap (fun a => mark :: sep ++ text a) ++ ')' :: x =
        as'.flatMap (fun a => mark :: sep ++ text a) ++ ')' :: y →
      as.map kept = as'.map kept ∧ x = y := by
  intro as
  induction as with
  | nil =>
    intro as' x y _ _ heq
    cases as' with
    | nil => exact ⟨rfl, (List.cons.inj heq).2⟩
    | cons a' as' => exact absurd (List.cons.inj heq).1.symm hne
  | cons a as ih =>
    intro as' x y hall hall' heq
    cases as' with
    | nil => exact absurd (List.cons.inj heq).1 hne
    | cons a' as' =>
      rw [List.forall_mem_cons] at hall hall'
      simp only [List.flatMap_cons, List.append_assoc] at heq
      obtain ⟨hfirst, hrest⟩ := h a a' hall.1 hall'.1 _ _ (apart_items hmark as x) (apart_items hmark as' y)
        (List.append_cancel_left heq)
      obtain ⟨hmore, rfl⟩ := ih hall.2 hall'.2 hrest
      exact ⟨by rw [List.map_cons, List.map_cons, hfirst, hmore], rfl⟩

theorem intercalate_cons (a : α) (as : List α) :
    sep.intercalate ((a :: as).map text) = text a ++ as.flatMap fun a => sep ++ text a := by
  induction as generalizing a with
  | nil => simp
  | cons b as ih =>
    rw [List.map_cons, List.map_cons, List.intercalate_cons_cons, ← List.map_cons, ih b, List.flatMap_cons]
    simp only [List.append_assoc]

/-- Items with a separator between any two of them, up to a parenthesis. -/
theorem Tells.separated (h : Tells Legible text kept) (hmark : isNameChar mark = false) (hne : mark ≠ ')')
    (hfirst : ∀ a, Legible a → ∀ x y, text a ++ x ≠ ')' :: y) {as as' : List α} {x y : List Char}
    (hall : ∀ a ∈ as, Legible a) (hall' : ∀ a ∈ as', Legible a)
    (heq : (mark :: sep).intercalate (as.map text) ++ ')' :: x =
      (mark :: sep).intercalate (as'.map text) ++ ')' :: y) :
    as.map kept = as'.map kept ∧ x = y := by
  cases as with
  | nil =>
    cases as' with
    | nil => exact ⟨rfl, (List.cons.inj heq).2⟩
    | cons a' as' =>
      rw [intercalate_cons, List.append_assoc] at heq
      exact absurd heq.symm (hfirst a' (hall' a' List.mem_cons_self) _ _)
  | cons a as =>
    rw [intercalate_cons, List.append_assoc] at heq
    cases as' with
    | nil => exact absurd heq (hfirst a (hall a List.mem_cons_self) _ _)
    | cons a' as' =>
      rw [intercalate_cons, List.append_assoc] at heq
      rw [List.forall_mem_cons] at hall hall'
      obtain ⟨hkept, hrest⟩ := h a a' hall.1 hall'.1 _ _ (apart_items hmark as x)
        (apart_items hmark as' y) heq
      obtain ⟨hmore, rfl⟩ := h.items hmark hne hall.2 hall'.2 hrest
      exact ⟨by rw [List.map_cons, List.map_cons, hkept, hmore], rfl⟩

end Separated

/-! ### Expressions -/

theorem UnaryOp.blank_not_mem_sign (op : UnaryOp) : ' ' ∉ op.sign.toList := by
  cases op <;> decide

/-- The sign of an operator and a blank in front of a rest. -/
theorem UnaryOp.unique {op op' : UnaryOp} {x y : List Char}
    (h : op.sign.toList ++ ' ' :: x = op'.sign.toList ++ ' ' :: y) : op = op' ∧ x = y := by
  obtain ⟨hsign, hrest⟩ := split_unique op.blank_not_mem_sign op'.blank_not_mem_sign h
  refine ⟨?_, hrest⟩
  cases op <;> cases op' <;> first | rfl | exact absurd hsign (by decide)

/-- All operators between two operands. -/
def BinaryOp.all : List BinaryOp :=
  [.arith .add, .arith .sub, .arith .mul, .arith .div, .compare .equal, .compare .notEqual, .compare .less,
    .compare .lessEqual, .compare .greater, .compare .greaterEqual, .logic .and, .logic .or]

theorem BinaryOp.mem_all (op : BinaryOp) : op ∈ all := by
  cases op with
  | arith op | compare op | logic op => cases op <;> decide

theorem BinaryOp.sign_table : (∀ op ∈ all, ' ' ∉ op.sign.toList) ∧
    ∀ op ∈ all, ∀ op' ∈ all, op.sign.toList = op'.sign.toList → op = op' := by
  decide

theorem BinaryOp.blank_not_mem_sign (op : BinaryOp) : ' ' ∉ op.sign.toList := sign_table.1 op op.mem_all

theorem BinaryOp.unique {op op' : BinaryOp} {x y : List Char}
    (h : op.sign.toList ++ ' ' :: x = op'.sign.toList ++ ' ' :: y) : op = op' ∧ x = y := by
  obtain ⟨hsign, hrest⟩ := split_unique op.blank_not_mem_sign op'.blank_not_mem_sign h
  exact ⟨sign_table.2 op op.mem_all op' op'.mem_all hsign, hrest⟩

namespace Expr

/-- The variables are identifiers, the strings have no quote in them, and the operands are expressions. -/
def Legible : Expr → Prop
  | literal _ (.integer _) => True
  | literal _ (.string raw) => '"' ∉ raw.toList
  | var _ name => IsIdentifier name
  | unary _ _ e => e.Legible
  | binary _ _ l r => l.Legible ∧ r.Legible
  | misplaced .. => False

/-- Which expressions start alike: numbers, strings, variables, and those in parentheses. -/
def sort : Expr → Nat
  | literal _ (.integer _) => 0
  | literal _ (.string _) => 1
  | var .. => 2
  | unary .. | binary .. | misplaced .. => 3

/-- The sort of an expression by its first character. -/
def sortAt : List Char → Nat
  | [] => 4
  | c :: _ =>
    if c = '(' then 3 else if c = '"' then 1 else if c.isDigit then 0 else if isNameStart c then 2 else 4

theorem sortAt_of_isDigit {c : Char} (h : c.isDigit) (x : List Char) : sortAt (c :: x) = 0 := by
  have hparen : c ≠ '(' := by
    rintro rfl
    cases h
  have hquote : c ≠ '"' := by
    rintro rfl
    cases h
  simp [sortAt, hparen, hquote, h]

theorem sortAt_of_isNameStart {c : Char} (h : isNameStart c) (x : List Char) : sortAt (c :: x) = 2 := by
  have hparen : c ≠ '(' := by
    rintro rfl
    cases h
  have hquote : c ≠ '"' := by
    rintro rfl
    cases h
  have hdigit : c.isDigit = false := by
    refine Bool.eq_false_iff.mpr fun hdigit => ?_
    simp only [Char.isDigit, Bool.and_eq_true, decide_eq_true_eq, ge_iff_le, UInt32.le_iff_toNat_le] at hdigit
    have hnine : '9'.val.toNat = 57 := rfl
    delta isNameStart Char.isAlpha Char.isUpper Char.isLower at h
    simp only [Bool.or_eq_true, Bool.and_eq_true, decide_eq_true_eq, beq_iff_eq, ge_iff_le,
      UInt32.le_iff_toNat_le] at h
    have hbounds : 'A'.val.toNat = 65 ∧ 'a'.val.toNat = 97 := ⟨rfl, rfl⟩
    rcases h with (h | h) | rfl
    · omega
    · omega
    · exact absurd hdigit (by decide)
  simp [sortAt, hparen, hquote, hdigit, h]

theorem sortAt_render {e : Expr} (h : e.Legible) (x : List Char) :
    sortAt (e.render.toList ++ x) = e.sort := by
  cases e with
  | literal tag value =>
    cases value with
    | integer n =>
      have hdigits := natural_chars n.toNat
      cases hchars : (toString n.toNat).toList with
      | nil =>
        rw [Nat.toString_eq_ofList_toDigits, String.toList_ofList] at hchars
        exact absurd hchars Nat.toDigits_ne_nil
      | cons c cs =>
        rw [hchars] at hdigits
        simp only [render, hchars, List.cons_append]
        exact sortAt_of_isDigit (hdigits c List.mem_cons_self) _
    | string raw => simp [render, sort, sortAt]
  | var tag name =>
    obtain ⟨c, hc, hstart⟩ := IsIdentifier.start h
    obtain ⟨cs, hcs⟩ := List.head?_eq_some_iff.mp hc
    simp only [render, hcs, List.cons_append]
    exact sortAt_of_isNameStart hstart _
  | unary tag op e | binary tag op l r => simp [render, sort, sortAt]
  | misplaced tag kind => exact h.elim

theorem sort_eq {e e' : Expr} (h : e.Legible) (h' : e'.Legible) {x y : List Char}
    (heq : e.render.toList ++ x = e'.render.toList ++ y) : e.sort = e'.sort := by
  rw [← sortAt_render h x, ← sortAt_render h' y, heq]

theorem render_ne {e : Expr} (h : e.Legible) (x y : List Char) : e.render.toList ++ x ≠ ')' :: y := by
  intro heq
  have hsort := sortAt_render h x
  rw [heq] at hsort
  cases e with
  | literal tag value => cases value <;> cases hsort
  | _ => cases hsort

theorem toList_render_unary (tag : Tag) (op : UnaryOp) (e : Expr) (x : List Char) :
    (unary tag op e).render.toList ++ x =
      '(' :: (op.sign.toList ++ ' ' :: (e.render.toList ++ ')' :: x)) := by
  simp [render]

theorem toList_render_binary (tag : Tag) (op : BinaryOp) (l r : Expr) (x : List Char) :
    (binary tag op l r).render.toList ++ x =
      '(' :: (op.sign.toList ++ ' ' :: (l.render.toList ++ ' ' :: (r.render.toList ++ ')' :: x))) := by
  simp [render]

/-- One operand or two: behind the first one stands a parenthesis or a blank. -/
theorem unary_ne_binary {tag tag' : Tag} {op : UnaryOp} {op' : BinaryOp} {e l r : Expr} {x y : List Char}
    (he : ∀ x y, Apart x → Apart y → e.render.toList ++ x = l.render.toList ++ y → e.bare = l.bare ∧ x = y) :
    (unary tag op e).render.toList ++ x ≠ (binary tag' op' l r).render.toList ++ y := by
  intro heq
  rw [toList_render_unary, toList_render_binary] at heq
  obtain ⟨-, hrest⟩ := split_unique op.blank_not_mem_sign op'.blank_not_mem_sign (List.cons.inj heq).2
  obtain ⟨-, hend⟩ := he _ _ (apart_cons (by decide)) (apart_cons (by decide)) hrest
  exact absurd (List.cons.inj hend).1 (by decide)

/-- An expression in front of a rest. -/
theorem render_tells : Tells Legible (·.render.toList) bare := by
  intro e
  induction e with
  | literal tag value =>
    intro e' h h' x y hx hy heq
    have hsort := sort_eq h h' heq
    cases value with
    | integer n =>
      cases e' with
      | literal tag' value' =>
        cases value' with
        | integer n' =>
          have hname : ∀ m : Nat, ∀ c ∈ (toString m).toList, isNameChar c := fun m c hc => by
            simp [isNameChar, Char.isAlphanum, natural_chars m c hc]
          obtain ⟨hn, hrest⟩ := name_unique (hname n.toNat) (hname n'.toNat) hx hy heq
          obtain rfl : n = n' := UInt64.toNat_inj.mp (natural_inj (String.toList_inj.mp hn))
          exact ⟨rfl, hrest⟩
        | string raw' => cases hsort
      | _ => cases hsort
    | string raw =>
      cases e' with
      | literal tag' value' =>
        cases value' with
        | integer n' => cases hsort
        | string raw' =>
          simp only [render, String.toList_append, List.append_assoc] at heq
          obtain ⟨hraw, hrest⟩ := split_unique h h' (List.cons.inj heq).2
          obtain rfl := String.toList_inj.mp hraw
          exact ⟨rfl, hrest⟩
      | _ => cases hsort
  | var tag name =>
    intro e' h h' x y hx hy heq
    have hsort := sort_eq h h' heq
    cases e' with
    | literal tag' value' => cases value' <;> cases hsort
    | var tag' name' =>
      obtain ⟨rfl, hrest⟩ := IsIdentifier.unique h h' hx hy heq
      exact ⟨rfl, hrest⟩
    | _ => cases hsort
  | unary tag op e ih =>
    intro e' h h' x y hx hy heq
    have hsort := sort_eq h h' heq
    cases e' with
    | literal tag' value' => cases value' <;> cases hsort
    | var tag' name' => cases hsort
    | unary tag' op' e' =>
      rw [toList_render_unary, toList_render_unary] at heq
      obtain ⟨rfl, hoperand⟩ := UnaryOp.unique (List.cons.inj heq).2
      obtain ⟨he, hrest⟩ := ih e' h h' _ _ (apart_cons (by decide)) (apart_cons (by decide)) hoperand
      exact ⟨by rw [bare, bare, he], (List.cons.inj hrest).2⟩
    | binary tag' op' l r => exact absurd heq (unary_ne_binary (ih l h h'.1))
    | misplaced tag' kind => exact h'.elim
  | binary tag op l r ihl ihr =>
    intro e' h h' x y hx hy heq
    have hsort := sort_eq h h' heq
    cases e' with
    | literal tag' value' => cases value' <;> cases hsort
    | var tag' name' => cases hsort
    | unary tag' op' e' =>
      refine absurd heq.symm (unary_ne_binary fun x y hx hy h'' => ?_)
      obtain ⟨hbare, hrest⟩ := ihl e' h.1 h' y x hy hx h''.symm
      exact ⟨hbare.symm, hrest.symm⟩
    | binary tag' op' l' r' =>
      rw [toList_render_binary, toList_render_binary] at heq
      obtain ⟨rfl, hleft⟩ := BinaryOp.unique (List.cons.inj heq).2
      obtain ⟨hl, hright⟩ := ihl l' h.1 h'.1 _ _ (apart_cons (by decide)) (apart_cons (by decide)) hleft
      obtain ⟨hr, hrest⟩ := ihr r' h.2 h'.2 _ _ (apart_cons (by decide)) (apart_cons (by decide))
        (List.cons.inj hright).2
      exact ⟨by rw [bare, bare, hl, hr], (List.cons.inj hrest).2⟩
    | misplaced tag' kind => exact h'.elim
  | misplaced tag kind => exact fun _ h => h.elim

/-- What is written for an expression that may be missing, up to the parenthesis behind it. -/
def tailText : Option Expr → List Char
  | none => [')']
  | some e => ' ' :: (e.render.toList ++ [')'])

/-- An expression in front of a character that no name goes on with. -/
theorem render_unique {e e' : Expr} (h : e.Legible) (h' : e'.Legible) {c : Char} {x y : List Char}
    (hc : isNameChar c = false) (heq : e.render.toList ++ c :: x = e'.render.toList ++ c :: y) :
    e.bare = e'.bare ∧ x = y := by
  obtain ⟨he, hrest⟩ := render_tells e e' h h' _ _ (apart_cons hc) (apart_cons hc) heq
  exact ⟨he, (List.cons.inj hrest).2⟩

theorem tailText_apart (o : Option Expr) (x : List Char) : Apart (tailText o ++ x) := by
  cases o <;> exact apart_cons (by decide)

theorem tailText_unique {o o' : Option Expr} (h : ∀ e ∈ o, e.Legible) (h' : ∀ e ∈ o', e.Legible)
    {x y : List Char} (heq : tailText o ++ x = tailText o' ++ y) : o.map bare = o'.map bare ∧ x = y := by
  cases o with
  | none =>
    cases o' with
    | none => exact ⟨rfl, (List.cons.inj heq).2⟩
    | some e' => exact absurd (List.cons.inj heq).1 (by decide)
  | some e =>
    cases o' with
    | none => exact absurd (List.cons.inj heq).1 (by decide)
    | some e' =>
      simp only [tailText, List.cons_append, List.append_assoc] at heq
      obtain ⟨he, hrest⟩ := render_unique (h e rfl) (h' e' rfl) (by decide) (List.cons.inj heq).2
      exact ⟨congrArg some he, hrest⟩

end Expr

/-! ### Procedures -/

theorem DataType.name_inj {t t' : DataType} (h : t.name.toList = t'.name.toList) : t = t' := by
  cases t <;> cases t' <;> first | rfl | exact absurd h (by decide)

theorem DataType.name_chars (t : DataType) : ∀ c ∈ t.name.toList, isNameChar c := by
  cases t <;> exact List.all_eq_true.mp (by decide)

/-- A type and a blank in front of a rest. -/
theorem DataType.unique {t t' : DataType} {x y : List Char}
    (h : t.name.toList ++ ' ' :: x = t'.name.toList ++ ' ' :: y) : t = t' ∧ x = y := by
  obtain ⟨hname, hrest⟩ := name_unique t.name_chars t'.name_chars (apart_cons (by decide))
    (apart_cons (by decide)) h
  exact ⟨DataType.name_inj hname, (List.cons.inj hrest).2⟩

/-- A parameter without its place. -/
def Parameter.bare (p : Parameter) : Parameter := { p with span := default }

theorem Parameter.render_tells :
    Tells (fun p : Parameter => IsIdentifier p.name) (·.render.toList) Parameter.bare := by
  rintro ⟨name, type, span⟩ ⟨name', type', span'⟩ h h' x y hx hy heq
  simp only [render, String.toList_append, List.append_assoc] at heq
  obtain ⟨rfl, hname⟩ := DataType.unique heq
  obtain ⟨rfl, hrest⟩ := IsIdentifier.unique h h' hx hy hname
  exact ⟨rfl, hrest⟩

theorem Parameter.render_ne (p : Parameter) (x y : List Char) : p.render.toList ++ x ≠ ')' :: y := by
  obtain ⟨name, type, span⟩ := p
  intro heq
  simp only [render, String.toList_append, List.append_assoc] at heq
  cases type <;> exact absurd (List.cons.inj heq).1 (by decide)

namespace Signature

/-- A signature without the places of its parameters. -/
def bare (s : Signature) : Signature := { s with params := s.params.map Parameter.bare }

/-- The names of a procedure and of its parameters are identifiers. -/
def Legible (s : Signature) : Prop := IsIdentifier s.name ∧ ∀ p ∈ s.params, IsIdentifier p.name

theorem toList_render (s : Signature) (x : List Char) : s.render.toList ++ x =
    (if s.external then "extern".toList ++ [' '] else []) ++ (s.returns.name.toList ++ ' ' ::
      (s.name.toList ++ '(' :: ([',', ' '].intercalate (s.params.map (·.render.toList)) ++ ')' :: x))) := by
  have hcomma : ", ".toList = [',', ' '] := rfl
  unfold render
  cases s.external <;> simp [String.toList_intercalate, hcomma, Function.comp_def]

/-- The first word is `extern` or a type. -/
theorem external_eq {t t' : DataType} {b b' : Bool} {x y : List Char}
    (h : (if b then "extern".toList ++ [' '] else []) ++ (t.name.toList ++ ' ' :: x) =
      (if b' then "extern".toList ++ [' '] else []) ++ (t'.name.toList ++ ' ' :: y)) : b = b' := by
  cases b <;> cases b' <;> first | rfl | skip
  all_goals cases t <;> cases t' <;> simp [DataType.name] at h

theorem render_unique {s s' : Signature} (h : s.Legible) (h' : s'.Legible) {x y : List Char}
    (heq : s.render.toList ++ x = s'.render.toList ++ y) : s.bare = s'.bare ∧ x = y := by
  rw [toList_render, toList_render] at heq
  obtain ⟨name, returns, params, external⟩ := s
  obtain ⟨name', returns', params', external'⟩ := s'
  obtain rfl : external = external' := external_eq heq
  obtain ⟨rfl, heq⟩ := DataType.unique (List.append_cancel_left heq)
  obtain ⟨rfl, heq⟩ := IsIdentifier.unique h.1 h'.1 (apart_cons (by decide)) (apart_cons (by decide)) heq
  obtain ⟨hparams, hrest⟩ := Parameter.render_tells.separated (by decide) (by decide)
    (fun p _ => p.render_ne) h.2 h'.2 (List.cons.inj heq).2
  exact ⟨by simp only [bare, hparams], hrest⟩

end Signature

/-! ### Statements -/

namespace Stmt

mutual

/-- A statement without what its tags say. -/
def bare : Stmt → Stmt
  | block _ body => block default (bareAll body)
  | procedure _ signature body => procedure default signature.bare (bareOf body)
  | call _ name args => call default name (args.map Expr.bare)
  | declaration _ name type init => declaration default name type (init.map Expr.bare)
  | assignment _ name value => assignment default name value.bare
  | branch _ c t e => branch default c.bare t.bare (bareOf e)
  | loop _ c body => loop default c.bare body.bare
  | continueLoop _ => continueLoop default
  | breakLoop _ => breakLoop default
  | giveBack _ value => giveBack default (value.map Expr.bare)
  | expression e => expression e.bare

/-- Statements without what their tags say. -/
def bareAll : List Stmt → List Stmt
  | [] => []
  | s :: rest => s.bare :: bareAll rest

/-- A statement that may be missing, without what its tags say. -/
def bareOf : Option Stmt → Option Stmt
  | none => none
  | some s => some s.bare

end

theorem bareAll_eq (body : List Stmt) : bareAll body = body.map bare := by
  induction body with
  | nil => rfl
  | cons s rest ih => rw [bareAll, ih, List.map_cons]

theorem bareOf_eq (o : Option Stmt) : bareOf o = o.map bare := by
  cases o <;> rfl

mutual

/-- The names are identifiers, the strings have no quote in them, the parts are of the sort that belongs
there, and exactly the external procedures have no body. -/
def Legible : Stmt → Prop
  | block _ body => AllLegible body
  | procedure _ signature body => signature.Legible ∧ signature.external = body.isNone ∧ LegibleOf body
  | call _ name args => IsIdentifier name ∧ ∀ e ∈ args, e.Legible
  | declaration _ name _ init => IsIdentifier name ∧ ∀ e ∈ init, e.Legible
  | assignment _ name value => IsIdentifier name ∧ value.Legible
  | branch _ c t e => c.Legible ∧ t.Legible ∧ LegibleOf e
  | loop _ c body => c.Legible ∧ body.Legible
  | continueLoop _ | breakLoop _ => True
  | giveBack _ value => ∀ e ∈ value, e.Legible
  | expression _ => False

/-- All of the statements are legible. -/
def AllLegible : List Stmt → Prop
  | [] => True
  | s :: rest => s.Legible ∧ AllLegible rest

/-- The statement is legible, if there is one. -/
def LegibleOf : Option Stmt → Prop
  | none => True
  | some s => s.Legible

end

/-- How the statements of each kind begin. -/
def openings : List (String × NodeKind) :=
  [("\x7b", .block), ("extern ", .procedure), ("void ", .procedure), ("int ", .procedure),
    ("u8 ", .procedure), ("s8 ", .procedure), ("(call ", .call), ("(let ", .declaration),
    ("(set ", .assignment), ("(if ", .branch), ("(while ", .loop), ("(continue", .continueLoop),
    ("(break", .breakLoop), ("(return", .giveBack)]

/-- The kind of the statement that a text begins with, behind blanks. -/
def kindAt (text : List Char) : Option NodeKind :=
  (openings.find? fun p => p.1.toList.isPrefixOf (text.dropWhile (· == ' '))).map Prod.snd

theorem kindAt_indentation (depth : Nat) (text : List Char) :
    kindAt ((indentation depth).toList ++ text) = kindAt text := by
  have hblank : ∀ n : Nat,
      (List.replicate n ' ' ++ text).dropWhile (· == ' ') = text.dropWhile (· == ' ') := by
    intro n
    induction n with
    | zero => rfl
    | succ n ih => exact ih
  rw [kindAt, kindAt, indentation, String.toList_ofList, hblank]

theorem kindAt_render {s : Stmt} (h : s.Legible) (depth : Nat) (x : List Char) :
    kindAt ((s.render depth).toList ++ x) = some s.kind := by
  cases s with
  | expression e => exact h.elim
  | procedure tag signature body =>
    obtain ⟨name, returns, params, external⟩ := signature
    simp only [render, line, String.toList_append, List.append_assoc, kindAt_indentation,
      Signature.toList_render]
    cases external <;> cases returns <;> rfl
  | declaration tag name type init =>
    cases init <;>
      simp only [render, line, String.toList_append, List.append_assoc, kindAt_indentation] <;> rfl
  | giveBack tag value =>
    cases value <;>
      simp only [render, line, String.toList_append, List.append_assoc, kindAt_indentation] <;> rfl
  | _ =>
    simp only [render, line, String.toList_append, List.append_assoc, kindAt_indentation]
    rfl

/-- The end of a block is no statement. -/
theorem render_ne_blockEnd {s : Stmt} (h : s.Legible) {depth depth' : Nat} {x y : List Char} :
    (s.render depth).toList ++ x ≠ (indentation depth').toList ++ '\x7d' :: y := by
  intro heq
  have hkind := kindAt_render h depth x
  rw [heq, kindAt_indentation] at hkind
  cases hkind

theorem kind_eq {s s' : Stmt} (h : s.Legible) (h' : s'.Legible) {depth : Nat} {x y : List Char}
    (heq : (s.render depth).toList ++ x = (s'.render depth).toList ++ y) : s.kind = s'.kind :=
  Option.some.inj (by rw [← kindAt_render h depth x, ← kindAt_render h' depth y, heq])

theorem toList_line (depth : Nat) (text : String) (x : List Char) :
    (line depth text).toList ++ x = (indentation depth).toList ++ (text.toList ++ '\n' :: x) := by
  simp [line]

theorem toList_declaration (depth : Nat) (tag : Tag) (name : String) (type : DataType) (init : Option Expr)
    (x : List Char) : (render depth (declaration tag name type init)).toList ++ x =
      (indentation depth).toList ++ ("(let ".toList ++ (type.name.toList ++ ' ' :: (name.toList ++
        (Expr.tailText init ++ '\n' :: x)))) := by
  cases init <;> simp [render, line, Expr.tailText]

theorem toList_giveBack (depth : Nat) (tag : Tag) (value : Option Expr) (x : List Char) :
    (render depth (giveBack tag value)).toList ++ x =
      (indentation depth).toList ++ ("(return".toList ++ (Expr.tailText value ++ '\n' :: x)) := by
  cases value <;> simp [render, line, Expr.tailText]

mutual

/-- A statement in front of any rest. -/
theorem render_unique : ∀ (s s' : Stmt) {depth : Nat} {x y : List Char}, s.Legible → s'.Legible →
    (s.render depth).toList ++ x = (s'.render depth).toList ++ y → s.bare = s'.bare ∧ x = y
  | .block tag body, s' => by
    intro h h' heq
    have hkind := kind_eq h h' heq
    cases s' with
    | block tag' body' =>
      simp only [render, String.toList_append, List.append_assoc, toList_line] at heq
      obtain ⟨hbody, hrest⟩ := renderAll_unique body body' h h'
        (List.cons.inj (List.append_cancel_left (List.append_cancel_left heq))).2
      exact ⟨by rw [bare, bare, hbody], (List.cons.inj hrest).2⟩
    | expression e => exact h'.elim
    | _ => cases hkind
  | .procedure tag signature body, s' => by
    intro h h' heq
    have hkind := kind_eq h h' heq
    cases s' with
    | procedure tag' signature' body' =>
      simp only [render, String.toList_append, List.append_assoc, toList_line] at heq
      obtain ⟨hsignature, hrest⟩ := Signature.render_unique h.1 h'.1 (List.append_cancel_left heq)
      have hexternal : signature.bare.external = signature'.bare.external := by rw [hsignature]
      have hnone : body.isNone = body'.isNone := h.2.1.symm.trans (hexternal.trans h'.2.1)
      obtain ⟨hbody, hrest⟩ := renderBody_unique body body' hnone h.2.2 h'.2.2 (List.cons.inj hrest).2
      exact ⟨by rw [bare, bare, hsignature, hbody], hrest⟩
    | expression e => exact h'.elim
    | _ => cases hkind
  | .call tag name args, s' => by
    intro h h' heq
    have hkind := kind_eq h h' heq
    cases s' with
    | call tag' name' args' =>
      simp only [render, String.toList_append, List.append_assoc, toList_line, String.toList_intercalate,
        List.map_map] at heq
      obtain ⟨rfl, hargs⟩ := IsIdentifier.unique h.1 h'.1 (apart_cons (by decide)) (apart_cons (by decide))
        (List.append_cancel_left (List.append_cancel_left heq))
      obtain ⟨hargs, hrest⟩ := Expr.render_tells.separated (by decide : isNameChar ' ' = false) (by decide)
        (fun e he => Expr.render_ne he) h.2 h'.2 (List.cons.inj hargs).2
      exact ⟨by rw [bare, bare, hargs], (List.cons.inj hrest).2⟩
    | expression e => exact h'.elim
    | _ => cases hkind
  | .declaration tag name type init, s' => by
    intro h h' heq
    have hkind := kind_eq h h' heq
    cases s' with
    | declaration tag' name' type' init' =>
      rw [toList_declaration, toList_declaration] at heq
      obtain ⟨rfl, hname⟩ := DataType.unique (List.append_cancel_left (List.append_cancel_left heq))
      obtain ⟨rfl, hinit⟩ := IsIdentifier.unique h.1 h'.1 (Expr.tailText_apart init _)
        (Expr.tailText_apart init' _) hname
      obtain ⟨hinit, hrest⟩ := Expr.tailText_unique h.2 h'.2 hinit
      exact ⟨by rw [bare, bare, hinit], (List.cons.inj hrest).2⟩
    | expression e => exact h'.elim
    | _ => cases hkind
  | .assignment tag name value, s' => by
    intro h h' heq
    have hkind := kind_eq h h' heq
    cases s' with
    | assignment tag' name' value' =>
      simp only [render, String.toList_append, List.append_assoc, toList_line] at heq
      obtain ⟨rfl, hvalue⟩ := IsIdentifier.unique h.1 h'.1 (apart_cons (by decide)) (apart_cons (by decide))
        (List.append_cancel_left (List.append_cancel_left heq))
      obtain ⟨hvalue, hrest⟩ := Expr.render_unique h.2 h'.2 (by decide) (List.cons.inj hvalue).2
      exact ⟨by rw [bare, bare, hvalue], (List.cons.inj hrest).2⟩
    | expression e => exact h'.elim
    | _ => cases hkind
  | .branch tag c t e, s' => by
    intro h h' heq
    have hkind := kind_eq h h' heq
    cases s' with
    | branch tag' c' t' e' =>
      simp only [render, String.toList_append, List.append_assoc, toList_line] at heq
      obtain ⟨hc, hthen⟩ := Expr.render_unique h.1 h'.1 (by decide)
        (List.append_cancel_left (List.append_cancel_left heq))
      obtain ⟨ht, helse⟩ := render_unique t t' h.2.1 h'.2.1 hthen
      obtain ⟨he, hrest⟩ := renderElse_unique e e' h.2.2 h'.2.2 helse
      exact ⟨by rw [bare, bare, hc, ht, he], (List.cons.inj hrest).2⟩
    | expression e => exact h'.elim
    | _ => cases hkind
  | .loop tag c body, s' => by
    intro h h' heq
    have hkind := kind_eq h h' heq
    cases s' with
    | loop tag' c' body' =>
      simp only [render, String.toList_append, List.append_assoc, toList_line] at heq
      obtain ⟨hc, hbody⟩ := Expr.render_unique h.1 h'.1 (by decide)
        (List.append_cancel_left (List.append_cancel_left heq))
      obtain ⟨hbody, hend⟩ := render_unique body body' h.2 h'.2 hbody
      have hrest := List.append_cancel_left (List.append_cancel_left hend)
      exact ⟨by rw [bare, bare, hc, hbody], (List.cons.inj hrest).2⟩
    | expression e => exact h'.elim
    | _ => cases hkind
  | .continueLoop tag, s' => by
    intro h h' heq
    have hkind := kind_eq h h' heq
    cases s' with
    | continueLoop tag' =>
      simp only [render] at heq
      exact ⟨by rw [bare, bare], List.append_cancel_left heq⟩
    | expression e => exact h'.elim
    | _ => cases hkind
  | .breakLoop tag, s' => by
    intro h h' heq
    have hkind := kind_eq h h' heq
    cases s' with
    | breakLoop tag' =>
      simp only [render] at heq
      exact ⟨by rw [bare, bare], List.append_cancel_left heq⟩
    | expression e => exact h'.elim
    | _ => cases hkind
  | .giveBack tag value, s' => by
    intro h h' heq
    have hkind := kind_eq h h' heq
    cases s' with
    | giveBack tag' value' =>
      rw [toList_giveBack, toList_giveBack] at heq
      obtain ⟨hvalue, hrest⟩ := Expr.tailText_unique h h'
        (List.append_cancel_left (List.append_cancel_left heq))
      exact ⟨by rw [bare, bare, hvalue], (List.cons.inj hrest).2⟩
    | expression e => exact h'.elim
    | _ => cases hkind
  | .expression e, s' => fun h => h.elim

/-- The statements of a block in front of the end of the block. -/
theorem renderAll_unique : ∀ (body body' : List Stmt) {depth : Nat} {x y : List Char}, AllLegible body →
    AllLegible body' →
    (renderAll (depth + 1) body).toList ++ ((indentation depth).toList ++ '\x7d' :: x) =
      (renderAll (depth + 1) body').toList ++ ((indentation depth).toList ++ '\x7d' :: y) →
    bareAll body = bareAll body' ∧ x = y
  | [], [] => by
    intro _ _ heq
    have hend := List.append_cancel_left (List.append_cancel_left heq)
    exact ⟨rfl, (List.cons.inj hend).2⟩
  | [], s' :: rest' => by
    intro _ h' heq
    simp only [renderAll, String.toList_append, List.append_assoc, String.toList_empty,
      List.nil_append] at heq
    exact absurd heq.symm (render_ne_blockEnd h'.1)
  | s :: rest, [] => by
    intro h _ heq
    simp only [renderAll, String.toList_append, List.append_assoc, String.toList_empty,
      List.nil_append] at heq
    exact absurd heq (render_ne_blockEnd h.1)
  | s :: rest, s' :: rest' => by
    intro h h' heq
    simp only [renderAll, String.toList_append, List.append_assoc] at heq
    obtain ⟨hfirst, hrest⟩ := render_unique s s' h.1 h'.1 heq
    obtain ⟨hmore, rfl⟩ := renderAll_unique rest rest' h.2 h'.2 hrest
    exact ⟨by rw [bareAll, bareAll, hfirst, hmore], rfl⟩

/-- The body of a procedure, or nothing, in front of any rest. -/
theorem renderBody_unique : ∀ (o o' : Option Stmt) {depth : Nat} {x y : List Char}, o.isNone = o'.isNone →
    LegibleOf o → LegibleOf o' → (renderBody depth o).toList ++ x = (renderBody depth o').toList ++ y →
    bareOf o = bareOf o' ∧ x = y
  | none, none => fun _ _ _ heq => ⟨rfl, List.append_cancel_left heq⟩
  | none, some s' => fun hnone => by cases hnone
  | some s, none => fun hnone => by cases hnone
  | some s, some s' => by
    intro _ h h' heq
    obtain ⟨hs, hrest⟩ := render_unique s s' h h' heq
    exact ⟨by rw [bareOf, bareOf, hs], hrest⟩

/-- The other branch, or nothing, in front of the end of a statement. -/
theorem renderElse_unique : ∀ (o o' : Option Stmt) {depth : Nat} {x y : List Char}, LegibleOf o →
    LegibleOf o' →
    (renderElse depth o).toList ++ ((indentation depth).toList ++ (")".toList ++ x)) =
      (renderElse depth o').toList ++ ((indentation depth).toList ++ (")".toList ++ y)) →
    bareOf o = bareOf o' ∧ x = y
  | none, none => by
    intro _ _ heq
    have hend := List.append_cancel_left (List.append_cancel_left heq)
    exact ⟨rfl, List.append_cancel_left hend⟩
  | none, some s' => by
    intro _ _ heq
    simp only [renderElse, String.toList_append, List.append_assoc, toList_line, String.toList_empty,
      List.nil_append] at heq
    exact absurd (List.cons.inj (List.append_cancel_left heq)).1 (by decide)
  | some s, none => by
    intro _ _ heq
    simp only [renderElse, String.toList_append, List.append_assoc, toList_line, String.toList_empty,
      List.nil_append] at heq
    exact absurd (List.cons.inj (List.append_cancel_left heq)).1 (by decide)
  | some s, some s' => by
    intro h h' heq
    simp only [renderElse, String.toList_append, List.append_assoc, toList_line] at heq
    have hother := (List.cons.inj (List.append_cancel_left (List.append_cancel_left heq))).2
    obtain ⟨hs, hend⟩ := render_unique s s' h h' hother
    have hrest := List.append_cancel_left (List.append_cancel_left hend)
    exact ⟨by rw [bareOf, bareOf, hs], hrest⟩

end

end Stmt

end ProcLang
