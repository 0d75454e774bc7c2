import Mathlib.Data.List.Induction
import ProcLang.Proofs.Generation.Symbols
import ProcLang.Proofs.Parsing.Sound
import ProcLang.Proofs.Token.Printing

/-!
The constants of a program.  The strings of its tree are those of its string literals, in the order of
the source, and code generation comes to them in this order.  Each is put among the constants unless it
is there, and its address is loaded by the label of its place.  Since strings are only added behind the
others, a label keeps its meaning, and in the end the constants are the strings of the literals in the
order of their first occurrence.
-/

namespace ProcLang

/-! ### The literals of a source -/

/-- The texts of the string literals among tokens, in order. -/
def literals (ts : List Token) : List String := (ts.filter (·.kind == .stringLiteral)).map Token.string

section Literals

variable {t : Token} {ts us : List Token}

@[simp] theorem literals_nil : literals [] = [] := rfl

@[simp] theorem literals_append : literals (ts ++ us) = literals ts ++ literals us := by
  simp [literals]

theorem literals_cons (h : t.kind = .stringLiteral) : literals (t :: ts) = t.string :: literals ts := by
  simp [literals, h]

theorem literals_cons_of_ne (h : t.kind ≠ .stringLiteral) : literals (t :: ts) = literals ts := by
  simp [literals, h]

/-- The literals of a source are in front of its end. -/
theorem literals_takeWhile {file source : String} {tokens : List Token}
    (h : tokenize file source = .ok tokens) :
    literals (tokens.takeWhile (·.kind != .eof)) = literals tokens := by
  obtain ⟨before, stop, rfl, hproper, hstop⟩ := proper_of_tokenize h
  have hbefore : ∀ t ∈ before, (t.kind != .eof) = true := by
    intro t ht
    rw [bne_iff_ne]
    intro hkind
    cases hproper t ht with
    | fixed hspelling _ =>
      rw [hkind] at hspelling
      cases hspelling
    | identifier hname _ _ =>
      rw [hkind] at hname
      cases hname
    | number hnumber _ =>
      rw [hkind] at hnumber
      cases hnumber
    | string hstring _ _ =>
      rw [hkind] at hstring
      cases hstring
  have hkind : stop.kind = .eof := congrArg Prod.fst hstop
  rw [List.takeWhile_append_of_pos hbefore]
  simp [hkind, literals_cons_of_ne]

end Literals

namespace Grammar

section Strings

variable {ts : List Token}

theorem BinaryOp.token_ne_string (op : BinaryOp) : op.token ≠ .stringLiteral := by
  rcases op with op | op | op <;> cases op <;> simp [BinaryOp.token]

theorem UnaryOp.token_ne_string (op : UnaryOp) : op.token ≠ .stringLiteral := by
  cases op <;> simp [UnaryOp.token]

/-- The strings of an expression are the literals it is written with. -/
theorem strings_expression {k : Nat} {e : Expr} (h : Expression k ts e) : e.strings = literals ts := by
  induction h with
  | binary _ ht _ _ ihl ihr =>
    rw [literals_append, literals_cons_of_ne (ht ▸ BinaryOp.token_ne_string _), ← ihl, ← ihr]
    rfl
  | tighter _ _ ih => exact ih
  | unary ht _ ih =>
    rw [literals_cons_of_ne (ht ▸ UnaryOp.token_ne_string _), ← ih]
    rfl
  | number ht | name ht => simp [literals_cons_of_ne, ht, Expr.strings]
  | string ht => simp [literals_cons, ht, Expr.strings]
  | parentheses hl _ hr ih => simp [literals_cons_of_ne, hl, hr, ih]

/-- The literals of items in a list are those of the items. -/
theorem strings_listed {α : Type} {Item : List Token → α → Prop} {strings : α → List String}
    (hitem : ∀ ts a, Item ts a → strings a = literals ts) {as : List α} (h : Listed Item ts as) :
    as.flatMap strings = literals ts := by
  have hseparated : ∀ {ts as}, Separated Item ts as → as.flatMap strings = literals ts := by
    intro ts as h
    induction h with
    | last ha => simp [hitem _ _ ha]
    | more ha hc _ ih => simp [literals_cons_of_ne, hc, hitem _ _ ha, ih]
  cases h with
  | none hl hr => simp [literals_cons_of_ne, hl, hr]
  | some hl hmore hr => simp [literals_cons_of_ne, hl, hr, hseparated hmore]

theorem literals_signature {external : Bool} {signature : Signature}
    (h : SignatureOf external ts signature) : literals ts = [] ∧ signature.external = external := by
  cases h with
  | mk ht hname hparams =>
    have hparameter : ∀ (ts : List Token) (p : Parameter), ParameterOf ts p → [] = literals ts := by
      intro ts p hp
      cases hp with
      | mk ht hname => simp [literals_cons_of_ne, ht, hname]
    have hlist := strings_listed hparameter hparams
    rw [List.flatMap_eq_nil_iff.mpr fun _ _ => rfl] at hlist
    exact ⟨by simpa [literals_cons_of_ne, ht, hname] using hlist.symm, rfl⟩

theorem strings_external {st : Stmt} (h : External ts st) : st.strings = literals ts := by
  cases h with
  | mk hk hsig hs => simp [literals_cons_of_ne, hk, hs, (literals_signature hsig).1, Stmt.strings]

theorem strings_test {e : Expr} (h : Test ts e) : e.strings = literals ts := by
  cases h with
  | mk hl he hr => simp [literals_cons_of_ne, hl, hr, strings_expression he]

mutual

/-- The strings of a statement are the literals it is written with. -/
theorem strings_statement : ∀ {ts : List Token} (st : Stmt), Statement ts st → st.strings = literals ts
  | _, .block tag body, h => by
    cases h with
    | block h =>
      cases h with
      | mk hl hbody hr =>
        simp [literals_cons_of_ne, hl, hr, ← strings_statements body hbody, Stmt.strings]
    | _ h => cases h
  | _, .procedure tag signature body, h => by
    cases h with
    | external h => exact strings_external h
    | _ h => cases h
  | _, .call tag name args, h => by
    cases h with
    | call hn hargs hs =>
      have hvalue : ∀ ts e, Expression 0 ts e → e.strings = literals ts := fun _ _ => strings_expression
      have hlist := strings_listed hvalue hargs
      simpa [literals_cons_of_ne, hn, hs, Stmt.strings, Expr.stringsOf] using hlist
    | _ h => cases h
  | _, .declaration tag name type init, h => by
    cases h with
    | declaration ht hn hs => simp [literals_cons_of_ne, ht, hn, hs, Stmt.strings, Expr.stringsOf]
    | initialised ht hn hq he hs =>
      simp [literals_cons_of_ne, ht, hn, hq, hs, strings_expression he, Stmt.strings, Expr.stringsOf]
    | _ h => cases h
  | _, .assignment tag name value, h => by
    cases h with
    | assignment hn hq he hs =>
      simp [literals_cons_of_ne, hn, hq, hs, strings_expression he, Stmt.strings]
    | _ h => cases h
  | _, .branch tag condition thenBranch none, h => by
    cases h with
    | branch h =>
      cases h with
      | alone hi htest hthen =>
        simp [literals_cons_of_ne, hi, strings_test htest, strings_statement thenBranch (.block hthen),
          Stmt.strings]
    | _ h => cases h
  | _, .branch tag condition thenBranch (some elseBranch), h => by
    cases h with
    | branch h =>
      cases h with
      | otherwise hi htest hthen ho helse =>
        simp [literals_cons_of_ne, hi, ho, strings_test htest, strings_statement thenBranch (.block hthen),
          strings_statement elseBranch (.block helse), Stmt.strings]
      | chained hi htest hthen ho helse =>
        simp [literals_cons_of_ne, hi, ho, strings_test htest, strings_statement thenBranch (.block hthen),
          strings_statement elseBranch (.branch helse), Stmt.strings]
    | _ h => cases h
  | _, .loop tag condition body, h => by
    cases h with
    | loop hw htest hbody =>
      simp [literals_cons_of_ne, hw, strings_test htest, strings_statement body (.block hbody), Stmt.strings]
    | _ h => cases h
  | _, .continueLoop tag, h => by
    cases h with
    | continueLoop hk hs => simp [literals_cons_of_ne, hk, hs, Stmt.strings]
    | _ h => cases h
  | _, .breakLoop tag, h => by
    cases h with
    | breakLoop hk hs => simp [literals_cons_of_ne, hk, hs, Stmt.strings]
    | _ h => cases h
  | _, .giveBack tag value, h => by
    cases h with
    | leave hk hs => simp [literals_cons_of_ne, hk, hs, Stmt.strings, Expr.stringsOf]
    | giveBack hk he hs =>
      simp [literals_cons_of_ne, hk, hs, strings_expression he, Stmt.strings, Expr.stringsOf]
    | _ h => cases h
  | _, .expression e, h => by
    cases h with
    | _ h => cases h

theorem strings_statements : ∀ {ts : List Token} (body : List Stmt), Sequence Statement ts body →
    Stmt.stringsOf body = literals ts
  | _, [], h => by
    cases h
    rfl
  | _, first :: rest, h => by
    cases h with
    | cons hfirst hrest =>
      rw [literals_append, ← strings_statement first hfirst, ← strings_statements rest hrest]
      rfl

end

theorem strings_procedures {body : List Stmt} (h : Sequence Procedure ts body) :
    Stmt.stringsOf body = literals ts := by
  induction h with
  | nil => rfl
  | cons hfirst _ ih =>
    rw [literals_append, ← ih, Stmt.stringsOf]
    congr 1
    cases hfirst with
    | external h => exact strings_external h
    | defined hsig hbody =>
      obtain ⟨hsignature, hexternal⟩ := literals_signature hsig
      simp [hsignature, hexternal, strings_statement _ (.block hbody), Stmt.strings]

end Strings

end Grammar

/-- The strings of a program that was read from a source are the literals of the source. -/
theorem strings_of_parse {file source : String} {tokens : List Token} {ast : Ast}
    (htokens : tokenize file source = .ok tokens) (hparse : parse tokens = .ok ast) :
    Stmt.stringsOf ast.root.toList = literals tokens := by
  obtain ⟨tag, body, hroot, hbody, -⟩ := Parsing.derives_of_parse hparse
  rw [hroot, ← literals_takeWhile htokens, ← Grammar.strings_procedures hbody]
  exact List.append_nil _

/-! ### Labels -/

section Labels

variable {seen more : List String} {raw : String}

theorem eraseDups_concat :
    (seen ++ [raw]).eraseDups = if raw ∈ seen then seen.eraseDups else seen.eraseDups ++ [raw] := by
  rw [List.eraseDups_append]
  split <;> simp [List.removeAll, List.eraseDups_cons, *]

theorem nodup_eraseDups (l : List String) : l.eraseDups.Nodup := by
  induction l using List.reverseRecOn with
  | nil => exact .nil
  | append_singleton l raw ih =>
    rw [eraseDups_concat]
    split
    · exact ih
    · next h =>
      refine List.nodup_append.mpr ⟨ih, List.nodup_singleton _, ?_⟩
      rintro a ha b hb rfl
      rw [List.mem_singleton.mp hb] at ha
      exact h (List.mem_eraseDups.mp ha)

namespace ConstantPool

/-- The label of a string among the constants that some strings make. -/
def labelOf (seen : List String) (raw : String) : String := label (seen.eraseDups.idxOf raw)

/-- Strings that come later do not change the label of a string. -/
theorem labelOf_append (h : raw ∈ seen) : labelOf (seen ++ more) raw = labelOf seen raw := by
  unfold labelOf
  rw [List.eraseDups_append, List.idxOf_append_of_mem (List.mem_eraseDups.mpr h)]

variable {pool : ConstantPool}

theorem intern_strings (h : pool.strings = seen.eraseDups) :
    (pool.intern raw).2.strings = (seen ++ [raw]).eraseDups := by
  rw [eraseDups_concat]
  unfold intern
  cases hindex : pool.strings.idxOf? raw with
  | some index =>
    have hmem : raw ∈ pool.strings := List.isSome_idxOf?.mp (by rw [hindex]; rfl)
    rw [h, List.mem_eraseDups] at hmem
    rw [if_pos hmem]
    exact h
  | none =>
    have hmem := List.idxOf?_eq_none_iff.mp hindex
    rw [h, List.mem_eraseDups] at hmem
    rw [if_neg hmem, ← h]

theorem intern_label (h : pool.strings = seen.eraseDups) :
    (pool.intern raw).1 = labelOf (seen ++ [raw]) raw := by
  have hlabel : (pool.intern raw).1 = label (pool.strings.idxOf raw) := by
    rw [List.idxOf_eq_getD_idxOf?]
    unfold intern
    cases pool.strings.idxOf? raw <;> rfl
  rw [hlabel, labelOf, eraseDups_concat, h]
  split
  · rfl
  · next hnew =>
    have hnot : raw ∉ seen.eraseDups := fun hmem => hnew (List.mem_eraseDups.mp hmem)
    rw [List.idxOf_of_notMem hnot, List.idxOf_append, if_neg hnot, List.idxOf_cons_self, Nat.zero_add]

theorem mem_entries (h : pool.strings = seen.eraseDups) (hraw : raw ∈ seen) :
    (labelOf seen raw, raw) ∈ pool.entries := by
  have hmem : raw ∈ seen.eraseDups := List.mem_eraseDups.mpr hraw
  refine List.mem_mapIdx.mpr ⟨seen.eraseDups.idxOf raw, ?_, ?_⟩
  · rw [h]
    exact List.idxOf_lt_length_iff.mpr hmem
  · simp [h, labelOf]

end ConstantPool

end Labels

namespace Generation

open Stage (Law)
open ConstantPool (labelOf)

/-! ### Runs -/

/-- The label by which an instruction loads the address of a string. -/
def loaded? : Instr → Option String
  | .lea _ (.data label) => some label
  | _ => none

/-- The labels of strings whose addresses are loaded by code, in order. -/
def loads (code : List Instr) : List String := code.filterMap loaded?

/-- Whatever refers to a string loads its address. -/
def OnlyLoads (code : List Instr) : Prop :=
  ∀ i ∈ code, i.namesData = true → ∃ r label, i = .lea r (.data label)

/-- A run that started with the constants of `seen` has put strings among them and loaded the addresses
of some. -/
structure Pooled {α : Type} (seen put used : List String) (run : Outcome Mark State α) : Prop where
  strings : run.state.constants.strings = (seen ++ put).eraseDups
  loads : loads (codeOf run.marks) = used.map (labelOf (seen ++ put))
  known : used ⊆ seen ++ put
  grown : ∀ q ∈ run.marks, q.2.constants.strings <+: run.state.constants.strings
  only : OnlyLoads (codeOf run.marks)

/-- A part of code generation that starts in a good state with the constants of `seen` puts strings among
them and loads addresses, whenever it succeeds; its value is in `V`. -/
def Pools {α : Type} (seen put used : List String) (V : α → Prop) (x : Gen α) : Prop :=
  ∀ s : State, s.Good False → s.constants.strings = seen.eraseDups → ∀ a, (x s).result = .ok a →
    (V a ∧ (x s).state.Good False) ∧ Pooled seen put used (x s)

section Pools

variable {α β : Type} {seen put put' used used' : List String} {V : α → Prop} {W : β → Prop} {x : Gen α}
  {f : α → Gen β} {raw : String}

theorem Pools.bind (hx : Pools seen put used V x)
    (hf : ∀ a, V a → Pools (seen ++ put) put' used' W (f a)) :
    Pools seen (put ++ put') (used ++ used') W (x >>= f) := by
  intro s hgood hs b hb
  have hx := hx s hgood hs
  change (Stage.bind x f s).result = .ok b at hb
  change (_ ∧ State.Good False (Stage.bind x f s).state) ∧ Pooled _ _ _ (Stage.bind x f s)
  unfold Stage.bind at hb ⊢
  generalize x s = run at hb hx ⊢
  rcases run with ⟨marks, e | a, s'⟩
  · cases hb
  obtain ⟨⟨hV, hgood'⟩, hfirst⟩ := hx a rfl
  obtain ⟨hW, hrest⟩ := hf a hV s' hgood' hfirst.strings b hb
  refine ⟨hW, ?_, ?_, ?_, ?_, ?_⟩
  · rw [← List.append_assoc]
    exact hrest.strings
  · have hstable : used.map (labelOf (seen ++ put)) = used.map (labelOf (seen ++ put ++ put')) :=
      List.map_congr_left fun raw hraw => (ConstantPool.labelOf_append (hfirst.known hraw)).symm
    have hloads := congrArg₂ (· ++ ·) (hfirst.loads.trans hstable) hrest.loads
    simpa [Generation.loads, codeOf_append] using hloads
  · rw [← List.append_assoc]
    exact List.append_subset.mpr ⟨fun raw hraw => List.mem_append_left _ (hfirst.known hraw), hrest.known⟩
  · have hlater : s'.constants.strings <+: (f a s').state.constants.strings := by
      rw [hrest.strings, List.eraseDups_append, ← hfirst.strings]
      exact List.prefix_append _ _
    intro q hq
    rcases List.mem_append.mp hq with hq | hq
    · exact (hfirst.grown q hq).trans hlater
    · exact hrest.grown q hq
  · intro i hi
    rw [codeOf_append, List.mem_append] at hi
    exact hi.elim (hfirst.only i) (hrest.only i)

/-- A string put among the constants has a label that stays. -/
theorem pools_internString :
    Pools seen [raw] [] (· = labelOf (seen ++ [raw]) raw) (internString raw) := by
  intro s hgood hs label hlabel
  obtain rfl := Except.ok.inj hlabel
  refine ⟨⟨ConstantPool.intern_label hs, good_of_lawful hgood.lawful⟩, ConstantPool.intern_strings hs, rfl, List.nil_subset _, ?_, ?_⟩
  · exact fun q hq => absurd hq List.not_mem_nil
  · exact fun i hi => absurd hi List.not_mem_nil

theorem pools_lea {r : Register} {label : String} (hlabel : label = labelOf seen raw) (hraw : raw ∈ seen) :
    Pools seen [] [raw] (fun _ => True) (emit (.lea r (.data label))) := by
  intro s hgood hs a _
  refine ⟨⟨trivial, hgood⟩, ?_, ?_, ?_, ?_, ?_⟩
  · rw [List.append_nil]
    exact hs
  · rw [List.append_nil, hlabel]
    rfl
  · rw [List.append_nil]
    exact fun other hother => List.mem_singleton.mp hother ▸ hraw
  · intro q hq
    rw [List.mem_singleton.mp hq]
    exact List.prefix_rfl
  · intro i hi _
    exact ⟨r, label, List.mem_singleton.mp hi⟩

/-! ### Moves that have nothing to do with strings -/

/-- What such a move keeps. -/
def stringless : Law Mark State where
  state _ := True
  mark m := ∀ i, m = .instr i → i.namesData = false
  error _ := True
  change s s' := s'.constants = s.constants
  refl _ := rfl
  trans h h' := h'.trans h

theorem pools_of_stringless
    (hx : ∀ s : State, s.Good False → ∀ a, (x s).result = .ok a → V a ∧ (x s).state.Good False)
    (h : stringless.Keeps x) : Pools seen [] [] V x := by
  intro s hgood hs a ha
  obtain ⟨-, -, hchange⟩ := (h s trivial).value ha
  have hcode : ∀ i ∈ codeOf (x s).marks, i.namesData = false := by
    intro i hi
    obtain ⟨⟨m, t⟩, hmem, hm⟩ := List.mem_filterMap.mp hi
    cases m with
    | event e => cases hm
    | instr j => exact ((h s trivial).marks hmem).1 i (congrArg _ (Option.some.inj hm))
  refine ⟨hx s hgood a ha, ?_, ?_, List.nil_subset _, ?_, ?_⟩
  · rw [List.append_nil, hchange]
    exact hs
  · refine List.filterMap_eq_nil_iff.mpr fun i hi => ?_
    have hnot := hcode i hi
    unfold loaded?
    split
    · cases hnot
    · rfl
  · intro q hq
    have hsame : q.2.constants = (x s).state.constants :=
      Eq.trans ((h s trivial).marks hq).2 (Eq.symm hchange)
    exact hsame ▸ List.prefix_rfl
  · intro i hi hnames
    rw [hcode i hi] at hnames
    cases hnames

section Stringless

variable {l : Location} {r : Register}

theorem stringless_notify {e : Event} : stringless.Keeps (notify e) := .mark fun _ h => by cases h

theorem stringless_emit {i : Instr} (h : i.namesData = false) : stringless.Keeps (emit i) := by
  refine .mark fun j hj => ?_
  obtain rfl := Mark.instr.inj hj
  exact h

theorem stringless_orLack (a : Except ResourceCause α) : stringless.Keeps (orLack a) := by
  cases a with
  | ok a => exact .pure trivial
  | error cause => exact .fail trivial

theorem stringless_setRegisters {f : RegisterFile} : stringless.Keeps (setRegisters f) :=
  .modify fun _ _ => ⟨trivial, rfl⟩

theorem stringless_registerFor : stringless.Keeps (registerFor l) :=
  .bind .get fun _ => .bind (stringless_orLack _) fun _ => .bind stringless_setRegisters fun _ =>
    .ite (.bind stringless_notify fun _ => .pure trivial) (.pure trivial)

theorem stringless_claimParameter : stringless.Keeps (claimParameter r l) :=
  .bind .get fun _ => .bind (stringless_orLack _) fun _ => .bind stringless_setRegisters fun _ =>
    stringless_notify

theorem stringless_release : stringless.Keeps (release l) := by
  refine .bind .get fun s => .bind stringless_setRegisters fun _ => ?_
  split
  · exact stringless_notify
  · exact .pure trivial

theorem stringless_swap {new : Location} : stringless.Keeps (swap r l new) :=
  .bind .get fun _ => .bind (stringless_orLack _) fun _ => stringless_setRegisters

theorem stringless_relocate {target : Register} : stringless.Keeps (relocate r target) :=
  .bind (stringless_emit rfl) fun _ => .bind .get fun _ => .bind (stringless_orLack _) fun _ =>
    .bind stringless_setRegisters fun _ => .bind stringless_notify fun _ => stringless_notify

end Stringless

theorem pools_step (hx : Step False False [] V x) (h : stringless.Keeps x) : Pools seen [] [] V x :=
  pools_of_stringless (fun s hs _ ha => ((hx.gives s hs).value ha).imp_right And.left) h

theorem pools_stringLiteral {l : Location} : Pools seen [raw] [raw] (· = .int) (stringLiteral raw l) :=
  pools_internString.bind fun _ hlabel => (pools_step .registerFor stringless_registerFor).bind fun _ _ =>
    (pools_lea (by rw [hlabel, List.append_nil]) (by simp)).bind fun _ _ =>
      pools_step (.pure rfl) (.pure trivial)

theorem Step.pools {raws : List String} (h : Step False False raws V x) :
    ∀ seen, Pools seen raws raws V x := by
  induction h with
  | pure h => exact fun _ => pools_step (.pure h) (.pure trivial)
  | fail => exact fun _ _ _ _ _ ha => by cases ha
  | seq _ _ ihx ihf => exact fun seen => (ihx seen).bind fun a ha => ihf a ha _
  | get => exact fun _ => pools_step .get Law.Gives.get.keeps
  | modify hregisters hexterns hconstants hquiet =>
    exact fun _ => pools_step (.modify hregisters hexterns hconstants hquiet)
      (.modify fun s _ => ⟨trivial, hconstants s⟩)
  | setScopes hloud h =>
    exact fun _ => pools_step (.setScopes hloud h) (.modify fun _ _ => ⟨trivial, rfl⟩)
  | emit h hi => exact fun _ => pools_step (.emit h hi) (stringless_emit hi)
  | registerFor => exact fun _ => pools_step .registerFor stringless_registerFor
  | claimParameter => exact fun _ => pools_step .claimParameter stringless_claimParameter
  | release => exact fun _ => pools_step .release stringless_release
  | swap => exact fun _ => pools_step .swap stringless_swap
  | relocate => exact fun _ => pools_step .relocate stringless_relocate
  | string => exact fun _ => pools_stringLiteral

theorem pools_built (o : Options) {names raws : List String} (hx : Built False False o o names raws x x)
    (h : stringless.Keeps x) : Pools seen [] [] (fun _ => True) x :=
  pools_of_stringless (fun s hs _ ha => ⟨trivial, ((hx.ensures s hs).value ha).1⟩) h

/-- Code generation puts the strings that it comes to among the constants and loads their addresses, in
their order. -/
theorem Built.pools {o o' : Options} {names raws : List String} {y : Gen α}
    (h : Built False False o o' names raws x y) : ∀ seen, Pools seen raws raws (fun _ => True) x := by
  induction h with
  | plain hx =>
    intro seen s hs hseen a ha
    exact (hx.pools seen s hs hseen a ha).imp_left fun h => ⟨trivial, h.2⟩
  | fail => exact fun _ _ _ _ _ ha => by cases ha
  | given hx _ ih => exact fun seen => (hx.pools seen).bind fun a ha => ih a ha _
  | bind _ _ ihx ihf => exact fun seen => (ihx seen).bind fun a _ => ihf a _
  | @node _ _ raws _ _ tag kind _ ih =>
    have hreport : ∀ (seen : List String) (happening : Happening),
        Pools seen [] [] (fun _ => True) (nodeEvent happening tag kind) := fun _ _ =>
      pools_of_stringless (fun _ hs _ _ => ⟨trivial, hs⟩) stringless_notify
    intro seen
    have h : Pools seen ([] ++ (raws ++ ([] ++ []))) ([] ++ (raws ++ ([] ++ []))) (fun _ => True)
        (Generation.node tag kind _) :=
      (hreport seen .nodeStart).bind fun _ _ => (ih _).bind fun _ _ => (hreport _ .nodeEnd).bind fun _ _ =>
        pools_step (.pure trivial) (.pure trivial)
    rwa [List.nil_append, List.nil_append, List.append_nil] at h
  | annotate => exact fun _ => pools_built o .annotate (.modify fun _ _ => ⟨trivial, rfl⟩)
  | comment htext =>
    exact fun _ => pools_built o (.comment htext) (.ite (stringless_emit rfl) (.pure trivial))
  | check =>
    exact fun _ => pools_built o .check (.ite (.bind .get fun _ => stringless_orLack _) (.pure trivial))
  | addExtern hname =>
    refine fun _ => pools_built o (.addExtern hname) (.modify fun s _ => ⟨trivial, ?_⟩)
    show (if _ then s else _ : State).constants = _
    split <;> rfl

end Pools

/-! ### Programs -/

/-- A run of code generation that succeeds starts with no constants and puts the strings of the program
among them. -/
theorem pooled_of_generate {options : Options} {source : String} {ast : Ast} {p : Program}
    (hgen : (generate options source ast).result = .ok p) :
    Pooled [] (Stmt.stringsOf ast.root.toList) (Stmt.stringsOf ast.root.toList) (program options ast {}) ∧
      p.constants = (program options ast {}).state.constants ∧
      p.code = codeOf (program options ast {}).marks := by
  obtain ⟨hr, rfl⟩ := ok_generate hgen
  obtain ⟨names, hbuilt⟩ := exists_built_program options options ast
  exact ⟨(hbuilt.pools [] {} good_init rfl () hr).2, rfl, rfl⟩

/-- **The constants of a program.**  They are the strings of the literals of the source, each once, in the
order of their first occurrence.  Literal by literal, in the order of the source, the code loads the
address of the constant with the text of the literal; nothing else in the code refers to a constant, and
whatever refers to one names one that exists.  Different constants have different labels, and while code
is generated constants are only added behind the others. -/
theorem constants_of_source {options : Options} {file source : String} {tokens : List Token} {ast : Ast}
    (htokens : tokenize file source = .ok tokens) (hparse : parse tokens = .ok ast) {p : Program}
    (hgen : (generate options file ast).result = .ok p) :
    p.constants.strings.Nodup ∧ p.constants.strings = (literals tokens).eraseDups ∧
    loads p.code = (literals tokens).map (fun raw => ConstantPool.label (p.constants.strings.idxOf raw)) ∧
    (∀ raw ∈ literals tokens,
      (ConstantPool.label (p.constants.strings.idxOf raw), raw) ∈ p.constants.entries) ∧
    (∀ i ∈ p.code, ∀ label, .data label ∈ i.operandList →
      (∃ r, i = .lea r (.data label)) ∧ ∃ raw, (label, raw) ∈ p.constants.entries) ∧
    p.constantLabels.Nodup ∧
    ∀ q ∈ (generate options file ast).marks, q.2.constants.strings <+: p.constants.strings := by
  obtain ⟨hpooled, hconstants, hcode⟩ := pooled_of_generate hgen
  rw [strings_of_parse htokens hparse] at hpooled
  have hstrings : p.constants.strings = (literals tokens).eraseDups := hconstants ▸ hpooled.strings
  have hlabel : labelOf (literals tokens) = fun raw => ConstantPool.label (p.constants.strings.idxOf raw) := by
    rw [hstrings]
    rfl
  have hloads : loads p.code = (literals tokens).map
      fun raw => ConstantPool.label (p.constants.strings.idxOf raw) := by
    rw [hcode, ← hlabel]
    exact hpooled.loads
  have hentries : ∀ raw ∈ literals tokens,
      (ConstantPool.label (p.constants.strings.idxOf raw), raw) ∈ p.constants.entries := fun raw hraw => by
    have hmem := ConstantPool.mem_entries hstrings hraw
    rwa [hlabel] at hmem
  refine ⟨hstrings ▸ nodup_eraseDups _, hstrings, hloads, hentries, ?_, p.nodup_constantLabels,
    fun q hq => hconstants ▸ hpooled.grown q hq⟩
  intro i hi label hdata
  have hnames : i.namesData = true := List.any_eq_true.mpr ⟨_, hdata, rfl⟩
  obtain ⟨r, label', rfl⟩ := hpooled.only i (hcode ▸ hi) hnames
  obtain rfl : label = label' := Operand.data.inj (List.mem_singleton.mp hdata)
  refine ⟨⟨r, rfl⟩, ?_⟩
  have hmem : label ∈ loads p.code := List.mem_filterMap.mpr ⟨_, hi, rfl⟩
  rw [hloads] at hmem
  obtain ⟨raw, hraw, rfl⟩ := List.mem_map.mp hmem
  exact ⟨raw, hentries raw hraw⟩

/-- A string that comes again, in another operand, in another block and behind others. -/
theorem constants_of_source_repeated : ∃ tokens ast p,
    tokenize "t.mc" "extern void f(int s, int t); void main() \x7b f(\"b\", \"a\" == \"b\");
      while (\"\") \x7b int x = -\"a\"; f(\"c\", x); \x7d \x7d" = .ok tokens ∧
    parse tokens = .ok ast ∧ (generate {} "t.mc" ast).result = .ok p ∧
    literals tokens = ["b", "a", "b", "", "a", "c"] ∧ p.constants.strings = ["b", "a", "", "c"] ∧
    loads p.code = ["str_0", "str_1", "str_0", "str_2", "str_1", "str_3"] := by
  have hpasses : passes "t.mc" "extern void f(int s, int t); void main() \x7b f(\"b\", \"a\" == \"b\");
      while (\"\") \x7b int x = -\"a\"; f(\"c\", x); \x7d \x7d"
      (fun ast => (generate {} "t.mc" ast).result.toOption.any fun p =>
        Stmt.stringsOf ast.root.toList = ["b", "a", "b", "", "a", "c"]) = true := by
    decide +kernel
  obtain ⟨tokens, ast, htokens, hparse, htest⟩ := exists_of_passes hpasses
  cases hgen : (generate {} "t.mc" ast).result with
  | error e => simp [hgen, Except.toOption] at htest
  | ok p =>
    rw [hgen] at htest
    have hliterals : literals tokens = ["b", "a", "b", "", "a", "c"] :=
      (strings_of_parse htokens hparse).symm.trans (of_decide_eq_true htest)
    obtain ⟨-, hstrings, hloads, -⟩ := constants_of_source htokens hparse hgen
    rw [hliterals] at hstrings hloads
    rw [hstrings] at hloads
    exact ⟨tokens, ast, p, htokens, hparse, hgen, hliterals, hstrings, hloads⟩

end Generation

end ProcLang
