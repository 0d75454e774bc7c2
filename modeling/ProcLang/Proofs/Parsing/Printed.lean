import ProcLang.Proofs.Ast.Printer
import ProcLang.Proofs.Parsing.PostOrder
import ProcLang.Proofs.Parsing.Sound

/-!
The printed form of a program that was read tells the program.  All names in its tree are identifiers and no
string has a quote in it, since the tokens are like that; so the form tells the tree but for the tags.  The
nodes are numbered in post-order, so the shape of the tree tells the numbers too, and only the places of the
nodes are left open.
-/

namespace ProcLang

/-! ### Trees that were read -/

/-- An identifier has a name, and a string has no quote in it. -/
def Token.Fit (t : Token) : Prop :=
  (t.kind = .identifier → IsIdentifier t.string) ∧ (t.kind = .stringLiteral → '"' ∉ t.string.toList)

theorem fit_of_tokenize {file source : String} {tokens : List Token} (h : tokenize file source = .ok tokens) :
    ∀ t ∈ tokens, t.Fit := by
  obtain ⟨before, stop, rfl, hproper, hstop⟩ := proper_of_tokenize h
  intro t ht
  rcases List.mem_append.mp ht with ht | ht
  · obtain ⟨kind, span, value⟩ := t
    cases hproper _ ht with
    | fixed hspelling _ => constructor <;> rintro ⟨⟩ <;> cases hspelling
    | identifier hkind hvalue hname =>
      cases hkind
      cases hvalue
      exact ⟨fun _ => hname, fun h => by cases h⟩
    | number hkind _ => constructor <;> rintro ⟨⟩ <;> cases hkind
    | string hkind hvalue hquote =>
      cases hkind
      cases hvalue
      exact ⟨fun h => (by cases h), fun _ => hquote⟩
  · -- the last token is the end
    rw [List.mem_singleton.mp ht]
    have hkind : stop.kind = .eof := congrArg Prod.fst hstop
    constructor <;> rw [hkind] <;> rintro ⟨⟩

namespace Grammar

variable {ts : List Token}

theorem legible_expression {k : Nat} {e : Expr} (h : Expression k ts e) (hfit : ∀ t ∈ ts, t.Fit) :
    e.Legible := by
  induction h with
  | binary _ _ _ _ ihl ihr =>
    exact ⟨ihl fun t ht => hfit t (by simp [ht]), ihr fun t ht => hfit t (by simp [ht])⟩
  | tighter _ _ ih => exact ih hfit
  | unary _ _ ih | parentheses _ _ _ ih => exact ih fun t ht => hfit t (by simp [ht])
  | number _ => exact trivial
  | string hkind => exact (hfit _ List.mem_cons_self).2 hkind
  | name hkind => exact (hfit _ List.mem_cons_self).1 hkind

theorem legible_test {e : Expr} (h : Test ts e) (hfit : ∀ t ∈ ts, t.Fit) : e.Legible := by
  cases h with
  | mk _ he _ => exact legible_expression he fun t ht => hfit t (by simp [ht])

/-- An item of a list has its own tokens among those of the list. -/
theorem Listed.exists_of_mem {α : Type} {Item : List Token → α → Prop} {as : List α} (h : Listed Item ts as) :
    ∀ a ∈ as, ∃ us ⊆ ts, Item us a := by
  have hseparated : ∀ {ts as}, Separated Item ts as → ∀ a ∈ as, ∃ us ⊆ ts, Item us a := by
    intro ts as h
    induction h with
    | last ha =>
      intro a h
      rw [List.mem_singleton.mp h]
      exact ⟨_, List.Subset.refl _, ha⟩
    | @more ts us c a as ha _ _ ih =>
      refine List.forall_mem_cons.mpr ⟨⟨ts, by simp, ha⟩, fun b hb => ?_⟩
      obtain ⟨vs, hsub, hitem⟩ := ih b hb
      exact ⟨vs, fun t ht => by simp [hsub ht], hitem⟩
  cases h with
  | none _ _ => simp
  | some _ hmore _ =>
    intro a ha
    obtain ⟨us, hsub, hitem⟩ := hseparated hmore a ha
    exact ⟨us, fun t ht => by simp [hsub ht], hitem⟩

theorem legible_signature {external : Bool} {signature : Signature} (h : SignatureOf external ts signature)
    (hfit : ∀ t ∈ ts, t.Fit) : signature.Legible ∧ signature.external = external := by
  cases h with
  | mk _ hname hparams =>
    refine ⟨⟨(hfit _ (by simp)).1 hname, fun p hp => ?_⟩, rfl⟩
    obtain ⟨us, hsub, hparameter⟩ := hparams.exists_of_mem p hp
    cases hparameter with
    | mk _ hname => exact (hfit _ (by simp [hsub (List.mem_cons_of_mem _ List.mem_cons_self)])).1 hname

theorem legible_external {st : Stmt} (h : External ts st) (hfit : ∀ t ∈ ts, t.Fit) : st.Legible := by
  cases h with
  | mk _ hsig _ =>
    obtain ⟨hlegible, hexternal⟩ := legible_signature hsig fun t ht => hfit t (by simp [ht])
    exact ⟨hlegible, hexternal, trivial⟩

mutual

theorem legible_statement : ∀ {ts : List Token} (st : Stmt), Statement ts st → (∀ t ∈ ts, t.Fit) → st.Legible
  | _, .block tag body, h, hfit => by
    cases h with
    | block h =>
      cases h with
      | mk _ hbody _ => exact legible_statements body hbody fun t ht => hfit t (by simp [ht])
    | _ h => cases h
  | _, .procedure tag signature body, h, hfit => by
    cases h with
    | external h => exact legible_external h hfit
    | _ h => cases h
  | _, .call tag name args, h, hfit => by
    cases h with
    | call hname hargs _ =>
      refine ⟨(hfit _ (by simp)).1 hname, fun e he => ?_⟩
      obtain ⟨us, hsub, hexpression⟩ := hargs.exists_of_mem e he
      exact legible_expression hexpression fun t ht => hfit t (by simp [hsub ht])
    | _ h => cases h
  | _, .declaration tag name type init, h, hfit => by
    cases h with
    | declaration _ hname _ => exact ⟨(hfit _ (by simp)).1 hname, by simp⟩
    | initialised _ hname _ he _ =>
      refine ⟨(hfit _ (by simp)).1 hname, ?_⟩
      rintro _ ⟨⟩
      exact legible_expression he fun t ht => hfit t (by simp [ht])
    | _ h => cases h
  | _, .assignment tag name value, h, hfit => by
    cases h with
    | assignment hname _ he _ =>
      exact ⟨(hfit _ (by simp)).1 hname, legible_expression he fun t ht => hfit t (by simp [ht])⟩
    | _ h => cases h
  | _, .branch tag condition thenBranch none, h, hfit => by
    cases h with
    | branch h =>
      cases h with
      | alone _ hc hthen =>
        exact ⟨legible_test hc fun t ht => hfit t (by simp [ht]),
          legible_statement thenBranch (.block hthen) fun t ht => hfit t (by simp [ht]), trivial⟩
    | _ h => cases h
  | _, .branch tag condition thenBranch (some elseBranch), h, hfit => by
    cases h with
    | branch h =>
      cases h with
      | otherwise _ hc hthen _ helse =>
        exact ⟨legible_test hc fun t ht => hfit t (by simp [ht]),
          legible_statement thenBranch (.block hthen) fun t ht => hfit t (by simp [ht]),
          legible_statement elseBranch (.block helse) fun t ht => hfit t (by simp [ht])⟩
      | chained _ hc hthen _ helse =>
        exact ⟨legible_test hc fun t ht => hfit t (by simp [ht]),
          legible_statement thenBranch (.block hthen) fun t ht => hfit t (by simp [ht]),
          legible_statement elseBranch (.branch helse) fun t ht => hfit t (by simp [ht])⟩
    | _ h => cases h
  | _, .loop tag condition body, h, hfit => by
    cases h with
    | loop _ hc hbody =>
      exact ⟨legible_test hc fun t ht => hfit t (by simp [ht]),
        legible_statement body (.block hbody) fun t ht => hfit t (by simp [ht])⟩
    | _ h => cases h
  | _, .continueLoop _, _, _ => trivial
  | _, .breakLoop _, _, _ => trivial
  | _, .giveBack tag value, h, hfit => by
    cases h with
    | leave _ _ => simp [Stmt.Legible]
    | giveBack _ he _ =>
      rintro _ ⟨⟩
      exact legible_expression he fun t ht => hfit t (by simp [ht])
    | _ h => cases h
  | _, .expression e, h, _ => by
    cases h with
    | _ h => cases h

theorem legible_statements : ∀ {ts : List Token} (body : List Stmt), Sequence Statement ts body →
    (∀ t ∈ ts, t.Fit) → Stmt.AllLegible body
  | _, [], _, _ => trivial
  | _, first :: rest, h, hfit => by
    cases h with
    | cons hfirst hrest =>
      exact ⟨legible_statement first hfirst fun t ht => hfit t (by simp [ht]),
        legible_statements rest hrest fun t ht => hfit t (by simp [ht])⟩

end

theorem legible_procedure {st : Stmt} (h : Procedure ts st) (hfit : ∀ t ∈ ts, t.Fit) : st.Legible := by
  cases h with
  | external h => exact legible_external h hfit
  | defined hsig hbody =>
    obtain ⟨hlegible, hexternal⟩ := legible_signature hsig fun t ht => hfit t (by simp [ht])
    exact ⟨hlegible, hexternal, legible_statement _ (.block hbody) fun t ht => hfit t (by simp [ht])⟩

theorem legible_procedures {body : List Stmt} (h : Sequence Procedure ts body) (hfit : ∀ t ∈ ts, t.Fit) :
    Stmt.AllLegible body := by
  induction h with
  | nil => trivial
  | cons hfirst _ ih =>
    exact ⟨legible_procedure hfirst fun t ht => hfit t (by simp [ht]), ih fun t ht => hfit t (by simp [ht])⟩

end Grammar

theorem legible_of_parse {file source : String} {tokens : List Token} {ast : Ast}
    (ht : tokenize file source = .ok tokens) (hp : parse tokens = .ok ast) :
    ∃ root, ast.root = some root ∧ root.Legible := by
  obtain ⟨tag, body, hroot, hbody, -⟩ := Parsing.derives_of_parse hp
  exact ⟨.block tag body, hroot,
    Grammar.legible_procedures hbody fun t h => fit_of_tokenize ht t ((List.takeWhile_sublist _).subset h)⟩

/-! ### Nodes -/

namespace Node

/-- A node without what the tags in it say. -/
def bare : Node → Node
  | expr e => .expr e.bare
  | stmt s => .stmt s.bare

/-- What a node is, its number, and the numbers of the nodes directly below it: all but the places. -/
def outline (x : Node) : Node × NodeId × List NodeId := (x.bare, x.tag.id, x.children)

theorem subnodes_bare (x : Node) : x.bare.subnodes = x.subnodes.map bare := by
  have hexpr : ∀ e : Expr, e.bare.subnodes = e.subnodes.map bare := by
    intro e
    cases e <;> rfl
  cases x with
  | expr e => exact hexpr e
  | stmt s =>
    cases s with
    | expression e => exact hexpr e
    | _ =>
      simp [bare, subnodes, Stmt.subnodes, Stmt.bare, Stmt.bareAll_eq, Stmt.bareOf_eq, Option.toList_map,
        Function.comp_def]

/-- The shape of trees tells what the nodes in post-order are; with their numbers it tells the children. -/
theorem PostOrder.outline_eq {xs xs' l l' : List Node} (h : PostOrder xs l) (h' : PostOrder xs' l')
    (hbare : xs.map bare = xs'.map bare) :
    l.map bare = l'.map bare ∧ (l.map (·.tag.id) = l'.map (·.tag.id) →
      xs.map (·.tag.id) = xs'.map (·.tag.id) ∧ l.map outline = l'.map outline) := by
  induction h generalizing xs' l' with
  | nil =>
    obtain rfl := List.map_eq_nil_iff.mp hbare.symm
    cases h'
    exact ⟨rfl, fun _ => ⟨rfl, rfl⟩⟩
  | @cons x xs below later _ _ ih ih' =>
    cases h' with
    | nil => cases hbare
    | @cons x' xs' below' later' hbelow' hlater' =>
      obtain ⟨hx, hxs⟩ := List.cons.inj hbare
      have hsubnodes : x.subnodes.map bare = x'.subnodes.map bare := by
        rw [← subnodes_bare, ← subnodes_bare, hx]
      obtain ⟨hbelow, hids⟩ := ih hbelow' hsubnodes
      obtain ⟨hlater, hids'⟩ := ih' hlater' hxs
      refine ⟨by simp [hbelow, hx, hlater], fun heq => ?_⟩
      -- both lists are cut at the same places, since they are equally long
      have hlength : below.length = below'.length := by simpa using congrArg List.length hbelow
      simp only [List.map_append, List.map_cons] at heq
      obtain ⟨hfront, hback⟩ := List.append_inj heq (by simp [hlength])
      obtain ⟨hid, hback⟩ := List.cons.inj hback
      obtain ⟨hchildren, hbelow⟩ := hids hfront
      obtain ⟨hroots, hlater⟩ := hids' hback
      rw [← children_eq, ← children_eq] at hchildren
      have hx : x.outline = x'.outline := by simp only [outline, hx, hid, hchildren]
      exact ⟨by simp [hid, hroots], by simp [hbelow, hx, hlater]⟩

end Node

theorem Ast.Postordered.outline_eq {ast ast' : Ast} {root root' : Stmt} (h : ast.Postordered root)
    (h' : ast'.Postordered root') (hbare : root.bare = root'.bare) :
    ast.nodes.map Node.outline = ast'.nodes.map Node.outline := by
  obtain ⟨hnodes, houtline⟩ := h.order.outline_eq h'.order (congrArg (fun s => [Node.stmt s]) hbare)
  have hsize : ast.size = ast'.size := by simpa [Ast.size] using congrArg List.length hnodes
  have hlist := (houtline (by rw [h.ids, h'.ids, hsize])).2
  exact Array.toList_inj.mp (by simpa using hlist)

/-- The printed form tells the program.  If the trees of two texts are printed alike, then they have equally
many nodes, and nodes of one number are the same node: of one kind, with the same names, types, literals and
operators throughout, and with the same numbers below them.  At most the places differ.  Also for any
expressions over identifiers and strings without quotes the printed form tells the expression. -/
theorem printed_form_determines :
    (∀ (file source : String) (tokens : List Token) (ast : Ast) (file' source' : String)
        (tokens' : List Token) (ast' : Ast),
      tokenize file source = .ok tokens → parse tokens = .ok ast →
      tokenize file' source' = .ok tokens' → parse tokens' = .ok ast' →
      ∃ root root', ast.root = some root ∧ ast'.root = some root' ∧
        (root.render 0 = root'.render 0 →
          root.bare = root'.bare ∧ ast.nodes.map Node.outline = ast'.nodes.map Node.outline)) ∧
      ∀ e e' : Expr, e.Legible → e'.Legible → e.render = e'.render → e.bare = e'.bare := by
  constructor
  · intro file source tokens ast file' source' tokens' ast' ht hp ht' hp'
    obtain ⟨root, hroot, hlegible⟩ := legible_of_parse ht hp
    obtain ⟨root', hroot', hlegible'⟩ := legible_of_parse ht' hp'
    obtain ⟨first, hfirst⟩ := Parsing.postordered_of_parse hp
    obtain ⟨first', hfirst'⟩ := Parsing.postordered_of_parse hp'
    obtain rfl := Option.some.inj (hroot.symm.trans hfirst.root_eq)
    obtain rfl := Option.some.inj (hroot'.symm.trans hfirst'.root_eq)
    refine ⟨root, root', hroot, hroot', fun hrender => ?_⟩
    obtain ⟨hbare, -⟩ := Stmt.render_unique root root' hlegible hlegible'
      (congrArg (fun text : String => text.toList ++ []) hrender)
    exact ⟨hbare, hfirst.outline_eq hfirst' hbare⟩
  · intro e e' h h' hrender
    have happart : Apart [] := fun c hc => by cases hc
    exact (Expr.render_tells e e' h h' [] [] happart happart (congrArg (·.toList ++ []) hrender)).1

/-- A text, and the same program with a comment, more lines and parentheses. -/
theorem printed_form_determines_spaced : ∃ tokens ast root tokens' ast' root',
    tokenize "t.mc" "void f(int a) \x7b a = -a - 1; if (a) \x7b f(a); \x7d \x7d" = .ok tokens ∧
    parse tokens = .ok ast ∧ ast.root = some root ∧
    tokenize "u.mc" "void f(int a)\n\x7b\n a=- a-(01);\n if(a)\n \x7b /* again */ f( a ); \x7d\n\x7d" =
      .ok tokens' ∧
    parse tokens' = .ok ast' ∧ ast'.root = some root' ∧ root.render 0 = root'.render 0 ∧
    root.bare = root'.bare ∧ ast.nodes.map Node.outline = ast'.nodes.map Node.outline := by
  have hpasses : Generation.passes "t.mc" "void f(int a) \x7b a = -a - 1; if (a) \x7b f(a); \x7d \x7d"
      (fun ast => Generation.passes "u.mc"
        "void f(int a)\n\x7b\n a=- a-(01);\n if(a)\n \x7b /* again */ f( a ); \x7d\n\x7d"
        fun ast' => ast.root.map (Stmt.render 0) = ast'.root.map (Stmt.render 0)) = true := by
    decide +kernel
  obtain ⟨tokens, ast, ht, hp, hpasses'⟩ := Generation.exists_of_passes hpasses
  obtain ⟨tokens', ast', ht', hp', htest⟩ := Generation.exists_of_passes hpasses'
  obtain ⟨root, root', hroot, hroot', hdetermines⟩ := printed_form_determines.1 _ _ _ _ _ _ _ _ ht hp ht' hp'
  have hrender : root.render 0 = root'.render 0 := by
    simpa [hroot, hroot'] using of_decide_eq_true htest
  obtain ⟨hbare, hnodes⟩ := hdetermines hrender
  exact ⟨tokens, ast, root, tokens', ast', root', ht, hp, hroot, ht', hp', hroot', hrender, hbare, hnodes⟩

end ProcLang
