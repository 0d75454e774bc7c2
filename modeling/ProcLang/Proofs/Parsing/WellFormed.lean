import ProcLang.Proofs.Parsing.Building
import ProcLang.Proofs.Parsing.Sound

/-!
A program that was read is well-formed.  Its tree derives from tokens, so every part is of the sort that
belongs there; it keeps the rules for names; and its nodes are numbered in post-order, so the
declarations of a block have numbers of their own.
-/

namespace ProcLang

open Node (Numbered)

theorem Stmt.sublist_declarations (body : List Stmt) :
    ((declarations body).map Prod.fst).Sublist (body.map (·.tag.id)) := by
  induction body with
  | nil => exact .slnil
  | cons first rest ih =>
    cases first with
    | declaration => exact ih.cons_cons _
    | _ => exact ih.cons _

theorem Node.Numbered.declarations {body : List Stmt} (h : Numbered (body.map .stmt)) :
    ((Stmt.declarations body).map Prod.fst).Nodup := by
  have hnodup := h.nodup
  rw [List.map_map] at hnodup
  exact hnodup.sublist (Stmt.sublist_declarations body)

namespace Grammar

theorem Block.kind {Item : List Token → Stmt → Prop} {ts : List Token} {st : Stmt}
    (h : Block Item ts st) : st.kind = .block := by
  cases h
  rfl

theorem Branch.kind {Item : List Token → Stmt → Prop} {ts : List Token} {st : Stmt}
    (h : Branch Item ts st) : st.kind = .branch := by
  cases h <;> rfl

mutual

/-- A statement of the language that keeps the rules is well-formed. -/
theorem wellFormed_statement : ∀ {ts : List Token} {inLoop : Bool} {names : List NameScope}
    (st : Stmt), Statement ts st → Numbered (Node.stmt st).subnodes → st.Lawful inLoop names →
    st.WellFormed inLoop names
  | _, _, _, .block tag body, h, hnum, hlaw => by
    cases h with
    | block h =>
      cases h with
      | mk _ hbody _ => exact ⟨hnum.declarations, wellFormed_statements body hbody hnum hlaw⟩
    | _ h => cases h
  | _, _, _, .procedure tag signature body, h, _, _ => by
    cases h with
    | external h =>
      cases h with
      | mk _ hsig _ =>
        cases hsig
        exact ⟨rfl, rfl⟩
    | _ h => cases h
  | _, _, _, .branch tag condition thenBranch none, h, hnum, hlaw => by
    have hthen := hnum.below (x := .stmt thenBranch) (by simp [Node.subnodes, Stmt.subnodes])
    cases h with
    | branch h =>
      cases h with
      | alone _ _ hblock =>
        exact ⟨hlaw.1, hblock.kind, wellFormed_statement thenBranch (.block hblock) hthen hlaw.2⟩
    | _ h => cases h
  | _, _, _, .branch tag condition thenBranch (some elseBranch), h, hnum, hlaw => by
    have hthen := hnum.below (x := .stmt thenBranch) (by simp [Node.subnodes, Stmt.subnodes])
    have helse := hnum.below (x := .stmt elseBranch) (by simp [Node.subnodes, Stmt.subnodes])
    cases h with
    | branch h =>
      cases h with
      | otherwise _ _ hblock _ hother =>
        exact ⟨hlaw.1, ⟨hblock.kind, wellFormed_statement thenBranch (.block hblock) hthen hlaw.2.1⟩,
          .inl hother.kind, wellFormed_statement elseBranch (.block hother) helse hlaw.2.2⟩
      | chained _ _ hblock _ hother =>
        exact ⟨hlaw.1, ⟨hblock.kind, wellFormed_statement thenBranch (.block hblock) hthen hlaw.2.1⟩,
          .inr hother.kind, wellFormed_statement elseBranch (.branch hother) helse hlaw.2.2⟩
    | _ h => cases h
  | _, _, _, .loop tag condition body, h, hnum, hlaw => by
    have hbody := hnum.below (x := .stmt body) (by simp [Node.subnodes, Stmt.subnodes])
    cases h with
    | loop _ _ hblock =>
      exact ⟨hlaw.1, hblock.kind, wellFormed_statement body (.block hblock) hbody hlaw.2⟩
    | _ h => cases h
  | _, _, _, .call .., _, _, hlaw => hlaw
  | _, _, _, .declaration .., _, _, hlaw => hlaw
  | _, _, _, .assignment .., _, _, hlaw => hlaw
  | _, _, _, .continueLoop _, _, _, hlaw => hlaw
  | _, _, _, .breakLoop _, _, _, hlaw => hlaw
  | _, _, _, .giveBack .., _, _, hlaw => hlaw
  | _, _, _, .expression _, _, _, hlaw => hlaw

theorem wellFormed_statements : ∀ {ts : List Token} {inLoop : Bool} {names : List NameScope}
    (body : List Stmt), Sequence Statement ts body → Numbered (body.map .stmt) →
    Stmt.AllLawful inLoop names body → Stmt.AllWellFormed inLoop names body
  | _, _, _, [], _, _, _ => trivial
  | _, _, _, first :: rest, h, hnum, hlaw => by
    cases h with
    | cons hfirst hrest =>
      exact ⟨wellFormed_statement first hfirst hnum.below_rest.1 hlaw.1,
        wellFormed_statements rest hrest hnum.below_rest.2 hlaw.2⟩

end

theorem wellFormed_procedure {ts : List Token} {names : List NameScope} {st : Stmt}
    (h : Procedure ts st) (hnum : Numbered (Node.stmt st).subnodes) (hlaw : st.ProcedureLawful names) :
    st.ProcedureWellFormed names := by
  cases h with
  | external h =>
    cases h with
    | mk _ hsig _ =>
      cases hsig
      exact ⟨rfl, hlaw.2⟩
  | defined hsig hbody =>
    cases hsig
    cases hbody with
    | mk _ hbody _ =>
      have hparts := hnum.below List.mem_cons_self
      obtain ⟨⟨⟨hvoid, hnodup⟩, hnew⟩, hlaw⟩ := hlaw
      exact ⟨rfl, hnew, hvoid, hnodup, hparts.declarations, wellFormed_statements _ hbody hparts hlaw⟩

theorem wellFormed_procedures {ts : List Token} {body : List Stmt}
    (h : Sequence Procedure ts body) : ∀ {names : List NameScope}, Numbered (body.map .stmt) →
      Stmt.ProceduresLawful names body → Stmt.ProceduresWellFormed names body := by
  induction h with
  | nil => exact fun _ _ => trivial
  | cons hfirst _ ih =>
    intro names hnum hlaw
    exact ⟨wellFormed_procedure hfirst hnum.below_rest.1 hlaw.1, ih hnum.below_rest.2 hlaw.2⟩

end Grammar

/-- A program that was read is well-formed. -/
theorem wellFormed_of_parse {tokens : List Token} {ast : Ast} (h : parse tokens = .ok ast) :
    ast.WellFormed := by
  obtain ⟨tag, body, hroot, hbody, hlaw⟩ := Parsing.derives_of_parse h
  obtain ⟨root, hpost⟩ := Parsing.postordered_of_parse h
  obtain rfl := Option.some.inj (hroot.symm.trans hpost.root_eq)
  have hnum : Numbered [.stmt (.block tag body)] :=
    ⟨_, hpost.order, hpost.ids ▸ List.nodup_range⟩
  exact ⟨tag, body, hroot, Grammar.wellFormed_procedures hbody hnum.below_rest.1 hlaw⟩

end ProcLang
