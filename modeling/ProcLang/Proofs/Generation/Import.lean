import ProcLang.Ast
import Mathlib.Data.List.Nodup

/-!
The imports of a program.  Names are imported by external procedures, wherever they are declared; a name
that is imported again is not imported twice.
-/

namespace ProcLang

/-! ### The imports of a program -/

namespace Stmt

mutual

/-- The names that a statement imports, in order. -/
def imports : Stmt → List String
  | .block _ body => importsOf body
  | .procedure _ signature none => if signature.external then [signature.name] else []
  | .procedure _ signature (some body) =>
    if signature.external then [signature.name] else body.imports
  | .branch _ _ thenBranch none => thenBranch.imports
  | .branch _ _ thenBranch (some elseBranch) => thenBranch.imports ++ elseBranch.imports
  | .loop _ _ body => body.imports
  | _ => []

/-- The names that statements import, in order. -/
def importsOf : List Stmt → List String
  | [] => []
  | first :: rest => first.imports ++ importsOf rest

end

end Stmt

/-- Import a name, unless it is there. -/
def importName (externs : List String) (name : String) : List String :=
  if externs.contains name then externs else externs ++ [name]

/-- Import names one after another. -/
def importAll (externs names : List String) : List String := names.foldl importName externs

theorem importAll_append (externs names names' : List String) :
    importAll externs (names ++ names') = importAll (importAll externs names) names' :=
  List.foldl_append

theorem mem_importName {externs : List String} {name other : String} :
    other ∈ importName externs name ↔ other ∈ externs ∨ other = name := by
  unfold importName
  split
  · next h =>
    have hmem : name ∈ externs := by simpa using h
    exact ⟨.inl, fun h' => h'.elim id fun heq => heq ▸ hmem⟩
  · simp

theorem mem_importAll {externs names : List String} {other : String} :
    other ∈ importAll externs names ↔ other ∈ externs ∨ other ∈ names := by
  induction names generalizing externs with
  | nil => simp [importAll]
  | cons name names ih =>
    have hcons : importAll externs (name :: names) = importAll (importName externs name) names := rfl
    rw [hcons, ih, mem_importName, List.mem_cons, or_assoc]

theorem nodup_importAll {externs : List String} (names : List String) (h : externs.Nodup) :
    (importAll externs names).Nodup := by
  induction names generalizing externs with
  | nil => exact h
  | cons name names ih =>
    refine ih ?_
    unfold importName
    split
    · exact h
    · next hnew =>
      have hmem : name ∉ externs := by simpa using hnew
      exact List.nodup_append.mpr ⟨h, List.nodup_cons.mpr ⟨List.not_mem_nil, .nil⟩, fun a ha b hb heq =>
        hmem (by rwa [← List.mem_singleton.mp hb, ← heq])⟩

end ProcLang
