import ProcLang.Proofs.Token.Trivia
import ProcLang.Token.Stream

/-!
Block comments by their grammar: a comment holds comments, pairs of slashes and single bytes.  The
reading counts levels instead.  Text inside some open levels is one body after another, each with the
end of its level, so the two agree; and since the reading stops before the end of the text only where
no level is open, a comment that does not end takes up all of it.
-/

namespace ProcLang

namespace Lexis

variable {d : Nat} {x body : List UInt8}

/-- The body of a comment, in front of the end of the comment.  Its items are read from left to right:
comments, pairs of slashes, and bytes that begin no pair. -/
inductive Body : List UInt8 → Prop
  | nil : Body []
  | comment {inner t : List UInt8} : Body inner → Body t →
    Body (slash :: star :: (inner ++ star :: slash :: t))
  | slashes {t : List UInt8} : Body t → Body (slash :: slash :: t)
  | byte {b : UInt8} {t : List UInt8} : ¬ Paired b (t ++ [star, slash]).head? → Body t → Body (b :: t)

/-- A block comment. -/
def IsComment (c : List UInt8) : Prop :=
  ∃ body, Body body ∧ c = slash :: star :: (body ++ [star, slash])

/-! ### Levels -/

/-- Bodies one behind the other, each with the end of its level. -/
inductive Levels : Nat → List UInt8 → Prop
  | nil : Levels 0 []
  | cons {d : Nat} {body rest : List UInt8} : Body body → Levels d rest →
    Levels (d + 1) (body ++ star :: slash :: rest)

theorem Body.inside (h : Body body) (hx : Inside d x) : Inside (d + 1) (body ++ star :: slash :: x) := by
  induction h generalizing d x with
  | nil => exact .up hx
  | @comment inner t _ _ ihinner iht =>
    have hdeeper := Inside.deeper (ihinner (iht hx))
    simpa using hdeeper
  | slashes _ ih => exact .slashes (ih hx)
  | @byte b t hb _ ih =>
    refine .other ?_ (ih hx)
    cases t <;> exact hb

/-- To count levels is to read bodies. -/
theorem inside_iff_levels : Inside d x ↔ Levels d x := by
  constructor
  · intro h
    induction h with
    | closed => exact .nil
    | slashes _ ih =>
      cases ih with
      | cons hbody hrest => exact .cons (.slashes hbody) hrest
    | deeper _ ih =>
      -- the comment that opens here ends with the first level, and the body around it goes on
      cases ih with
      | cons hinner hrest =>
        cases hrest with
        | cons hbody hrest => simpa using Levels.cons (.comment hinner hbody) hrest
    | up _ ih => exact .cons .nil ih
    | other hb _ ih =>
      cases ih with
      | @cons _ body rest hbody hrest =>
        refine .cons (.byte ?_ hbody) hrest
        cases body <;> exact hb
  · intro h
    induction h with
    | nil => exact .closed
    | cons hbody _ ih => exact hbody.inside ih

/-- A comment at the head of a text is its opening and what stands inside the one level. -/
theorem isComment_prefix_iff {c text : List UInt8} :
    IsComment c ∧ c <+: slash :: star :: text ↔ ∃ x, Inside 1 x ∧ x <+: text ∧ c = slash :: star :: x := by
  constructor
  · rintro ⟨⟨body, hbody, rfl⟩, hpre⟩
    exact ⟨_, hbody.inside .closed, (List.cons_prefix_cons.mp (List.cons_prefix_cons.mp hpre).2).2, rfl⟩
  · rintro ⟨x, hx, hpre, rfl⟩
    refine ⟨?_, List.cons_prefix_cons.mpr ⟨rfl, List.cons_prefix_cons.mpr ⟨rfl, hpre⟩⟩⟩
    cases inside_iff_levels.mp hx with
    | cons hbody hrest =>
      cases hrest with
      | nil => exact ⟨_, hbody, rfl⟩

end Lexis

open Lexis

/-- Where the reading of a comment with some open levels stops: the levels then open and the text left. -/
def stopsAt : Nat → List Char → Nat × List Char
  | 0, cs => (0, cs)
  | d + 1, [] => (d + 1, [])
  | d + 1, '/' :: '/' :: cs => stopsAt (d + 1) cs
  | d + 1, '/' :: '*' :: cs => stopsAt (d + 2) cs
  | d + 1, '*' :: '/' :: cs => stopsAt d cs
  | d + 1, _ :: cs => stopsAt (d + 1) cs

/-- Levels are left open only at the end of the text. -/
theorem stopsAt_eq (d : Nat) (cs : List Char) :
    ((stopsAt d cs).1 = 0 ↔ (closeComment d cs).isSome) ∧
      (stopsAt d cs).2 = ((closeComment d cs).map Prod.snd).getD [] := by
  fun_induction closeComment d cs with
  | case1 => simp [stopsAt]
  | case2 => simp [stopsAt]
  | case3 _ _ ih | case4 _ _ ih | case5 _ _ ih =>
    simpa [stopsAt, Function.comp_def] using ih
  | case6 d c cs h₁ h₂ h₃ ih =>
    rw [stopsAt.eq_6 d c cs h₁ h₂ h₃]
    simpa [Function.comp_def] using ih

/-- Block comments.  Where `/*` stands, the reading of a comment succeeds exactly if some of the bytes from
there on are a comment.  It then stops behind these, which are the only ones, and the trivia goes on there.
Otherwise it stops at the end of the text, and the reading of any text whose trivia comes to this place is
over, with an error at the place of the `/*`. -/
theorem block_comment (inside : List Char) :
    ((closeComment 1 inside).isSome ↔ ∃ c, IsComment c ∧ c <+: utf8 ('/' :: '*' :: inside)) ∧
    (∀ body after, closeComment 1 inside = some (body, after) →
      body ++ after = inside ∧ stopsAt 1 inside = (0, after) ∧
      trivia ('/' :: '*' :: inside) = ('/' :: '*' :: body ++ (trivia after).1, (trivia after).2) ∧
      ∀ c, IsComment c ∧ c <+: utf8 ('/' :: '*' :: inside) ↔ c = utf8 ('/' :: '*' :: body)) ∧
    (closeComment 1 inside = none →
      (stopsAt 1 inside).1 ≠ 0 ∧ (stopsAt 1 inside).2 = [] ∧
      trivia ('/' :: '*' :: inside) = ([], '/' :: '*' :: inside) ∧
      ∀ file pos text skipped, trivia text = (skipped, '/' :: '*' :: inside) →
        ∃ e, scan file pos text = ⟨[], .error e, none⟩ ∧
          e.span? = some ((pos.past skipped).within file) ∧
          e.text = ((pos.past skipped).within file).text ++
            ": lexical error: " ++ "unterminated block comment") := by
  have hcomment := fun c => @isComment_prefix_iff c (utf8 inside)
  obtain ⟨hopen, hleft⟩ := stopsAt_eq 1 inside
  have htrivia := trivia.eq_3 inside
  cases hclose : closeComment 1 inside with
  | some found =>
    obtain ⟨body, after⟩ := found
    have hin := inside_of_closeComment hclose
    have happ := closeComment_append hclose
    have hbytes : utf8 body ++ utf8 after = utf8 inside := by rw [← utf8_append, happ]
    refine ⟨iff_of_true rfl ⟨_, (hcomment _).mpr ⟨_, hin, ⟨_, hbytes⟩, rfl⟩⟩, fun body' after' h => ?_, by simp⟩
    obtain ⟨rfl, rfl⟩ := Prod.mk.inj (Option.some.inj h)
    refine ⟨happ, Prod.ext (hopen.mpr (by rw [hclose]; rfl)) (by rw [hleft, hclose]; rfl), ?_, fun c => ?_⟩
    · rw [htrivia]
      split
      · next h => cases hclose.symm.trans h
      · next h =>
        cases hclose.symm.trans h
        rfl
    refine (hcomment c).trans ⟨?_, ?_⟩
    · rintro ⟨x, hx, ⟨more, hmore⟩, rfl⟩
      rw [hx.unique hin (hmore.trans hbytes.symm)]
      rfl
    · rintro rfl
      exact ⟨_, hin, ⟨_, hbytes⟩, rfl⟩
  | none =>
    have hun := unterminated_of_closeComment hclose
    refine ⟨iff_of_false (by simp) ?_, by simp, fun _ => ?_⟩
    · rintro ⟨c, hc⟩
      obtain ⟨x, hx, hpre, -⟩ := (hcomment c).mp hc
      exact hun x hx hpre
    refine ⟨by simp [hopen, hclose], by simp [hleft, hclose], ?_, ?_⟩
    · rw [htrivia]
      split
      · rfl
      · next h => cases hclose.symm.trans h
    · intro file pos text skipped h
      exact ⟨.lexical ((pos.past skipped).within file) .unterminatedComment, by simp [scan, h], rfl, rfl⟩

end ProcLang
