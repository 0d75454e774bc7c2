import ProcLang.Parsing.Program
import ProcLang.Proofs.Stage

/-!
A reading ends, and it does not look behind the first end of the tokens.  Two runs are compared over
tokens that part behind their first end.  They do the same although their bounds differ, because
each reading that repeats or nests takes a token each time: no bound is ever reached.
-/

namespace ProcLang.Parsing

/-! ### Tokens of a state -/

namespace State

variable {s : State} {ts back : List Token} {t : Token}

/-- The tokens before the next end. -/
def ahead (s : State) : List Token := (s.tokens.drop s.pos).takeWhile (·.kind != .eof)

/-- The next end. -/
def stop (s : State) : Token := ((s.tokens.drop s.pos).dropWhile (·.kind != .eof)).headD default

@[simp] theorem ahead_with {names : List NameScope} {ast : Ast} :
    ahead { s with scopes := names, ast := ast } = s.ahead := rfl

@[simp] theorem stop_with {names : List NameScope} {ast : Ast} :
    stop { s with scopes := names, ast := ast } = s.stop := rfl

theorem mem_ahead (h : t ∈ s.ahead) : t.kind ≠ .eof := by
  simpa using List.all_eq_true.mp List.all_takeWhile t h

theorem drop_pos (h : s.stop.kind = .eof) :
    ∃ back, s.tokens.drop s.pos = s.ahead ++ s.stop :: back := by
  have hsplit := (s.tokens.drop s.pos).takeWhile_append_dropWhile (p := (·.kind != .eof))
  unfold stop at h ⊢
  cases hdrop : (s.tokens.drop s.pos).dropWhile (·.kind != .eof) with
  | nil =>
    rw [hdrop] at h
    cases h
  | cons t back => exact ⟨back, by rw [← hsplit, hdrop]; rfl⟩

theorem ahead_stop_of_drop (h : s.tokens.drop s.pos = ts ++ t :: back)
    (hts : ∀ u ∈ ts, u.kind ≠ .eof) (ht : t.kind = .eof) : s.ahead = ts ∧ s.stop = t := by
  have hall : ∀ u ∈ ts, (u.kind != .eof) = true := by simpa using hts
  simp [ahead, stop, h, List.takeWhile_append_of_pos hall, List.dropWhile_append_of_pos hall, ht]

theorem length_ahead_lt (h : s.stop.kind = .eof) : s.ahead.length < s.remaining := by
  obtain ⟨back, hdrop⟩ := drop_pos h
  rw [remaining, ← List.length_drop, hdrop, List.length_append, List.length_cons]
  omega

/-- Up to an end, the token at a distance is the one at its place. -/
theorem peek_eq {k j d : Nat} (h : s.tokens.drop k = ts ++ t :: back) (hd : k + j = s.pos + d)
    (hj : j ≤ ts.length) : s.peek d = ts[j]?.getD t := by
  have hlen := congrArg List.length h
  simp only [List.length_drop, List.length_append, List.length_cons] at hlen
  rw [peek, Nat.min_eq_left (by omega), ← hd, ← List.getElem?_drop, h]
  rcases Nat.lt_or_eq_of_le hj with hlt | rfl
  · rw [List.getElem?_append_left hlt]
    simp [hlt]
  · simp

theorem peek_of_stop {d : Nat} (h : s.stop.kind = .eof) (hd : d ≤ s.ahead.length) :
    s.peek d = s.ahead[d]?.getD s.stop := by
  obtain ⟨back, hdrop⟩ := drop_pos h
  exact peek_eq hdrop rfl hd

theorem ahead_stop_advance (h : s.stop.kind = .eof) (hs : s.ahead = t :: ts) :
    s.advance.ahead = ts ∧ s.advance.stop = s.stop := by
  obtain ⟨back, hdrop⟩ := drop_pos h
  have hcurrent : s.current = t := by simp [current, peek_of_stop h, hs]
  have hmem := fun u (hu : u ∈ t :: ts) => mem_ahead (s := s) (hs ▸ hu)
  have hdrop' : s.tokens.drop s.advance.pos = ts ++ s.stop :: back := by
    rw [advance, hcurrent, if_neg (hmem t (.head ts)), ← List.drop_drop, hdrop, hs]
    rfl
  exact ahead_stop_of_drop hdrop' (fun u hu => hmem u (.tail t hu)) h

theorem exists_closed (tokens : List Token) : ∃ more, closed tokens = tokens ++ more := by
  unfold closed
  split
  · exact ⟨[], by simp⟩
  · exact ⟨_, rfl⟩

/-- There is an end, and the tokens before the first one are those given. -/
theorem closed_eq (tokens : List Token) : ∃ stop back, stop.kind = .eof ∧
    closed tokens = tokens.takeWhile (·.kind != .eof) ++ stop :: back := by
  have hsplit := tokens.takeWhile_append_dropWhile (p := (·.kind != .eof))
  cases hdrop : tokens.dropWhile (·.kind != .eof) with
  | nil =>
    rw [hdrop, List.append_nil] at hsplit
    refine ⟨endOf tokens, [], rfl, ?_⟩
    rw [hsplit, closed, if_neg]
    intro hlast
    obtain ⟨t, ht, hk⟩ := Option.map_eq_some_iff.mp hlast
    have hmem := List.mem_of_getLast? ht
    rw [← hsplit] at hmem
    simpa [hk] using List.all_eq_true.mp List.all_takeWhile t hmem
  | cons t back =>
    obtain ⟨more, hmore⟩ := exists_closed tokens
    refine ⟨t, back ++ more, ?_, ?_⟩
    · have := List.head?_dropWhile_not (·.kind != .eof) tokens
      simpa [hdrop] using this
    · rw [hmore]
      conv_lhs => rw [← hsplit, hdrop]
      simp

end State

/-- The error says that a bound is reached. -/
def Spent : CompileError → Prop
  | .grammar _ (.other _) => True
  | _ => False

/-! ### Two runs -/

/-- Tokens up to their first end, and two ways to go on behind it. -/
structure Fork where
  front : List Token
  stop : Token
  back : List Token
  other : List Token
  isEnd : stop.kind = .eof

namespace Fork

variable {w : Fork} {α β : Type} {P Q R : Nat → Prop} {x x' : Parser α} {f f' : α → Parser β}
  {b n : Nat}

/-- The state is one of the first run, at the first end or before it. -/
structure Reading (w : Fork) (s : State) : Prop where
  tokens : s.tokens = w.front ++ w.stop :: w.back
  pos : s.pos ≤ w.front.length

/-- The state of the other run. -/
def turn (w : Fork) (s : State) : State := { s with tokens := w.front ++ w.stop :: w.other }

/-- The token at a place. -/
def token (w : Fork) (pos : Nat) : Token := w.front[pos]?.getD w.stop

/-- Fewer than `n` tokens stand before the end. -/
def Below (w : Fork) (n pos : Nat) : Prop := w.front.length - pos < n

/-- From places in `P` the second reading does in the other run what the first does in its run.  No
state is behind the end and no bound is reached, and a reading that succeeds leads to a place in `Q`. -/
def Agree (w : Fork) (P : Nat → Prop) (x x' : Parser α) (Q : Nat → Prop) : Prop :=
  ∀ s, w.Reading s → P s.pos →
    x' (w.turn s) =
      ⟨(x s).marks.map (Prod.map id w.turn), (x s).result, w.turn (x s).state⟩ ∧
    (∀ p ∈ (x s).marks, w.Reading p.2) ∧ w.Reading (x s).state ∧
    match (x s).result with
    | .ok _ => Q (x s).state.pos
    | .error e => ¬ Spent e

/-- The readings agree and take no token back. -/
abbrev Keeps (w : Fork) (n : Nat) (x x' : Parser α) : Prop := w.Agree (w.Below n) x x' (w.Below n)

/-- With fewer than `b` tokens before the end the readings agree, and they take a token at least. -/
def Takes (w : Fork) (b : Nat) (x x' : Parser α) : Prop :=
  ∀ ⦃n⦄, n < b → w.Agree (w.Below (n + 1)) x x' (w.Below n)

theorem Reading.peek_eq {s : State} {d : Nat} (h : w.Reading s) (hd : s.pos + d ≤ w.front.length) :
    s.peek d = w.token (s.pos + d) ∧ (w.turn s).peek d = w.token (s.pos + d) :=
  ⟨State.peek_eq (k := 0) h.tokens (Nat.zero_add _) hd,
    State.peek_eq (k := 0) (s := w.turn s) rfl (Nat.zero_add _) hd⟩

theorem Reading.current_eq {s : State} (h : w.Reading s) :
    s.current = w.token s.pos ∧ (w.turn s).current = w.token s.pos :=
  h.peek_eq (d := 0) h.pos

/-- A token that is no end stands before the end. -/
theorem lt_of_token {pos : Nat} (h : (w.token pos).kind ≠ .eof) : pos < w.front.length := by
  by_contra hle
  rw [token, List.getElem?_eq_none (Nat.le_of_not_lt hle)] at h
  exact h w.isEnd

/-! ### Rules -/

namespace Agree

theorem mono {P' Q' : Nat → Prop} (h : w.Agree P x x' Q) (hP : ∀ p, P' p → P p)
    (hQ : ∀ p, Q p → Q' p) : w.Agree P' x x' Q' := by
  intro s hs hP'
  obtain ⟨heq, hmarks, hstate, hend⟩ := h s hs (hP _ hP')
  refine ⟨heq, hmarks, hstate, ?_⟩
  revert hend
  cases (x s).result with
  | ok a => exact hQ _
  | error e => exact id

theorem upto {m : Nat} (h : w.Agree P x x' (w.Below m)) (hm : m ≤ n) : w.Agree P x x' (w.Below n) :=
  h.mono (fun _ hp => hp) fun _ hp => Nat.lt_of_lt_of_le hp hm

theorem none : w.Agree (w.Below 0) x x' Q := fun _ _ hs => absurd hs (Nat.not_lt_zero _)

theorem pure {a : α} : w.Agree P (Pure.pure a) (Pure.pure a) P :=
  fun _ hs hP => ⟨rfl, List.forall_mem_nil _, hs, hP⟩

theorem fail {e : CompileError} (he : ¬ Spent e) :
    w.Agree P (Stage.fail e : Parser α) (Stage.fail e) Q :=
  fun _ hs _ => ⟨rfl, List.forall_mem_nil _, hs, he⟩

theorem mark {e : Event} : w.Agree P (Stage.mark e) (Stage.mark e) P :=
  fun _ hs hP => ⟨rfl, by simpa [Stage.mark] using hs, hs, hP⟩

theorem modify {g : State → State}
    (hg : ∀ s, (g s).tokens = s.tokens ∧ (g s).pos = s.pos ∧ g (w.turn s) = w.turn (g s)) :
    w.Agree P (Stage.modify g) (Stage.modify g) P := by
  intro s hs hP
  obtain ⟨htokens, hpos, hturn⟩ := hg s
  refine ⟨by simp [Stage.modify, hturn], List.forall_mem_nil _, ⟨htokens.trans hs.tokens, ?_⟩, ?_⟩
  · exact hpos ▸ hs.pos
  · exact (congrArg P hpos).mpr hP

theorem bind (hx : w.Agree P x x' R) (hf : ∀ {a}, w.Agree R (f a) (f' a) Q) :
    w.Agree P (x >>= f) (x' >>= f') Q := by
  intro s hs hP
  obtain ⟨heq, h⟩ := hx s hs hP
  simp only [Bind.bind, Stage.bind, heq]
  clear heq
  generalize x s = run at h ⊢
  obtain ⟨marks, e | a, t⟩ := run
  · exact ⟨rfl, h⟩
  · obtain ⟨heq, hmarks, hend⟩ := @hf a t h.2.1 h.2.2
    refine ⟨by simp [heq], fun p hp => ?_, hend⟩
    exact (List.mem_append.mp hp).elim (h.1 p) (hmarks p)

theorem get {g g' : State → Parser β}
    (h : ∀ {s}, w.Reading s → P s.pos → w.Agree P (g s) (g' (w.turn s)) Q) :
    w.Agree P (Stage.get >>= g) (Stage.get >>= g') Q :=
  fun s hs hP => h hs hP s hs hP

theorem ite {c : Prop} [Decidable c] {y y' : Parser α} (hx : w.Agree P x x' Q)
    (hy : w.Agree P y y' Q) : w.Agree P (if c then x else y) (if c then x' else y') Q := by
  split
  · exact hx
  · exact hy

/-- Two ways to a value, and one way on from it. -/
theorem ite_bind {c : Prop} [Decidable c] {y y' : Parser α} (hx : w.Agree P x x' R)
    (hy : w.Agree P y y' R) (hf : ∀ {a}, w.Agree R (f a) (f' a) Q) :
    w.Agree P (if c then x >>= f else y >>= f) (if c then x' >>= f' else y' >>= f') Q :=
  ite (bind hx hf) (bind hy hf)

/-- The current token is known further on. -/
theorem current {g g' : Token → Parser β}
    (h : ∀ {t}, w.Agree (fun p => P p ∧ w.token p = t) (g t) (g' t) Q) :
    w.Agree P (Parsing.current >>= g) (Parsing.current >>= g') Q := by
  intro s hs hP
  obtain ⟨hcurrent, hturn⟩ := hs.current_eq
  simp only [Bind.bind, Stage.bind, Parsing.current, Stage.get, hcurrent, hturn]
  exact h s hs ⟨hP, rfl⟩

theorem exactly (h : ∀ {j}, j < n → w.Agree (fun p => w.front.length - p = j) x x' Q) :
    w.Agree (w.Below n) x x' Q :=
  fun s hs hP => h hP s hs rfl

end Agree

/-- In both runs more tokens remain than stand before the end. -/
theorem Reading.lt_remaining {s : State} (h : w.Reading s) :
    w.front.length - s.pos < s.remaining ∧ w.front.length - s.pos < (w.turn s).remaining := by
  have := h.pos
  simp only [State.remaining, h.tokens, turn, List.length_append, List.length_cons]
  omega

theorem Agree.remaining {g g' : Nat → Parser β}
    (h : ∀ {j k k'}, j < n → j < k → j < k' → w.Agree (w.Below (j + 1)) (g k) (g' k') Q) :
    w.Agree (w.Below n) (Parsing.remaining >>= g) (Parsing.remaining >>= g') Q := by
  refine .exactly fun hj => .get fun hs hleft => ?_
  have hk := hs.lt_remaining
  rw [hleft] at hk
  exact (h hj hk.1 hk.2).mono (fun p hp => Nat.lt_succ_of_le (Nat.le_of_eq hp)) fun _ h => h

theorem Takes.none : w.Takes 0 x x' := fun _ hn => absurd hn (Nat.not_lt_zero _)

theorem Takes.keeps (h : w.Takes b x x') (hn : n ≤ b) : w.Keeps n x x' := by
  cases n with
  | zero => exact .none
  | succ n => exact (h hn).upto (Nat.le_succ n)

/-! ### Steps of a reading -/

section Steps

variable {span : Span} {kind : TokenKind}

theorem agree_current : w.Agree P current current P :=
  .current <| .mono .pure (fun _ h => h) fun _ h => h.1

theorem agree_unexpected {wanted : Wanted} :
    w.Agree P (unexpected wanted : Parser α) (unexpected wanted) Q :=
  .bind agree_current (.fail id)

theorem agree_advance (h : ∀ p, P p → ((w.token p).kind = .eof → Q p) ∧
    ((w.token p).kind ≠ .eof → p < w.front.length → Q (p + 1))) : w.Agree P advance advance Q := by
  refine .current <| .bind (R := Q) ?_ .pure
  intro s hs hP
  obtain ⟨hcurrent, hturn⟩ := hs.current_eq
  refine ⟨?_, List.forall_mem_nil _, ⟨hs.tokens, ?_⟩, ?_⟩
  · simp only [Stage.modify, State.advance, hcurrent, hturn]
    rfl
  all_goals
    simp only [Stage.modify, State.advance, hcurrent]
    split
  · exact hs.pos
  · next hne => exact lt_of_token hne
  · next heq => exact (h _ hP.1).1 heq
  · next hne => exact (h _ hP.1).2 hne (lt_of_token hne)

theorem keeps_advance : w.Keeps n advance advance :=
  agree_advance fun p hp => ⟨fun _ => hp, fun _ _ => Nat.lt_of_le_of_lt (by omega) hp⟩

/-- To take a token that is no end is to come nearer to the end. -/
theorem takes_advance {t : Token} (ht : t.kind ≠ .eof) :
    w.Agree (fun p => w.Below (n + 1) p ∧ w.token p = t) advance advance (w.Below n) := by
  refine agree_advance fun p hp => ⟨fun heof => absurd (hp.2 ▸ heof) ht, fun _ hlt => ?_⟩
  have := hp.1
  unfold Below at this ⊢
  omega

theorem takes_expect (hk : kind ≠ .eof) :
    w.Agree (w.Below (n + 1)) (expect kind) (expect kind) (w.Below n) := by
  refine .current ?_
  intro t
  split
  · next h => exact takes_advance (h ▸ hk)
  · exact agree_unexpected

theorem keeps_expect : w.Keeps n (expect kind) (expect kind) :=
  .bind agree_current <| .ite keeps_advance agree_unexpected

theorem keeps_accept : w.Keeps n (accept kind) (accept kind) :=
  .bind agree_current <| .ite (.bind keeps_advance .pure) .pure

theorem keeps_typeName : w.Keeps n typeName typeName := by
  refine .bind keeps_advance ?_
  intro t
  split
  · exact .pure
  · exact .fail id

theorem agree_finish (node : Tag → Node) (value : Tag → α) :
    w.Agree P (nextTag span >>= fun tag => addNode (node tag) >>= fun _ => pure (value tag))
      (nextTag span >>= fun tag => addNode (node tag) >>= fun _ => pure (value tag)) P :=
  .bind (.get fun _ _ => .pure) <| .bind (.bind (.modify fun _ => ⟨rfl, rfl, rfl⟩) .mark) .pure

theorem agree_finishExpr {build : Tag → Expr} :
    w.Agree P (finishExpr span build) (finishExpr span build) P := agree_finish _ _

theorem agree_finishStmt {build : Tag → Stmt} :
    w.Agree P (finishStmt span build) (finishStmt span build) P := agree_finish _ _

end Steps

/-! ### Expressions -/

section Expressions

variable {operand operand' : Parser Expr}

theorem keeps_chain (h : w.Takes b operand operand') (ops : Level) :
    ∀ {k k' n : Nat} {lhs : Expr}, n ≤ k → n ≤ k' → n ≤ b →
      w.Keeps n (chain ops operand k lhs) (chain ops operand' k' lhs)
  | _, _, 0, _, _, _, _ => .none
  | k + 1, k' + 1, n + 1, lhs, hk, hk', hb => by
    refine .bind agree_current ?_
    intro token
    split
    · exact .pure
    · exact .bind keeps_advance <| .bind .mark <| .bind (h hb) <| .bind agree_finishExpr <|
        (keeps_chain h ops (by omega) (by omega) (by omega)).upto (Nat.le_succ n)

theorem takes_ladder (h : w.Takes b operand operand') :
    ∀ levels : List Level, w.Takes b (ladder operand levels) (ladder operand' levels)
  | [] => h
  | ops :: tighter => fun _ hn => .bind (takes_ladder h tighter hn) <| .remaining fun hj hk hk' =>
    (keeps_chain (takes_ladder h tighter) ops hk hk' (Nat.lt_trans hj hn)).upto hj

theorem takes_primary (h : w.Takes b operand operand') :
    w.Takes (b + 1) (primary operand) (primary operand') := by
  refine fun n hn => .current ?_
  intro token
  split
  · exact .bind .mark <| .bind (takes_advance (by simp [*])) agree_finishExpr
  · exact .bind .mark <| .bind (takes_advance (by simp [*])) agree_finishExpr
  · exact .bind .mark <| .bind (takes_advance (by simp [*])) <| .get fun _ _ =>
      .ite agree_finishExpr (.fail id)
  · exact .bind (takes_advance (by simp [*])) <| .bind (h.keeps (Nat.le_of_lt_succ hn)) <|
      .bind keeps_expect .pure
  · exact agree_unexpected

theorem takes_unary : ∀ {k k' b : Nat}, b ≤ k → b ≤ k' → w.Takes b (unary k) (unary k')
  | _, _, 0, _, _ => .none
  | k + 1, k' + 1, b + 1, hk, hk' => by
    have ih : w.Takes b (unary k) (unary k') := takes_unary (by omega) (by omega)
    refine fun n hn => .current ?_
    intro token
    split
    · next op hop =>
      refine .bind (takes_advance fun heof => ?_) <| .bind .mark <|
        .bind (ih.keeps (Nat.le_of_lt_succ hn)) agree_finishExpr
      rw [heof] at hop
      cases hop
    · exact (takes_primary (takes_ladder ih levels) hn).mono (fun _ h => h.1) fun _ h => h

theorem takes_expression : w.Agree (w.Below (n + 1)) expression expression (w.Below n) :=
  .remaining fun {j _ _} hj hk hk' =>
    (takes_ladder (takes_unary (Nat.le_succ_of_le hk) (Nat.le_succ_of_le hk')) levels
      (Nat.lt_succ_self j)).upto (Nat.le_of_lt_succ hj)

theorem keeps_expression : w.Keeps n expression expression :=
  Takes.keeps (fun _ _ => takes_expression) (Nat.le_refl _)

end Expressions

/-! ### Statements -/

section Statements

variable {name : String} {span : Span} {reader reader' : Parser Stmt}
  {body body' : List String → Parser Stmt}

theorem agree_declareVariable :
    w.Agree P (declareVariable name span) (declareVariable name span) P :=
  .get fun _ _ => .ite (.fail id) (.modify fun _ => ⟨rfl, rfl, rfl⟩)

theorem agree_declareProcedure :
    w.Agree P (declareProcedure name span) (declareProcedure name span) P :=
  .get fun _ _ => .ite (.fail id) (.modify fun _ => ⟨rfl, rfl, rfl⟩)

theorem keeps_statements (h : w.Takes b reader reader') : ∀ {k k' n : Nat}, n ≤ k → n ≤ k' → n ≤ b →
    w.Keeps n (statements reader k) (statements reader' k')
  | _, _, 0, _, _, _ => .none
  | _ + 1, _ + 1, n + 1, hk, hk', hb => .bind agree_current <| .ite .pure <| .bind (h hb) <|
    .bind ((keeps_statements h (by omega) (by omega) (by omega)).upto (Nat.le_succ n)) .pure

theorem takes_block (h : w.Takes b reader reader') (declared : List String) :
    w.Takes (b + 1) (block reader declared) (block reader' declared) :=
  fun _ hn => .bind agree_current <| .bind .mark <| .bind (takes_expect (by decide)) <|
    .bind (.modify fun _ => ⟨rfl, rfl, rfl⟩) <| .remaining fun hj hk hk' =>
    .bind ((keeps_statements h hk hk' (by omega)).upto hj) <| .bind keeps_expect <|
    .bind (.modify fun _ => ⟨rfl, rfl, rfl⟩) agree_finishStmt

theorem keeps_condition : w.Keeps n condition condition :=
  .bind keeps_expect <| .bind keeps_expression <| .bind keeps_expect .pure

theorem takes_branch (h : w.Takes b reader reader') :
    ∀ {k k' c : Nat}, c ≤ k → c ≤ k' → c ≤ b + 1 → w.Takes c (branch reader k) (branch reader' k')
  | _, _, 0, _, _, _ => .none
  | k + 1, k' + 1, c + 1, hk, hk', hb => by
    have ih : w.Takes c (branch reader k) (branch reader' k') :=
      takes_branch h (by omega) (by omega) (by omega)
    refine fun n hn => .bind agree_current <| .bind .mark <| .bind (takes_expect (by decide)) <|
      .bind keeps_condition <| .bind (h.keeps (by omega)) <| .bind keeps_accept <|
      .ite (.bind agree_current ?_) agree_finishStmt
    intro token
    split
    · exact .bind (ih.keeps (by omega)) agree_finishStmt
    · exact .bind (h.keeps (by omega)) agree_finishStmt
    · exact .bind agree_unexpected agree_finishStmt

theorem takes_loop (h : w.Takes b reader reader') : w.Takes (b + 1) (loop reader) (loop reader') :=
  fun _ hn => .bind agree_current <| .bind .mark <| .bind (takes_expect (by decide)) <|
    .bind keeps_condition <| .bind (h.keeps (by omega)) agree_finishStmt

theorem keeps_parameters : ∀ {k k' n : Nat} {earlier : List Parameter}, n ≤ k → n ≤ k' →
    w.Keeps n (parameters k earlier) (parameters k' earlier)
  | _, _, 0, _, _, _ => .none
  | _ + 1, _ + 1, n + 1, _, hk, hk' =>
    .bind keeps_typeName <| .bind (takes_expect (by decide)) <| .ite (.fail id) <| .ite (.fail id) <|
      .bind keeps_accept <|
      .upto (.ite (keeps_parameters (by omega) (by omega)) .pure) (Nat.le_succ n)

theorem keeps_parameterList : w.Keeps n parameterList parameterList :=
  .bind agree_current <| .remaining fun hj hk hk' => .upto (.ite_bind .pure
    (keeps_parameters (by omega) (by omega)) <| .bind keeps_expect .pure) hj

theorem takes_procedure (h : ∀ params, w.Takes b (body params) (body' params)) :
    w.Takes (b + 1) (procedure body) (procedure body') :=
  fun _ hn => .bind agree_current <| .bind .mark <| .bind keeps_accept <| .bind keeps_typeName <|
    .bind (takes_expect (by decide)) <| .bind keeps_expect <| .bind keeps_parameterList <|
    .bind agree_declareProcedure <| .ite (.bind keeps_expect agree_finishStmt) <|
    .bind ((h _).keeps (by omega)) agree_finishStmt

theorem takes_declaration : w.Agree (w.Below (n + 1)) declaration declaration (w.Below n) :=
  .bind agree_current <| .bind .mark <| .bind keeps_typeName <| .bind (takes_expect (by decide)) <|
    .ite (.fail id) <| .bind keeps_accept <| .ite_bind (.bind keeps_expression .pure) .pure <|
    .bind keeps_expect <| .bind agree_declareVariable agree_finishStmt

theorem takes_assignment : w.Agree (w.Below (n + 1)) assignment assignment (w.Below n) :=
  .bind agree_current <| .bind .mark <| .bind (takes_expect (by decide)) <| .get fun _ _ => .ite
    (.bind keeps_expect <| .bind keeps_expression <| .bind keeps_expect agree_finishStmt) (.fail id)

theorem keeps_arguments : ∀ {k k' n : Nat}, n ≤ k → n ≤ k' →
    w.Keeps n (arguments k) (arguments k')
  | _, _, 0, _, _ => .none
  | _ + 1, _ + 1, n + 1, hk, hk' => .bind takes_expression <| .bind keeps_accept <|
    .upto (.ite (.bind (keeps_arguments (by omega) (by omega)) .pure) .pure) (Nat.le_succ n)

theorem keeps_argumentList : w.Keeps n argumentList argumentList :=
  .bind agree_current <| .remaining fun hj hk hk' => .upto (.ite_bind .pure
    (keeps_arguments (by omega) (by omega)) <| .bind keeps_expect .pure) hj

theorem takes_call : w.Agree (w.Below (n + 1)) call call (w.Below n) :=
  .bind agree_current <| .bind .mark <| .bind (takes_expect (by decide)) <| .get fun _ _ => .ite
    (.bind keeps_expect <| .bind keeps_argumentList <| .bind keeps_expect agree_finishStmt) (.fail id)

theorem takes_jump {inLoop : Bool} {kind : Jump} {build : Tag → Stmt} :
    w.Agree (w.Below (n + 1)) (jump inLoop kind build) (jump inLoop kind build) (w.Below n) :=
  .bind agree_current <| .bind .mark <| .bind keeps_advance <|
    .ite (.bind (takes_expect (by decide)) agree_finishStmt) (.fail id)

theorem takes_giveBack : w.Agree (w.Below (n + 1)) giveBack giveBack (w.Below n) :=
  .bind agree_current <| .bind .mark <| .bind (takes_expect (by decide)) <| .bind agree_current <|
    .ite_bind .pure (.bind keeps_expression .pure) <| .bind keeps_expect agree_finishStmt

theorem takes_statement : ∀ {k k' b : Nat} {inLoop : Bool}, b ≤ k → b ≤ k' →
    w.Takes b (statement inLoop k) (statement inLoop k')
  | _, _, 0, _, _, _ => .none
  | k + 1, k' + 1, b + 1, inLoop, hk, hk' => by
    have ih : ∀ inLoop, w.Takes b (statement inLoop k) (statement inLoop k') :=
      fun _ => takes_statement (by omega) (by omega)
    refine fun n hn => .exactly fun {j} hj => .get fun {s} hs hleft => ?_
    refine .mono (P := w.Below (j + 1)) (Q := w.Below j) ?_
      (fun p hp => Nat.lt_succ_of_le (Nat.le_of_eq hp))
      fun p hp => Nat.lt_of_lt_of_le hp (Nat.le_of_lt_succ hj)
    have hmore := hs.lt_remaining
    obtain ⟨hcurrent, hturn⟩ := hs.current_eq
    rw [hturn, ← hcurrent]
    split
    · exact takes_block (ih _) [] (by omega)
    · exact takes_loop (takes_block (ih _) []) (by omega)
    · exact takes_branch (takes_block (ih _) []) (c := j + 1) (by omega) (by omega) (by omega)
        (by omega)
    · exact takes_jump
    · exact takes_jump
    · exact takes_giveBack
    · exact takes_procedure (takes_block (ih _)) (by omega)
    · exact takes_declaration
    · next hk =>
      have hlt : s.pos < w.front.length := lt_of_token (by simp [← hcurrent, hk])
      rw [(hs.peek_eq hlt).1, (hs.peek_eq hlt).2]
      exact .ite takes_call takes_assignment
    · exact agree_unexpected

theorem takes_procedureBody (params : List String) :
    w.Takes b (procedureBody params) (procedureBody params) :=
  fun _ _ => .remaining fun {j _ _} hj hk hk' =>
    (takes_block (takes_statement (by omega) (by omega)) params (Nat.lt_succ_self j)).upto
      (by omega)

theorem keeps_procedures : ∀ {k k' n : Nat}, n ≤ k → n ≤ k' →
    w.Keeps n (procedures k) (procedures k')
  | _, _, 0, _, _ => .none
  | _ + 1, _ + 1, n + 1, hk, hk' => .bind agree_current <| .ite .pure <| .ite
    (.bind (takes_procedure takes_procedureBody (Nat.lt_succ_self n)) <|
      .bind ((keeps_procedures (by omega) (by omega)).upto (Nat.le_succ n)) .pure)
    agree_unexpected

theorem keeps_program : w.Keeps n program program :=
  .bind agree_current <| .bind .mark <| .bind (.modify fun _ => ⟨rfl, rfl, rfl⟩) <|
    .remaining fun hj hk hk' => .bind ((keeps_procedures hk hk').upto hj) <|
    .bind (.modify fun _ => ⟨rfl, rfl, rfl⟩) <| .bind agree_finishStmt <| .get fun _ _ => .pure

end Statements

end Fork

/-- A reading ends with a tree or an error, and the reason is never that one of its bounds is reached.
It ends at the first end of its tokens or before it: no state of it is further on, each token it looks
at is there, and the tree or the error is the same whatever stands behind that end. -/
theorem parse_until_end (tokens : List Token) :
    (∀ e, parse tokens = .error e → ¬ Spent e) ∧ ∃ stop back, stop.kind = .eof ∧
      State.closed tokens = tokens.takeWhile (·.kind != .eof) ++ stop :: back ∧
      (∀ s ∈ (program (.ofTokens tokens)).state ::
          (program (.ofTokens tokens)).marks.map Prod.snd,
        s.tokens = State.closed tokens ∧ s.pos ≤ (tokens.takeWhile (·.kind != .eof)).length ∧
        ∀ d, s.tokens[min (s.pos + d) (s.tokens.length - 1)]? = some (s.peek d)) ∧
      ∀ other, parse (tokens.takeWhile (·.kind != .eof) ++ stop :: other) = parse tokens := by
  obtain ⟨stop, back, hstop, hclosed⟩ := State.closed_eq tokens
  generalize tokens.takeWhile (·.kind != .eof) = front at hclosed ⊢
  have hrun other := (Fork.mk front stop back other hstop).keeps_program (.ofTokens tokens)
    ⟨hclosed, Nat.zero_le _⟩ (Nat.lt_succ_self _)
  refine ⟨fun e he => ?_, stop, back, hstop, hclosed, fun s hs => ?_, fun other => ?_⟩
  · have hend := (hrun []).2.2.2
    rwa [show (program (.ofTokens tokens)).result = .error e from he] at hend
  · obtain ⟨-, hmarks, hstate, -⟩ := hrun []
    have h : (Fork.mk front stop back [] hstop).Reading s := by
      obtain rfl | hs := List.mem_cons.mp hs
      · exact hstate
      · obtain ⟨p, hp, rfl⟩ := List.mem_map.mp hs
        exact hmarks p hp
    have hlen : 0 < s.tokens.length := List.length_pos_iff.mpr (by simp [h.tokens])
    refine ⟨h.tokens.trans hclosed.symm, h.pos, fun d => ?_⟩
    rw [State.peek, List.getElem?_eq_getElem (by omega), Option.getD_some]
  · obtain ⟨more, hmore⟩ := State.exists_closed (front ++ stop :: other)
    have hturn : (Fork.mk front stop back (other ++ more) hstop).turn (.ofTokens tokens) =
        .ofTokens (front ++ stop :: other) := by
      simp [Fork.turn, State.ofTokens, hmore]
    rw [parse, ← hturn, (hrun _).1]
    rfl

end ProcLang.Parsing
