import ProcLang.Proofs.Generation.Nodes
import ProcLang.Proofs.Generation.State

/-!
Notes on expressions.  Code generation puts down a handle and a type of each expression it comes to.  A
run that succeeds leaves notes; the handles of the notes were given out in the run, each for one note, and
parameters are bound to others.  `Writes` says this of a run along with what its notes are, and it is
closed under the ways in which code generation is put together.
-/

namespace ProcLang

/-- A variable in scope is a parameter that comes in a register, under the handle. -/
def ScopeStack.Binds (scopes : ScopeStack) (l : Location) : Prop :=
  ∃ scope ∈ scopes, ∃ name v, scope.vars.get? name = some v ∧ v.storage = .register l

namespace ScopeStack

variable {scope scope' : Scope} {outer : ScopeStack} {l : Location} {v : Variable}

theorem binds_cons : Binds (scope :: outer) l ↔
    (∃ name v, scope.vars.get? name = some v ∧ v.storage = .register l) ∨ Binds outer l := by
  simp [Binds]

theorem Binds.of_cons (h : Binds (scope :: outer) l) (hvars : scope.vars = scope'.vars) :
    Binds (scope' :: outer) l := by
  rw [binds_cons] at h ⊢
  rwa [← hvars]

theorem Binds.of_declare (h : Binds (scope.declare v :: outer) l) :
    v.storage = .register l ∨ Binds (scope :: outer) l := by
  rcases binds_cons.mp h with ⟨name, v', hv', hl⟩ | h
  · by_cases hname : name = v.name
    · rw [hname, Scope.declare, Table.get?_insert_self] at hv'
      obtain rfl := Option.some.inj hv'
      exact .inl hl
    · rw [Scope.declare, Table.get?_insert_of_ne _ _ hname] at hv'
      exact .inr (binds_cons.mpr (.inl ⟨name, v', hv', hl⟩))
  · exact .inr (binds_cons.mpr (.inr h))

theorem Binds.of_drop {scopes : ScopeStack} (h : Binds (scopes.drop 1) l) : Binds scopes l := by
  obtain ⟨scope, hscope, h⟩ := h
  exact ⟨scope, List.mem_of_mem_drop hscope, h⟩

end ScopeStack

namespace Generation

/-! ### Notes -/

/-- What is put down of an expression: the number of its node, its handle and its type. -/
abbrev Note := NodeId × Annotation

/-- Put down notes, one after another. -/
def noteAll (table : Table NodeId Annotation) (notes : List Note) : Table NodeId Annotation :=
  notes.foldl (fun table note => table.insert note.1 note.2) table

theorem noteAll_append {table : Table NodeId Annotation} {notes notes' : List Note} :
    noteAll table (notes ++ notes') = noteAll (noteAll table notes) notes' :=
  List.foldl_append

/-- Of notes on different nodes each is found. -/
theorem get?_noteAll {notes : List Note} {table : Table NodeId Annotation} {id : NodeId} {a : Annotation}
    (h : (notes.map (·.1)).Nodup) : (noteAll table notes).get? id = some a ↔
      (id, a) ∈ notes ∨ id ∉ notes.map (·.1) ∧ table.get? id = some a := by
  induction notes generalizing table with
  | nil => simp [noteAll]
  | cons note notes ih =>
    obtain ⟨key, b⟩ := note
    obtain ⟨hkey, hnodup⟩ := List.nodup_cons.mp h
    change (noteAll (table.insert key b) notes).get? id = some a ↔ _
    rw [ih hnodup]
    by_cases heq : id = key
    · subst heq
      have hnot : (id, a) ∉ notes := fun hmem => hkey (List.mem_map.mpr ⟨_, hmem, rfl⟩)
      rw [Table.get?_insert_self]
      simp [hnot, hkey, eq_comm]
    · rw [Table.get?_insert_of_ne _ _ heq]
      simp [heq]

/-- The handle was given out between two states. -/
def Issued (s s' : State) (l : Location) : Prop :=
  s.nextLocation ≤ l.number ∧ l.number < s'.nextLocation

/-- A run from one state to another with some marks has left notes: their handles and those of the
parameters it has bound were given out in the run, each for one purpose. -/
structure Records (s : State) (marks : List (Mark × State)) (s' : State) (notes : List Note) : Prop where
  annotations : s'.annotations = noteAll s.annotations notes
  locations : s.nextLocation ≤ s'.nextLocation
  issued : ∀ note ∈ notes, Issued s s' note.2.location
  nodup : (notes.map (·.2.location)).Nodup
  bound : ∀ t, t = s' ∨ (∃ m, (m, t) ∈ marks) → ∀ l, t.scopes.Binds l →
    s.scopes.Binds l ∨ Issued s s' l ∧ l ∉ notes.map (·.2.location)

namespace Records

variable {s t u : State} {marks marks' : List (Mark × State)} {notes notes' : List Note} {l : Location}

/-- A run that changes no scope and leaves no note. -/
theorem quiet (h : s.Quiet t) (hmarks : ∀ m t, (m, t) ∈ marks → s.Quiet t) : Records s marks t [] where
  annotations := h.annotations
  locations := h.locations
  issued := fun _ hmem => absurd hmem List.not_mem_nil
  nodup := .nil
  bound := by
    rintro u (rfl | ⟨m, hm⟩) l hl
    · exact .inl (h.scopes ▸ hl)
    · exact .inl ((hmarks m u hm).scopes ▸ hl)

theorem mem_issued (h : Records s marks t notes) (hl : l ∈ notes.map (·.2.location)) : Issued s t l := by
  obtain ⟨note, hnote, rfl⟩ := List.mem_map.mp hl
  exact h.issued note hnote

theorem trans (h : Records s marks t notes) (h' : Records t marks' u notes') :
    Records s (marks ++ marks') u (notes ++ notes') := by
  -- handles given out in the first part are smaller than those given out in the second
  have hfirst : ∀ {l}, Issued s t l → Issued s u l := fun hl =>
    ⟨hl.1, Nat.lt_of_lt_of_le hl.2 h'.locations⟩
  have hsecond : ∀ {l}, Issued t u l → Issued s u l := fun hl =>
    ⟨Nat.le_trans h.locations hl.1, hl.2⟩
  have hapart : ∀ {l}, Issued s t l → ¬ Issued t u l := fun hl hl' =>
    Nat.lt_irrefl _ (Nat.lt_of_lt_of_le hl.2 hl'.1)
  have hmem : ∀ {l}, l ∈ (notes ++ notes').map (·.2.location) ↔
      l ∈ notes.map (·.2.location) ∨ l ∈ notes'.map (·.2.location) := by
    intro l
    rw [List.map_append, List.mem_append]
  have hbound : ∀ {l}, s.scopes.Binds l ∨ Issued s t l ∧ l ∉ notes.map (·.2.location) →
      s.scopes.Binds l ∨ Issued s u l ∧ l ∉ (notes ++ notes').map (·.2.location) := by
    rintro l (hl | ⟨hl, hnot⟩)
    · exact .inl hl
    · refine .inr ⟨hfirst hl, fun hin => ?_⟩
      exact (hmem.mp hin).elim hnot fun hin => hapart hl (h'.mem_issued hin)
  refine ⟨?_, Nat.le_trans h.locations h'.locations, ?_, ?_, ?_⟩
  · rw [h'.annotations, h.annotations, noteAll_append]
  · intro note hnote
    rcases List.mem_append.mp hnote with hnote | hnote
    · exact hfirst (h.issued note hnote)
    · exact hsecond (h'.issued note hnote)
  · rw [List.map_append]
    refine List.nodup_append.mpr ⟨h.nodup, h'.nodup, ?_⟩
    rintro l hl _ hl' rfl
    exact hapart (h.mem_issued hl) (h'.mem_issued hl')
  · intro v hv l hl
    have hcase : (v = u ∨ ∃ m, (m, v) ∈ marks') ∨ ∃ m, (m, v) ∈ marks := by
      rcases hv with hv | ⟨m, hm⟩
      · exact .inl (.inl hv)
      · rcases List.mem_append.mp hm with hm | hm
        · exact .inr ⟨m, hm⟩
        · exact .inl (.inr ⟨m, hm⟩)
    rcases hcase with hv | hv
    · rcases h'.bound v hv l hl with hl | ⟨hl, hnot⟩
      · exact hbound (h.bound t (.inl rfl) l hl)
      · refine .inr ⟨hsecond hl, fun hin => ?_⟩
        exact (hmem.mp hin).elim (fun hin => hapart (h.mem_issued hin) hl) hnot
    · exact hbound (h.bound v (.inr hv) l hl)

/-- A run behind a new handle, under which a note is left in the end. -/
theorem noted (h : Records s.issue marks t notes) (id : NodeId) (type : DataType) :
    Records s marks { t with annotations := t.annotations.insert id ⟨⟨s.nextLocation⟩, type⟩ }
      (notes ++ [(id, ⟨⟨s.nextLocation⟩, type⟩)]) := by
  have hnext : s.nextLocation < t.nextLocation := h.locations
  have hlater : ∀ {l}, Issued s.issue t l → Issued s t l := fun hl => ⟨Nat.le_of_succ_le hl.1, hl.2⟩
  have hnew : ∀ {l}, Issued s.issue t l → l ≠ ⟨s.nextLocation⟩ := by
    rintro l hl rfl
    exact Nat.not_succ_le_self _ hl.1
  refine ⟨?_, Nat.le_of_lt hnext, ?_, ?_, ?_⟩
  · rw [noteAll_append, ← show t.annotations = noteAll s.annotations notes from h.annotations]
    rfl
  · intro note hnote
    rcases List.mem_append.mp hnote with hnote | hnote
    · exact hlater (h.issued note hnote)
    · rw [List.mem_singleton.mp hnote]
      exact ⟨Nat.le_refl _, hnext⟩
  · rw [List.map_append]
    refine List.nodup_append.mpr ⟨h.nodup, List.nodup_singleton _, ?_⟩
    rintro l hl _ hl' rfl
    exact hnew (h.mem_issued hl) (List.mem_singleton.mp hl')
  · intro v hv l hl
    have hbound : s.scopes.Binds l ∨ Issued s.issue t l ∧ l ∉ notes.map (·.2.location) := by
      rcases hv with rfl | hv
      · exact h.bound t (.inl rfl) l hl
      · exact h.bound v (.inr hv) l hl
    rcases hbound with hl | ⟨hl, hnot⟩
    · exact .inl hl
    · refine .inr ⟨hlater hl, fun hin => ?_⟩
      rw [List.map_append] at hin
      exact (List.mem_append.mp hin).elim hnot fun hin => hnew hl (List.mem_singleton.mp hin)

end Records

/-! ### Runs that leave notes -/

/-- If a run from a good state has succeeded, it has left notes, and `Q` holds of them, of the value and
of the last state. -/
def Wrote {α : Type} (s : State) (run : Outcome Mark State α) (Q : List Note → α → State → Prop) :
    Prop :=
  s.Good False → ∀ a, run.result = .ok a → ∃ notes, Records s run.marks run.state notes ∧
    run.state.Good False ∧ Q notes a run.state

/-- A part of code generation leaves notes as `Q` says, whenever it succeeds. -/
def Writes {α : Type} (x : Gen α) (s : State) (Q : List Note → α → State → Prop) : Prop :=
  Wrote s (x s) Q

namespace Writes

variable {α β : Type} {x : Gen α} {f : α → Gen β} {s : State} {V : α → Prop}
  {W : α → β → Prop} {raws : List String}

theorem mono {Q Q' : List Note → α → State → Prop} (h : Writes x s Q)
    (hQ : ∀ notes a s', Q notes a s' → Q' notes a s') : Writes x s Q' := by
  intro hs a ha
  obtain ⟨notes, hrecords, hgood, hq⟩ := h hs a ha
  exact ⟨notes, hrecords, hgood, hQ _ _ _ hq⟩

theorem pure {a : α} {Q : List Note → α → State → Prop} (h : Q [] a s) :
    Writes (Pure.pure a) s Q := by
  intro hs b hb
  obtain rfl := Except.ok.inj hb
  exact ⟨[], .quiet (.refl s) fun _ _ hm => absurd hm List.not_mem_nil, hs, h⟩

theorem fail {e : CompileError} {Q : List Note → α → State → Prop} : Writes (Stage.fail e) s Q :=
  fun _ _ ha => by cases ha

theorem get {Q : List Note → State → State → Prop} (h : Q [] s s) : Writes Stage.get s Q := by
  intro hs b hb
  obtain rfl := Except.ok.inj hb
  exact ⟨[], .quiet (.refl s) fun _ _ hm => absurd hm List.not_mem_nil, hs, h⟩

theorem mark {m : Mark} {Q : List Note → Unit → State → Prop} (h : Q [] () s) :
    Writes (Stage.mark m) s Q := by
  intro hs b hb
  refine ⟨[], .quiet (.refl s) fun m' t hm => ?_, hs, h⟩
  obtain ⟨-, rfl⟩ := Prod.mk.inj (List.mem_singleton.mp hm)
  exact .refl t

/-- A change that does not touch the registers and binds no parameter. -/
theorem modify {g : State → State} {Q : List Note → Unit → State → Prop}
    (hregisters : (g s).registers = s.registers) (hannotations : (g s).annotations = s.annotations)
    (hlocations : (g s).nextLocation = s.nextLocation)
    (hscopes : ∀ l, (g s).scopes.Binds l → s.scopes.Binds l) (h : Q [] () (g s)) :
    Writes (Stage.modify g) s Q := by
  intro hs b _
  refine ⟨[], ⟨hannotations, Nat.le_of_eq hlocations.symm, ?_, .nil, ?_⟩, ?_, h⟩
  · exact fun _ hmem => absurd hmem List.not_mem_nil
  · rintro t (rfl | ⟨_, hm⟩) l hl
    · exact .inl (hscopes l hl)
    · exact absurd hm List.not_mem_nil
  · exact good_of_lawful (hregisters ▸ hs.lawful)

theorem bind {Q : List Note → β → State → Prop}
    (h : Writes x s fun notes a s' => Writes (f a) s' fun notes' b s'' => Q (notes ++ notes') b s'') :
    Writes (x >>= f) s Q := by
  change Wrote s (Stage.bind x f s) Q
  unfold Writes at h
  unfold Stage.bind
  generalize x s = run at h ⊢
  rcases run with ⟨marks, e | a, s'⟩
  · exact fun _ _ hb => by cases hb
  · intro hs b hb
    obtain ⟨notes, hrecords, hgood, hf⟩ := h hs a rfl
    obtain ⟨notes', hrecords', hgood', hq⟩ := hf hgood b hb
    exact ⟨notes ++ notes', hrecords.trans hrecords', hgood', hq⟩

/-- A quiet step. -/
theorem quiet {Q : List Note → α → State → Prop} (hx : Step False True raws V x)
    (hQ : ∀ a s', V a → s.Quiet s' → Q [] a s') : Writes x s Q := by
  intro hs a ha
  obtain ⟨hv, hgood, -, hquiet⟩ := (hx.gives s hs).value ha
  refine ⟨[], .quiet (hquiet trivial) fun m t hm => ?_, hgood, hQ _ _ hv (hquiet trivial)⟩
  exact ((hx.gives s hs).marks hm).2.2 trivial

/-- What comes behind a quiet step. -/
theorem after {Q : List Note → β → State → Prop} (hx : Step False True raws V x)
    (hf : ∀ a s', V a → s.Quiet s' → Writes (f a) s' Q) : Writes (x >>= f) s Q :=
  .bind (.quiet hx hf)

/-- Quiet steps behind a run that leaves notes. -/
theorem before {Q : List Note → α → State → Prop} {Q' : List Note → β → State → Prop}
    (h : Writes x s Q) (hf : ∀ a, Step False True raws (W a) (f a))
    (hQ : ∀ notes a s' b s'', Q notes a s' → W a b → s'.Quiet s'' → Q' notes b s'') :
    Writes (x >>= f) s Q' := by
  refine .bind (h.mono fun notes a s' hq => .quiet (hf a) fun b s'' hb hquiet => ?_)
  rw [List.append_nil]
  exact hQ notes a s' b s'' hq hb hquiet

/-- Quiet steps in the end, whose value does not matter. -/
theorem closing {Q : List Note → α → State → Prop} {Q' : List Note → State → Prop} (h : Writes x s Q)
    (hf : ∀ a, Plain False True (f a))
    (hQ : ∀ notes a s' s'', Q notes a s' → s'.Quiet s'' → Q' notes s'') :
    Writes (x >>= f) s fun notes _ s' => Q' notes s' :=
  before h hf fun notes a s' _ s'' hq _ hquiet => hQ notes a s' s'' hq hquiet

end Writes

end Generation

end ProcLang
