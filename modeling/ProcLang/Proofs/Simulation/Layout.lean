import ProcLang.Proofs.Generation.Program

/-!
Where the variables of a scope live.

The declarations of a block get bytes one below the other, so their slots do not overlap and fit into
the bytes that the frame reserves.  `Laid` says this of the variables that a scope has, and `Room` of the
declarations that are still to come.  `Seated` is what holds of the scopes around a statement: each has
a frame within the one around it, down to the scope of the program.
-/

namespace ProcLang

open Generation

/-! ### Slots of declarations -/

/-- Declarations have slots in a layout, below some bytes that are in use and above others, each below
the ones in front of it. -/
structure Stacked (layout : Table NodeId Int) (used used' : Nat) (decls : List (NodeId × DataType)) :
    Prop where
  inside : ∀ {id type}, (id, type) ∈ decls →
    ∃ offset, layout.get? id = some offset ∧ -(used' : Int) ≤ offset ∧ offset + type.size ≤ -(used : Int)
  below : decls.Pairwise fun a b => ∀ {x y}, layout.get? a.1 = some x → layout.get? b.1 = some y →
    y + b.2.size ≤ x

theorem get?_layOutFrom_of_not_mem {id : NodeId} : ∀ {decls : List (NodeId × DataType)} {used : Nat}
    {layout : Table NodeId Int}, id ∉ decls.map Prod.fst →
      (layOutFrom used layout decls).2.get? id = layout.get? id
  | [], _, _, _ => rfl
  | (id', type) :: rest, used, layout, h => by
    rw [List.map_cons, List.mem_cons, not_or] at h
    rw [layOutFrom, get?_layOutFrom_of_not_mem h.2]
    exact Table.get?_insert_of_ne _ _ h.1

theorem le_layOutFrom : ∀ {decls : List (NodeId × DataType)} {used : Nat} {layout : Table NodeId Int},
    used ≤ (layOutFrom used layout decls).1
  | [], _, _ => Nat.le_refl _
  | (_, type) :: _, used, _ => Nat.le_trans (Nat.le_add_right used type.size) le_layOutFrom

/-- The layout of declarations with numbers of their own. -/
theorem stacked_layOutFrom : ∀ {decls : List (NodeId × DataType)} {used : Nat}
    {layout : Table NodeId Int}, (decls.map Prod.fst).Nodup →
      Stacked (layOutFrom used layout decls).2 used (layOutFrom used layout decls).1 decls
  | [], _, _, _ => ⟨fun h => absurd h List.not_mem_nil, List.Pairwise.nil⟩
  | (id, type) :: rest, used, layout, hnodup => by
    obtain ⟨hid, hnodup⟩ := List.nodup_cons.mp hnodup
    have hrest : Stacked (layOutFrom used layout ((id, type) :: rest)).2 (used + type.size)
        (layOutFrom used layout ((id, type) :: rest)).1 rest := stacked_layOutFrom hnodup
    have hfirst : (layOutFrom used layout ((id, type) :: rest)).2.get? id =
        some (-((used + type.size : Nat) : Int)) := by
      rw [layOutFrom, get?_layOutFrom_of_not_mem hid]
      exact Table.get?_insert_self ..
    have hle : used + type.size ≤ (layOutFrom used layout ((id, type) :: rest)).1 := le_layOutFrom
    refine ⟨fun {id' type'} hmem => ?_, List.pairwise_cons.mpr ⟨fun b hb x y hx hy => ?_, hrest.below⟩⟩
    · rcases List.mem_cons.mp hmem with heq | hmem
      · obtain ⟨rfl, rfl⟩ := Prod.mk.inj heq
        exact ⟨_, hfirst, by omega, by omega⟩
      · obtain ⟨offset, hoffset, hlow, hhigh⟩ := hrest.inside hmem
        exact ⟨offset, hoffset, hlow, by omega⟩
    · rw [hfirst] at hx
      obtain ⟨offset, hoffset, -, hhigh⟩ := hrest.inside hb
      rw [show (layOutFrom used layout ((id, type) :: rest)).2.get? b.1 = some offset from hoffset] at hy
      obtain rfl := Option.some.inj hx
      obtain rfl := Option.some.inj hy
      omega

theorem localBytes_layOut_mod (scope : Scope) (decls : List (NodeId × DataType)) :
    (scope.layOut decls).localBytes % 16 = 0 :=
  Nat.mul_mod_left _ 16

theorem le_alignUp (bytes : Nat) : bytes ≤ alignUp bytes := by
  unfold alignUp
  omega

/-! ### Scopes -/

/-- Two variables share no byte of their frame and no register. -/
def Variable.Apart (v w : Variable) : Prop :=
  match v.storage, w.storage with
  | .stack a, .stack b => a + v.type.size ≤ b ∨ b + w.type.size ≤ a
  | .register l, .register k => l ≠ k
  | _, _ => True

theorem Variable.Apart.symm {v w : Variable} (h : v.Apart w) : w.Apart v := by
  unfold Variable.Apart at *
  cases hv : v.storage <;> cases hw : w.storage <;> simp only [hv, hw] at h ⊢
  · exact h.symm
  · exact Ne.symm h

/-- The variables of a scope have slots within its frame, or are parameters: those on the stack are
above the frame, in one of `slots` places, and the others are in registers of the file. -/
structure Laid (f : RegisterFile) (slots : Nat) (scope : Scope) : Prop where
  height : ∀ {name v}, scope.vars.get? name = some v → v.stackHeight = scope.stackHeight
  typed : ∀ {name v}, scope.vars.get? name = some v → v.type ≠ .void
  stack : ∀ {name v offset}, scope.vars.get? name = some v → v.storage = .stack offset →
    (-(scope.localBytes : Int) ≤ offset ∧ offset + v.type.size ≤ 0) ∨
      scope.kind = .procedure ∧ ∃ k : Nat, k < slots ∧ offset = 16 + 8 * k
  register : ∀ {name v l}, scope.vars.get? name = some v → v.storage = .register l →
    scope.kind = .procedure ∧ ∃ r, f.registerOf? l = some r
  apart : ∀ {a b v w}, a ≠ b → scope.vars.get? a = some v → scope.vars.get? b = some w → v.Apart w

/-- The declarations among some statements have slots in the frame of a scope that overlap neither each
other nor the variables that are there. -/
structure Room (scope : Scope) (rest : List Stmt) : Prop where
  stacked : Stacked scope.layout 0 scope.localBytes (Stmt.declarations rest)
  free : ∀ {id type offset}, (id, type) ∈ Stmt.declarations rest → scope.layout.get? id = some offset →
    ∀ {name v place}, scope.vars.get? name = some v → v.storage = .stack place →
      place + v.type.size ≤ offset ∨ offset + type.size ≤ place

/-- The scope of a block has room for its declarations. -/
theorem room_innerScope {kind : ScopeKind} {scopes : ScopeStack} {body : List Stmt}
    (hnodup : ((Stmt.declarations body).map Prod.fst).Nodup) :
    Room (innerScope kind scopes body) body where
  stacked := by
    have h : Stacked (layOutFrom 0 .empty (Stmt.declarations body)).2 0
        (layOutFrom 0 .empty (Stmt.declarations body)).1 (Stmt.declarations body) :=
      stacked_layOutFrom hnodup
    refine ⟨fun hmem => ?_, h.below⟩
    obtain ⟨offset, hoffset, hlow, hhigh⟩ := h.inside hmem
    refine ⟨offset, hoffset, ?_, hhigh⟩
    have hle := le_alignUp (layOutFrom 0 .empty (Stmt.declarations body)).1
    have hbytes : (innerScope kind scopes body).localBytes =
        alignUp (layOutFrom 0 .empty (Stmt.declarations body)).1 := rfl
    omega
  free _ _ := fun hv => by cases hv

theorem room_loopScope {scopes : ScopeStack} {body : List Stmt} {start behind : Label}
    (hnodup : ((Stmt.declarations body).map Prod.fst).Nodup) :
    Room (loopScope scopes body start behind) body := by
  have hinner : Room (innerScope .loop scopes body) body := room_innerScope hnodup
  exact ⟨hinner.stacked, hinner.free⟩

/-- A declaration takes its slot, and the other statements leave the room as it is. -/
theorem Room.declared {scope : Scope} {tag : Tag} {name : String} {type : DataType}
    {init : Option Expr} {rest : List Stmt} (h : Room scope (.declaration tag name type init :: rest)) :
    Room (scope.declare (declaredVariable scope tag name type)) rest := by
  obtain ⟨hhead, hbelow⟩ := List.pairwise_cons.mp h.stacked.below
  refine ⟨⟨fun hmem => h.stacked.inside (List.mem_cons_of_mem _ hmem), hbelow⟩, ?_⟩
  intro id type' offset hmem hoffset name' v place hv hplace
  obtain ⟨own, hown, -, -⟩ := h.stacked.inside (List.mem_cons_self (a := (tag.id, type)))
  have hget : (scope.vars.insert name (declaredVariable scope tag name type)).get? name' = some v := hv
  rw [Table.get?_insert] at hget
  split_ifs at hget with hname
  · obtain rfl := Option.some.inj hget
    have hown' : Storage.stack own = .stack place := by
      rw [← hplace, declaredVariable, hown, Option.getD_some]
    obtain rfl := Storage.stack.inj hown'
    exact .inr (hhead _ hmem hown hoffset)
  · exact h.free (List.mem_cons_of_mem _ hmem) hoffset hget hplace

theorem DataType.size_le_eight (type : DataType) : type.size ≤ 8 := by
  cases type <;> decide

/-! ### Frames -/

/-- A scope that has a frame; only the outermost one has parameters. -/
structure Framed (f : RegisterFile) (slots : Nat) (scope : Scope) (outer : ScopeStack) : Prop where
  kind : scope.kind ≠ .entry
  only : scope.kind = .procedure → depth outer = 8
  height : scope.stackHeight = outer.stackHeight + 1
  aligned : scope.localBytes % 16 = 0
  laid : Laid f slots scope

section Frames

variable {f : RegisterFile} {slots : Nat} {scope : Scope} {scopes outer : ScopeStack} {tag : Tag}
  {name : String} {type : DataType} {init : Option Expr} {st : Stmt} {rest body : List Stmt}
  {offset : Int}

/-- The scope of a block has a frame, and no variables at first. -/
theorem framed_innerScope {kind : ScopeKind} (hkind : kind ≠ .entry)
    (hprocedure : kind ≠ .procedure) : Framed f slots (innerScope kind scopes body) scopes where
  kind := hkind
  only h := absurd h hprocedure
  height := rfl
  aligned := localBytes_layOut_mod _ _
  laid :=
    { height := fun hv => by cases hv
      typed := fun hv => by cases hv
      stack := fun hv => by cases hv
      register := fun hv => by cases hv
      apart := fun _ hv => by cases hv }

theorem framed_loopScope {start behind : Label}
    (hscope : scope = loopScope scopes body start behind) : Framed f slots scope scopes := by
  subst hscope
  have h : Framed f slots (innerScope .loop scopes body) scopes :=
    framed_innerScope (by decide) (by decide)
  exact ⟨h.kind, h.only, h.height, h.aligned,
    ⟨h.laid.height, h.laid.typed, h.laid.stack, h.laid.register, h.laid.apart⟩⟩

theorem get?_declared {other : String} : (scope.declare (declaredVariable scope tag name type)).vars.get?
    other = if other = name then some (declaredVariable scope tag name type) else scope.vars.get? other :=
  Table.get?_insert ..

theorem storage_declared (hoffset : scope.layout.get? tag.id = some offset) :
    (declaredVariable scope tag name type).storage = .stack offset := by
  rw [declaredVariable, hoffset]
  rfl

/-- A declared variable has a slot of its own. -/
theorem Framed.declare (h : Framed f slots scope outer) (htype : type ≠ .void)
    (hroom : Room scope (.declaration tag name type init :: rest)) :
    Framed f slots (scope.declare (declaredVariable scope tag name type)) outer := by
  have hmem : (tag.id, type) ∈ Stmt.declarations (.declaration tag name type init :: rest) :=
    List.mem_cons_self
  obtain ⟨offset, hoffset, hlow, hhigh⟩ := hroom.stacked.inside hmem
  have hstorage : (declaredVariable scope tag name type).storage = .stack offset :=
    storage_declared hoffset
  have hfree : ∀ {other v}, scope.vars.get? other = some v →
      v.Apart (declaredVariable scope tag name type) := by
    intro other v hv
    unfold Variable.Apart
    rw [hstorage]
    cases hplace : v.storage with
    | stack place => exact hroom.free hmem hoffset hv hplace
    | register l => trivial
  refine ⟨h.kind, h.only, h.height, h.aligned, ⟨?_, ?_, ?_, ?_, ?_⟩⟩
  · intro other v hv
    rw [get?_declared] at hv
    split_ifs at hv
    · exact Option.some.inj hv ▸ rfl
    · exact h.laid.height hv
  · intro other v hv
    rw [get?_declared] at hv
    split_ifs at hv
    · exact Option.some.inj hv ▸ htype
    · exact h.laid.typed hv
  · intro other v place hv hplace
    rw [get?_declared] at hv
    split_ifs at hv
    · obtain rfl := Option.some.inj hv
      rw [hstorage] at hplace
      obtain rfl := Storage.stack.inj hplace
      refine .inl ⟨hlow, ?_⟩
      show offset + type.size ≤ 0
      omega
    · exact h.laid.stack hv hplace
  · intro other v l hv hplace
    rw [get?_declared] at hv
    split_ifs at hv
    · obtain rfl := Option.some.inj hv
      rw [hstorage] at hplace
      cases hplace
    · exact h.laid.register hv hplace
  · intro a b v u hab hv hu
    rw [get?_declared] at hv hu
    split_ifs at hv hu with ha hb hb
    · exact absurd (ha.trans hb.symm) hab
    · obtain rfl := Option.some.inj hv
      exact (hfree hu).symm
    · obtain rfl := Option.some.inj hu
      exact hfree hv
    · exact h.laid.apart hab hv hu

/-- A declared procedure changes no variable. -/
theorem Framed.declareProcedure (h : Framed f slots scope outer) (p : Procedure) :
    Framed f slots (scope.declareProcedure p) outer :=
  ⟨h.kind, h.only, h.height, h.aligned,
    ⟨h.laid.height, h.laid.typed, h.laid.stack, h.laid.register, h.laid.apart⟩⟩

/-- The innermost scope has room for the declarations among some statements. -/
def HasRoom (scopes : ScopeStack) (rest : List Stmt) : Prop :=
  ∃ scope outer, scopes = scope :: outer ∧ scope.kind ≠ .entry ∧ Room scope rest

theorem HasRoom.after (h : HasRoom scopes (st :: rest)) : HasRoom (scopesAfter st scopes) rest := by
  obtain ⟨scope, outer, rfl, hkind, hroom⟩ := h
  cases st with
  | declaration tag name type init => exact ⟨_, outer, rfl, hkind, hroom.declared⟩
  | _ => exact ⟨_, outer, rfl, hkind, hroom.stacked, hroom.free⟩

theorem HasRoom.of_declarations {rest' : List Stmt} (h : HasRoom scopes rest)
    (heq : Stmt.declarations rest' = Stmt.declarations rest) : HasRoom scopes rest' := by
  obtain ⟨scope, outer, hscopes, hkind, hroom⟩ := h
  refine ⟨scope, outer, hscopes, hkind, heq ▸ hroom.stacked, fun hmem => ?_⟩
  rw [heq] at hmem
  exact hroom.free hmem

/-- Scopes within each other, down to the one of the program. -/
inductive Seated (f : RegisterFile) (slots : Nat) : ScopeStack → Prop
  | entry {scope : Scope} : scope.kind = .entry → scope.vars = .empty → Seated f slots [scope]
  | frame {scope : Scope} {outer : ScopeStack} : Framed f slots scope outer →
      Seated f slots outer → Seated f slots (scope :: outer)

theorem Seated.depth_mod (h : Seated f slots scopes) : depth scopes % 8 = 0 := by
  induction h with
  | entry hkind _ => rw [depth, if_pos hkind]
  | frame hframed _ ih =>
    have haligned := hframed.aligned
    rw [depth, if_neg hframed.kind]
    omega

theorem findVariable?_cons_some {v : Variable} (h : scope.vars.get? name = some v) :
    ScopeStack.findVariable? (scope :: outer) name = some v := by
  simp [ScopeStack.findVariable?, h]

theorem findVariable?_cons_none (h : scope.vars.get? name = none) :
    ScopeStack.findVariable? (scope :: outer) name = outer.findVariable? name := by
  simp [ScopeStack.findVariable?, h]

theorem Seated.height_le {v : Variable} (h : Seated f slots scopes)
    (hv : scopes.findVariable? name = some v) : v.stackHeight ≤ scopes.stackHeight := by
  induction h with
  | entry _ hvars => simp [ScopeStack.findVariable?, hvars] at hv
  | @frame scope outer hframed _ ih =>
    cases hget : scope.vars.get? name with
    | some v' =>
      rw [findVariable?_cons_some hget] at hv
      obtain rfl := Option.some.inj hv
      exact Nat.le_of_eq (hframed.laid.height hget)
    | none =>
      rw [findVariable?_cons_none hget] at hv
      have hle := ih hv
      have hheight := hframed.height
      show v.stackHeight ≤ scope.stackHeight
      omega

/-- A statement leaves the scopes seated. -/
theorem Seated.after {inLoop : Bool} {names : List NameScope} (h : Seated f slots scopes)
    (hwf : st.WellFormed inLoop names) (hroom : HasRoom scopes (st :: rest)) :
    Seated f slots (scopesAfter st scopes) := by
  obtain ⟨scope, outer, rfl, hkind, hroom⟩ := hroom
  cases h with
  | entry hentry _ => exact absurd hentry hkind
  | frame hframed houter =>
    cases st with
    | declaration tag name type init => exact .frame (hframed.declare hwf.1 hroom) houter
    | procedure tag signature body => exact .frame (hframed.declareProcedure _) houter
    | _ => exact .frame hframed houter

end Frames

/-! ### Parameters as variables -/

/-- The number of parameters that are on the stack. -/
def Signature.stackSlots (signature : Signature) : Nat :=
  signature.params.length - Register.arguments.length

section Parameters

variable {signature : Signature} {body : List Stmt} {scopes : ScopeStack} {first : Nat}
  {f : RegisterFile} {behind : Label} {name : String} {v : Variable}

/-- The scope of the body of a procedure, with its parameters. -/
def boundScope (first : Nat) (signature : Signature) (scopes : ScopeStack) (body : List Stmt)
    (behind : Label) : Scope :=
  bindScope first signature.bindings (procedureScope scopes signature body behind)

theorem boundScope_eq : boundScope first signature scopes body behind =
    { procedureScope scopes signature body behind with
      vars := (boundScope first signature scopes body behind).vars } :=
  bindScope_eq _ _

theorem get?_boundScope {i : Nat} {p : Parameter} (hnodup : (signature.params.map (·.name)).Nodup)
    (hp : signature.params[i]? = some p) :
    (boundScope first signature scopes body behind).vars.get? p.name =
      some ⟨p.name, p.type, parameterStorage first i, scopes.stackHeight + 1⟩ := by
  have hfirst : nextHandle first 0 = first := by simp [nextHandle]
  have hget := @get?_bindScope first _ _ passedFrom_bindings (map_fst_bindings ▸ hnodup)
    (procedureScope scopes signature body behind) _ _ (getElem?_bindings hp)
  rw [hfirst, Nat.zero_add] at hget
  exact hget

/-- The variables of the scope are the parameters. -/
theorem exists_of_get?_boundScope (hnodup : (signature.params.map (·.name)).Nodup)
    (h : (boundScope first signature scopes body behind).vars.get? name = some v) :
    ∃ (i : Nat) (p : Parameter), signature.params[i]? = some p ∧ name = p.name ∧
      v = ⟨p.name, p.type, parameterStorage first i, scopes.stackHeight + 1⟩ := by
  by_cases hmem : name ∈ signature.params.map (·.name)
  · obtain ⟨p, hp, rfl⟩ := List.mem_map.mp hmem
    obtain ⟨i, hi⟩ := List.getElem?_of_mem hp
    rw [get?_boundScope hnodup hi] at h
    exact ⟨i, p, hi, rfl, (Option.some.inj h).symm⟩
  · rw [boundScope, get?_bindScope_of_not_mem _ _ (map_fst_bindings ▸ hmem)] at h
    cases h

theorem parameterStorage_register {i : Nat} {l : Location} (h : parameterStorage first i = .register l) :
    l = ⟨first + i⟩ ∧ ∃ r, parameterClass i = .register r := by
  unfold parameterStorage at h
  cases hcls : parameterClass i with
  | register r =>
    rw [hcls] at h
    exact ⟨(Storage.register.inj h).symm, r, rfl⟩
  | stack k => rw [hcls] at h; cases h

theorem parameterStorage_stack {i : Nat} {offset : Int} (h : parameterStorage first i = .stack offset) :
    parameterClass i = .stack (i - Register.arguments.length) ∧ Register.arguments.length ≤ i ∧
      offset = 16 + 8 * (i - Register.arguments.length : Nat) := by
  unfold parameterStorage at h
  cases hcls : parameterClass i with
  | register r => rw [hcls] at h; cases h
  | stack k =>
    have hnone := parameterClass_stack hcls
    have hk : k = i - Register.arguments.length := by
      rw [parameterClass, hnone] at hcls
      exact (ParameterClass.stack.inj hcls).symm
    rw [hcls, hk] at h
    exact ⟨congrArg _ hk, List.getElem?_eq_none_iff.mp hnone, (Storage.stack.inj h).symm⟩

/-- The parameters lie apart, in registers and above the frame. -/
theorem laid_boundScope (hnodup : (signature.params.map (·.name)).Nodup)
    (htypes : ∀ p ∈ signature.params, p.type ≠ .void)
    (hf : f.HoldsParameters first signature.params.length) :
    Laid f signature.stackSlots (boundScope first signature scopes body behind) := by
  have hkind : (boundScope first signature scopes body behind).kind = .procedure := by
    rw [boundScope_eq]
    rfl
  constructor
  · intro name v hv
    obtain ⟨i, p, -, -, rfl⟩ := exists_of_get?_boundScope hnodup hv
    rw [boundScope_eq]
    rfl
  · intro name v hv
    obtain ⟨i, p, hp, -, rfl⟩ := exists_of_get?_boundScope hnodup hv
    exact htypes p (List.mem_of_getElem? hp)
  · intro name v offset hv hstorage
    obtain ⟨i, p, hp, -, rfl⟩ := exists_of_get?_boundScope hnodup hv
    obtain ⟨-, hle, hoffset⟩ := parameterStorage_stack hstorage
    have hlt := (List.getElem?_eq_some_iff.mp hp).1
    exact .inr ⟨hkind, i - Register.arguments.length, by unfold Signature.stackSlots; omega, hoffset⟩
  · intro name v l hv hstorage
    obtain ⟨i, p, hp, -, rfl⟩ := exists_of_get?_boundScope hnodup hv
    obtain ⟨rfl, r, hr⟩ := parameterStorage_register hstorage
    have hlt := (List.getElem?_eq_some_iff.mp hp).1
    exact ⟨hkind, r, (hf.index _ _).mpr ⟨i, hlt, rfl, parameterClass_register hr⟩⟩
  · intro a b v u hab hv hu
    obtain ⟨i, p, hp, rfl, rfl⟩ := exists_of_get?_boundScope hnodup hv
    obtain ⟨j, q, hq, rfl, rfl⟩ := exists_of_get?_boundScope hnodup hu
    have hij : i ≠ j := by
      rintro rfl
      rw [hp] at hq
      exact hab (congrArg Parameter.name (Option.some.inj hq))
    unfold Variable.Apart
    dsimp only
    cases hi : parameterStorage first i with
    | register l =>
      cases hj : parameterStorage first j with
      | stack offset => trivial
      | register k =>
        obtain ⟨rfl, -⟩ := parameterStorage_register hi
        obtain ⟨rfl, -⟩ := parameterStorage_register hj
        simpa using hij
    | stack offset =>
      cases hj : parameterStorage first j with
      | register l => trivial
      | stack offset' =>
        obtain ⟨-, hle, rfl⟩ := parameterStorage_stack hi
        obtain ⟨-, hle', rfl⟩ := parameterStorage_stack hj
        have hsize := p.type.size_le_eight
        have hsize' := q.type.size_le_eight
        dsimp only
        omega

/-- The slots of declarations are below those of the parameters. -/
theorem room_boundScope (hnodup : (signature.params.map (·.name)).Nodup)
    (hids : ((Stmt.declarations body).map Prod.fst).Nodup) :
    Room (boundScope first signature scopes body behind) body := by
  have hinner : Room (innerScope .procedure scopes body) body := room_innerScope hids
  have hlayout : (boundScope first signature scopes body behind).layout =
      (innerScope .procedure scopes body).layout := by
    rw [boundScope_eq]
    rfl
  have hbytes : (boundScope first signature scopes body behind).localBytes =
      (innerScope .procedure scopes body).localBytes := by
    rw [boundScope_eq]
    rfl
  refine ⟨by rw [hlayout, hbytes]; exact hinner.stacked, ?_⟩
  intro id type offset hmem hoffset name v place hv hplace
  obtain ⟨i, p, -, -, rfl⟩ := exists_of_get?_boundScope hnodup hv
  obtain ⟨-, -, rfl⟩ := parameterStorage_stack hplace
  obtain ⟨offset', hoffset', -, hhigh⟩ := hinner.stacked.inside hmem
  rw [hlayout, hoffset'] at hoffset
  obtain rfl := Option.some.inj hoffset
  exact .inr (by omega)

/-- The scope of the body of a procedure has a frame. -/
theorem framed_boundScope (hnodup : (signature.params.map (·.name)).Nodup)
    (htypes : ∀ p ∈ signature.params, p.type ≠ .void)
    (hf : f.HoldsParameters first signature.params.length) (hdepth : depth scopes = 8) :
    Framed f signature.stackSlots (boundScope first signature scopes body behind) scopes where
  kind := by rw [boundScope_eq]; exact ScopeKind.noConfusion
  only _ := hdepth
  height := by rw [boundScope_eq]; rfl
  aligned := by rw [boundScope_eq]; exact localBytes_layOut_mod _ _
  laid := laid_boundScope hnodup htypes hf

end Parameters

end ProcLang
