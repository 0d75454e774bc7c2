import ProcLang.Proofs.Stack.Alignment

/-!
No two things on the stack share a byte.

A visit is a walk through a procedure from its entry, with the shape of the stack and the spot of the
instruction that comes next.  The cells of the shape say where registers and frame pointers are saved, and
the scopes of the spot where the variables are.  While a visit waits at a call, another one may be under
way below it: what was called, or a procedure that code outside the program has called in turn.
-/

namespace ProcLang

/-! ### Slots of a block -/

/-- Declarations have slots in the bytes that a scope reserves, none of which belongs to two of them; the
number of these bytes is the first multiple of 16 that is enough. -/
structure Scope.HasSlots (scope : Scope) (decls : List (NodeId × DataType)) : Prop where
  inside : ∀ {id type}, (id, type) ∈ decls → ∃ offset, scope.layout.get? id = some offset ∧
    -(scope.localBytes : Int) ≤ offset ∧ offset + type.size ≤ 0
  apart : decls.Pairwise fun a b => ∀ x y, scope.layout.get? a.1 = some x →
    scope.layout.get? b.1 = some y → Extent.Apart ⟨x, a.2.size⟩ ⟨y, b.2.size⟩
  aligned : scope.localBytes % 16 = 0
  enough : (decls.map (·.2.size)).sum ≤ scope.localBytes
  tight : scope.localBytes < (decls.map (·.2.size)).sum + 16

theorem used_layOutFrom : ∀ {decls : List (NodeId × DataType)} {used : Nat} {layout : Table NodeId Int},
    (layOutFrom used layout decls).1 = used + (decls.map (·.2.size)).sum
  | [], _, _ => rfl
  | (_, type) :: rest, used, _ => by
    rw [layOutFrom, used_layOutFrom, List.map_cons, List.sum_cons, Nat.add_assoc]

/-- A layout has slots for all of its declarations. -/
theorem hasSlots_layOut (scope : Scope) {decls : List (NodeId × DataType)}
    (hnodup : (decls.map Prod.fst).Nodup) : (scope.layOut decls).HasSlots decls := by
  have hstacked : Stacked (scope.layOut decls).layout 0 (layOutFrom 0 scope.layout decls).1 decls :=
    stacked_layOutFrom hnodup
  have hbytes : (scope.layOut decls).localBytes = alignUp (layOutFrom 0 scope.layout decls).1 := rfl
  have hused := @used_layOutFrom decls 0 scope.layout
  have hle := le_alignUp (layOutFrom 0 scope.layout decls).1
  refine ⟨fun hmem => ?_, ?_, localBytes_layOut_mod scope decls, by omega, ?_⟩
  · obtain ⟨offset, hoffset, hlow, hhigh⟩ := hstacked.inside hmem
    exact ⟨offset, hoffset, by omega, hhigh⟩
  · exact hstacked.below.imp fun hbelow x y hx hy => .inr (hbelow hx hy)
  · rw [hbytes, hused, alignUp]
    omega

/-! ### What is saved -/

/-- The bytes of the registers and frame pointers that are saved in cells, counted from the entry. -/
def savesOf : List Cell → List Extent
  | [] => []
  | cell :: rest =>
    if cell.isRoom then savesOf rest
    else ⟨-((8 + (rest.map Cell.size).sum : Nat) : Int), 8⟩ :: savesOf rest

theorem mem_savesOf {x : Extent} : ∀ {cells : List Cell}, x ∈ savesOf cells → ∃ above cell below,
    cells = above ++ cell :: below ∧ cell.isRoom = false ∧
      x = ⟨-((8 + (below.map Cell.size).sum : Nat) : Int), 8⟩
  | cell :: rest, h => by
    by_cases hcell : cell.isRoom
    · rw [savesOf, if_pos hcell] at h
      obtain ⟨above, cell', below, rfl, hx⟩ := mem_savesOf h
      exact ⟨cell :: above, cell', below, rfl, hx⟩
    · rw [savesOf, if_neg hcell] at h
      rcases List.mem_cons.mp h with rfl | h
      · exact ⟨[], cell, rest, rfl, by simpa using hcell, rfl⟩
      · obtain ⟨above, cell', below, rfl, hx⟩ := mem_savesOf h
        exact ⟨cell :: above, cell', below, rfl, hx⟩

theorem bounds_of_mem_savesOf {x : Extent} {cells : List Cell} (h : x ∈ savesOf cells) :
    -((cells.map Cell.size).sum : Int) ≤ x.place ∧ x.place + x.size ≤ 0 := by
  obtain ⟨above, cell, below, rfl, hcell, rfl⟩ := mem_savesOf h
  have hsize := Cell.size_of_isRoom hcell
  simp only [List.map_append, List.map_cons, List.sum_append, List.sum_cons]
  omega

theorem pairwise_savesOf : ∀ cells : List Cell, (savesOf cells).Pairwise Extent.Apart
  | [] => .nil
  | cell :: rest => by
    rw [savesOf]
    split_ifs
    · exact pairwise_savesOf rest
    · refine .cons (fun y hy => .inl ?_) (pairwise_savesOf rest)
      have hle := (bounds_of_mem_savesOf hy).1
      dsimp only
      omega

theorem Shape.Clear.bounds {sh : Shape} {place : Int} {size : Nat} (h : sh.Clear place size) :
    -(sh.depth : Int) ≤ place ∧ (8 ≤ place ∨ place + size ≤ 0) := by
  rcases h with hplace | ⟨above, bytes, below, hcells, hlow, hhigh⟩
  · omega
  · simp only [depth, hcells, List.map_append, List.map_cons, List.sum_append, List.sum_cons, Cell.size]
    omega

namespace Generation

/-! ### What is kept -/

section Kept

variable {f : RegisterFile} {slots : Nat} {scopes : ScopeStack} {sh : Shape}

/-- No two variables share a byte. -/
theorem pairwise_slotsOf (h : Seated f slots scopes) : (slotsOf scopes).Pairwise Extent.Apart := by
  induction h with
  | entry _ hvars => simp [slotsOf, hvars, Table.empty]
  | @frame scope outer hframed houter ih =>
    refine List.pairwise_append.mpr ⟨?_, ih, fun x hx y hy => ?_⟩
    · refine List.pairwise_filterMap.mpr (scope.vars.ascending.imp_of_mem ?_)
      rintro ⟨a, v⟩ ⟨b, w⟩ hv hw hlt x hx y hy
      have hapart := hframed.laid.apart (fun hab : a = b => by simp [hab] at hlt)
        ((Table.mem_entries_iff ..).mp hv) ((Table.mem_entries_iff ..).mp hw)
      unfold Variable.Apart at hapart
      unfold slot? at hx hy
      cases hv : v.storage <;> cases hw : w.storage <;> simp only [hv, hw, reduceCtorEq] at hapart hx hy
      obtain rfl := Option.some.inj hx
      obtain rfl := Option.some.inj hy
      unfold Extent.Apart
      dsimp only
      omega
    · obtain ⟨name, v, offset, hv, hst, rfl⟩ := mem_slots.mp hx
      rcases hframed.laid.stack hv hst with ⟨-, hhigh⟩ | ⟨hkind, -⟩
      · -- the frame lies below all that the blocks around have
        have hle := (Seated.clear houter hy).1.bounds.1
        have hdepth := @depth_shapeOf outer
        refine .inl ?_
        dsimp only
        omega
      · -- around the frame of the procedure there are no variables
        have hdepth := hframed.only hkind
        cases houter with
        | entry _ hvars => simp [slotsOf, hvars, Table.empty] at hy
        | @frame _ outer' hframed' _ =>
          have := @depth_shapeOf outer'
          rw [depth, if_neg hframed'.kind] at hdepth
          omega

/-- What a procedure keeps, counted from its entry: the return address, what it has saved, and the
variables on the stack. -/
def keptIn (sh : Shape) (scopes : ScopeStack) : List Extent :=
  ⟨0, 8⟩ :: (savesOf sh.cells ++ slotsOf scopes)

theorem pairwise_keptIn (h : Seated f slots scopes) (hcells : (shapeOf scopes).cells <:+ sh.cells) :
    (keptIn sh scopes).Pairwise Extent.Apart := by
  refine .cons (fun x hx => ?_)
    (List.pairwise_append.mpr ⟨pairwise_savesOf _, pairwise_slotsOf h, fun x hx y hy => ?_⟩)
  · rcases List.mem_append.mp hx with hx | hx
    · exact .inr (bounds_of_mem_savesOf hx).2
    · exact (Seated.clear h hx).1.bounds.2
  · -- variables are in reserved bytes or above the return address, where nothing is saved
    obtain ⟨above, cell, below, hsplit, hcell, rfl⟩ := mem_savesOf hx
    exact (Pointers.apart_of_clear ((Seated.clear h hy).1.mono hcells) hsplit hcell).symm

theorem bounds_keptIn (h : Seated f slots scopes) (hcells : (shapeOf scopes).cells <:+ sh.cells) :
    ∀ x ∈ keptIn sh scopes, -(sh.depth : Int) ≤ x.place ∧ x.place + x.size ≤ 8 + 8 * slots := by
  intro x hx
  rcases List.mem_cons.mp hx with rfl | hx
  · dsimp only
    omega
  · rcases List.mem_append.mp hx with hx | hx
    · have hbounds := bounds_of_mem_savesOf hx
      rw [Shape.depth]
      omega
    · exact ⟨((Seated.clear h hx).1.mono hcells).bounds.1, (Seated.clear h hx).2⟩

end Kept

/-! ### Visits -/

/-- A walk has come to a position in a procedure: the pointers at the entry and now, the shape of the
stack, and the spot. -/
structure Visit where
  signature : Signature
  entry : Pointers
  position : List Instr
  pointers : Pointers
  shape : Shape
  spot : Spot

/-- The code of a procedure that the program defines starts at a position. -/
def Starts (procs : List Stmt) (code : List Instr) (signature : Signature) (first : List Instr) : Prop :=
  ∃ tag body, .procedure tag signature body ∈ procs ∧ signature.external = false ∧
    position? (.symbol signature.name) code = some first

namespace Visit

/-- The visit has come from the entry of its procedure. -/
structure Reached (procs : List Stmt) (code : List Instr) (ls : List Spot) (v : Visit) : Prop where
  walk : ∃ first, Starts procs code v.signature first ∧
    ShapedWalk code (first, v.entry, .entry) (v.position, v.pointers, v.shape)
  spot : ls[code.length - v.position.length]? = some v.spot

/-- What the visit keeps if the variables are those of some scopes. -/
def kept (v : Visit) (scopes : ScopeStack) : List Extent :=
  (keptIn v.shape scopes).map fun x => ⟨v.entry.rsp + x.place, x.size⟩

/-- What the visit keeps. -/
def keeps (v : Visit) : List Extent := v.kept v.spot.scopes

/-- A visit waits at a call.  It has called the procedure of another one, which the name means there, and
the return address is right below its stack pointer; or it has called code outside the program, which has
called the procedure with the return address and the parameters below those of the first call. -/
def Calls (w v : Visit) : Prop :=
  ∃ name rest, w.position = .call name :: rest ∧
    (name = v.signature.name ∧ w.spot.scopes.findProcedure? name = some v.signature.procedure ∧
        v.entry.rsp = w.pointers.rsp - 8 ∨
      v.entry.rsp + 8 + 8 * v.signature.stackSlots ≤ w.pointers.rsp - 8)

end Visit

/-- The visits that are under way, the last one first. -/
inductive Nested (procs : List Stmt) (code : List Instr) (ls : List Spot) : List Visit → Prop
  | outer {v : Visit} : v.Reached procs code ls → Nested procs code ls [v]
  | inner {v w : Visit} {outer : List Visit} : v.Reached procs code ls → w.Calls v →
      Nested procs code ls (w :: outer) → Nested procs code ls (v :: w :: outer)

/-- What the visits keep shares no byte, and is on the stack, whose last cell is at the stack pointer.
Where the last visit is about to store, it writes the variable of the statement that the store is made
for, as it is behind this statement. -/
structure KeptApart (visits : List Visit) : Prop where
  apart : (visits.flatMap Visit.keeps).Pairwise Extent.Apart
  onStack : ∀ v ∈ visits, v.pointers.rsp = v.entry.rsp - v.shape.depth ∧
    ∀ x ∈ v.keeps, v.pointers.rsp ≤ x.place
  stores : ∀ {v outer i rest q d w}, visits = v :: outer → v.position = i :: rest →
    i.written? = some (q, d, w) → ∃ st name x, v.spot.own = some st ∧ st.storesTo? = some name ∧
      home? (scopesAfter st v.spot.scopes) name = some x ∧ x.size = w.bytes ∧
      v.pointers.regs q + d = v.entry.rsp + x.place ∧ x ∈ slotsOf (scopesAfter st v.spot.scopes) ∧
      (v.kept (scopesAfter st v.spot.scopes) ++ outer.flatMap Visit.keeps).Pairwise Extent.Apart

section Visits

variable {options : Options} {pool : List String} {procs : List Stmt} {code : List Instr} {n : Nat}
  {ls : List Spot} {slots : Nat} {sh : Shape} {k : Pointed} {f : RegisterFile} {scopes : ScopeStack}
  {v w : Visit} {visits : List Visit}

/-- The instruction that a walk has come to stands at its spot. -/
theorem Tracked.spot {Λ : Label → Shape → Prop} {T : Pointed → List Instr × Shape → Prop}
    {position : List Instr} (h : Tracked slots code ls Λ T) (hT : T k (position, sh)) :
    ∃ i rest spot, position = i :: rest ∧ ls[code.length - position.length]? = some spot ∧
      spot.Stands slots sh k i := by
  obtain ⟨i, rest, rfl, -, -, done, ls₁, spot, ls₂, rfl, rfl, hrec, hstands⟩ := h.disciplined hT
  have hlength : ls₁.length = done.length := by simpa using congrArg List.length hrec
  refine ⟨i, rest, spot, rfl, ?_, hstands⟩
  rw [List.length_append, Nat.add_sub_cancel, ← hlength]
  simp

namespace Visit

theorem bounds_kept (hfits : v.entry.Fits v.shape v.pointers) (hs : Seated f v.signature.stackSlots scopes)
    (hcells : (shapeOf scopes).cells <:+ v.shape.cells) : ∀ x ∈ v.kept scopes,
      v.pointers.rsp ≤ x.place ∧ x.place + x.size ≤ v.entry.rsp + 8 + 8 * v.signature.stackSlots := by
  intro _ hmem
  obtain ⟨x, hx, rfl⟩ := List.mem_map.mp hmem
  have hbounds := bounds_keptIn hs hcells x hx
  have hrsp := hfits.rsp
  dsimp only
  omega

/-- What a visit keeps shares no byte with what is above its parameters. -/
theorem pairwise_kept {above : List Extent} (hfits : v.entry.Fits v.shape v.pointers)
    (hs : Seated f v.signature.stackSlots scopes) (hcells : (shapeOf scopes).cells <:+ v.shape.cells)
    (h : above.Pairwise Extent.Apart ∧ ∀ x ∈ above, v.entry.rsp + 8 + 8 * v.signature.stackSlots ≤ x.place) :
    (v.kept scopes ++ above).Pairwise Extent.Apart := by
  refine List.pairwise_append.mpr ⟨(pairwise_keptIn hs hcells).map _ fun x y hxy => ?_, h.1,
    fun x hx y hy => .inl (Int.le_trans (bounds_kept hfits hs hcells x hx).2 (h.2 y hy))⟩
  unfold Extent.Apart at *
  dsimp only
  omega

/-- What is called has no parameters on the stack. -/
theorem Calls.le {i : Instr} {rest : List Instr} (h : w.Calls v) (hpos : w.position = i :: rest)
    (hstands : w.spot.Stands slots sh k i) :
    v.entry.rsp + 8 + 8 * v.signature.stackSlots ≤ w.pointers.rsp := by
  obtain ⟨name, rest', hcall, ⟨rfl, hfind, hentry⟩ | hle⟩ := h
  · obtain ⟨-, p, hp, hlength⟩ := hstands.calls _ (List.cons.inj (hpos.symm.trans hcall)).1
    obtain rfl := Option.some.inj (hp.symm.trans hfind)
    simp only [Signature.procedure, Signature.classes, classifyParameters, List.length_zip,
      List.length_map, List.length_mapIdx, Nat.min_self] at hlength
    have hzero : v.signature.stackSlots = 0 := Nat.sub_eq_zero_of_le hlength
    omega
  · omega

end Visit

theorem Nested.reached (h : Nested procs code ls visits) : ∀ v ∈ visits, v.Reached procs code ls := by
  induction h with
  | outer hv => exact List.forall_mem_singleton.mpr hv
  | inner hv _ _ ih => exact List.forall_mem_cons.mpr ⟨hv, ih⟩

variable (hcode : ProgramCode options pool [entryScope] procs 0 code n ls)
  (hwf : Stmt.ProceduresWellFormed [{}] procs)

include hcode hwf

theorem Starts.tracked {signature : Signature} {first : List Instr} (h : Starts procs code signature first) :
    ∃ Λ T, T none (first, .entry) ∧ Tracked signature.stackSlots code ls Λ T := by
  obtain ⟨tag, body, hmem, hext, hfirst⟩ := h
  obtain ⟨bodyTag, body, rfl⟩ := block_of_mem_procedures hwf hmem hext
  obtain ⟨first', Λ, T, hfirst', -, hT, htracked⟩ := hcode.tracked hwf hmem
  obtain rfl := Option.some.inj (hfirst.symm.trans hfirst')
  exact ⟨Λ, T, hT, htracked⟩

theorem Visit.Reached.stands (h : v.Reached procs code ls) :
    ∃ k i rest, v.position = i :: rest ∧ v.entry.Fits v.shape v.pointers ∧ v.entry.Knows k v.pointers ∧
      v.spot.Stands v.signature.stackSlots v.shape k i := by
  obtain ⟨⟨first, hstarts, hwalk⟩, hspot⟩ := h
  obtain ⟨Λ, T, hT, htracked⟩ := hstarts.tracked hcode hwf
  obtain ⟨k, hT', hfits, hknows⟩ := Pointers.fits_of_walk htracked hT hwalk
  obtain ⟨i, rest, spot, hpos, hspot', hstands⟩ := htracked.spot hT'
  rw [← Option.some.inj (hspot.symm.trans hspot')] at hstands
  exact ⟨k, i, rest, hpos, hfits, hknows, hstands⟩

/-- Every walk from the entry of a procedure is a visit. -/
theorem Starts.exists_reached {signature : Signature} {first position : List Instr} {start q : Pointers}
    (h : Starts procs code signature first) (hwalk : PointerWalk code (first, start) (position, q)) :
    ∃ sh spot, Visit.Reached procs code ls ⟨signature, start, position, q, sh, spot⟩ := by
  obtain ⟨Λ, T, hT, htracked⟩ := h.tracked hcode hwf
  obtain ⟨sh, hshaped⟩ := Pointers.exists_shapedWalk htracked hT hwalk
  obtain ⟨k, hT', -⟩ := Pointers.fits_of_walk htracked hT hshaped
  obtain ⟨i, rest, spot, -, hspot, -⟩ := htracked.spot hT'
  exact ⟨sh, spot, ⟨first, h, hshaped⟩, hspot⟩

/-- What the visits that wait keep is above the last one and its parameters. -/
theorem Nested.above : ∀ {waiting : List Visit} {v : Visit}, Nested procs code ls (v :: waiting) →
    (waiting.flatMap Visit.keeps).Pairwise Extent.Apart ∧
      ∀ x ∈ waiting.flatMap Visit.keeps, v.entry.rsp + 8 + 8 * v.signature.stackSlots ≤ x.place
  | [], _, _ => by simp
  | w :: waiting, v, .inner _ hcalls hn => by
    have habove := hn.above
    obtain ⟨k, i, rest, hpos, hfits, -, hstands⟩ := (hn.reached w List.mem_cons_self).stands hcode hwf
    obtain ⟨⟨f, hs⟩, hcells⟩ := hstands.frames
    refine ⟨Visit.pairwise_kept hfits hs hcells habove, fun x hx => ?_⟩
    have hle := hcalls.le hpos hstands
    rcases List.mem_append.mp hx with hx | hx
    · exact Int.le_trans hle (Visit.bounds_kept hfits hs hcells x hx).1
    · have hx := habove.2 x hx
      have hrsp := hfits.rsp
      omega

theorem Nested.keptApart : ∀ {visits : List Visit}, Nested procs code ls visits → KeptApart visits
  | v :: waiting, h => by
    have habove := h.above hcode hwf
    obtain ⟨k, i, rest, hpos, hfits, hknows, hstands⟩ :=
      (h.reached v List.mem_cons_self).stands hcode hwf
    obtain ⟨⟨f, hs⟩, hcells⟩ := hstands.frames
    refine ⟨Visit.pairwise_kept hfits hs hcells habove, fun v hv => ?_, ?_⟩
    · obtain ⟨_, _, _, -, hfits, -, hstands⟩ := (h.reached v hv).stands hcode hwf
      obtain ⟨⟨f, hs⟩, hcells⟩ := hstands.frames
      exact ⟨hfits.rsp, fun x hx => (Visit.bounds_kept hfits hs hcells x hx).1⟩
    · rintro _ _ j _ q d width heq hpos' hw
      obtain ⟨rfl, rfl⟩ := List.cons.inj heq
      obtain ⟨rfl, -⟩ := List.cons.inj (hpos.symm.trans hpos')
      obtain ⟨bytes, hpoints, st, name, hown, hname, ⟨f, hs⟩, hhome⟩ := hstands.stores q d width hw
      refine ⟨st, name, _, hown, hname, hhome, rfl, ?_, mem_slotsOf hhome,
        Visit.pairwise_kept hfits hs (by rwa [shapeOf_scopesAfter]) habove⟩
      rw [hfits.points hknows hpoints]
      dsimp only
      omega

end Visits

/-! ### Programs -/

/-- Storage never overlaps.  A layout gives the declarations of a block slots of their own in the bytes
that it reserves.  Whenever procedures of a program are under way, what they keep shares no byte: return
addresses, saved frame pointers and registers, and the variables of all blocks around, parameters
included.  A store writes the bytes of the variable that its statement names, and nothing else. -/
theorem storage_apart (options : Options) (source : String) :
    (∀ (scope : Scope) (decls : List (NodeId × DataType)), (decls.map Prod.fst).Nodup →
      (scope.layOut decls).HasSlots decls) ∧
    ∀ tokens ast p, parse tokens = .ok ast → (generate options source ast).result = .ok p →
      ∃ rootTag procs, ast.root = some (.block rootTag procs) ∧
        (∃ n ls, ProgramCode options p.constants.strings [entryScope] procs 0 p.code n ls) ∧
        ∀ n ls, ProgramCode options p.constants.strings [entryScope] procs 0 p.code n ls →
          (∀ signature first, Starts procs p.code signature first →
            ∀ start position q, PointerWalk p.code (first, start) (position, q) →
              ∃ sh spot, Visit.Reached procs p.code ls ⟨signature, start, position, q, sh, spot⟩) ∧
          ∀ visits, Nested procs p.code ls visits → KeptApart visits := by
  refine ⟨fun scope _ hnodup => hasSlots_layOut scope hnodup, fun tokens ast p hparse hgen => ?_⟩
  obtain ⟨rootTag, procs, hroot, hwf⟩ := wellFormed_of_parse hparse
  obtain ⟨n, ls, -, hcode⟩ := programCode_of_generate hroot hwf hgen
  refine ⟨rootTag, procs, hroot, ⟨n, ls, hcode⟩, fun n ls hcode => ⟨?_, fun _ h => h.keptApart hcode hwf⟩⟩
  exact fun signature first h start position q hwalk => h.exists_reached hcode hwf hwalk

/-- A procedure waits at a call within a loop, and is called again from outside. -/
theorem storage_apart_call : ∃ tokens ast p procs n ls v w,
    tokenize "t.mc" loopText = .ok tokens ∧ parse tokens = .ok ast ∧
    (generate {} "t.mc" ast).result = .ok p ∧
    ProgramCode {} p.constants.strings [entryScope] procs 0 p.code n ls ∧ Nested procs p.code ls [v, w] ∧
    (∃ rest, w.position = .call "g" :: rest) ∧ (v.keeps ++ w.keeps).Pairwise Extent.Apart := by
  obtain ⟨tokens, ast, p, htokens, hparse, hgen, hwalk⟩ := loopText_walk
  obtain ⟨rootTag, procs, hroot, ⟨n, ls, hcode⟩, hall⟩ :=
    (storage_apart {} "t.mc").2 tokens ast p hparse hgen
  obtain ⟨tag, signature, body, first, rest, q, hmem, -, hext, hfirst, hwalk⟩ := hwalk rootTag procs hroot
  obtain ⟨hvisits, hapart⟩ := hall n ls hcode
  have hvisit := hvisits signature first ⟨tag, body, hmem, hext, hfirst⟩
  obtain ⟨sh, spot, hw⟩ := hvisit _ _ _ hwalk
  obtain ⟨sh', spot', hv⟩ := hvisit ⟨fun _ => q.rsp - 16 - 8 * signature.stackSlots, fun _ => 0⟩ _ _ .refl
  have hnested := Nested.inner hv ⟨"g", rest, rfl, .inr (by dsimp only [Pointers.rsp]; omega)⟩ (.outer hw)
  exact ⟨tokens, ast, p, procs, n, ls, _, _, htokens, hparse, hgen, hcode, hnested, ⟨rest, rfl⟩,
    by simpa using (hapart _ hnested).apart⟩

end Generation

end ProcLang
