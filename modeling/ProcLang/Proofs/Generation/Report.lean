import ProcLang.Proofs.Generation.Nodes
import ProcLang.Proofs.Generation.Outcome
import ProcLang.Proofs.Observer.Bracket

/-!
The reports of code generation.  Every node that it starts it ends, with the same number and place; in
between come the reports of what happens to the registers.
-/

namespace ProcLang

/-- The reports of code generation. -/
structure GeneratorBlock (events : List Event) : Prop where
  mode : ∀ event ∈ events, event.mode = .codegen
  bracketed : Bracketed (fun start stop => stop.node = start.node ∧ stop.span = start.span) events

namespace Generation

/-- The end of a node names the node and the place that its start names. -/
def Ends (_ : Nat) (start stop : Event) : Prop := stop.node = start.node ∧ stop.span = start.span

/-- Code generation ends the nodes that it starts. -/
theorem Built.nests {strict quiet : Prop} {o o' : Options} {α : Type} {names raws : List String}
    {x y : Gen α} (h : Built strict quiet o o' names raws x y) : ∀ (s : State) (opened : List Event) (n : Nat), s.Good strict →
      Stage.Nests Mark.event? Ends x s opened n fun _ _ nodes _ => nodes = opened := by
  have hplain : ∀ {β : Type} {V : β → Prop} {raws : List String} {x : Gen β} {s : State},
      Step strict quiet raws V x → s.Good strict → ∀ p ∈ (x s).marks, ∀ event, p.1.event? = some event →
      event.happening ≠ .nodeStart ∧ event.happening ≠ .nodeEnd := by
    intro β V raws x s hx hs p hp event hevent
    have hmark := ((hx.gives s hs).marks hp).1
    obtain ⟨m, s'⟩ := p
    cases m with
    | event e =>
      obtain rfl := Option.some.inj hevent
      exact hmark.2
    | instr i => cases hevent
  induction h with
  | plain hx => exact fun s opened n hs => Stage.nests_of_forall (hplain hx hs) fun _ _ => rfl
  | fail _ | annotate | addExtern _ => exact fun s opened n _ => ⟨opened, n, .nil, fun _ _ => rfl⟩
  | given hx _ ih =>
    intro s opened n hs
    refine Stage.nests_bind (Stage.nests_of_forall (hplain hx hs) fun a ha => ?_)
    obtain ⟨hv, hs', _⟩ := (hx.gives s hs).value ha
    exact ih a hv _ opened n hs'
  | bind hx _ ihx ihf =>
    intro s opened n hs
    obtain ⟨nodes, m, hleads, hvalue⟩ := ihx s opened n hs
    refine Stage.nests_bind ⟨nodes, m, hleads, fun a ha => ?_⟩
    obtain rfl := hvalue a ha
    exact ihf a _ _ m ((hx.ensures s hs).value ha).1
  | node tag kind _ ih =>
    intro s opened n hs
    refine Stage.nests_bind (Stage.nests_start rfl rfl ?_)
    obtain ⟨nodes, m, hleads, hvalue⟩ := ih s _ n hs
    refine Stage.nests_bind ⟨nodes, m, hleads, fun a ha => ?_⟩
    obtain rfl := hvalue a ha
    refine Stage.nests_bind (Stage.nests_stop rfl rfl ⟨rfl, rfl⟩ ?_)
    exact ⟨opened, m + 1, .nil, fun _ _ => rfl⟩
  | comment _ =>
    intro s opened n _
    unfold Generation.comment
    split
    · exact ⟨opened, n, .nil, fun _ _ => rfl⟩
    · exact ⟨opened, n, .nil, fun _ _ => rfl⟩
  | check =>
    intro s opened n hs
    unfold Stage.Nests
    rw [checkRegisters_of_good hs]
    exact ⟨opened, n, .nil, fun _ _ => rfl⟩

/-- Code generation reports nodes, and does not end itself by a cancellation. -/
theorem reported_generate (options : Options) (source : String) (ast : Ast) :
    Reported (fun _ => GeneratorBlock) ((generate options source ast).result.map fun _ => ())
        ((generate options source ast).marks.filterMap (·.1.event?)) ∧
      (generate options source ast).result ≠ .error .cancelled := by
  have hmode : ∀ event ∈ (generate options source ast).marks.filterMap (·.1.event?),
      event.mode = .codegen := by
    intro event hevent
    obtain ⟨p, hp, hsome⟩ := List.mem_filterMap.mp hevent
    exact mode_of_mem_generate hp hsome
  obtain ⟨names, hbuilt⟩ := exists_built_program options options ast
  obtain ⟨nodes, n, hleads, hvalue⟩ := hbuilt.nests {} [] 0 good_init
  rw [result_generate]
  cases hresult : (program options ast {}).result with
  | ok u =>
    obtain rfl := hvalue u hresult
    exact ⟨⟨hmode, hleads.bracketed fun _ _ _ h => h⟩, fun h => by cases h⟩
  | error e =>
    refine ⟨?_, fun h => (hbuilt.ensures {} good_init).error hresult (Except.error.inj h)⟩
    have hstop : ∀ (n : Nat) (start : Event), ∃ stop : Event, stop.mode = .codegen ∧
        stop.happening = .nodeEnd ∧ Ends n start stop := fun n start =>
      ⟨{ mode := .codegen, happening := .nodeEnd, span := start.span, node := start.node }, rfl, rfl, rfl, rfl⟩
    obtain ⟨rest, n', hrest, hclosed⟩ := exists_leads_nil hstop nodes n
    refine ⟨(), rest, fun event hevent => ?_, (hleads.append hclosed).bracketed fun _ _ _ h => h⟩
    exact (List.mem_append.mp hevent).elim (hmode event) (hrest event)

end Generation

end ProcLang
