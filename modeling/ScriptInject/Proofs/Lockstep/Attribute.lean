import ScriptInject.Proofs.Lockstep.TypeName
/-! Variables, annotations and parameters, read twice. -/
namespace ScriptInject.Grammar

def BracketHead.map (f : NodeId → NodeId) : BracketHead → BracketHead
  | .type t => .type t
  | .attributeSpec id => .attributeSpec (f id)

def Argument.map (f : NodeId → NodeId) : Argument → Argument
  | .positional id => .positional (f id)
  | .named id => .named (f id)

theorem Argument.filterMap_positional? (f : NodeId → NodeId) (as : List Argument) :
    (as.map (map f)).filterMap positional? = (as.filterMap positional?).map f := by
  rw [List.filterMap_map, List.map_filterMap]
  exact congrArg (as.filterMap ·) (funext fun a => by cases a <;> rfl)

theorem Argument.filterMap_named? (f : NodeId → NodeId) (as : List Argument) :
    (as.map (map f)).filterMap named? = (as.filterMap named?).map f := by
  rw [List.filterMap_map, List.map_filterMap]
  exact congrArg (as.filterMap ·) (funext fun a => by cases a <;> rfl)

/-- The rules that contain themselves go on in lockstep. -/
structure Paired (σ : Alignment) (g : Nested) : Prop where
  statement : ∀ {P}, Lockstep σ P σ.id g.statement g.statement Any
  expression : ∀ {P} commas, Lockstep σ P σ.id (g.expression commas) (g.expression commas) Stood
  unary : ∀ {P}, Lockstep σ P σ.id g.unary g.unary Stood

namespace Lockstep

variable {σ : Alignment} {P : State → Prop} {g : Nested}

theorem variableRef {path : String} {start : Nat} (hP : ∀ s, P s → Begun s) :
    Lockstep σ P σ.id (variableRef path start) (variableRef path (start + σ.offset)) Stood := by
  simp only [Grammar.variableRef]
  split
  · split
    · exact throw rfl
    · split
      · exact bind (addStood rfl hP) fun target => addStood rfl fun _ hs => hs.begun
      · exact addStood rfl hP
  · exact addStood rfl hP

theorem bareVariable {expected : String} :
    Lockstep σ P σ.id (bareVariable expected) (bareVariable expected) Any := by
  rw [Grammar.bareVariable]
  refine start_bind fun start => peek_bind fun t => ?_
  split
  · exact advance_bind ((variableRef fun _ hs => Read.begun hs).imp fun _ _ _ => trivial)
  · exact unexpected

variable (hg : Paired σ g)
include hg

theorem annotationArgument : Lockstep σ P (Argument.map σ.id) (annotationArgument g)
    (annotationArgument g) Any := by
  rw [Grammar.annotationArgument]
  refine start_bind fun start => peek_bind fun t => peekNext_bind fun u => ?_
  have hnone (name : String) : Lockstep σ (fun s => P s ∧ s.place.current? = t) (Argument.map σ.id)
      (do Parser.advance; return .named (← Parser.add (.namedArgument name none) start))
      (do Parser.advance; return .named (← Parser.add (.namedArgument name none) (start + σ.offset)))
      Any :=
    advance_bind (bind (add rfl) fun id => pure rfl fun _ _ => trivial)
  split
  · refine advanceBy_bind (skipNewlines_bind (bind (hg.expression false) fun value => ?_))
    exact bind (add rfl) fun id => pure rfl fun _ _ => trivial
  · exact hnone _
  · exact hnone _
  · exact hnone _
  · exact bind (hg.expression false) fun id => pure rfl fun _ _ => trivial

theorem bracketHead : Lockstep σ P (BracketHead.map σ.id) (bracketHead g) (bracketHead g)
    fun _ => Begun := by
  rw [Grammar.bracketHead]
  refine start_bind fun start => expect_bind (bind typeName fun t => eat_ite ?_ ?_)
  · refine bind (untilParen (annotationArgument hg)) fun arguments => expect_bind ?_
    refine bind (addStood ?_ fun _ hs => hs.begun) fun id => pure rfl fun _ hs => hs.begun
    rw [Argument.filterMap_positional?, Argument.filterMap_named?]
    rfl
  · exact expect_bind (pure rfl fun _ hs => hs.begun)

theorem parameterHead :
    Lockstep σ P (Option.map σ.id) (parameterHead g) (parameterHead g) Any := by
  rw [Grammar.parameterHead]
  refine start_bind fun start => peek_bind fun t => ?_
  split
  · refine bind (bracketHead hg) fun head => ?_
    have hskip {Q : NodeId → State → Prop} (id : NodeId) : Lockstep σ (Q id) (Option.map σ.id)
        (do Parser.skipNewlines; return some id) (do Parser.skipNewlines; return some (σ.id id))
        Any :=
      skipNewlines_bind (pure rfl fun _ _ => trivial)
    cases head with
    | attributeSpec id => exact bind (Q := Any) (f := σ.id) (pure rfl fun _ _ => trivial) hskip
    | type t => exact bind (add rfl) hskip
  · exact pure rfl fun _ _ => trivial

theorem parameter : Lockstep σ P σ.id (parameter g) (parameter g) Any := by
  rw [Grammar.parameter]
  refine start_bind fun start => bind (manyAny (parameterHead hg)) fun annotations => ?_
  refine bind bareVariable fun name => eat_ite ?_ (add rfl)
  exact skipNewlines_bind (bind (hg.expression false) fun value => add rfl)

theorem annotationsUpTo (n : Nat) :
    Lockstep σ (fun s => s.recovering = false) (Option.map (List.map σ.id)) (annotationsUpTo g n)
      (annotationsUpTo g n) Any := by
  induction n with
  | zero => exact throw rfl
  | succ n ih =>
    rw [Grammar.annotationsUpTo]
    refine peek_bind fun t => ?_
    split
    · refine bind (attempt (bracketHead hg) fun _ hs => hs.1) fun head => ?_
      rcases head with _ | _ | id
      · exact pure rfl fun _ _ => trivial
      · exact pure rfl fun _ _ => trivial
      · refine skipNewlines_bind ?_
        refine bind (ih.weaken ?_) fun ids => pure ?_ fun _ _ => trivial
        · rintro _ ⟨hs⟩
          exact hs
        · cases ids <;> rfl
    · exact pure rfl fun _ _ => trivial

theorem annotations :
    Lockstep σ (fun s => s.recovering = false) (Option.map (List.map σ.id)) (annotations g)
      (annotations g) Any := by
  rw [Grammar.annotations]
  refine place_bind fun p => ?_
  rw [show (σ.place p).rest.length = p.rest.length from List.length_map _]
  exact (annotationsUpTo hg _).weaken fun _ hs => hs.1

theorem paramBlock? :
    Lockstep σ P (Option.map σ.id) (paramBlock? g) (paramBlock? g) Any := by
  rw [Grammar.paramBlock?]
  refine place_bind fun before => start_bind fun start => ?_
  refine bind (speculatively (annotations hg)) fun found => atWord_bind fun word => ?_
  refine place_bind fun p => ?_
  rw [Place.nextSignificant?_place]
  have hback : Lockstep σ (fun s => Any found s ∧ s.place = p) (Option.map σ.id)
      (do Parser.goto before; return none) (do Parser.goto (σ.place before); return none) Any :=
    goto_bind (pure rfl fun _ _ => trivial)
  cases found with
  | none => exact hback
  | some annotations =>
    simp only [Option.map_some]
    split
    · rename_i hsome hnext
      obtain rfl := Option.some.inj hsome
      rw [hnext]
      refine advance_bind (skipNewlines_bind (expect_bind ?_))
      refine bind (untilParen (parameter hg)) fun parameters => ?_
      exact bind (add rfl) fun id => pure rfl fun _ _ => trivial
    · rename_i hnot
      split
      · rename_i hnext
        exact absurd hnext (hnot _ rfl rfl)
      · exact hback

end Lockstep

end ScriptInject.Grammar
