import ScriptInject.Proofs.Widening.Steps
import ScriptInject.Proofs.Lockstep.Attribute
/-! Types, variables, annotations and parameters, with and without room to spare. -/
namespace ScriptInject.Grammar

/-- Only the id of an annotation depends on the arena. -/
def BracketHead.veiled : BracketHead → BracketHead := .map fun _ => 0

/-- Where annotations are looked for, one of them is refused. -/
inductive Refused (i : Input) (g : Nested) : State → State → Prop
  | here {s t e} : s.place.current? = some (.mark .lbracket) →
      bracketHead g i s = .error (.refused e) t → Refused i g s t
  | later {s t u id} : s.place.current? = some (.mark .lbracket) →
      bracketHead g i s = .ok (.attributeSpec id) t →
      Refused i g { t with place := t.place.past (· == .newline) } u → Refused i g s u

/-- The run fails, and is no recovering one. -/
def Hopeless {α : Type} (p : Parser α) (i : Input) (s : State) : Prop :=
  Outcome p i s (fun _ t => t.recovering = false) fun _ _ => False

/-- The rules that contain themselves succeed in the second reading where they do in the first
one. -/
structure Widened (σ : Widening) (g g' : Nested) : Prop where
  statement : Widens σ veiled g.statement g'.statement
  expression : ∀ commas, Widens σ veiled (g.expression commas) (g'.expression commas)
  unary : Widens σ veiled g.unary g'.unary
  /-- Where an annotation is refused, so are the statements that are read there instead, unless no
  id is left. -/
  refused : ∀ {s t}, Refused σ.narrow g s t → s.depth = σ.depth → s.recovering = false →
    t.arena.Full ∨ ∀ {u closer}, u.place = s.place → u.depth = s.depth → u.recovering = false →
      Hopeless (blocks g closer) σ.narrow u

namespace Widens

variable {σ : Widening}

/-! Names of types. -/

theorem dottedName : Widens σ id dottedName dottedName := by
  rw [Grammar.dottedName]
  refine peek_bind fun t => ?_
  split
  · refine advance_bind (bind (f := List.map id) (many ?_) fun others others' h => ?_)
    · refine peek_bind fun t => peekNext_bind fun u => ?_
      split
      · exact advanceBy_bind (pure (.refl _))
      · exact pure (.refl _)
    · obtain rfl : others = others' := by simpa using h.shape
      exact pure (.refl _)
  · exact unexpected

section TypeName

variable {p : Parser TypeName} (hp : Widens σ id p p)
include hp

theorem typeArgument : Widens σ id (typeArgument p) (typeArgument p) := by
  rw [Grammar.typeArgument]
  exact eat_ite (bindEq hp fun t => expect_bind (pure (.refl _))) hp

theorem typeBracket (t : TypeName × Nat) :
    Widens σ (Option.map id) (typeBracket p t) (typeBracket p t) := by
  rw [Grammar.typeBracket]
  refine peek_bind fun _ => ?_
  split
  · refine peekNext_bind fun _ => ?_
    split
    · exact advanceBy_bind (pure (.refl _))
    · exact start_bind fun _ => refuse
    · refine advance_bind (bindEq (typeArgument hp) fun first => ?_)
      refine bind (afterCommas (typeArgument hp)) fun others others' h => ?_
      obtain rfl : others = others' := by simpa using h.shape
      exact expect_bind (pure (.refl _))
    · exact pure (.refl _)
  · exact pure (.refl _)

end TypeName

theorem typeNameUpTo (n : Nat) : Widens σ id (typeNameUpTo n) (typeNameUpTo n) := by
  induction n with
  | zero => exact throw
  | succ n ih =>
    rw [Grammar.typeNameUpTo]
    refine bindEq dottedName fun name => bindEq (iterate (fun t t' h => ?_) (.refl _)) fun t => ?_
    · obtain rfl : t = t' := h.shape
      exact typeBracket ih t
    · exact pure (.refl _)

theorem typeName : Widens σ id typeName typeName := by
  rw [Grammar.typeName]
  exact place_bind fun p => typeNameUpTo _

theorem typeConstraint : Widens σ veiled typeConstraint typeConstraint := by
  rw [Grammar.typeConstraint]
  refine start_bind fun start => expect_bind (bindEq typeName fun t => expect_bind ?_)
  exact add fun _ => rfl

/-! Variables. -/

theorem variableRef {path : String} {start : Nat} :
    Widens σ veiled (variableRef path start) (variableRef path start) := by
  simp only [Grammar.variableRef]
  split
  · split
    · exact throw
    · split
      · exact bind (add fun _ => rfl) fun target target' h => add fun he => by rw [h.eq he]
      · exact add fun _ => rfl
  · exact add fun _ => rfl

theorem bareVariable {expected : String} :
    Widens σ veiled (bareVariable expected) (bareVariable expected) := by
  rw [Grammar.bareVariable]
  refine start_bind fun start => peek_bind fun t => ?_
  split
  · exact advance_bind variableRef
  · exact unexpected

/-! Annotations and parameters. -/

variable {g g' : Nested} (hg : Widened σ g g')
include hg

theorem annotationArgument : Widens σ veiled (annotationArgument g) (annotationArgument g') := by
  rw [Grammar.annotationArgument, Grammar.annotationArgument]
  refine start_bind fun start => peek_bind fun t => peekNext_bind fun u => ?_
  have hnone (name : String) : Widens σ veiled
      (do Parser.advance; return Argument.named (← Parser.add (.namedArgument name none) start))
      (do Parser.advance; return Argument.named (← Parser.add (.namedArgument name none) start)) :=
    advance_bind (bind (add fun _ => rfl) fun id id' h => pure (.veiled fun he => by rw [h.eq he]))
  split
  · refine advanceBy_bind (skipNewlines_bind (bind (hg.expression false) fun value value' h => ?_))
    refine bind (add fun he => by rw [h.eq he]) fun id id' h => ?_
    exact pure (.veiled fun he => by rw [h.eq he])
  · exact hnone _
  · exact hnone _
  · exact hnone _
  · exact bind (hg.expression false) fun id id' h => pure (.veiled fun he => by rw [h.eq he])

theorem bracketHead : Widens σ BracketHead.veiled (bracketHead g) (bracketHead g') := by
  rw [Grammar.bracketHead, Grammar.bracketHead]
  refine start_bind fun start => expect_bind (bindEq typeName fun t => eat_ite ?_ ?_)
  · refine bind (untilParen (annotationArgument hg)) fun arguments arguments' h => expect_bind ?_
    refine bind (add fun he => by rw [h.eq he]) fun id id' h => pure ⟨rfl, fun he => by rw [h.eq he]⟩
  · exact expect_bind (pure (.refl _))

theorem parameterHead : Widens σ (Option.map veiled) (parameterHead g) (parameterHead g') := by
  rw [Grammar.parameterHead, Grammar.parameterHead]
  refine start_bind fun start => peek_bind fun t => ?_
  split
  · refine bind (bracketHead hg) fun head head' h => ?_
    have hskip (id id' : NodeId) (h : σ.Same veiled id id') : Widens σ (Option.map veiled)
        (do Parser.skipNewlines; return some id) (do Parser.skipNewlines; return some id') :=
      skipNewlines_bind (pure h.some)
    cases head with
    | attributeSpec id =>
      cases head' with
      | attributeSpec id' =>
        refine bind (f := veiled) (pure (.veiled fun he => ?_)) hskip
        exact BracketHead.attributeSpec.inj (h.eq he)
      | type t => cases h.shape
    | type t =>
      cases head' with
      | attributeSpec id' => cases h.shape
      | type t' =>
        obtain rfl := BracketHead.type.inj h.shape
        exact bind (add fun _ => rfl) hskip
  · exact pure (.refl _)

theorem parameter : Widens σ veiled (parameter g) (parameter g') := by
  rw [Grammar.parameter, Grammar.parameter]
  refine start_bind fun start => bind (many (parameterHead hg)) fun annotations annotations' h => ?_
  refine bind bareVariable fun name name' hname => eat_ite ?_ (add fun he => ?_)
  · refine skipNewlines_bind (bind (hg.expression false) fun value value' hvalue => add fun he => ?_)
    rw [h.eq he, hname.eq he, hvalue.eq he]
  · rw [h.eq he, hname.eq he]

end Widens

end ScriptInject.Grammar
