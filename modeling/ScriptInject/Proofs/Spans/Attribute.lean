import ScriptInject.Proofs.Reading.TypeName
import ScriptInject.Proofs.Spans.Steps
/-! Names of types, annotations and parameters, by the rows that they lay. -/
namespace ScriptInject.Grammar
open Grammar.Parser

variable {α : Type} {i : Input} {ls : List Lexeme} {s t : State} {xs : List NodeId} {g : Nested}

/-- The node of what stands in brackets, if it has one of its own. -/
def BracketHead.ids : BracketHead → List NodeId
  | .type _ => []
  | .attributeSpec id => [id]

def Argument.id : Argument → NodeId
  | .positional id | .named id => id

theorem Argument.fills (type : TypeName) (as : List Argument) :
    (Node.attributeSpec type (as.filterMap positional?) (as.filterMap named?)).Fills
      (as.map Argument.id) := by
  constructor
  · change (as.filterMap positional? ++ as.filterMap named?).Perm (as.map Argument.id)
    induction as with
    | nil => exact .refl _
    | cons a as ih =>
      cases a with
      | positional id => exact ih.cons id
      | named id => exact List.perm_middle.trans (ih.cons id)
  · have hpositional : (as.filterMap positional?).Sublist (as.map Argument.id) := by
      induction as with
      | nil => exact .slnil
      | cons a as ih =>
        cases a with
        | positional id => exact ih.cons_cons id
        | named id => exact ih.cons id
    have hnamed : (as.filterMap named?).Sublist (as.map Argument.id) := by
      clear hpositional
      induction as with
      | nil => exact .slnil
      | cons a as ih =>
        cases a with
        | positional id => exact ih.cons id
        | named id => exact ih.cons_cons id
    simp [Node.runs, hpositional, hnamed]

/-- The rules that contain themselves lay a node each. -/
structure Laying (i : Input) (ls : List Lexeme) (g : Nested) : Prop where
  statement : LaysNode i ls g.statement
  expression : ∀ commas, LaysNode i ls (g.expression commas)
  unary : LaysNode i ls g.unary

theorem Standing.moves (hs : Standing i ls s) (h : s.Moves t) : Laid i ls s t [] := by
  obtain ⟨n, rfl⟩ := h
  exact hs.laid.advanceBy n

namespace Lays

theorem typeName : LaysNone i ls typeName := fun _ hs =>
  typeName_moves.mono (fun _ _ hu => (hs.moves hu).toLeaves) fun _ _ hu => hs.moves hu.1

theorem typeConstraint : LaysNode i ls typeConstraint := by
  intro s hs
  rw [Grammar.typeConstraint, Outcome.start_bind]
  refine hs.laid.expect fun _ => hs.laid.advance.bind typeName fun type t ht => ?_
  exact ht.expect fun hbehind => ht.advance.add hs hbehind (.inOrder rfl rfl)

theorem variableRef {path : String} (h : Laid i ls s t []) (hs : Standing i ls s)
    (hbehind : s.place.start i.text ≤ t.place.stop) :
    Outcome (variableRef path (s.place.start i.text)) i t (Spares i ls s)
      fun id u => Laid i ls s u [id] := by
  have hplain (path : String) := h.add hs hbehind (n := .variableRef path false) (.inOrder rfl rfl)
  rw [Grammar.variableRef]
  split
  · split
    · exact h.toLeaves
    · split
      · refine (hplain _).bind fun target u hu => ?_
        exact hu.add hs (hu.behind (by simp)) (.inOrder rfl rfl)
      · exact hplain _
  · exact hplain _

theorem bareVariable {expected : String} : LaysNode i ls (bareVariable expected) := by
  intro s hs
  rw [Grammar.bareVariable, Outcome.start_bind, Outcome.peek_bind]
  split
  · rename_i hcur
    rw [Outcome.advance_bind]
    exact variableRef hs.laid.advance hs (hs.laid.behind_advance hcur)
  · exact hs.laid.unexpected

variable (hg : Laying i ls g)
include hg

theorem annotationArgument : Lays i ls (fun a => [a.id]) (annotationArgument g) := by
  intro s hs
  have hlone {token : Token} (name : String) (hcur : s.place.current? = some token) :
      Outcome (do
        advance
        return Argument.named (← add (.namedArgument name none) (s.place.start i.text))) i s
        (Spares i ls s) fun a u => Laid i ls s u [a.id] := by
    rw [Outcome.advance_bind]
    refine (hs.laid.advance.add hs (hs.laid.behind_advance hcur) (.inOrder rfl rfl)).bind ?_
    exact fun id u hu => hu
  rw [Grammar.annotationArgument, Outcome.start_bind, Outcome.peek_bind, Outcome.peekNext_bind]
  split
  · rw [Outcome.advanceBy_bind, Outcome.skipNewlines_bind]
    refine ((hs.laid.advanceBy 2).past _).bind (hg.expression false) fun value t ht => ?_
    refine (ht.add hs (ht.behind (by simp)) (.inOrder rfl rfl)).bind ?_
    exact fun id u hu => hu
  · rename_i hcur _
    exact hlone _ hcur
  · rename_i hcur _
    exact hlone _ hcur
  · rename_i hcur _
    exact hlone _ hcur
  · exact hs.laid.bind (hg.expression false) fun id t ht => ht

/-- The closing bracket is behind. -/
theorem bracketHead (hs : Standing i ls s) :
    Outcome (bracketHead g) i s (Spares i ls s) fun head t =>
      Laid i ls s t head.ids ∧ s.place.start i.text ≤ t.place.stop := by
  rw [Grammar.bracketHead, Outcome.start_bind]
  refine hs.laid.expect fun _ => hs.laid.advance.bind typeName fun type t ht => ?_
  rw [Outcome.eat_ite]
  constructor
  · intro _
    refine (ht.advance.untilParen (annotationArgument hg)).bind ?_
    rintro as u ⟨hu, -⟩
    refine hu.expect fun hbehind => ?_
    refine (hu.advance.add hs hbehind ?_).bind fun id v hv => ⟨hv, hv.behind (by simp)⟩
    simpa using Argument.fills type as
  · intro _
    exact ht.expect fun hbehind => ⟨ht.advance, hbehind⟩

theorem parameterHead : LaysSome i ls (fun id => [id]) (parameterHead g) := by
  intro s hs
  rw [Grammar.parameterHead, Outcome.start_bind, Outcome.peek_bind]
  split
  · refine (bracketHead hg hs).bind fun head t ht => ?_
    have hskip {id : NodeId} {u : State} (hu : Laid i ls s u [id]) :
        Outcome (do skipNewlines; return some id) i u (Spares i ls s) fun o v =>
          Laid i ls s v (o.toList.flatMap fun id => [id]) := by
      rw [Outcome.skipNewlines_bind]
      exact hu.past _
    cases head with
    | attributeSpec id => exact hskip ht.1
    | type type => exact (ht.1.add hs ht.2 (.inOrder rfl rfl)).bind fun id u hu => hskip hu
  · exact hs.laid

theorem parameter : LaysNode i ls (parameter g) := by
  intro s hs
  rw [Grammar.parameter, Outcome.start_bind]
  refine hs.laid.bind (many (parameterHead hg)) fun annotations t ht => ?_
  refine ht.bind bareVariable fun name u hu => ?_
  rw [Outcome.eat_ite]
  constructor
  · intro _
    rw [Outcome.skipNewlines_bind]
    refine (hu.advance.past _).bind (hg.expression false) fun value v hv => ?_
    exact hv.add hs (hv.behind (by simp)) (.inOrder (by simp [Node.children]) rfl)
  · intro _
    exact hu.add hs (hu.behind (by simp)) (.inOrder (by simp [Node.children]) rfl)

/-- What the speculation has made may turn out to be of no use. -/
theorem annotationsUpTo (n : Nat) (hs : Standing i ls s) :
    Outcome (annotationsUpTo g n) i s (Spares i ls s) fun o t =>
      Leaves i ls s t ∧ ∀ ids, o = some ids → Laid i ls s t ids := by
  induction n generalizing s with
  | zero => exact .refl hs.tiled
  | succ n ih =>
    rw [Grammar.annotationsUpTo, Outcome.peek_bind]
    split
    · refine (attempt (bracketHead hg hs)).bind fun head t ht => ?_
      split
      · have hhead := (ht.1 _ rfl).1
        rw [Outcome.skipNewlines_bind]
        have hskip := hhead.past (· == .newline)
        refine ((ih hskip.standing).mono (fun _ _ hu => hskip.toLeaves.trans hu)
          fun _ _ hu => hu).bind ?_
        rintro o u ⟨hleaves, hlaid⟩
        refine ⟨hskip.toLeaves.trans hleaves, ?_⟩
        rintro ids hids
        obtain ⟨rest, rfl, rfl⟩ := Option.map_eq_some_iff.mp hids
        exact hskip.trans (hlaid rest rfl)
      · refine ⟨?_, by simp⟩
        cases head with
        | none => exact ht.2 rfl
        | some head => exact (ht.1 head rfl).1.toLeaves
    · exact ⟨.refl hs.tiled, fun ids hids => by rw [← Option.some.inj hids]; exact hs.laid⟩

theorem annotations (hs : Standing i ls s) :
    Outcome (Parser.speculatively (Grammar.annotations g)) i s (Spares i ls s) fun o t =>
      Leaves i ls s t ∧ ∀ ids, o = some ids → Laid i ls s t ids := by
  refine speculatively ?_
  rw [Grammar.annotations, Outcome.place_bind]
  have hstrict : Standing i ls { s with recovering := false } := ⟨hs.along, hs.tiled⟩
  refine (annotationsUpTo hg _ hstrict).imp fun o t ht => ?_
  refine ⟨⟨ht.1.grows, ht.1.tiled⟩, fun ids hids => ?_⟩
  have hlaid := ht.2 ids hids
  exact ⟨⟨hlaid.grows, hlaid.tiled⟩, hlaid.along, hlaid.onto, hlaid.row⟩

theorem paramBlock? : LaysSome i ls (fun id => [id]) (paramBlock? g) := by
  intro s hs
  rw [Grammar.paramBlock?, Outcome.place_bind, Outcome.start_bind]
  refine (annotations hg hs).bind ?_
  rintro found t ⟨hleaves, hlaid⟩
  rw [Outcome.atWord_bind, Outcome.place_bind]
  split
  · have ht := hlaid _ rfl
    rw [Outcome.advance_bind, Outcome.skipNewlines_bind]
    refine (ht.advance.past _).expect fun _ => ?_
    refine ((ht.advance.past _).advance.untilParen (parameter hg)).bind ?_
    rintro parameters u ⟨hu, hbehind⟩
    exact (hu.add hs hbehind (.inOrder (by simp [Node.children]) rfl)).bind fun id v hv => hv
  · rw [Outcome.goto_bind]
    exact Leaves.back ⟨hleaves.grows, hleaves.tiled⟩ hs rfl

end Lays

end ScriptInject.Grammar
