import ScriptInject.Proofs.Legible
import ScriptInject.Proofs.Reading.TypeName
/-! What the rules that contain themselves make, as the other rules rely on it. -/
namespace ScriptInject.Grammar
open Grammar.Parser ScriptInject.Tree

variable {ι : Type} {i : Input} {s t u : State} {ts us : List (Tree NodeId)} {x : Tree NodeId}
  {token : Token} {p q : Place} {phrase : Phrase} {id : NodeId} {n : Node (Tree NodeId)}

/-- A tree of some kind whose parts can be told from one another, lists without parentheses
included. -/
structure Parsed (phrase : Phrase) (x : Tree NodeId) : Prop where
  fits : x.Fits phrase
  placed : x.All (Placed isArray)

theorem Parsed.mk' (hf : Tree.Fits phrase (.mk id n)) (hn : Placed isArray n)
    (hc : ∀ c ∈ n.children, c.All (Placed isArray)) : Parsed phrase (.mk id n) :=
  ⟨hf, all_mk.mpr ⟨hn, hc⟩⟩

theorem Parsed.lift {phrase' : Phrase} (h : Parsed phrase x)
    (hf : ∀ {y : Tree NodeId}, y.Fits phrase → y.Fits phrase') : Parsed phrase' x :=
  ⟨hf h.fits, h.placed⟩

/-- The phrase begins like the token at a place. -/
def LeadsAt (p : Place) (lead : Lead) : Prop :=
  ∃ token, p.current? = some token ∧ lead = token.lead

/-- The marks that go on with an operand right behind it. -/
def isAccess : Token → Bool
  | .mark m =>
    match m with
    | .dot | .colonColon | .questionDot | .lbracket | .questionBracket | .plusPlus | .minusMinus =>
      true
    | _ => false
  | _ => false

/-- An operand would go on at the place. -/
def Place.AccessAhead (p : Place) : Prop :=
  p.isAdjacent = true ∧ ∃ token, p.current? = some token ∧ isAccess token = true

/-- Behind the phrase stands nothing that it would go on with. -/
structure Met (e : Ending) (q : Place) : Prop where
  type : e.type = true → ∀ token, q.current? = some token → startsOperand token = false
  member : e.member = true → ¬ (q.current? = some (.mark .lparen) ∧ q.isAdjacent = true)
  word : e.word = true → ∃ w, q.last?.map (·.token) = some (.word w)

theorem met_none : Met {} q := ⟨nofun, nofun, nofun⟩

/-- An operand, from its first token to the place behind it. -/
structure OperandAt (p : Place) (x : Tree NodeId) (q : Place) : Prop where
  parsed : Parsed (.level 7) x
  leads : LeadsAt p x.lead
  met : Met x.ending q
  closed : ¬ q.AccessAhead
  word : x.isWord = true → q = p.advance

structure ExpressionAt (p : Place) (x : Tree NodeId) (q : Place) : Prop where
  parsed : Parsed .expression x
  leads : x.lead = .paren ∨ LeadsAt p x.lead
  word : x.isWord = true → q = p.advance

/-- The tokens of a call by its name, up to the first argument. -/
def Opens (p : Place) (x : Tree NodeId) : Prop :=
  ∀ name others, x.call? = some (name, others) → ∃ token value, p.current? = some token ∧
    name.node = .stringConstant value .bareWord ∧ IsBareWord token value ∧
    ∀ y, others.head? = some y → (Token.word value).Occurs →
      ∃ next, p.next? = some next ∧
        (y.lead = .paren → next.lead = .paren ∨ y.isArray = true) ∧
        (y.lead = .brace → next.lead = .brace) ∧
        ∀ v, y.node = .stringConstant v .bareWord → IsBareWord next v

structure StatementAt (p : Place) (x : Tree NodeId) : Prop where
  parsed : Parsed .statement x
  opens : Opens p x
  begins : x.Begins isArray

/-- The rules that contain themselves make what they should. -/
structure Sound (g : Nested) : Prop where
  statement : ∀ {i s t ts}, Made i s t ts →
    Outcome g.statement i t (Lost s) (Yields i s ts fun x _ => StatementAt t.place x)
  expression : ∀ {i s t ts} (commas : Bool), Made i s t ts →
    Outcome (g.expression commas) i t (Lost s) (Yields i s ts (ExpressionAt t.place))
  unary : ∀ {i s t ts}, Made i s t ts →
    Outcome g.unary i t (Lost s) (Yields i s ts (OperandAt t.place))

/-- A tree on its own is a list of trees. -/
theorem Yields.adds {R : Tree NodeId → Place → Prop} {T : Tree NodeId → Prop}
    {p : Parser NodeId} {ts : List (Tree NodeId)} (h : Outcome p i t (Lost s) (Yields i s ts R))
    (hr : ∀ x q, R x q → T x) :
    Outcome p i t (Lost s)
      (Adds i s ts fun id xs _ => ∃ x, xs = [x] ∧ x.label = id ∧ T x) :=
  h.imp fun _ _ ⟨x, hx, hid, hxr⟩ => ⟨[x], hx, x, rfl, hid, hr _ _ hxr⟩

/-- A tree that may be left out. -/
theorem Yields.optional {R : Tree NodeId → Place → Prop} {T : Tree NodeId → Prop}
    {p : Parser NodeId} {ts : List (Tree NodeId)} (h : Outcome p i t (Lost s) (Yields i s ts R))
    (hr : ∀ x q, R x q → T x) :
    Outcome (some <$> p) i t (Lost s)
      (fun o u => ∃ y : Option (Tree NodeId), Made i s u (ts ++ y.toList) ∧
        y.map Tree.label = o ∧ ∀ x, y = some x → T x) :=
  h.map fun _ _ ⟨x, hx, hid, hxr⟩ => ⟨some x, hx, congrArg some hid, fun y hy => by
    rw [← Option.some.inj hy]
    exact hr _ _ hxr⟩

end ScriptInject.Grammar
