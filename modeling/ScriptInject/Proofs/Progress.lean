import ScriptInject.Proofs.Coverage.Script
/-! Readings come to an end: each round of each repetition reads a token, and a reading never leaves
the tokens of its text. Going back is for rules as a whole, so the measure of a repetition is the
number of tokens read between two of its rounds. -/
namespace ScriptInject

namespace Grammar
open Grammar.Parser

variable {α β : Type} {i : Input} {ls : List Lexeme} {n k d : Nat} {s t u : State}
  {r : Parser α} {counts : α → Prop} {ready : Nat → State → Prop} {ts : List (Tree NodeId)}

/-- A reading that stands behind `k` of the tokens and may nest `n` levels deeper. -/
structure Underway (i : Input) (ls : List Lexeme) (n k : Nat) (s : State) : Prop
    extends Held i ls s where
  le : k ≤ ls.length
  rest : s.place.rest = ls.drop k
  tidy : s.arena.Tidy
  depth : s.depth + n = i.maxDepth

/-- Where it can start, the rule comes to an end among the tokens, and behind one token more at least
if its result counts. -/
def AdvancesFrom (ready : Nat → State → Prop) (i : Input) (ls : List Lexeme) (n : Nat)
    (r : Parser α) (counts : α → Prop) : Prop :=
  ∀ k s, Underway i ls n k s → ready k s → Outcome r i s
    (fun f t => f ≠ .stalled ∧ ∃ m, Underway i ls n m t)
    fun a t => ∃ m, Underway i ls n m t ∧ k ≤ m ∧ (counts a → k < m)

/-- The rule can start anywhere. -/
abbrev Advances (i : Input) (ls : List Lexeme) (n : Nat) (r : Parser α) (counts : α → Prop) : Prop :=
  AdvancesFrom (fun _ _ => True) i ls n r counts

namespace Underway

theorem left (h : Underway i ls n k s) : s.place.left = ls.length - k := by
  rw [Place.left, h.rest, List.length_drop]

theorem steady (h : Underway i ls n k s) : Steady i s.depth (nested n) := steady_nested h.depth.symm

theorem grown (h : Underway i ls n k s) : Grown s.depth s s [] := .start h.tidy rfl

/-- The tokens that are to come tell how many have been read. -/
theorem after (h : Underway i ls n k s) (ht : Preserves i ls s t) (hs : Stays s.depth s t) :
    Underway i ls n (ls.length - t.place.left) t where
  toHeld := ht.toHeld
  le := Nat.sub_le _ _
  rest := by
    obtain ⟨done, rfl, -⟩ := ht.along.split
    rw [Place.left, List.length_append, Nat.add_sub_cancel, List.drop_left]
  tidy := hs.tidy
  depth := by
    rw [hs.depth]
    exact h.depth

theorem start (hlined : Lexeme.Lined i.text ls) (recovering : Bool) :
    Underway i ls i.maxDepth 0 { place := { rest := ls }, recovering } where
  along := ⟨hlined, [], rfl, rfl⟩
  intact := Arena.intact_empty
  le := Nat.zero_le _
  rest := rfl
  tidy := Arena.tidy_empty
  depth := Nat.zero_add _

end Underway

/-- A run that keeps the arena as it should, and that has fewer tokens to come if its result
counts. -/
def Nears (s : State) (counts : α → Prop) (a : α) (t : State) : Prop :=
  Stays s.depth s t ∧ t.place.left ≤ s.place.left ∧ (counts a → t.place.left < s.place.left)

theorem Nears.of_bears {id : NodeId} {counts : NodeId → Prop}
    (h : Bears s.depth s [] (Plain s.place) id t) : Nears s counts id t := by
  obtain ⟨x, ht, -, -, hlt⟩ := h
  exact ⟨ht.toStays, Nat.le_of_lt hlt, fun _ => hlt⟩

theorem Nears.of_gathers {a : α} {R : α → List (Tree NodeId) → Prop}
    (h : Gathers s.depth s [] (fun a xs q => q.left < s.place.left ∧ R a xs) a t) :
    Nears s counts a t := by
  obtain ⟨xs, ht, hlt, -⟩ := h
  exact ⟨ht.toStays, Nat.le_of_lt hlt, fun _ => hlt⟩

theorem Nears.of_gathers_some {o : Option α} {R : α → List (Tree NodeId) → Prop}
    (h : Gathers s.depth s [] (fun o xs q => q.left ≤ s.place.left ∧ (o = none → xs = []) ∧
      ∀ a, o = some a → q.left < s.place.left ∧ R a xs) o t) : Nears s (·.isSome) o t := by
  obtain ⟨xs, ht, hle, -, hsome⟩ := h
  refine ⟨ht.toStays, hle, fun ho => ?_⟩
  obtain ⟨a, rfl⟩ := Option.isSome_iff_exists.mp ho
  exact (hsome a rfl).1

theorem nears_none (h : Stays s.depth s s) : Nears s (·.isSome) (none : Option α) s :=
  ⟨h, Nat.le_refl _, by simp⟩

theorem Outcome.some_nears (h : Outcome r i t (Fails s.depth s) (Nears s fun _ => True)) :
    Outcome (do return some (← r)) i t (Fails s.depth s) (Nears s (·.isSome)) :=
  h.bind fun _ _ ⟨ht, hle, hlt⟩ => ⟨ht, hle, fun _ => hlt trivial⟩

theorem AdvancesFrom.of_nears (hkeeps : Keeps i ls r)
    (hrun : ∀ k s, Underway i ls n k s → ready k s →
      Outcome r i s (Fails s.depth s) (Nears s counts)) :
    AdvancesFrom ready i ls n r counts := by
  intro k s hs hready
  have hle := hs.le
  have hleft := hs.left
  refine ((hkeeps s hs.toHeld).and (hrun k s hs hready)).mono ?_ ?_
  · rintro f t ⟨ht, hf, hstays⟩
    exact ⟨hf, _, hs.after ht hstays⟩
  · rintro a t ⟨ht, hstays, hle', hlt⟩
    refine ⟨_, hs.after ht hstays, by omega, fun ha => ?_⟩
    have := hlt ha
    omega

/-- A rule that makes a tree has read a token of it. -/
theorem Advances.of_bears {r : Parser NodeId} {counts : NodeId → Prop} (hkeeps : Keeps i ls r)
    (hrun : ∀ {s}, Steady i s.depth (nested n) → Grown s.depth s s [] →
      Outcome r i s (Fails s.depth s) (Bears s.depth s [] (Plain s.place))) :
    Advances i ls n r counts :=
  .of_nears hkeeps fun _ _ hs _ => (hrun hs.steady hs.grown).imp fun _ _ => .of_bears

/-- An item of a list that has been found has a token of its own. -/
theorem Advances.of_gathers {r : Parser (Option α)} {R : α → List (Tree NodeId) → Prop}
    (hkeeps : Keeps i ls r)
    (hrun : ∀ {s}, Steady i s.depth (nested n) → Grown s.depth s s [] →
      Outcome r i s (Fails s.depth s) (Gathers s.depth s [] fun o xs q =>
        q.left ≤ s.place.left ∧ (o = none → xs = []) ∧
          ∀ a, o = some a → q.left < s.place.left ∧ R a xs)) :
    Advances i ls n r (·.isSome) :=
  .of_nears hkeeps fun _ _ hs _ => (hrun hs.steady hs.grown).imp fun _ _ => .of_gathers_some

theorem Stays.isSome {id : NodeId} (h : Stays d s t) (hid : (s.arena.get? id).isSome) :
    (t.arena.get? id).isSome := by
  obtain ⟨node, hnode⟩ := Option.isSome_iff_exists.mp hid
  rw [h.grows.get? hnode]
  rfl

theorem Grown.isSome (h : Grown d s t ts) {x : Tree NodeId} (hx : x ∈ ts) :
    (t.arena.get? x.label).isSome := by
  rw [(h.held x hx).get?]
  rfl

/-- A node may stand on any nodes that there are. -/
theorem Stays.add {node : Node NodeId} {start : Nat} (h : Stays d s t)
    (hc : ∀ c ∈ node.children, (t.arena.get? c).isSome) :
    Outcome (Parser.add node start) i t (Fails d s)
      fun _ u => Stays d s u ∧ u.place = t.place := by
  rw [Parser.add, Outcome.place_bind, Parser.addAt, Outcome.get_bind]
  cases hadd : t.arena.add node (some ⟨start, max t.place.stop start⟩) with
  | error e => exact ⟨by simp, h⟩
  | ok r =>
    obtain ⟨id, a⟩ := r
    obtain ⟨-, ha⟩ := Arena.add_eq hadd
    have hroot : a.root? = s.arena.root? := by
      rw [ha]
      exact h.root
    exact ⟨⟨h.grows.trans (Arena.add_grows hadd h.tidy), Arena.add_tidy hadd h.tidy hc, hroot,
      h.recovering, h.depth⟩, rfl⟩

/-- The last step of a rule that has read a token. -/
theorem Stays.add_nears {node : Node NodeId} {start : Nat} {counts : NodeId → Prop}
    (h : Stays s.depth s t) (hc : ∀ c ∈ node.children, (t.arena.get? c).isSome)
    (hlt : t.place.left < s.place.left) :
    Outcome (Parser.add node start) i t (Fails s.depth s) (Nears s counts) := by
  refine (h.add hc).imp ?_
  rintro id u ⟨hu, hplace⟩
  rw [← hplace] at hlt
  exact ⟨hu, Nat.le_of_lt hlt, fun _ => hlt⟩

section Accesses

variable {g : Nested} {inner : Parser NodeId} {target : NodeId} {begin b : Nat}
  (hg : Steady i s.depth g) (hs : s.arena.Tidy) (hpos : 0 < s.place.left)
  (htarget : (s.arena.get? target).isSome)
include hs hpos htarget

theorem trailingUnary_nears {operator : UnaryOperator} :
    Outcome (trailingUnary begin operator target) i s (Fails s.depth s)
      (Nears s fun _ => True) := by
  have h : Grown s.depth s s [] := .start hs rfl
  rw [trailingUnary, Outcome.advance_bind]
  refine (h.goto _).toStays.add_nears ?_ (by grind)
  simpa [Node.children] using htarget

include hg

theorem indexAccess_nears {nullConditional : Bool} :
    Outcome (indexAccess g begin target nullConditional) i s (Fails s.depth s)
      (Nears s fun _ => True) := by
  have h : Grown s.depth s s [] := .start hs rfl
  rw [indexAccess, Outcome.advance_bind, Outcome.skipNewlines_bind]
  refine (hg.expression true (h.goto _)).bind ?_
  rintro _ u ⟨key, hu, rfl, -, hlt⟩
  rw [Outcome.skipNewlines_bind]
  refine (hu.goto _).expect fun _ => ?_
  refine (hu.goto _).toStays.add_nears ?_ (by grind)
  simp only [Node.children, List.mem_cons, List.not_mem_nil, or_false]
  rintro c (rfl | rfl)
  · exact hu.toStays.isSome htarget
  · exact hu.isSome (by simp)

variable (hinner : ∀ {s u us}, Grown d s u us → u.place.left < b →
  Outcome inner i u (Fails d s) (Bears d s us (Plain u.place)))
include hinner

theorem memberAccess_nears {isStatic nullConditional : Bool} (hd : s.depth = d)
    (hb : s.place.left ≤ b) :
    Outcome (memberAccess g inner begin target isStatic nullConditional) i s (Fails s.depth s)
      (Nears s fun _ => True) := by
  subst hd
  have h : Grown s.depth s s [] := .start hs rfl
  have hrest {name : NodeId} {u : State}
      (hu : Bears s.depth s [] (fun _ q => q.left < s.place.left) name u) :
      Outcome (do
        let p ← place
        if p.current? = some (.mark .lparen) ∧ p.isAdjacent then
          advance
          let arguments ← untilParen (g.expression false)
          add (.invokeMember target name arguments isStatic nullConditional) begin
        else add (.member target name isStatic nullConditional) begin) i u (Fails s.depth s)
        (Nears s fun _ => True) := by
    obtain ⟨y, hu, rfl, hlt⟩ := hu
    rw [Outcome.place_bind]
    split
    · rw [Outcome.advance_bind]
      refine ((hu.goto _).untilParen (R := IsPlain) fun hv _ => ?_).bind ?_
      · refine (Bears.item (hg.expression false hv)).imp ?_
        rintro id w ⟨xs, hw, hlt, hxs⟩
        exact ⟨xs, hw, Nat.le_of_lt hlt, hxs⟩
      · rintro ids v ⟨xs, hv, hle, hxs⟩
        obtain ⟨rfl, -⟩ := hxs.labels
        refine hv.toStays.add_nears ?_ (by grind)
        simp only [Node.children, List.mem_append, List.mem_cons, List.not_mem_nil, or_false,
          List.mem_map]
        rintro c ((rfl | rfl) | ⟨x, hx, rfl⟩)
        · exact hv.toStays.isSome htarget
        · exact hv.isSome (by simp)
        · exact hv.isSome (by simp [hx])
    · refine hu.toStays.add_nears ?_ hlt
      simp only [Node.children, List.mem_cons, List.not_mem_nil, or_false]
      rintro c (rfl | rfl)
      · exact hu.toStays.isSome htarget
      · exact hu.isSome (by simp)
  rw [memberAccess, Outcome.advance_bind, Outcome.start_bind, Outcome.peek_bind]
  split
  · rename_i w _
    rw [Outcome.advance_bind]
    exact ((h.goto _).addLeaf (R := fun _ q => q.left < s.place.left)
      (n := .stringConstant w .bareWord) rfl rfl rfl fun id => by grind).bind fun _ _ hu => hrest hu
  · refine (hinner (h.goto _) (by grind)).bind ?_
    rintro _ _ ⟨y, hu, hid, -, hlt⟩
    exact hrest ⟨y, hu, hid, by grind⟩

omit hpos in
theorem access_nears (hd : s.depth = d) (hb : s.place.left ≤ b) :
    Outcome (access g inner begin target) i s (Fails s.depth s) (Nears s (·.isSome)) := by
  have hnone := nears_none (α := NodeId) (Grown.start hs rfl).toStays
  rw [access, Outcome.place_bind]
  split
  · exact hnone
  · split
    · exact (memberAccess_nears hg hs (by grind) htarget hinner hd hb).some_nears
    · exact (memberAccess_nears hg hs (by grind) htarget hinner hd hb).some_nears
    · exact (memberAccess_nears hg hs (by grind) htarget hinner hd hb).some_nears
    · exact (indexAccess_nears hg hs (by grind) htarget).some_nears
    · exact (indexAccess_nears hg hs (by grind) htarget).some_nears
    · exact (trailingUnary_nears hs (by grind) htarget).some_nears
    · exact (trailingUnary_nears hs (by grind) htarget).some_nears
    · exact hnone

end Accesses

theorem errorStatement_nears {closer : Closer} (hs : s.arena.Tidy) (hpos : 0 < s.place.left) :
    Outcome (errorStatement closer) i s (Fails s.depth s) (Nears s fun _ => True) := by
  have h : Grown s.depth s s [] := .start hs rfl
  have hlength := errorLength_pos closer s.place.rest
  rw [errorStatement, Outcome.start_bind, Outcome.place_bind, Outcome.advanceBy_bind,
    Outcome.place_bind]
  refine Outcome.bind (P := fun _ t => Grown s.depth s t [] ∧ t.place.left < s.place.left)
    ((h.goto _).slice fun _ => ⟨h.goto _, by grind⟩) ?_
  rintro text t ⟨ht, hlt⟩
  exact ht.toStays.add_nears (by simp [Node.children]) hlt

theorem binaryStep_nears {operand : Parser NodeId} {precedence begin : Nat} {left : NodeId}
    (hs : s.arena.Tidy) (hleft : (s.arena.get? left).isSome)
    (hoperand : ∀ {u us}, Grown s.depth s u us →
      Outcome operand i u (Fails s.depth s) (Bears s.depth s us (Plain u.place))) :
    Outcome (binaryStep operand precedence begin left) i s (Fails s.depth s)
      (Nears s (·.isSome)) := by
  have h : Grown s.depth s s [] := .start hs rfl
  rw [binaryStep, Outcome.peek_bind]
  split
  · rename_i operator hoperator
    have hpos : 0 < s.place.left := by
      cases hcur : s.place.current? with
      | none => simp [hcur] at hoperator
      | some token => exact Place.left_pos hcur
    split
    · rw [Outcome.advance_bind, Outcome.skipNewlines_bind]
      refine (hoperand (h.goto _)).bind ?_
      rintro _ t ⟨y, ht, rfl, -, hlt⟩
      refine (ht.toStays.add_nears ?_ (by grind)).some_nears
      simp only [Node.children, List.mem_cons, List.not_mem_nil, or_false]
      rintro c (rfl | rfl)
      · exact ht.toStays.isSome hleft
      · exact ht.isSome (by simp)
    · exact nears_none h.toStays
  · exact nears_none h.toStays

/-! Rounds of repetitions that have no name of their own. -/

/-- An item after a mark, if the mark stands here. -/
def after? (m : Mark) (item : Parser α) : Parser (Option α) := do
  if ← eat m then
    return some (← item)
  return none

/-- A further word of a dotted name. -/
def segment? : Parser (Option String) := do
  match ← peek, ← peekNext with
  | some (.mark .dot), some (.word segment) =>
    advanceBy 2
    return some segment
  | _, _ => return none

theorem afterCommas_eq (item : Parser α) : afterCommas item = many (after? .comma item) := rfl

theorem dottedName_eq : dottedName = (do
    let some (.word first) ← peek | unexpected "type name"
    advance
    let others ← many segment?
    return ".".intercalate (first :: others)) := rfl

theorem pipelineFrom_eq (g : Nested) (start : Nat) (first : NodeId) :
    pipelineFrom g start first = (do
      let others ← many (after? .pipe (laterElement g))
      add (.pipeline (first :: others)) start) := rfl

namespace Underway

/-- A token that stands here is read. -/
theorem advance {token : Token} (h : Underway i ls n k s) (ht : s.place.current? = some token) :
    Underway i ls n (k + 1) { s with place := s.place.advance } := by
  have hpos := Place.left_pos ht
  have hleft := h.left
  have hstep := h.after (h.preserves.goto h.along.advance) (h.grown.goto _).toStays
  have hcount : ls.length - s.place.advance.left = k + 1 := by
    rw [Place.left_advance]
    have := h.le
    omega
  rwa [hcount] at hstep

theorem past (h : Underway i ls n k s) (f : Token → Bool) :
    ∃ m, Underway i ls n m { s with place := s.place.past f } ∧ k ≤ m := by
  refine ⟨_, h.after (h.preserves.goto (h.along.advanceBy _).1) (h.grown.goto _).toStays, ?_⟩
  have hleft := h.left
  have hle := h.le
  have hpast := Place.left_past (p := s.place) f
  dsimp only
  omega

end Underway

theorem AdvancesFrom.after? {m : Mark} {ready' : Nat → State → Prop}
    (h : AdvancesFrom ready' i ls n r counts)
    (hready : ∀ k s, ready k s → ready' (k + 1) { s with place := s.place.advance }) :
    AdvancesFrom ready i ls n (after? m r) (·.isSome) := by
  intro k s hs hr
  rw [Grammar.after?, Outcome.eat_ite]
  constructor
  · intro hmark
    refine (h (k + 1) _ (hs.advance hmark) (hready k s hr)).bind ?_
    rintro a t ⟨m, ht, hle, -⟩
    exact ⟨m, ht, by omega, fun _ => by omega⟩
  · intro _
    exact ⟨k, hs, Nat.le_refl k, nofun⟩

theorem Advances.skipNewlines (h : Advances i ls n r counts) :
    Advances i ls n (do skipNewlines; r) counts := by
  rintro k s hs -
  rw [Outcome.skipNewlines_bind]
  obtain ⟨m, hm, hle⟩ := hs.past (· == .newline)
  refine (h m _ hm trivial).imp ?_
  rintro a t ⟨l, ht, hle', hlt⟩
  refine ⟨l, ht, by omega, fun ha => ?_⟩
  have := hlt ha
  omega

theorem Advances.spaced (h : Advances i ls n r counts) : Advances i ls n (spaced r) counts := by
  intro k s hs _
  have hitem : Advances i ls n (do
      let a ← r
      Parser.skipNewlines
      return a) counts := by
    rintro k s hs -
    refine (h k s hs trivial).bind ?_
    rintro a t ⟨m, ht, hle, hlt⟩
    rw [Outcome.skipNewlines_bind]
    obtain ⟨l, hl, hle'⟩ := ht.past (· == .newline)
    refine ⟨l, hl, by omega, fun ha => ?_⟩
    have := hlt ha
    omega
  exact hitem.skipNewlines k s hs trivial

/-- A statement reads a token, a broken one as well, and so does each round of each repetition: the
statements of a list, named blocks, `using` statements, annotations and parameters, what stands
between commas, the elements of commands and pipelines, the pairs of a hashtable, clauses and
handlers, what is glued to an operand, binary operators, and the parts of a type. -/
structure Progressive (i : Input) (ls : List Lexeme) (n : Nat) : Prop where
  statement : Advances i ls n (nested n).statement fun _ => True
  expression : ∀ commas, Advances i ls n ((nested n).expression commas) fun _ => True
  unary : Advances i ls n (nested n).unary fun _ => True
  errorStatement : ∀ closer, AdvancesFrom (fun k _ => k < ls.length) i ls n
    (errorStatement closer) fun _ => True
  statements : ∀ closer, Advances i ls n (listedStatement (nested n) closer) (·.isSome)
  namedBlocks : Advances i ls n (listedNamedBlock (nested n)) (·.isSome)
  usings : Advances i ls n listedUsing (·.isSome)
  annotations : Advances i ls n (bracketHead (nested n)) fun _ => True
  parameterHeads : Advances i ls n (parameterHead (nested n)) (·.isSome)
  parameters : Advances i ls n (after? .comma (spaced (parameter (nested n)))) (·.isSome)
  annotationArguments :
    Advances i ls n (after? .comma (spaced (annotationArgument (nested n)))) (·.isSome)
  callArguments : Advances i ls n (after? .comma (spaced ((nested n).expression false))) (·.isSome)
  operands : Advances i ls n (after? .comma (do skipNewlines; (nested n).unary)) (·.isSome)
  commandElements : Advances i ls n (commandElement (nested n)) (·.isSome)
  pipelineElements : Advances i ls n (after? .pipe (laterElement (nested n))) (·.isSome)
  hashtablePairs : Advances i ls n (hashtablePair (nested n)) (·.isSome)
  clauses : Advances i ls n (afterWord? "elseif" (do advance; clause (nested n))) (·.isSome)
  catches : Advances i ls n (afterWord? "catch" (catchClause (nested n))) (·.isSome)
  caughtTypes : Advances i ls n typeConstraint fun _ => True
  accesses : ∀ begin target, AdvancesFrom (fun _ s => (s.arena.get? target).isSome) i ls n
    (access (nested n) (primary (nested n)) begin target) (·.isSome)
  typeAccesses : ∀ b begin target,
    AdvancesFrom (fun k s => ls.length ≤ k + b ∧ (s.arena.get? target).isSome) i ls n
      (access (nested n) (primaryUpTo (nested n) b) begin target) (·.isSome)
  operators : ∀ commas levels precedence begin left,
    AdvancesFrom (fun _ s => (s.arena.get? left).isSome) i ls n
      (binaryStep (binary (listOrOperand (nested n) commas) levels) precedence begin left) (·.isSome)
  segments : Advances i ls n segment? (·.isSome)
  typeBrackets : ∀ b t, AdvancesFrom (fun k _ => ls.length ≤ k + b) i ls n
    (typeBracket (typeNameUpTo b) t) (·.isSome)
  typeArguments : ∀ b, AdvancesFrom (fun k _ => ls.length ≤ k + b) i ls n
    (after? .comma (typeArgument (typeNameUpTo b))) (·.isSome)

namespace Keeps

variable {g : Nested} {closer : Closer}

theorem listedStatement (hg : Keeping i ls g) : Keeps i ls (listedStatement g closer) :=
  fun _ hs => (Complete.listedStatement hg hs).imp fun _ _ ht => ht.1.1

theorem listedNamedBlock (hg : Keeping i ls g) : Keeps i ls (listedNamedBlock g) :=
  fun _ hs => (Complete.listedNamedBlock hg hs).imp fun _ _ ht => ht.1

theorem listedUsing (hsolid : ∀ l ∈ ls, l.span.start < l.span.stop) : Keeps i ls listedUsing :=
  fun _ hs => (Complete.listedUsing hsolid hs).imp fun _ _ ht => ht.1

end Keeps

theorem advances_segment? : Advances i ls n segment? (·.isSome) := by
  refine .of_nears ?_ fun k s hs _ => ?_
  · refine Keeps.peek.bind fun t => Keeps.peekNext.bind fun t' => ?_
    split
    · exact (Keeps.advanceBy 2).bind fun _ => .pure _
    · exact .pure none
  · rw [segment?, Outcome.peek_bind, Outcome.peekNext_bind]
    split
    · rw [Outcome.advanceBy_bind]
      exact ⟨(hs.grown.goto _).toStays, by grind, fun _ => by grind⟩
    · exact nears_none hs.grown.toStays

/-- With a level of arguments for each token that is left, a type name ends. -/
theorem typeArgument_nears {b : Nat} (hs : Underway i ls n k s) (hb : ls.length < k + b) :
    Outcome (typeArgument (typeNameUpTo b)) i s (Fails s.depth s) (Nears s fun _ => True) := by
  have hleft := hs.left
  have hle := hs.le
  refine (typeArgument_passes hs.grown fun hu hle => typeNameUpTo_passes hu (by omega)).imp ?_
  rintro t u ⟨hu, hlt⟩
  exact ⟨hu.toStays, Nat.le_of_lt hlt, fun _ => hlt⟩

theorem typeBracket_nears {b : Nat} {t : TypeName × Nat} (hs : Underway i ls n k s)
    (hb : ls.length ≤ k + b) :
    Outcome (typeBracket (typeNameUpTo b) t) i s (Fails s.depth s) (Nears s (·.isSome)) := by
  have hleft := hs.left
  refine (typeBracket_passes hs.grown fun hu hlt => typeNameUpTo_passes hu (by omega)).imp ?_
  rintro o u ⟨hu, hnone, hsome⟩
  cases o with
  | none =>
    refine ⟨hu.toStays, ?_, by simp⟩
    rw [hnone rfl]
  | some r =>
    have hlt := hsome (by simp)
    exact ⟨hu.toStays, Nat.le_of_lt hlt, fun _ => hlt⟩

section Progressive

variable (hsolid : ∀ l ∈ ls, l.span.start < l.span.stop)
include hsolid

theorem progressive (i : Input) (n : Nat) : Progressive i ls n := by
  have hkeep : Keeping i ls (nested n) := keeping_nested hsolid n
  have hstatement : Advances i ls n (nested n).statement fun _ => True :=
    .of_bears hkeep.statement fun hg hs => hg.statement hs
  have hexpression (commas : Bool) :
      Advances i ls n ((nested n).expression commas) fun _ => True :=
    .of_bears (hkeep.expression commas) fun hg hs => hg.expression commas hs
  have hunary : Advances i ls n (nested n).unary fun _ => True :=
    .of_bears hkeep.unary fun hg hs => hg.unary hs
  have hparameter : Advances i ls n (parameter (nested n)) fun _ => True :=
    .of_bears (.parameter hkeep) parameter_bears
  have hargument : Advances i ls n (annotationArgument (nested n)) fun _ => True :=
    .of_nears (.annotationArgument hkeep) fun _ _ hs _ =>
      (annotationArgument_gathers hs.steady hs.grown).imp fun _ _ => .of_gathers
  have htype (b : Nat) : AdvancesFrom (fun k _ => ls.length < k + b) i ls n
      (typeArgument (typeNameUpTo b)) fun _ => True :=
    .of_nears (.typeArgument b) fun _ _ hs hb => typeArgument_nears hs hb
  have hlater : Advances i ls n (laterElement (nested n)) fun _ => True :=
    .of_bears (.laterElement hkeep) laterElement_bears
  exact
    { statement := hstatement
      expression := hexpression
      unary := hunary
      errorStatement := fun closer => .of_nears .errorStatement fun _ _ hs hlt =>
        errorStatement_nears hs.tidy (hs.left ▸ Nat.sub_pos_of_lt hlt)
      statements := fun closer => .of_gathers (.listedStatement hkeep) listedStatement_gathers
      namedBlocks := .of_gathers (.listedNamedBlock hkeep) listedNamedBlock_gathers
      usings := .of_gathers (.listedUsing hsolid) fun _ => listedUsing_gathers
      annotations := .of_nears (.bracketHead hkeep) fun _ _ hs _ =>
        (bracketHead_gathers hs.steady hs.grown).imp fun _ _ => .of_gathers
      parameterHeads := .of_gathers (.parameterHead hkeep) parameterHead_gathers
      parameters := hparameter.spaced.after? fun _ _ _ => trivial
      annotationArguments := hargument.spaced.after? fun _ _ _ => trivial
      callArguments := (hexpression false).spaced.after? fun _ _ _ => trivial
      operands := hunary.skipNewlines.after? fun _ _ _ => trivial
      commandElements := .of_gathers (.commandElement hkeep) commandElement_gathers
      pipelineElements := hlater.after? fun _ _ _ => trivial
      hashtablePairs := .of_gathers (.hashtablePair hkeep) hashtablePair_gathers
      clauses := .of_gathers (.afterWord? (.bind .advance fun _ => .clause hkeep))
        fun hg hs => laterClause_gathers hg hs
      catches := .of_gathers (.afterWord? (.catchClause hkeep)) fun hg hs =>
        laterCatch_gathers hg hs
      caughtTypes := .of_bears .typeConstraint fun _ => typeConstraint_bears
      accesses := fun begin target => .of_nears (.access hkeep (.primary hkeep) target)
        fun _ s hs htarget => access_nears (b := s.place.left) hs.steady hs.tidy htarget
          (fun hu _ => primary_bears hs.steady hu) rfl (Nat.le_refl _)
      typeAccesses := fun b begin target => .of_nears (.access hkeep (.primaryUpTo hkeep b) target)
        fun _ s hs ⟨hb, htarget⟩ => access_nears (b := b) hs.steady hs.tidy htarget
          (fun hu hlt => primaryUpTo_bears hs.steady hu hlt) rfl (by rw [hs.left]; omega)
      operators := fun commas levels precedence begin left =>
        .of_nears (.binaryStep (.binary (.listOrOperand hkeep commas) levels) precedence left)
          fun _ _ hs hleft => binaryStep_nears hs.tidy hleft fun hu =>
            binary_bears hu fun hv => listOrOperand_bears hs.steady hv
      segments := advances_segment?
      typeBrackets := fun b t => .of_nears (.typeBracket b t)
        fun _ _ hs hb => typeBracket_nears hs hb
      typeArguments := fun b => (htype b).after? fun _ _ hb => by omega }

/-- A reading of a whole text stays among its tokens, to its end or to where it fails. -/
theorem script_underway (hlined : Lexeme.Lined i.text ls) (recovering : Bool) :
    Outcome script i { place := { rest := ls }, recovering }
      (fun f t => f ≠ .stalled ∧ ∃ m, Underway i ls i.maxDepth m t)
      fun _ t => ∃ m, Underway i ls i.maxDepth m t := by
  have hs := Underway.start hlined recovering
  have hkeep : Keeps i ls (scriptBlock (nested i.maxDepth) .endOfText) :=
    .scriptBlock (keeping_nested hsolid i.maxDepth)
  have hblock := hkeep _ hs.toHeld
  have hrun : Outcome script i { place := { rest := ls }, recovering }
      (fun _ t => Preserves i ls { place := { rest := ls }, recovering } t)
      fun _ t => Preserves i ls { place := { rest := ls }, recovering } t := by
    unfold Outcome at hblock ⊢
    unfold script
    exact hblock
  refine (hrun.and (script_bears i hs.tidy rfl)).mono ?_ ?_
  · rintro f t ⟨ht, hf, hstays⟩
    exact ⟨hf, _, hs.after ht hstays⟩
  · rintro root t ⟨ht, x, hgrown, -⟩
    exact ⟨_, hs.after ht hgrown.toStays⟩

end Progressive

end Grammar

namespace Script
open Grammar

theorem parseRecovering_ne_stalled (source : String) : parseRecovering source ≠ .error .stalled := by
  intro h
  obtain ⟨-, t, hs⟩ := script_of_parseRecovering h
  have hrun := script_underway (i := ⟨source.toList, defaultMaxDepth⟩)
    (Lexeme.solid_ofBrokenText source.toList) (Lexeme.lined_ofBrokenText source.toList) true
  unfold Outcome at hrun
  rw [hs] at hrun
  exact hrun.1 rfl

/-- Readings of any text come to an end, strict ones and recovering ones, whatever the limit of the
depth. They stay among the tokens of the text, and each statement, each broken one and each round of
a repetition reads a token at least. -/
theorem parse_progresses (source : String) (maxDepth : Nat) :
    let ls := (Lexeme.ofBrokenText source.toList).1
    let i : Input := ⟨source.toList, maxDepth⟩
    parseWithin maxDepth source ≠ .error .stalled ∧ parseRecovering source ≠ .error .stalled ∧
    (∀ recovering, Underway i ls maxDepth 0 { place := { rest := ls }, recovering } ∧
      Outcome script i { place := { rest := ls }, recovering }
        (fun f t => f ≠ .stalled ∧ ∃ m, Underway i ls maxDepth m t)
        fun _ t => ∃ m, Underway i ls maxDepth m t) ∧
    ∀ n, Progressive i ls n := by
  intro ls i
  have hsolid := Lexeme.solid_ofBrokenText source.toList
  have hlined := Lexeme.lined_ofBrokenText source.toList
  refine ⟨parseWithin_ne_stalled, parseRecovering_ne_stalled source, fun recovering => ?_,
    fun n => progressive hsolid i n⟩
  exact ⟨.start hlined recovering, script_underway hsolid hlined recovering⟩

end Script

end ScriptInject
