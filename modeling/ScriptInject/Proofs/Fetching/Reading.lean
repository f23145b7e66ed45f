import ScriptInject.Grammar.Script
import ScriptInject.Proofs.Fetching.Text
import ScriptInject.Proofs.Phrase
import ScriptInject.Proofs.Shape
import ScriptInject.Proofs.Steps
/-! How the text of an assigned call is read, from the strings outwards. The run succeeds rule by
rule unless the ids run out. -/
namespace ScriptInject.Grammar
open Grammar.Parser Chunk

/-- The path of a variable that is no reference to one outside. Its first six bytes are whole
characters, if there are more than six. -/
def IsOwnPath (path : String) : Prop :=
  ∃ scope, scope? path = some scope ∧ Text.caselessEq scope "using:" = false

variable {α β : Type} {i : Input} {bound d k : Nat} {s t u : State} {ts us : List (Tree NodeId)}
  {gs ws : List Chunk} {w : Chunk} {token : Token} {p : Place} {x : Tree NodeId} {g : Nested}
  {path value method contextVariable : String} {values : List String} {sh : Tree Unit}

/-- Right behind a token, with some chunks still to come. -/
def Place.Behind (text : List Char) (p : Place) (ws : List Chunk) : Prop :=
  ∃ done, done ≠ [] ∧ p.At text done ws

namespace Place

variable {text : List Char} {done : List Chunk}

theorem At.behind (h : p.At text done (gs ++ w :: ws)) (hg : ∀ g ∈ gs, g.isGap = true)
    (hw : w.piece = .token token) : p.advance.Behind text ws :=
  ⟨_, by simp, h.advance hg hw⟩

theorem Behind.current? (h : p.Behind text (gs ++ w :: ws)) (hg : ∀ g ∈ gs, g.isGap = true)
    (hw : w.piece = .token token) : p.current? = some token := by
  obtain ⟨done, -, hp⟩ := h
  exact hp.current? hg hw

theorem Behind.advance (h : p.Behind text (gs ++ w :: ws)) (hg : ∀ g ∈ gs, g.isGap = true)
    (hw : w.piece = .token token) : p.advance.Behind text ws := by
  obtain ⟨done, -, hp⟩ := h
  exact hp.behind hg hw

theorem Behind.current?_cons (h : p.Behind text (w :: ws)) (hw : w.piece = .token token) :
    p.current? = some token := by
  have h' : p.Behind text ([] ++ w :: ws) := h
  exact h'.current? (List.forall_mem_nil _) hw

theorem Behind.advance_cons (h : p.Behind text (w :: ws)) (hw : w.piece = .token token) :
    p.advance.Behind text ws := by
  have h' : p.Behind text ([] ++ w :: ws) := h
  exact h'.advance (List.forall_mem_nil _) hw

theorem Behind.current?_nil (h : p.Behind text []) : p.current? = none := by
  obtain ⟨done, -, hp⟩ := h
  rw [Place.current?, hp.rest_eq]
  rfl

/-- The next token follows without a gap. -/
theorem Behind.isAdjacent (h : p.Behind text (w :: ws)) (hw : w.piece = .token token) :
    p.isAdjacent = true := by
  obtain ⟨done, hne, hp⟩ := h
  have hp' : p.At text done ([] ++ w :: ws) := hp
  have hrest := hp'.rest_token (List.forall_mem_nil _) hw
  have hstop := hp.stop_eq
  rcases hp.ended with rfl | ⟨us, v, t, rfl, hv⟩
  · exact absurd rfl hne
  · have hlast : p.last?.isSome = true := by
      rw [hp.last_eq, lexemes_append]
      simp [lexemes_cons, token?, hv]
    obtain ⟨l, hl⟩ := Option.isSome_iff_exists.mp hlast
    rw [Place.stop, hl] at hstop
    simp only [Place.isAdjacent, hl, hrest, hstop, List.append_nil, beq_self_eq_true]

end Place

/-- From one state to the other, certain trees have been added, and the ids of `k` more nodes are
within the bound. -/
structure Stacked (bound d : Nat) (s t : State) (ts : List (Tree NodeId)) (k : Nat) : Prop
    extends s.arena.Gains t.arena ts where
  depth : t.depth = d
  room : t.arena.nextId + k ≤ bound

/-- There are fewer ids than the bound tells. -/
def Spent (bound : Nat) : Failure → State → Prop :=
  fun f _ => f = .refused (.arena .full) ∧ Arena.idLimit < bound

/-- The result is the node of a tree of the given shape, and the place is right behind it. -/
def Reads (i : Input) (bound d : Nat) (s : State) (ts : List (Tree NodeId)) (k : Nat)
    (ws : List Chunk) (sh : Tree Unit) : NodeId → State → Prop :=
  fun id t => ∃ x, Stacked bound d s t (ts ++ [x]) k ∧ t.place.Behind i.text ws ∧
    x.label = id ∧ x.shape = sh

theorem Reads.behind {id : NodeId} (h : Reads i bound d s ts k ws sh id t) :
    t.place.Behind i.text ws := by
  obtain ⟨x, -, hbehind, -⟩ := h
  exact hbehind

/-- What follows goes on with no operand and with no expression. -/
def EndsExpression (commas : Bool) : Option Token → Prop
  | none | some (.mark .assign) | some (.mark .rparen) => True
  | some (.mark .comma) => commas = false
  | _ => False

/-- The marks that go on with an operand they are glued to. -/
def accessMarks : List Mark :=
  [.dot, .colonColon, .questionDot, .lbracket, .questionBracket, .plusPlus, .minusMinus]

namespace Stacked

theorem goto (h : Stacked bound d s t ts k) (p : Place) :
    Stacked bound d s { t with place := p } ts k := { h with depth := h.depth }

theorem resize {j : Nat} (h : Stacked bound d s t ts j) (hk : k ≤ j) :
    Stacked bound d s t ts k :=
  { h with room := Nat.le_trans (Nat.add_le_add_left hk _) h.room }

theorem addAt {n : Node (Tree NodeId)} {span : Span}
    (h : Stacked bound d s t (ts ++ us) (k + 1)) (hp : t.place.Behind i.text ws)
    (hc : n.children.Perm us) (hsh : Tree.mk () (n.map Tree.shape) = sh) :
    Outcome (Parser.addAt (n.map Tree.label) span) i t (Spent bound)
      (Reads i bound d s ts k ws sh) := by
  rw [Parser.addAt, Outcome.get_bind]
  have hroom := h.room
  cases hadd : t.arena.add (n.map Tree.label) (some span) with
  | error e =>
    obtain rfl := Arena.add_error hadd
    have hpositive := h.tidy.positive
    have hfull : t.arena.nextId = 0 ∨ t.arena.nextId = Arena.idLimit := by
      by_cases hnext : t.arena.nextId = 0 ∨ t.arena.nextId = Arena.idLimit
      · exact hnext
      · rw [Arena.add, Arena.fresh?, if_neg hnext] at hadd
        cases hadd
    exact ⟨rfl, by omega⟩
  | ok r =>
    obtain ⟨id, a⟩ := r
    have hgains := h.toGains.add hc hadd
    have hnext : a.nextId = t.arena.nextId + 1 := by rw [Arena.add_nextId hadd, Arena.add_id hadd]
    refine ⟨.mk id n, { hgains with depth := h.depth, room := ?_ }, hp, rfl, ?_⟩
    · change a.nextId + k ≤ bound
      omega
    · rw [Tree.shape_mk, hsh]

/-- A tree stands on what was added before it. -/
theorem add {n : Node (Tree NodeId)} {start : Nat}
    (h : Stacked bound d s t (ts ++ us) (k + 1)) (hp : t.place.Behind i.text ws)
    (hc : n.children.Perm us) (hsh : Tree.mk () (n.map Tree.shape) = sh) :
    Outcome (Parser.add (n.map Tree.label) start) i t (Spent bound)
      (Reads i bound d s ts k ws sh) := by
  rw [Parser.add, Outcome.place_bind]
  exact h.addAt hp hc hsh

theorem addLeaf {n : Node (Tree NodeId)} {start : Nat}
    (h : Stacked bound d s t ts (k + 1)) (hp : t.place.Behind i.text ws)
    (hc : n.children = []) (hsh : Tree.mk () (n.map Tree.shape) = sh) :
    Outcome (Parser.add (n.map Tree.label) start) i t (Spent bound)
      (Reads i bound d s ts k ws sh) := by
  have h' : Stacked bound d s t (ts ++ []) (k + 1) := by simpa using h
  exact h'.add hp (by rw [hc]) hsh

/-- One more level of nesting. -/
theorem guarded {p : Parser NodeId} {j : Nat} (h : Stacked bound d s t ts j)
    (hd : d < i.maxDepth)
    (run : ∀ {u}, Stacked bound (d + 1) s u ts j → u.place = t.place →
      Outcome p i u (Spent bound) (Reads i bound (d + 1) s ts k ws sh)) :
    Outcome (Parser.guarded p) i t (Spent bound) (Reads i bound d s ts k ws sh) := by
  have hrun := @run { t with depth := t.depth + 1 } { h with depth := congrArg (· + 1) h.depth } rfl
  unfold Outcome at hrun ⊢
  rw [Parser.guarded, if_neg (by rw [h.depth]; omega)]
  cases hr : p i { t with depth := t.depth + 1 } with
  | ok id u =>
    rw [hr] at hrun
    obtain ⟨x, hx, hplace, hid, hshape⟩ := hrun
    exact ⟨x, { hx with depth := by rw [hx.depth]; rfl }, hplace, hid, hshape⟩
  | error f u =>
    rw [hr] at hrun
    exact hrun

end Stacked

namespace Outcome

variable {E : Failure → State → Prop} {Q : α → State → Prop} {a : α} {step : α → Parser (Option α)}
  {item : Parser (Option α)} {F : List α → State → Prop}

/-- A repetition that ends at once. -/
theorem iterate_none (h : Outcome (step a) i s E fun o u => o = none ∧ Q a u) :
    Outcome (Parser.iterate step a) i s E Q := by
  rw [Parser.iterate, place_bind, Parser.iterateUpTo]
  refine h.bind ?_
  rintro _ u ⟨rfl, hu⟩
  exact hu

/-- A repetition that ends after one step. -/
theorem iterate_once (hleft : s.place.rest ≠ [])
    (h : Outcome (step a) i s E fun o u => ∃ b, o = some b ∧
      Outcome (step b) i u E fun o v => o = none ∧ Q b v) :
    Outcome (Parser.iterate step a) i s E Q := by
  obtain ⟨n, hn⟩ : ∃ n, s.place.rest.length = n + 1 :=
    Nat.exists_eq_succ_of_ne_zero fun h => hleft (List.eq_nil_of_length_eq_zero h)
  rw [Parser.iterate, place_bind, hn, Parser.iterateUpTo]
  refine h.bind ?_
  rintro _ u ⟨b, rfl, hu⟩
  dsimp only
  rw [Parser.iterateUpTo]
  refine hu.bind ?_
  rintro _ v ⟨rfl, hv⟩
  exact hv

theorem many_none (h : Outcome item i s E fun o u => o = none ∧ F [] u) :
    Outcome (Parser.many item) i s E F := by
  rw [Parser.many, place_bind, Parser.manyUpTo]
  refine h.bind ?_
  rintro _ u ⟨rfl, hu⟩
  exact hu

theorem many_once (hleft : s.place.rest ≠ [])
    (h : Outcome item i s E fun o u => ∃ a, o = some a ∧
      Outcome item i u E fun o v => o = none ∧ F [a] v) :
    Outcome (Parser.many item) i s E F := by
  obtain ⟨n, hn⟩ : ∃ n, s.place.rest.length = n + 1 :=
    Nat.exists_eq_succ_of_ne_zero fun h => hleft (List.eq_nil_of_length_eq_zero h)
  rw [Parser.many, place_bind, hn, Parser.manyUpTo]
  refine h.bind ?_
  rintro _ u ⟨a, rfl, hu⟩
  dsimp only
  rw [Parser.manyUpTo]
  refine Outcome.bind (P := fun as v => F (a :: as) v) (hu.bind ?_) fun as v hv => hv
  rintro _ v ⟨rfl, hv⟩
  exact hv

end Outcome

theorem skipNewlines_here {E : Failure → State → Prop} {Q : β → State → Prop} {f : Unit → Parser β}
    (h : s.place.current? ≠ some .newline) :
    Outcome (skipNewlines >>= f) i s E Q ↔ Outcome (f ()) i s E Q := by
  rw [Outcome.skipNewlines_bind, Place.past_eq]
  intro token ht
  exact beq_false_of_ne fun hnewline => h (ht.trans (congrArg some hnewline))

theorem Place.rest_ne_nil (h : p.current? = some token) : p.rest ≠ [] := by
  intro hnil
  rw [Place.current?, hnil] at h
  cases h

/-! Rules that go no further than what they are made of. -/
section Passing

variable {E : Failure → State → Prop} {Q : NodeId → State → Prop} {commas : Bool} {id : NodeId}
  {operand : Parser NodeId} {start : Nat}

theorem access_none {P : Option NodeId → State → Prop}
    (h : ∀ m ∈ accessMarks, s.place.current? ≠ some (.mark m)) (hp : P none s) :
    Outcome (access g operand start id) i s E P := by
  rw [access, Outcome.place_bind]
  split
  · exact hp
  · split <;> first | exact hp | exact absurd ‹_› (h _ (by decide))

theorem EndsExpression.no_access {o : Option Token} (h : EndsExpression commas o) :
    ∀ m ∈ accessMarks, o ≠ some (.mark m) := by
  rintro m hm rfl
  cases m <;> first | exact absurd hm (by decide) | exact h

theorem access_ends {P : Option NodeId → State → Prop} (h : EndsExpression commas s.place.current?)
    (hp : P none s) : Outcome (access g operand start id) i s E P :=
  access_none h.no_access hp

theorem accesses_none (h : ∀ m ∈ accessMarks, s.place.current? ≠ some (.mark m)) (hq : Q id s) :
    Outcome (accesses g operand start id) i s E Q :=
  .iterate_none (access_none h ⟨rfl, hq⟩)

theorem accesses_ends (h : EndsExpression commas s.place.current?) (hq : Q id s) :
    Outcome (accesses g operand start id) i s E Q :=
  accesses_none h.no_access hq

theorem binaryOperator?_ends {o : Option Token} (h : EndsExpression commas o) :
    o.bind binaryOperator? = none := by
  unfold EndsExpression at h
  split at h
  · rfl
  · rfl
  · rfl
  · rfl
  · exact h.elim

theorem binary_passes (h : Outcome (listOrOperand g commas) i s E Q)
    (hq : ∀ id u, Q id u → EndsExpression commas u.place.current?) (levels : Nat) :
    Outcome (binary (listOrOperand g commas) levels) i s E Q := by
  induction levels with
  | zero => exact h
  | succ levels ih =>
    rw [binary, Outcome.start_bind]
    refine ih.bind fun id u hu => .iterate_none ?_
    rw [binaryStep, Outcome.peek_bind, binaryOperator?_ends (hq id u hu)]
    exact ⟨rfl, hu⟩

/-- An operand alone is an expression. -/
theorem ternary_passes (hcomma : s.place.current? ≠ some (.mark .comma))
    (h : Outcome g.unary i s E Q) (hq : ∀ id u, Q id u → EndsExpression commas u.place.current?) :
    Outcome (ternary g commas) i s E Q := by
  have hoperand : Outcome (listOrOperand g commas) i s E Q := by
    rw [listOrOperand, Outcome.start_bind]
    cases commas with
    | false => exact h
    | true =>
      simp only [if_true]
      rw [Outcome.eat_ite]
      refine ⟨fun heat => absurd heat hcomma, fun _ => ?_⟩
      rw [operands]
      refine h.bind fun id u hu => ?_
      have hend := hq id u hu
      rw [Outcome.peek_bind]
      split
      · rename_i hc
        rw [hc] at hend
        cases hend
      · exact hu
  rw [ternary, Outcome.start_bind]
  refine (binary_passes hoperand hq 7).bind fun id u hu => ?_
  have hend := hq id u hu
  rw [Outcome.eat_ite]
  refine ⟨fun heat => ?_, fun _ => hu⟩
  rw [heat] at hend
  exact hend.elim

/-- An operand without a leading operator. -/
theorem unary_passes (hbracket : s.place.current? ≠ some (.mark .lbracket))
    (hoperator : s.place.current?.bind unaryOperator? = none)
    (h : Outcome (primary g) i s E fun id u =>
      Outcome (accesses g (primary g) (s.place.start i.text) id) i u E Q) :
    Outcome (unary g) i s E Q := by
  rw [unary, Outcome.start_bind, Outcome.peek_bind]
  split
  · exact absurd ‹_› hbracket
  · rw [hoperator]
    exact h.bind fun _ _ hu => hu

end Passing

/-! Operands of one token. -/
section Leaves

variable {done : List Chunk} {start : Nat}

/-- A scope ends with a colon. -/
theorem isOwnPath_of_no_colon (hs : (scope? path).isSome) (hcolon : ':' ∉ path.toList) :
    IsOwnPath path := by
  obtain ⟨scope, hscope⟩ := Option.isSome_iff_exists.mp hs
  refine ⟨scope, hscope, ?_⟩
  cases hcaseless : Text.caselessEq scope "using:" with
  | false => rfl
  | true =>
    have hlower : scope.toList.map Char.toLower = ['u', 's', 'i', 'n', 'g', ':'] := by
      simpa [Text.caselessEq] using hcaseless
    obtain ⟨d, hd, hdc⟩ := List.mem_map.mp (hlower ▸ by decide : ':' ∈ scope.toList.map Char.toLower)
    obtain rfl := Token.eq_of_toLower hdc rfl
    rw [scope?] at hscope
    split at hscope
    · obtain ⟨cs, hcs, rfl⟩ := Option.map_eq_some_iff.mp hscope
      have htake : Text.takeBytes? 6 path.toList = some cs := by
        simpa [Text.slice?, Text.dropBytes?] using hcs
      rw [(Text.takeBytes?_eq htake).2] at hcolon
      exact absurd (List.mem_append_left _ (by simpa using hd)) hcolon
    · obtain rfl := Option.some.inj hscope
      cases hd

theorem variableRef_own (h : IsOwnPath path) (start : Nat) :
    variableRef path start = add (.variableRef path false) start := by
  obtain ⟨scope, hscope, hcaseless⟩ := h
  unfold scope? at hscope
  rw [variableRef]
  split at hscope
  · rename_i hlong
    obtain ⟨cs, hcs, rfl⟩ := Option.map_eq_some_iff.mp hscope
    rw [if_pos hlong, hcs]
    simp only [hcaseless, Bool.false_eq_true, if_false]
  · rename_i hshort
    rw [if_neg hshort]

theorem primary_variable (hown : IsOwnPath path) (h : Stacked bound d s t ts (k + 1))
    (hp : t.place.At i.text done (gs ++ w :: ws)) (hg : ∀ g ∈ gs, g.isGap = true)
    (hw : w.piece = .token (.variableName path)) :
    Outcome (primary g) i t (Spent bound)
      (Reads i bound d s ts k ws (.mk () (.variableRef path false))) := by
  rw [primary, Outcome.place_bind, primaryUpTo, Outcome.start_bind, Outcome.peek_bind,
    hp.current? hg hw]
  dsimp only
  rw [Outcome.advance_bind, variableRef_own hown]
  exact (h.goto _).addLeaf (n := .variableRef path false) (hp.behind hg hw) rfl rfl

theorem primary_quoted (h : Stacked bound d s t ts (k + 1))
    (hp : t.place.At i.text done (gs ++ w :: ws)) (hg : ∀ g ∈ gs, g.isGap = true)
    (hw : w.piece = .token (.singleQuoted value)) :
    Outcome (primary g) i t (Spent bound)
      (Reads i bound d s ts k ws (.mk () (.stringConstant value .singleQuoted))) := by
  rw [primary, Outcome.place_bind, primaryUpTo, Outcome.start_bind, Outcome.peek_bind,
    hp.current? hg hw]
  dsimp only
  rw [Outcome.advance_bind]
  exact (h.goto _).addLeaf (n := .stringConstant value .singleQuoted) (hp.behind hg hw) rfl rfl

end Leaves

/-! Whole expressions. -/
section Expressions

variable {n j : Nat} {commas : Bool} {done : List Chunk} {value : String} {values : List String}

def stringShape (value : String) : Tree Unit := .mk () (.stringConstant value .singleQuoted)

def variableShape (path : String) : Tree Unit := .mk () (.variableRef path false)

def callShape (contextVariable method : String) (arguments : List String) : Tree Unit :=
  .mk () (.invokeMember (variableShape contextVariable)
    (.mk () (.stringConstant method .bareWord)) (arguments.map stringShape) false false)

theorem blank_isGap : ∀ g ∈ [blank], g.isGap = true :=
  List.forall_mem_singleton.mpr rfl

/-- An operand is read as an expression if nothing goes on behind it. -/
theorem expression_reads (h : Stacked bound d s t ts j) (hd : d + 2 ≤ i.maxDepth)
    (hcomma : t.place.current? ≠ some (.mark .comma))
    (hends : ∀ q : Place, q.Behind i.text ws → EndsExpression commas q.current?)
    (run : ∀ {u}, Stacked bound (d + 2) s u ts j → u.place = t.place →
      Outcome (unary (nested n)) i u (Spent bound) (Reads i bound (d + 2) s ts k ws sh)) :
    Outcome ((nested (n + 2)).expression commas) i t (Spent bound)
      (Reads i bound d s ts k ws sh) := by
  refine h.guarded (by omega) fun {u} hu hplace => ternary_passes (hplace ▸ hcomma) ?_ ?_
  · exact hu.guarded (by omega) fun {v} hv hvplace => run hv (hvplace.trans hplace)
  · exact fun id v hv => hends _ hv.behind

theorem string_reads (h : Stacked bound d s t ts (k + 1)) (hd : d + 2 ≤ i.maxDepth)
    (hp : t.place.Behind i.text (gs ++ quoted value :: ws)) (hg : ∀ g ∈ gs, g.isGap = true)
    (hends : ∀ q : Place, q.Behind i.text ws → EndsExpression false q.current?) :
    Outcome ((nested (n + 2)).expression false) i t (Spent bound)
      (Reads i bound d s ts k ws (stringShape value)) := by
  have hcurrent : t.place.current? = some (.singleQuoted value) := hp.current? hg rfl
  obtain ⟨done, -, hat⟩ := hp
  refine expression_reads h hd (by simp [hcurrent]) hends fun {u} hu hplace => ?_
  refine unary_passes (by simp [hplace, hcurrent]) (by rw [hplace, hcurrent]; rfl) ?_
  refine (primary_quoted hu (hplace ▸ hat) hg rfl).imp fun id v hv => ?_
  exact accesses_ends (hends _ hv.behind) hv

theorem variable_reads (hown : IsOwnPath path) (h : Stacked bound d s t ts (k + 1))
    (hd : d + 2 ≤ i.maxDepth) (hp : t.place.At i.text done ([] ++ w :: ws))
    (hw : w.piece = .token (.variableName path))
    (hends : ∀ q : Place, q.Behind i.text ws → EndsExpression true q.current?) :
    Outcome ((nested (n + 2)).expression true) i t (Spent bound)
      (Reads i bound d s ts k ws (variableShape path)) := by
  have hcurrent : t.place.current? = some (.variableName path) :=
    hp.current? (List.forall_mem_nil _) hw
  refine expression_reads h hd (by simp [hcurrent]) hends fun {u} hu hplace => ?_
  refine unary_passes (by simp [hplace, hcurrent]) (by rw [hplace, hcurrent]; rfl) ?_
  refine (primary_variable hown hu (hplace ▸ hp) (List.forall_mem_nil _) hw).imp fun id v hv => ?_
  exact accesses_ends (hends _ hv.behind) hv

theorem others_current? (hp : p.Behind i.text (others values ++ [mark .rparen])) :
    p.current? = some (.mark .comma) ∨ p.current? = some (.mark .rparen) := by
  cases values with
  | nil => exact .inr (hp.current?_cons rfl)
  | cons value values => exact .inl (hp.current?_cons rfl)

theorem others_end (q : Place) (hq : q.Behind i.text (others values ++ [mark .rparen])) :
    EndsExpression false q.current? := by
  rcases others_current? hq with h | h <;> rw [h]
  · rfl
  · trivial

theorem length_lexemes (start : Nat) (ws : List Chunk) :
    (lexemes start ws).length = (tokensOf ws).length := by
  rw [← @map_token_lexemes ws start, List.length_map]

theorem length_others (start : Nat) (values : List String) :
    values.length < (lexemes start (others values ++ [mark .rparen])).length := by
  rw [length_lexemes]
  induction values with
  | nil => exact Nat.one_pos
  | cons value values ih => exact Nat.lt_succ_of_lt (Nat.succ_lt_succ ih)

/-- A string between line ends, of which there are none. -/
theorem spaced_string_reads (gs : List Chunk) (h : Stacked bound d s t ts (k + 1))
    (hd : d + 2 ≤ i.maxDepth)
    (hp : t.place.Behind i.text (gs ++ quoted value :: (others values ++ [mark .rparen])))
    (hg : ∀ g ∈ gs, g.isGap = true) :
    Outcome (spaced ((nested (n + 2)).expression false)) i t (Spent bound)
      (Reads i bound d s ts k (others values ++ [mark .rparen]) (stringShape value)) := by
  have hcurrent : t.place.current? = some (.singleQuoted value) := hp.current? hg rfl
  rw [spaced, skipNewlines_here (by simp [hcurrent])]
  refine (string_reads h hd hp hg others_end).bind fun id u hu => ?_
  rw [skipNewlines_here]
  · exact hu
  · rcases others_current? hu.behind with hc | hc <;> simp [hc]

theorem others_reads (h : Stacked bound d s t ts (k + values.length)) (hd : d + 2 ≤ i.maxDepth)
    (hp : t.place.Behind i.text (others values ++ [mark .rparen])) :
    Outcome (afterCommas (spaced ((nested (n + 2)).expression false))) i t (Spent bound)
      fun ids u => ∃ xs, Stacked bound d s u (ts ++ xs) k ∧
        u.place.Behind i.text [mark .rparen] ∧ ids = xs.map Tree.label ∧
        xs.map Tree.shape = values.map stringShape := by
  have hfuel : values.length < t.place.rest.length + 1 := by
    obtain ⟨done, -, hat⟩ := hp
    rw [hat.rest_eq]
    exact Nat.lt_succ_of_lt (length_others _ values)
  rw [afterCommas, Parser.many, Outcome.place_bind]
  generalize t.place.rest.length + 1 = fuel at hfuel
  induction values generalizing t ts fuel with
  | nil =>
    obtain ⟨fuel, rfl⟩ : ∃ m, fuel = m + 1 := ⟨fuel - 1, by omega⟩
    rw [Parser.manyUpTo, Outcome.assoc, Outcome.eat_bind]
    have hcurrent : t.place.current? = some (.mark .rparen) := hp.current?_cons rfl
    refine ⟨fun hc => by simp [hcurrent] at hc, fun _ => ?_⟩
    exact ⟨[], by simpa using h, hp, rfl, rfl⟩
  | cons value values ih =>
    obtain ⟨fuel, rfl⟩ : ∃ m, fuel = m + 1 := ⟨fuel - 1, by omega⟩
    rw [Parser.manyUpTo, Outcome.assoc, Outcome.eat_bind]
    have hcurrent : t.place.current? = some (.mark .comma) := hp.current?_cons rfl
    refine ⟨fun _ => ?_, fun hc => absurd hcurrent hc⟩
    have hstacked : Stacked bound d s { t with place := t.place.advance } ts
        (k + values.length + 1) := h.goto _
    have hbehind := hp.advance_cons rfl
    simp only [if_true, Outcome.assoc]
    refine (spaced_string_reads [blank] hstacked hd hbehind blank_isGap).bind ?_
    rintro _ u ⟨x, hu, hplace, rfl, hshape⟩
    refine (ih hu hplace fuel (by simpa using hfuel)).bind ?_
    rintro _ v ⟨xs, hv, hend, rfl, hshapes⟩
    exact ⟨x :: xs, by simpa using hv, hend, rfl, by simp [hshape, hshapes]⟩

theorem strings_read (h : Stacked bound d s t ts (k + values.length + 1))
    (hd : d + 2 ≤ i.maxDepth)
    (hp : t.place.Behind i.text (quoted value :: (others values ++ [mark .rparen]))) :
    Outcome (untilParen ((nested (n + 2)).expression false)) i t (Spent bound)
      fun ids u => ∃ xs, Stacked bound d s u (ts ++ xs) k ∧ u.place.Behind i.text [] ∧
        ids = xs.map Tree.label ∧ xs.map Tree.shape = (value :: values).map stringShape := by
  have hcurrent : t.place.current? = some (.singleQuoted value) := hp.current?_cons rfl
  rw [untilParen, skipNewlines_here (by simp [hcurrent]), Outcome.eat_bind]
  refine ⟨fun hc => by simp [hcurrent] at hc, fun _ => ?_⟩
  simp only [Bool.false_eq_true, if_false]
  refine (spaced_string_reads [] h hd hp (List.forall_mem_nil _)).bind ?_
  rintro _ u ⟨x, hu, hplace, rfl, hshape⟩
  refine (others_reads hu hd hplace).bind ?_
  rintro _ v ⟨xs, hv, hend, rfl, hshapes⟩
  have hclosing : v.place.current? = some (.mark .rparen) := hend.current?_cons rfl
  rw [Outcome.expect_bind]
  refine ⟨fun _ => ?_, fun hc => absurd hclosing hc⟩
  refine ⟨x :: xs, ?_, hend.advance_cons rfl, rfl, by simp [hshape, hshapes]⟩
  simpa using hv.goto _

/-- The call that follows a variable: the dot, the method and the strings in parentheses. -/
theorem memberAccess_reads {primary : Parser NodeId} {x : Tree NodeId} {start : Nat}
    (h : Stacked bound d s t (ts ++ [x]) (k + values.length + 3)) (hd : d + 2 ≤ i.maxDepth)
    (hp : t.place.Behind i.text (mark .dot :: word method :: mark .lparen :: quoted value ::
      (others values ++ [mark .rparen])))
    (hx : x.shape = variableShape contextVariable) :
    Outcome (memberAccess (nested (n + 2)) primary start x.label false false) i t (Spent bound)
      (Reads i bound d s ts k [] (callShape contextVariable method (value :: values))) := by
  have hname := hp.advance_cons rfl
  have hcurrent : t.place.advance.current? = some (.word method) := hname.current?_cons rfl
  rw [memberAccess, Outcome.advance_bind, Outcome.start_bind, Outcome.peek_bind, hcurrent]
  dsimp only
  rw [Outcome.advance_bind]
  have hopen := hname.advance_cons rfl
  refine (((h.goto _).goto _).addLeaf (n := .stringConstant method .bareWord) hopen rfl rfl).bind ?_
  rintro _ u ⟨y, hu, hplace, rfl, hy⟩
  have hparen : u.place.current? = some (.mark .lparen) := hplace.current?_cons rfl
  rw [Outcome.place_bind, if_pos ⟨hparen, hplace.isAdjacent rfl⟩, Outcome.advance_bind]
  have hu' : Stacked bound d s u (ts ++ [x] ++ [y]) (k + 1 + values.length + 1) :=
    hu.resize (by omega)
  refine (strings_read (hu'.goto _) hd (hplace.advance_cons rfl)).bind ?_
  rintro _ v ⟨xs, hv, hend, rfl, hxs⟩
  have hstacked : Stacked bound d s v (ts ++ (x :: y :: xs)) (k + 1) := by simpa using hv
  refine hstacked.add (n := .invokeMember x y xs false false) hend (.refl _) ?_
  simp only [Node.map] at hy ⊢
  rw [hx, hy, hxs]
  rfl

theorem call_reads (hown : IsOwnPath contextVariable)
    (h : Stacked bound d s t ts (k + values.length + 4)) (hd : d + 2 ≤ i.maxDepth)
    (hp : t.place.Behind i.text ([blank] ++ call contextVariable method value values)) :
    Outcome (unary (nested (n + 2))) i t (Spent bound)
      (Reads i bound d s ts k [] (callShape contextVariable method (value :: values))) := by
  have hcurrent : t.place.current? = some (.variableName contextVariable) :=
    hp.current? blank_isGap rfl
  refine unary_passes (by simp [hcurrent]) (by rw [hcurrent]; rfl) ?_
  obtain ⟨done, -, hat⟩ := hp
  refine (primary_variable hown h hat blank_isGap rfl).imp ?_
  rintro _ u ⟨x, hu, hplace, rfl, hx⟩
  have hdot : u.place.current? = some (.mark .dot) := hplace.current?_cons rfl
  refine .iterate_once (Place.rest_ne_nil hdot) ?_
  rw [access, Outcome.place_bind, hplace.isAdjacent rfl, hdot]
  refine (memberAccess_reads hu hd hplace hx).bind fun id v hv => ?_
  have hends : EndsExpression true v.place.current? := by
    rw [hv.behind.current?_nil]
    trivial
  exact ⟨id, rfl, access_ends hends ⟨rfl, hv⟩⟩

end Expressions

/-! The statement and the script that it is. -/
section Statements

variable {n j : Nat} {done : List Chunk} {arguments : List String}

def assignedShape (path contextVariable method : String) (arguments : List String) : Tree Unit :=
  .mk () (.assignment (variableShape path) .assign
    (.mk () (.pipeline [.mk () (.commandExpression (callShape contextVariable method arguments))])))

/-- The script that consists of one statement. -/
def loneShape (statement : Tree Unit) : Tree Unit :=
  .mk () (.scriptBlock [] none [.mk () (.namedBlock .endBlock true [statement] [])])

/-- A statement that begins with a variable is a pipeline. -/
theorem statement_variable {E : Failure → State → Prop} {Q : NodeId → State → Prop}
    (hcurrent : s.place.current? = some (.variableName path))
    (h : Outcome (pipeline g) i s E Q) : Outcome (statement g) i s E Q := by
  rw [statement, Outcome.start_bind, label?, Outcome.assoc, Outcome.place_bind, hcurrent]
  dsimp only
  rw [Outcome.pure_bind, Outcome.place_bind, hcurrent]
  exact h

theorem atCommand_variable {E : Failure → State → Prop} {Q : β → State → Prop}
    {f : Bool → Parser β} (hcurrent : s.place.current? = some (.variableName path))
    (h : Outcome (f false) i s E Q) : Outcome (atCommand false >>= f) i s E Q := by
  rw [atCommand, Outcome.assoc, Outcome.peek_bind, hcurrent]
  exact h

/-- The shape of a statement that is an expression. -/
def expressionShape (expression : Tree Unit) : Tree Unit :=
  .mk () (.pipeline [.mk () (.commandExpression expression)])

/-- An expression from a variable to the end is a statement. -/
theorem expression_statement_reads (hcurrent : t.place.current? = some (.variableName path))
    (h : Stacked bound d s t ts j) (hd : d < i.maxDepth)
    (run : ∀ {u}, Stacked bound (d + 1) s u ts j → u.place = t.place →
      Outcome (g.expression true) i u (Spent bound) (Reads i bound (d + 1) s ts (k + 2) [] sh)) :
    Outcome (guarded (statement g)) i t (Spent bound)
      (Reads i bound d s ts k [] (expressionShape sh)) := by
  refine h.guarded hd fun {u} hu hplace => ?_
  rw [← hplace] at hcurrent
  refine statement_variable hcurrent ?_
  rw [pipeline, Outcome.start_bind]
  refine atCommand_variable hcurrent ?_
  refine (run hu hplace).bind ?_
  rintro _ v ⟨x, hv, hend, rfl, hx⟩
  have hnone := hend.current?_nil
  rw [Outcome.peek_bind, hnone]
  dsimp only [Option.bind_none]
  rw [expressionElement, Outcome.assoc, Outcome.get_bind]
  refine (hv.addAt (n := .commandExpression x) hend (.refl _) rfl).bind ?_
  rintro _ w ⟨y, hw, hwend, rfl, hy⟩
  rw [pipelineFrom]
  refine Outcome.bind (P := fun ids z => ids = [] ∧ z = w) (.many_none ?_) ?_
  · rw [Outcome.eat_bind]
    refine ⟨fun hpipe => ?_, fun _ => ⟨rfl, rfl, rfl⟩⟩
    rw [hwend.current?_nil] at hpipe
    cases hpipe
  · rintro _ _ ⟨rfl, rfl⟩
    refine hw.add (n := .pipeline [y]) hwend (.refl _) ?_
    rw [expressionShape, ← hx]
    simp only [Node.map, List.map_cons, List.map_nil, hy]

/-- The right side of the assignment. -/
theorem right_reads (hown : IsOwnPath contextVariable)
    (h : Stacked bound d s t ts (k + values.length + 6)) (hd : d + 5 ≤ i.maxDepth)
    (hp : t.place.Behind i.text ([blank] ++ call contextVariable method value values)) :
    Outcome ((nested (n + 5)).statement) i t (Spent bound)
      (Reads i bound d s ts k [] (expressionShape
        (callShape contextVariable method (value :: values)))) := by
  have hcurrent : t.place.current? = some (.variableName contextVariable) :=
    hp.current? blank_isGap rfl
  refine expression_statement_reads hcurrent h (by omega) fun {u} hu hplace => ?_
  rw [← hplace] at hp hcurrent
  refine expression_reads (j := k + 2 + values.length + 4) (hu.resize (by omega)) (by omega)
    (by simp [hcurrent]) (fun q hq => ?_) fun {v} hv hvplace => ?_
  · rw [hq.current?_nil]
    trivial
  · exact call_reads hown hv (by omega) (hvplace ▸ hp)

theorem assigned_reads (hpath : IsOwnPath path) (hown : IsOwnPath contextVariable)
    (h : Stacked bound d s t ts (k + values.length + 8)) (hd : d + 6 ≤ i.maxDepth)
    (hp : t.place.At i.text done ([] ++ assigned path contextVariable method value values)) :
    Outcome ((nested (n + 6)).statement) i t (Spent bound)
      (Reads i bound d s ts k [] (assignedShape path contextVariable method (value :: values))) := by
  have hcurrent : t.place.current? = some (.variableName path) :=
    hp.current? (List.forall_mem_nil _) rfl
  refine h.guarded (by omega) fun {u} hu hplace => ?_
  rw [← hplace] at hp hcurrent
  refine statement_variable hcurrent ?_
  rw [pipeline, Outcome.start_bind]
  refine atCommand_variable hcurrent ?_
  have hassign {q : Place} (hq : q.Behind i.text ([blank] ++ mark .assign :: blank ::
      call contextVariable method value values)) : q.current? = some (.mark .assign) :=
    hq.current? blank_isGap rfl
  have hleft : Outcome ((nested (n + 5)).expression true) i u (Spent bound)
      (Reads i bound (d + 1) s ts (k + 1 + values.length + 6)
        ([blank] ++ mark .assign :: blank :: call contextVariable method value values)
        (variableShape path)) := by
    refine variable_reads hpath (hu.resize (by omega)) (by omega) hp rfl fun q hq => ?_
    rw [hassign hq]
    trivial
  refine hleft.bind ?_
  rintro _ v ⟨x, hv, hbehind, rfl, hx⟩
  rw [Outcome.peek_bind, hassign hbehind]
  dsimp only [Option.bind_some, assignmentOperator?]
  have hafter : v.place.advance.Behind i.text
      ([blank] ++ call contextVariable method value values) := hbehind.advance blank_isGap rfl
  have hnext : v.place.advance.current? = some (.variableName contextVariable) :=
    hafter.current? blank_isGap rfl
  rw [Outcome.advance_bind, skipNewlines_here (by simp [hnext])]
  refine (right_reads hown (hv.goto _) (by omega) hafter).bind ?_
  rintro _ w ⟨y, hw, hend, rfl, hy⟩
  have hstacked : Stacked bound (d + 1) s w (ts ++ [x, y]) (k + 1) := by simpa using hw
  refine hstacked.add (n := .assignment x .assign y) hend (.refl _) ?_
  simp only [Node.map, hx, hy]
  rfl

end Statements

/-! Where a script begins with a variable, none of its other parts are found. -/
section Scripts

variable {E : Failure → State → Prop} {Q : β → State → Prop} {done : List Chunk}

theorem skipTerminators_here {f : Unit → Parser β}
    (h : ∀ token, s.place.current? = some token → isTerminator token = false) :
    Outcome (skipTerminators >>= f) i s E Q ↔ Outcome (f ()) i s E Q := by
  rw [Outcome.skipTerminators_bind, Place.past_eq h]

theorem many_usings_variable (hcurrent : s.place.current? = some (.variableName path))
    {f : List NodeId → Parser β} (h : Outcome (f []) i s E Q) :
    Outcome (many listedUsing >>= f) i s E Q := by
  refine Outcome.bind (P := fun ids u => ids = [] ∧ u = s) (.many_none ?_) ?_
  · rw [listedUsing, Outcome.start_bind, Outcome.atWord_bind, Place.wordAt, hcurrent]
    exact ⟨rfl, rfl, rfl⟩
  · rintro _ _ ⟨rfl, rfl⟩
    exact h

theorem paramBlock?_variable (hcurrent : s.place.current? = some (.variableName path))
    {f : Option NodeId → Parser β} (h : Outcome (f none) i s E Q) :
    Outcome (paramBlock? g >>= f) i s E Q := by
  have hrun : Outcome (annotations g) i { s with recovering := false } (fun _ _ => False) fun o u =>
      o = some [] ∧ u = { s with recovering := false } := by
    rw [annotations, Outcome.place_bind, annotationsUpTo, Outcome.peek_bind]
    dsimp only
    rw [hcurrent]
    exact ⟨rfl, rfl⟩
  have hannotations : speculatively (annotations g) i s = .ok (some []) s := by
    unfold Outcome at hrun
    rw [speculatively]
    cases hr : annotations g i { s with recovering := false } with
    | ok o u =>
      rw [hr] at hrun
      obtain ⟨rfl, rfl⟩ := hrun
      rfl
    | error f u =>
      rw [hr] at hrun
      exact hrun.elim
  have hnone : Outcome (paramBlock? g) i s E fun o u => o = none ∧ u = s := by
    rw [paramBlock?, Outcome.place_bind, Outcome.start_bind]
    refine Outcome.bind (P := fun o u => o = some [] ∧ u = s) ?_ ?_
    · rw [Outcome, hannotations]
      exact ⟨rfl, rfl⟩
    · rintro _ _ ⟨rfl, rfl⟩
      rw [Outcome.atWord_bind, Place.wordAt, hcurrent, Outcome.place_bind]
      exact ⟨rfl, rfl⟩
  refine hnone.bind ?_
  rintro _ _ ⟨rfl, rfl⟩
  exact h

/-- A reading without ids does not recover. -/
theorem orElseKeep_passes {p other : Parser α} {P : α → State → Prop}
    (h : Outcome p i s (Spent bound) P) : Outcome (orElseKeep p other) i s (Spent bound) P := by
  unfold Outcome at h ⊢
  rw [orElseKeep]
  cases hr : p i s with
  | ok a u =>
    rw [hr] at h
    exact h
  | error f u =>
    rw [hr] at h
    obtain ⟨rfl, hspent⟩ := h
    simp only [isRecoverable, Bool.and_false, Bool.false_eq_true, if_false]
    exact ⟨rfl, hspent⟩

theorem terminatedStatement_reads (h : Outcome g.statement i t (Spent bound)
      (Reads i bound d s ts k [] sh)) :
    Outcome (terminatedStatement g .endOfText) i t (Spent bound)
      (Reads i bound d s ts k [] sh) := by
  rw [terminatedStatement]
  refine h.bind fun id u hu => ?_
  rw [Outcome.place_bind, hu.behind.current?_nil]
  exact hu

/-- A list of one statement, which is all there is. -/
theorem statementList_reads (hcurrent : t.place.current? = some (.variableName path))
    (h : Outcome g.statement i t (Spent bound) (Reads i bound d s ts k [] sh)) :
    Outcome (statementList g .endOfText) i t (Spent bound) fun ids u => ∃ id, ids = [id] ∧
      Reads i bound d s ts k [] sh id u := by
  refine .many_once (Place.rest_ne_nil hcurrent) ?_
  rw [listedStatement, skipTerminators_here (by
    intro token ht
    obtain rfl := Option.some.inj (hcurrent.symm.trans ht)
    rfl), Outcome.peek_bind, hcurrent]
  simp only [Option.isNone_some, Closer.isAt, Bool.or_false, Bool.false_eq_true, if_false]
  refine (orElseKeep_passes (terminatedStatement_reads h)).map fun id u hu => ⟨id, rfl, ?_⟩
  have hnone := hu.behind.current?_nil
  rw [skipTerminators_here (by simp [hnone]), Outcome.peek_bind, hnone]
  exact ⟨rfl, id, rfl, hu⟩

theorem isTrap_shape {a : Arena} (h : a.Holds x) : isTrap a x.label = x.shape.isTrap := by
  obtain ⟨label, n⟩ := x
  rw [isTrap, h.get?, Tree.shape_mk, Tree.isTrap]
  cases n <;> rfl

theorem blocks_variable {P Q : List NodeId → State → Prop}
    (hcurrent : s.place.current? = some (.variableName path))
    (h : Outcome (statementList g .endOfText) i s E P)
    (hadd : ∀ ids u, P ids u → ids ≠ [] ∧
      Outcome (addNamedBlock .endBlock true ids (s.place.start i.text)) i u E fun id => Q [id]) :
    Outcome (blocks g .endOfText) i s E Q := by
  rw [blocks, atNamedBlock?, Outcome.assoc, Outcome.place_bind, hcurrent]
  dsimp only
  rw [Outcome.pure_bind]
  dsimp only
  rw [Outcome.start_bind]
  refine h.bind fun ids u hu => ?_
  obtain ⟨hne, hblock⟩ := hadd ids u hu
  rw [if_neg (by simpa using hne)]
  exact hblock.bind fun id v hv => hv

theorem scriptBlock_variable {P : List NodeId → State → Prop} {Q : NodeId → State → Prop}
    (hcurrent : s.place.current? = some (.variableName path))
    (h : Outcome (blocks g .endOfText) i s E P)
    (hadd : ∀ ids u, P ids u →
      Outcome (add (.scriptBlock [] none ids) (s.place.start i.text)) i u E Q) :
    Outcome (scriptBlock g .endOfText) i s E Q := by
  have hskip (token : Token) (ht : s.place.current? = some token) : isTerminator token = false := by
    obtain rfl := Option.some.inj (hcurrent.symm.trans ht)
    rfl
  rw [scriptBlock, Outcome.start_bind, skipTerminators_here hskip, if_pos rfl]
  refine many_usings_variable hcurrent (paramBlock?_variable hcurrent ?_)
  rw [skipTerminators_here hskip]
  exact h.bind hadd

/-- A script from a variable to the end of its only statement. -/
theorem lone_script_reads (hcurrent : t.place.current? = some (.variableName path))
    (htrap : sh.isTrap = false)
    (h : Outcome g.statement i t (Spent bound) (Reads i bound d s [] (k + 2) [] sh)) :
    Outcome (scriptBlock g .endOfText) i t (Spent bound)
      (Reads i bound d s [] k [] (loneShape sh)) := by
  refine scriptBlock_variable hcurrent (P := fun ids u => ∃ id, ids = [id] ∧
    Reads i bound d s [] (k + 1) [] (.mk () (.namedBlock .endBlock true [sh] [])) id u) ?_ ?_
  · refine blocks_variable hcurrent (statementList_reads hcurrent h) ?_
    rintro _ u ⟨_, rfl, x, hu, hend, rfl, rfl⟩
    refine ⟨List.cons_ne_nil _ _, ?_⟩
    have hkept := (isTrap_shape (hu.held x (by simp))).trans htrap
    rw [addNamedBlock, Outcome.get_bind]
    simp only [List.filter_cons, List.filter_nil, hkept, Bool.not_false, if_true,
      Bool.false_eq_true, if_false]
    refine (hu.add (n := .namedBlock .endBlock true [x] []) hend (.refl _) rfl).imp ?_
    rintro id v hv
    exact ⟨id, rfl, by simpa [Node.map] using hv⟩
  · rintro _ u ⟨_, rfl, x, hu, hend, rfl, hx⟩
    refine hu.add (n := .scriptBlock [] none [x]) hend (.refl _) ?_
    simp only [Node.map, List.map_cons, List.map_nil, Option.map_none, hx]
    rfl

/-- The whole text is read as one statement. -/
theorem script_reads {n : Nat} (hpath : IsOwnPath path) (hown : IsOwnPath contextVariable)
    (h : Stacked bound 0 t t [] (k + values.length + 10)) (hd : i.maxDepth = n + 6)
    (hp : t.place.At i.text [] ([] ++ assigned path contextVariable method value values)) :
    Outcome (scriptBlock (nested i.maxDepth) .endOfText) i t (Spent bound)
      (Reads i bound 0 t [] k []
        (loneShape (assignedShape path contextVariable method (value :: values)))) := by
  have hcurrent : t.place.current? = some (.variableName path) :=
    hp.current? (List.forall_mem_nil _) rfl
  rw [hd]
  exact lone_script_reads hcurrent rfl
    (assigned_reads (k := k + 2) hpath hown (h.resize (by omega)) (by omega) hp)

end Scripts

end ScriptInject.Grammar
