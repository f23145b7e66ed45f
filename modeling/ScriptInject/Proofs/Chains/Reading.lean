import ScriptInject.Proofs.Chains.Text
import ScriptInject.Proofs.Fetching.Reading
import ScriptInject.Proofs.Parsing.Basic
/-! How a chain of operands is read: level by level, and at each level one operator after the other,
until a looser one stands there. -/
namespace ScriptInject
open Grammar Grammar.Parser

def Operand.shape : Operand → Tree Unit
  | .var name => variableShape name
  | .number digits => .mk () (.number digits)

/-- The tree of a term: one node for each operand and for each operator. -/
def Term.shape : Term → Tree Unit
  | .operand o => o.shape
  | .binary op l r => .mk () (.binary op l.shape r.shape)

/-- The operator, and the operand after it. -/
def Link.pair (l : Link) : BinaryOperator × Operand := (l.operator, l.operand)

namespace Grammar

variable {i : Input} {bound d k levels p q : Nat} {s t : State} {ts : List (Tree NodeId)}
  {g : Nested} {o : Operand} {l : Link} {links : List Link} {name : String} {place : Place}
  {text : List Char} {id : NodeId}

/-- A plain name is no reference to a variable outside. -/
theorem isOwnPath_of_isPlainName (h : Source.isPlainName name.toList = true) : IsOwnPath name := by
  have hname := Source.isNamePart_of_isPlainName h
  refine isOwnPath_of_no_colon ?_ fun hcolon => absurd (hname _ hcolon) (by decide)
  rw [scope?]
  split
  · rename_i hlong
    rw [Operand.size_of_isNamePart hname] at hlong
    have hfirst : Text.size (name.toList.take 6) = 6 := by
      rw [Operand.size_of_isNamePart fun c hc => hname c (List.mem_of_mem_take hc),
        List.length_take, Nat.min_eq_left (Nat.le_of_lt hlong)]
    have hslice := Text.takeBytes?_size_append (name.toList.take 6) (name.toList.drop 6)
    rw [hfirst, List.take_append_drop] at hslice
    simp [Text.slice?, Text.dropBytes?, hslice]
  · rfl

/-- Before an operand, behind gaps if there are any. -/
def Place.Faces (text : List Char) (p : Place) (o : Operand) (ws : List Chunk) : Prop :=
  ∃ done gs, p.At text done (gs ++ o.chunk :: ws) ∧ ∀ g ∈ gs, g.isGap = true

theorem Place.Faces.current? {ws : List Chunk} (h : place.Faces text o ws) :
    place.current? = some o.token := by
  obtain ⟨done, gs, hat, hgs⟩ := h
  exact hat.current? hgs rfl

/-- Right behind an operand, with certain links still to come. -/
def Place.Links (text : List Char) (p : Place) (links : List Link) : Prop :=
  p.Behind text (links.flatMap Link.chunks)

namespace Place.Links

/-- An operator and an operand are one token each. -/
theorem length_tokens (links : List Link) :
    (Chunk.tokensOf (links.flatMap Link.chunks)).length = 2 * links.length := by
  induction links with
  | nil => rfl
  | cons l links ih =>
    have htokens : Chunk.tokensOf l.chunks = [l.token, l.operand.token] := rfl
    rw [List.flatMap_cons, Chunk.tokensOf_append, List.length_append, ih, htokens, List.length_cons,
      List.length_cons, List.length_cons, List.length_nil]
    omega

theorem current? (h : place.Links text links) : place.current? = links.head?.map Link.token := by
  cases links with
  | nil => exact Behind.current?_nil h
  | cons l links =>
    have h' : place.Behind text ([.blank] ++ l.chunk :: (.blank :: l.operand.chunk ::
      links.flatMap Link.chunks)) := h
    exact h'.current? blank_isGap rfl

theorem advance (h : place.Links text (l :: links)) :
    place.advance.Faces text l.operand (links.flatMap Link.chunks) := by
  have h' : place.Behind text ([.blank] ++ l.chunk :: (.blank :: l.operand.chunk ::
    links.flatMap Link.chunks)) := h
  obtain ⟨done, -, hat⟩ := h'.advance blank_isGap rfl
  exact ⟨done, [.blank], hat, blank_isGap⟩

theorem left (h : place.Links text links) : place.left = 2 * links.length := by
  obtain ⟨done, -, hat⟩ := h
  rw [Place.left, hat.rest_eq, length_lexemes, length_tokens]

end Place.Links

/-- No operator goes on with an operand it is glued to, or makes a list. -/
theorem binary_no_access {token : Token} (h : binaryOperator? token ≠ none) :
    ∀ m ∈ Mark.comma :: accessMarks, token ≠ .mark m := by
  rintro m hm rfl
  cases m <;> first | exact h rfl | exact absurd hm (by decide)

theorem Place.Links.no_access (h : place.Links text links) (hlinks : ∀ l ∈ links, l.Spelled) :
    ∀ m ∈ Mark.comma :: accessMarks, place.current? ≠ some (.mark m) := by
  intro m hm hcurrent
  rw [h.current?] at hcurrent
  obtain ⟨l, hl, htoken⟩ := Option.map_eq_some_iff.mp hcurrent
  have hoperator := (hlinks l (List.mem_of_mem_head? hl)).binaryOperator?
  exact binary_no_access (by simp [hoperator]) m hm htoken

theorem primary_operand (ho : o.Plain) (h : Stacked bound d s t ts (k + 1))
    (hp : t.place.Faces i.text o (links.flatMap Link.chunks)) :
    Outcome (primary g) i t (Spent bound)
      (Reads i bound d s ts k (links.flatMap Link.chunks) o.shape) := by
  obtain ⟨done, gs, hat, hgs⟩ := hp
  cases o with
  | var name => exact primary_variable (isOwnPath_of_isPlainName ho) h hat hgs rfl
  | number digits =>
    have hcurrent : t.place.current? = some (.number digits) := hat.current? hgs rfl
    rw [primary, Outcome.place_bind, primaryUpTo, Outcome.start_bind, Outcome.peek_bind, hcurrent]
    dsimp only
    rw [Outcome.advance_bind]
    exact (h.goto _).addLeaf (n := .number digits) (hat.behind hgs rfl) rfl rfl

/-- An operand alone, up to the operator that follows it. -/
theorem operand_reads {n : Nat} (ho : o.Plain) (hlinks : ∀ l ∈ links, l.Spelled)
    (h : Stacked bound d s t ts (k + 1)) (hd : d < i.maxDepth)
    (hp : t.place.Faces i.text o (links.flatMap Link.chunks)) :
    Outcome (listOrOperand (nested (n + 1)) true) i t (Spent bound)
      (Reads i bound d s ts k (links.flatMap Link.chunks) o.shape) := by
  have hcurrent := hp.current?
  have hunary : Outcome (nested (n + 1)).unary i t (Spent bound)
      (Reads i bound d s ts k (links.flatMap Link.chunks) o.shape) := by
    refine h.guarded hd fun {u} hu hplace => ?_
    rw [← hplace] at hp hcurrent
    refine unary_passes ?_ ?_ ?_
    · rw [hcurrent]
      cases o <;> simp [Operand.token]
    · rw [hcurrent]
      cases o <;> rfl
    · refine (primary_operand ho hu hp).imp fun id v hv => ?_
      have hnext : v.place.Links i.text links := hv.behind
      exact accesses_none (fun m hm => hnext.no_access hlinks m (by simp [hm])) hv
  rw [listOrOperand, Outcome.start_bind]
  simp only [if_true]
  rw [Outcome.eat_ite]
  refine ⟨fun heat => ?_, fun _ => ?_⟩
  · rw [hcurrent] at heat
    cases o <;> cases heat
  rw [operands]
  refine hunary.bind fun id u hu => ?_
  have hnext : u.place.Links i.text links := hu.behind
  have hcomma := hnext.no_access hlinks .comma (by simp)
  rw [Outcome.peek_bind]
  split
  · exact absurd ‹_› hcomma
  · exact hu

/-- A first part of the chain has been read. It is grouped as it should and binds from level `p` on;
the next operator binds less tightly than level `q`. -/
def Climbs (i : Input) (bound d : Nat) (s : State) (ts : List (Tree NodeId)) (k p q : Nat)
    (o : Operand) (links : List Link) (id : NodeId) (t : State) : Prop :=
  ∃ (e : Term) (before after : List Link) (x : Tree NodeId), links = before ++ after ∧
    e.inOrder = (o, before.map Link.pair) ∧ e.Graded ∧ e.BindsFrom p ∧
    (∀ l ∈ after.head?, l.operator.precedence < q) ∧
    Stacked bound d s t (ts ++ [x]) (k + 2 * after.length) ∧ t.place.Links i.text after ∧
    x.label = id ∧ x.shape = e.shape

theorem Climbs.mono {p' q' : Nat} (h : Climbs i bound d s ts k p q o links id t) (hp : p' ≤ p)
    (hq : q ≤ q') : Climbs i bound d s ts k p' q' o links id t := by
  obtain ⟨e, before, after, x, hsplit, horder, hgraded, hbinds, hhead, hx⟩ := h
  exact ⟨e, before, after, x, hsplit, horder, hgraded, hbinds.mono hp,
    fun l hl => Nat.lt_of_lt_of_le (hhead l hl) hq, hx⟩

theorem precedence_lt (op : BinaryOperator) : op.precedence < 7 := by
  cases op <;> decide

/-- One operator of a level with the operand behind it, or the end of the level. -/
theorem binaryStep_climbs {operand : Parser NodeId} {start : Nat} 
    (hlinks : ∀ l ∈ links, l.Spelled ∧ l.operand.Plain)
    (run : ∀ {ts t o ls k}, Operand.Plain o → (∀ l ∈ ls, Link.Spelled l ∧ l.operand.Plain) →
      Stacked bound d s t ts (k + 2 * ls.length + 1) →
      t.place.Faces i.text o (ls.flatMap Link.chunks) →
      Outcome operand i t (Spent bound) (Climbs i bound d s ts k (p + 1) (p + 1) o ls))
    (h : Climbs i bound d s ts k p (p + 1) o links id t) :
    Outcome (binaryStep operand p start id) i t (Spent bound) fun r u =>
      (r = none → Climbs i bound d s ts k p p o links id u) ∧
      ∀ id', r = some id' → Climbs i bound d s ts k p (p + 1) o links id' u ∧
        u.place.left < t.place.left := by
  obtain ⟨e, before, after, x, rfl, horder, hgraded, hbinds, hhead, hx, hplace, rfl, hshape⟩ := h
  rw [binaryStep, Outcome.peek_bind, hplace.current?]
  cases after with
  | nil =>
    refine ⟨fun _ => ?_, fun _ hr => by cases hr⟩
    exact ⟨e, before, [], x, rfl, horder, hgraded, hbinds, by simp, hx, hplace, rfl, hshape⟩
  | cons l after =>
    obtain ⟨hspelled, hplain⟩ := hlinks l (by simp)
    simp only [List.head?_cons, Option.map_some, Option.bind_some, hspelled.binaryOperator?]
    have hle : l.operator.precedence < p + 1 := hhead l rfl
    by_cases hp : l.operator.precedence = p
    · rw [if_pos hp, Outcome.advance_bind]
      have hfaces := hplace.advance
      have hnewline : t.place.advance.current? ≠ some .newline := by
        rw [hfaces.current?]
        cases l.operand <;> simp [Operand.token]
      rw [skipNewlines_here hnewline]
      have hroom : Stacked bound d s { t with place := t.place.advance } (ts ++ [x])
          (k + 1 + 2 * after.length + 1) := (hx.goto _).resize (by simp; omega)
      refine (run hplain (fun l' hl' => hlinks l' (by simp [hl'])) hroom hfaces).bind ?_
      rintro _ u ⟨e', before', after', y, rfl, horder', hgraded', hbinds', hhead', hu, hlast, rfl,
        hshape'⟩
      have hu' : Stacked bound d s u (ts ++ [x, y]) (k + 2 * after'.length + 1) := by
        simpa [Nat.add_right_comm] using hu
      refine (hu'.add (n := .binary l.operator x y) hlast (.refl _) rfl).map ?_
      rintro _ v ⟨z, hv, hvplace, rfl, hz⟩
      refine ⟨fun hr => (by cases hr), ?_⟩
      rintro _ ⟨⟩
      refine ⟨⟨.binary l.operator e e', before ++ l :: before', after', z, by simp, ?_, ?_, hp.ge,
        hhead', hv, hvplace, rfl, ?_⟩, ?_⟩
      · simp [Term.inOrder, horder, horder', Link.pair]
      · rw [← hp] at hbinds hbinds'
        exact ⟨hbinds, hbinds', hgraded, hgraded'⟩
      · rw [hz, Term.shape, ← hshape, ← hshape']
        rfl
      · rw [Place.Links.left hvplace, hplace.left, List.length_cons, List.length_append]
        omega
    · rw [if_neg hp]
      refine ⟨fun _ => ?_, fun _ hr => by cases hr⟩
      refine ⟨e, before, l :: after, x, rfl, horder, hgraded, hbinds, ?_, hx, hplace, rfl, hshape⟩
      rintro _ ⟨⟩
      omega

/-- The tightest levels take the operators that bind tightly enough, as far as they go. -/
theorem binary_climbs {n : Nat} (hlevels : levels ≤ 7) (hd : d < i.maxDepth) (ho : o.Plain)
    (hlinks : ∀ l ∈ links, l.Spelled ∧ l.operand.Plain)
    (h : Stacked bound d s t ts (k + 2 * links.length + 1))
    (hp : t.place.Faces i.text o (links.flatMap Link.chunks)) :
    Outcome (binary (listOrOperand (nested (n + 1)) true) levels) i t (Spent bound)
      (Climbs i bound d s ts k (7 - levels) (7 - levels) o links) := by
  induction levels generalizing t ts o links k with
  | zero =>
    refine (operand_reads ho (fun l hl => (hlinks l hl).1) h hd hp).imp ?_
    rintro id u ⟨x, hx, hplace, hid, hshape⟩
    exact ⟨.operand o, [], links, x, rfl, rfl, trivial, trivial, fun l _ => precedence_lt _, hx,
      hplace, hid, hshape⟩
  | succ levels ih =>
    obtain ⟨p, hlevel⟩ : ∃ p, 7 - levels = p + 1 := ⟨6 - levels, by omega⟩
    rw [hlevel] at ih
    have hp' : 6 - levels = p := by omega
    have hp'' : 7 - (levels + 1) = p := by omega
    rw [binary, Outcome.start_bind, hp', hp'']
    refine (ih (by omega) ho hlinks h hp).bind fun id u hu => ?_
    refine Outcome.iterate_of_left (hu.mono (Nat.le_succ p) (Nat.le_refl _)) fun id v hv => ?_
    exact binaryStep_climbs hlinks (ih (by omega)) hv

/-- A chain up to the end is read as its operands are grouped. -/
theorem chain_reads {n : Nat} {e : Term} (horder : e.inOrder = (o, links.map Link.pair))
    (hgraded : e.Graded) (ho : o.Plain) (hlinks : ∀ l ∈ links, l.Spelled ∧ l.operand.Plain)
    (h : Stacked bound d s t ts (k + 2 * links.length + 1)) (hd : d + 2 ≤ i.maxDepth)
    (hp : t.place.Faces i.text o (links.flatMap Link.chunks)) :
    Outcome ((nested (n + 2)).expression true) i t (Spent bound)
      (Reads i bound d s ts k [] e.shape) := by
  refine h.guarded (by omega) fun {u} hu hplace => ?_
  rw [ternary, Outcome.start_bind]
  refine (binary_climbs (Nat.le_refl 7) (by omega) ho hlinks hu (hplace ▸ hp)).bind ?_
  rintro _ v ⟨e', before, after, x, rfl, horder', hgraded', -, hhead, hv, hlast, rfl, hshape⟩
  obtain rfl : after = [] := by
    cases after with
    | nil => rfl
    | cons l after => exact absurd (hhead l rfl) (Nat.not_lt_zero _)
  rw [Outcome.eat_ite]
  refine ⟨fun heat => ?_, fun _ => ?_⟩
  · rw [hlast.current?] at heat
    cases heat
  · have heq : e' = e := hgraded'.unique hgraded (by rw [horder', horder, List.append_nil])
    exact ⟨x, hv, hlast, rfl, heq ▸ hshape⟩

/-- The chain is the only expression of the script. -/
theorem chain_script_reads {e : Term} (hname : Source.isPlainName name.toList = true)
    (horder : e.inOrder = (.var name, links.map Link.pair)) (hgraded : e.Graded)
    (hlinks : ∀ l ∈ links, l.Spelled ∧ l.operand.Plain)
    (h : Stacked bound 0 t t [] (k + 2 * links.length + 5)) (hd : i.maxDepth = 3)
    (hp : t.place.At i.text [] ([] ++ chainChunks (.var name) links)) :
    Outcome (scriptBlock (nested i.maxDepth) .endOfText) i t (Spent bound)
      (Reads i bound 0 t [] k [] (loneShape (expressionShape e.shape))) := by
  have hfaces : t.place.Faces i.text (.var name) (links.flatMap Link.chunks) := ⟨[], [], hp, nofun⟩
  have hcurrent := hfaces.current?
  rw [hd]
  refine lone_script_reads hcurrent rfl ?_
  refine expression_statement_reads (j := k + 4 + 2 * links.length + 1) hcurrent
    (h.resize (by omega)) (by omega) fun {u} hu hplace => ?_
  exact chain_reads (n := 0) horder hgraded hname hlinks hu (by omega) (hplace ▸ hfaces)

end Grammar

end ScriptInject
