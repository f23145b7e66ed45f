import ScriptInject.Proofs.Parsing.Attribute
import ScriptInject.Proofs.Reading.Command
/-! What the rules for pipelines leave behind. -/
namespace ScriptInject.Grammar
open Grammar.Parser ScriptInject.Tree

variable {i : Input} {d : Nat} {s t u : State} {ts us : List (Tree NodeId)} {x : Tree NodeId}
  {p q : Place} {g : Nested} {start : Nat}

/-- A tree on its own that is no marker, as an item of a list. -/
def IsPlain (id : NodeId) (xs : List (Tree NodeId)) : Prop :=
  ∃ x, xs = [x] ∧ x.label = id ∧ x.isMarker = false

/-- A tree as an item of a list. -/
theorem Bears.item {r : Parser NodeId} (h : Outcome r i t (Fails d s) (Bears d s ts (Plain p))) :
    Outcome r i t (Fails d s) (Gathers d s ts fun id xs q => q.left < p.left ∧ IsPlain id xs) :=
  h.imp fun _ _ ⟨x, hx, hid, hmark, hlt⟩ => ⟨[x], hx, hlt, x, rfl, hid, hmark⟩

/-- A tree as an item that may be missing. -/
theorem Bears.some_item {r : Parser NodeId}
    (h : Outcome r i t (Fails d s) (Bears d s ts (Plain p))) :
    Outcome (do return some (← r)) i t (Fails d s) (Gathers d s ts fun o xs q =>
      q.left ≤ p.left ∧ (o = none → xs = []) ∧
        ∀ id, o = some id → q.left < p.left ∧ IsPlain id xs) := by
  refine h.bind fun id u ⟨x, hx, hid, hmark, hlt⟩ => ?_
  refine ⟨[x], hx, Nat.le_of_lt hlt, nofun, fun id' hid' => ⟨hlt, x, rfl, ?_, hmark⟩⟩
  rw [hid, Option.some.inj hid']

theorem gathers_none {R : NodeId → List (Tree NodeId) → Place → Prop} (h : Grown d s t ts) :
    Outcome (pure none) i t (Fails d s) (Gathers d s ts fun o xs q =>
      q.left ≤ t.place.left ∧ (o = none → xs = []) ∧ ∀ id, o = some id → R id xs q) :=
  ⟨[], by simpa using h, Nat.le_refl _, fun _ => rfl, nofun⟩

theorem Plain.mono (h : Plain p x q) {p' : Place} (hle : p.left ≤ p'.left) : Plain p' x q :=
  ⟨h.1, Nat.lt_of_lt_of_le h.2 hle⟩

theorem Bears.mono {r : Parser NodeId} {p' : Place}
    (h : Outcome r i t (Fails d s) (Bears d s ts (Plain p))) (hle : p.left ≤ p'.left) :
    Outcome r i t (Fails d s) (Bears d s ts (Plain p')) :=
  h.imp fun _ _ ⟨x, hx, hid, hplain⟩ => ⟨x, hx, hid, hplain.mono hle⟩

theorem bareWordText_passes (h : Grown d s t ts) (hpos : 0 < t.place.left) :
    Outcome bareWordText i t (Fails d s) (Passes d s ts t.place) := by
  rw [bareWordText, Outcome.place_bind]
  split
  · rename_i hnil
    rw [Place.left, hnil] at hpos
    exact absurd hpos (Nat.lt_irrefl 0)
  · dsimp only
    rw [Outcome.advanceBy_bind]
    exact (h.goto _).slice fun _ => ⟨h.goto _, by grind⟩

theorem bareWord_bears (h : Grown d s t ts) (hpos : 0 < t.place.left) :
    Outcome bareWord i t (Fails d s) (Bears d s ts (Plain t.place)) := by
  rw [bareWord, Outcome.start_bind]
  refine (bareWordText_passes h hpos).bind ?_
  rintro value u ⟨hu, hlt⟩
  exact hu.addLeaf (n := .stringConstant value .bareWord) rfl rfl rfl fun id => ⟨rfl, hlt⟩

theorem invocation?_passes (h : Grown d s t ts) :
    Outcome invocation? i t (Fails d s) fun o u => Grown d s u ts ∧
      u.place.left ≤ t.place.left ∧ (o = none → u.place = t.place) := by
  rw [invocation?, Outcome.peek_bind]
  split
  · rw [Outcome.advance_bind]
    exact ⟨h.goto _, by grind, by simp⟩
  · rw [Outcome.place_bind]
    split
    · exact ⟨h, Nat.le_refl _, fun _ => rfl⟩
    · rw [Outcome.advance_bind]
      exact ⟨h.goto _, by grind, by simp⟩
  · exact ⟨h, Nat.le_refl _, fun _ => rfl⟩

theorem CommandStart.left_pos {later : Bool} (h : CommandStart later p) : 0 < p.left := by
  obtain ⟨token, ht, -⟩ := h
  exact Place.left_pos ht

theorem expressionElement_bears {p : Place} (h : Grown d s t (ts ++ [x])) (hx : Plain p x t.place) :
    Outcome (expressionElement x.label) i t (Fails d s) (Bears d s ts (Plain p)) := by
  rw [expressionElement, Outcome.get_bind]
  exact h.addAt (n := .commandExpression x) (.refl _) rfl
    (.of rfl rfl (by simp [unattributed, Node.children, hx.1])) fun id => ⟨rfl, hx.2⟩

variable (hg : Steady i d g)
include hg

theorem operands_bears (h : Grown d s t ts) :
    Outcome (operands g start) i t (Fails d s) (Bears d s ts (Plain t.place)) := by
  rw [operands]
  refine (hg.unary h).bind ?_
  rintro _ u ⟨x, hu, rfl, hx⟩
  rw [Outcome.peek_bind]
  split
  · refine (hu.afterCommas (R := IsPlain) fun hv hle => ?_).bind ?_
    · rw [Outcome.skipNewlines_bind]
      refine (Bears.item (hg.unary (hv.goto _))).imp fun id w hw => ?_
      obtain ⟨xs, hw, hlt, hxs⟩ := hw
      exact ⟨xs, hw, by grind, hxs⟩
    · rintro ids v ⟨xs, hv, hle, hxs⟩
      obtain ⟨rfl, hall⟩ := hxs.labels
      rw [List.append_assoc] at hv
      refine hv.add (n := .arrayLiteral (x :: xs)) (.refl _) rfl (.of rfl rfl ?_)
        fun id => ⟨rfl, ?_⟩
      · simpa [unattributed, Node.children, hx.1] using hall
      · exact Nat.lt_of_le_of_lt hle hx.2
  · exact ⟨x, hu, rfl, hx⟩

theorem commandArgument_bears (h : Grown d s t ts) :
    Outcome (commandArgument g) i t (Fails d s) (Bears d s ts (Plain t.place)) := by
  rw [commandArgument, Outcome.start_bind, Outcome.peek_bind]
  split
  · exact bareWord_bears h (by grind)
  · exact bareWord_bears h (by grind)
  · exact bareWord_bears h (by grind)
  · exact bareWord_bears h (by grind)
  · exact bareWord_bears h (by grind)
  · exact operands_bears hg h

theorem commandParameter_bears {w : String} (h : Grown d s t ts) (hpos : 0 < t.place.left) :
    Outcome (commandParameter g w) i t (Fails d s) (Bears d s ts (Plain t.place)) := by
  rw [commandParameter, Outcome.start_bind, Outcome.advance_bind]
  dsimp only
  split
  · refine (commandArgument_bears hg (h.goto _)).bind ?_
    rintro _ u ⟨x, hu, rfl, hx⟩
    exact hu.add (n := .commandParameter _ (some x)) (.refl _) rfl
      (.of rfl rfl (by simp [unattributed, Node.children, hx.1]))
      fun id => ⟨rfl, by grind [Plain]⟩
  · exact (h.goto _).addLeaf (n := .commandParameter _ none) rfl rfl rfl fun id => ⟨rfl, by grind⟩

theorem commandElement_gathers (h : Grown d s t ts) :
    Outcome (commandElement g) i t (Fails d s) (Gathers d s ts fun o xs q =>
      q.left ≤ t.place.left ∧ (o = none → xs = []) ∧
        ∀ id, o = some id → q.left < t.place.left ∧ IsPlain id xs) := by
  rw [commandElement, Outcome.peek_bind]
  split
  · exact gathers_none h
  · exact gathers_none h
  · exact gathers_none h
  · exact gathers_none h
  · exact gathers_none h
  · exact gathers_none h
  · exact Bears.some_item (commandParameter_bears hg h (by grind))
  · exact Bears.some_item (commandArgument_bears hg h)

theorem command_bears (h : Grown d s t ts) (hpos : 0 < t.place.left) :
    Outcome (command g) i t (Fails d s) (Bears d s ts (Plain t.place)) := by
  rw [command, Outcome.start_bind]
  refine (invocation?_passes h).bind ?_
  rintro invocation u ⟨hu, hle, hnone⟩
  have hrest {name : NodeId} {v : State} (hv : Bears d s ts (Plain t.place) name v) :
      Outcome (do
        let others ← many (commandElement g)
        add (.command invocation (name :: others)) (t.place.start i.text)) i v (Fails d s)
        (Bears d s ts (Plain t.place)) := by
    obtain ⟨x, hv, rfl, hx⟩ := hv
    refine (hv.many fun hw _ => commandElement_gathers hg hw).bind ?_
    rintro ids w ⟨xs, hw, hle', hxs⟩
    obtain ⟨rfl, hall⟩ := hxs.labels
    rw [List.append_assoc] at hw
    refine hw.add (n := .command invocation (x :: xs)) (.refl _) rfl (.of rfl rfl ?_)
      fun id => ⟨rfl, ?_⟩
    · simpa [unattributed, Node.children, hx.1] using hall
    · exact Nat.lt_of_le_of_lt hle' hx.2
  cases invocation with
  | some mark => exact (Bears.mono (commandArgument_bears hg hu) hle).bind fun _ _ hv => hrest hv
  | none =>
    have hname := bareWord_bears (i := i) hu (by rwa [hnone rfl])
    exact (Bears.mono hname hle).bind fun _ _ hv => hrest hv

theorem laterElement_bears (h : Grown d s t ts) :
    Outcome (laterElement g) i t (Fails d s) (Bears d s ts (Plain t.place)) := by
  rw [laterElement, Outcome.skipNewlines_bind]
  refine atCommand_ite (fun hstart => ?_) fun _ => ?_
  · exact Bears.mono (command_bears hg (h.goto _) hstart.left_pos) (by grind)
  · refine (hg.expression true (h.goto _)).bind ?_
    rintro _ u ⟨x, hu, rfl, hx⟩
    exact expressionElement_bears hu (hx.mono (by grind))

theorem pipelineFrom_bears {p : Place} (h : Grown d s t (ts ++ [x])) (hx : Plain p x t.place) :
    Outcome (pipelineFrom g start x.label) i t (Fails d s) (Bears d s ts (Plain p)) := by
  rw [pipelineFrom]
  refine (h.many (R := IsPlain) fun {u us} hu _ => ?_).bind ?_
  · rw [Outcome.eat_ite]
    constructor
    · intro _
      exact Bears.some_item (Bears.mono (laterElement_bears hg (hu.goto _)) (by grind))
    · intro _
      exact gathers_none hu
  · rintro ids u ⟨xs, hu, hle, hxs⟩
    obtain ⟨rfl, hall⟩ := hxs.labels
    rw [List.append_assoc] at hu
    refine hu.add (n := .pipeline (x :: xs)) (.refl _) rfl (.of rfl rfl ?_) fun id => ⟨rfl, ?_⟩
    · simpa [unattributed, Node.children, hx.1] using hall
    · exact Nat.lt_of_le_of_lt hle hx.2

theorem pipeline_bears (h : Grown d s t ts) :
    Outcome (pipeline g) i t (Fails d s) (Bears d s ts (Plain t.place)) := by
  rw [pipeline, Outcome.start_bind]
  refine atCommand_ite (fun hstart => ?_) fun _ => ?_
  · refine (command_bears hg h hstart.left_pos).bind ?_
    rintro _ u ⟨x, hu, rfl, hx⟩
    exact pipelineFrom_bears hg hu hx
  · refine (hg.expression true h).bind ?_
    rintro _ u ⟨x, hu, rfl, hx⟩
    rw [Outcome.peek_bind]
    split
    · rename_i operator _
      rw [Outcome.advance_bind, Outcome.skipNewlines_bind]
      refine (hg.statement (hu.goto _)).bind ?_
      rintro _ v ⟨right, hv, rfl, hright⟩
      rw [List.append_assoc] at hv
      exact hv.add (n := .assignment x operator right) (.refl _) rfl
        (.of rfl rfl (by simp [unattributed, Node.children, hx.1, hright.1]))
        fun id => ⟨rfl, by grind [Plain]⟩
    · refine (expressionElement_bears hu hx).bind ?_
      rintro _ v ⟨y, hv, rfl, hy⟩
      exact pipelineFrom_bears hg hv hy

end ScriptInject.Grammar
