import ScriptInject.Proofs.Parsing.Command
import ScriptInject.Proofs.Reading.Block
/-! What the rules for lists of statements and for blocks leave behind. -/
namespace ScriptInject.Grammar
open Grammar.Parser ScriptInject.Tree

variable {i : Input} {d : Nat} {s t u : State} {ts us : List (Tree NodeId)} {x : Tree NodeId}
  {p q : Place} {g : Nested} {closer : Closer} {start : Nat}

/-- Trees that are no markers. -/
def Plains (p : Place) (ids : List NodeId) (xs : List (Tree NodeId)) (q : Place) : Prop :=
  q.left ≤ p.left ∧ ids = xs.map label ∧ ∀ x ∈ xs, x.isMarker = false

theorem plains_of_each {ids : List NodeId} {xs : List (Tree NodeId)} (hle : q.left ≤ p.left)
    (h : Each IsPlain ids xs) : Plains p ids xs q := ⟨hle, h.labels⟩

/-- What a recovering reading keeps of a broken statement is a tree of its own. -/
theorem Grown.orElseKeep {r other : Parser NodeId} {R : Tree NodeId → Place → Prop}
    (h : Grown d s t ts) (hr : Outcome r i t (Fails d t) (Bears d t [] R))
    (hother : ∀ {u}, Grown d s u ts → u.place = t.place → s.recovering = true →
      Outcome other i u (Fails d s) (Bears d s ts R)) :
    Outcome (Grammar.orElseKeep r other) i t (Fails d s) (Bears d s ts R) := by
  rw [Outcome] at hr
  rw [Outcome, Grammar.orElseKeep]
  cases hrun : r i t with
  | ok id u =>
    rw [hrun] at hr
    obtain ⟨x, hu, hid, hx⟩ := hr
    exact ⟨x, h.trans hu, hid, hx⟩
  | error f u =>
    rw [hrun] at hr
    have hfails : Fails d s f u := ⟨hr.1, h.toStays.trans hr.2⟩
    cases f with
    | refused e =>
      by_cases hkeep : (u.recovering && isRecoverable e) = true
      · simp only [hkeep, if_true]
        have hu := h.stays hr.2
        have hrecovering : s.recovering = true := by
          rw [← hu.recovering]
          exact (Bool.and_eq_true_iff.mp hkeep).1
        have hback : Grown d s { u with errors := u.errors ++ [e], place := t.place } ts :=
          { hu with depth := hu.depth }
        exact hother hback rfl hrecovering
      · simp only [hkeep]
        exact hfails
    | cut => exact hfails
    | stalled => exact hfails

theorem errorLength_pos (closer : Closer) (ls : List Lexeme) : 0 < errorLength closer ls := by
  rw [errorLength]
  omega

theorem errorStatement_bears (closer : Closer) (h : Grown d s t ts) (hpos : 0 < t.place.left)
    (hrecovering : s.recovering = true) :
    Outcome (errorStatement closer) i t (Fails d s) (Bears d s ts (Plain t.place)) := by
  have hlength := errorLength_pos closer t.place.rest
  rw [errorStatement, Outcome.start_bind, Outcome.place_bind, Outcome.advanceBy_bind,
    Outcome.place_bind]
  refine Outcome.bind (P := fun _ u => Grown d s u ts ∧ u.place.left < t.place.left)
    ((h.goto _).slice fun _ => ⟨h.goto _, by grind⟩) ?_
  rintro text u ⟨hu, hlt⟩
  have hnone : Grown d s u (ts ++ []) := by simpa using hu
  refine Grown.add (n := .error text) hnone (.refl _) rfl ⟨?_, ?_⟩ fun id => ⟨rfl, hlt⟩
  · exact (all_mk.mp (marksPlaced_leaf (l := 0) (n := .error text) rfl)).1
  · intro hstrict
    rw [hrecovering] at hstrict
    exact absurd hstrict nofun

theorem listedUsing_gathers (h : Grown d s t ts) :
    Outcome listedUsing i t (Fails d s) (Gathers d s ts fun o xs q =>
      q.left ≤ t.place.left ∧ (o = none → xs = []) ∧
        ∀ id, o = some id → q.left < t.place.left ∧ IsPlain id xs) := by
  rw [listedUsing, Outcome.start_bind, Outcome.atWord_bind]
  split
  · rename_i husing
    have hpos : 0 < t.place.left := by
      cases hcur : t.place.current? with
      | none => simp [Place.wordAt, hcur] at husing
      | some token => exact Place.left_pos hcur
    rw [Outcome.peekNext_bind]
    split
    · split
      · rename_i kind _
        rw [Outcome.advanceBy_bind, Outcome.start_bind, Outcome.place_bind]
        dsimp only
        rw [Outcome.advanceBy_bind]
        split
        · exact (h.goto _).unexpected
        · refine Outcome.bind (P := fun _ u => Grown d s u ts ∧ u.place.left < t.place.left)
            ((h.goto _).slice fun _ => ⟨h.goto _, by grind⟩) ?_
          rintro name u ⟨hu, hlt⟩
          refine (hu.addLeaf (R := Plain t.place) (n := .usingStatement kind name) rfl rfl rfl
            fun id => ⟨rfl, hlt⟩).bind ?_
          rintro _ v ⟨x, hv, rfl, hx⟩
          rw [Outcome.skipTerminators_bind]
          exact ⟨[x], hv.goto _, by grind [Plain], by simp, fun id hid =>
            ⟨by grind [Plain], x, rfl, Option.some.inj hid, hx.1⟩⟩
      · exact gathers_none h
    · exact gathers_none h
  · exact gathers_none h

variable (hg : Steady i d g)
include hg

theorem terminatedStatement_bears (closer : Closer) (h : Grown d s t ts) :
    Outcome (terminatedStatement g closer) i t (Fails d s) (Bears d s ts (Plain t.place)) := by
  rw [terminatedStatement]
  refine (hg.statement h).bind ?_
  rintro _ u ⟨x, hu, rfl, hx⟩
  rw [Outcome.place_bind]
  have hdone : Outcome (pure x.label) i u (Fails d s) (Bears d s ts (Plain t.place)) :=
    ⟨x, hu, rfl, hx⟩
  split
  · exact hdone
  · exact hdone
  · exact hdone
  · dsimp only
    split
    · exact hdone
    · exact hu.unexpected

theorem listedStatement_gathers (h : Grown d s t ts) :
    Outcome (listedStatement g closer) i t (Fails d s) (Gathers d s ts fun o xs q =>
      q.left ≤ t.place.left ∧ (o = none → xs = []) ∧
        ∀ id, o = some id → q.left < t.place.left ∧ IsPlain id xs) := by
  rw [listedStatement, Outcome.skipTerminators_bind, Outcome.peek_bind]
  split
  · exact ⟨[], by simpa using h.goto _, by grind, fun _ => rfl, by simp⟩
  · rename_i hmore
    have hpos : 0 < (t.place.past isTerminator).left := by
      cases hcur : (t.place.past isTerminator).current? with
      | none => simp [hcur] at hmore
      | some token => exact Place.left_pos hcur
    have hskipped := h.goto (t.place.past isTerminator)
    have hread := terminatedStatement_bears hg closer
      (Grown.start hskipped.tidy hskipped.depth)
    have hlisted := hskipped.orElseKeep hread fun hv hplace hrecovering =>
      hplace ▸ errorStatement_bears closer hv (by rwa [hplace]) hrecovering
    exact Bears.some_item (Bears.mono hlisted (by grind))

theorem statementList_gathers (h : Grown d s t ts) :
    Outcome (statementList g closer) i t (Fails d s) (Gathers d s ts (Plains t.place)) :=
  (h.many fun hu _ => listedStatement_gathers hg hu).imp
    fun _ _ ⟨xs, hu, hle, hxs⟩ => ⟨xs, hu, plains_of_each hle hxs⟩

theorem statementBlock_bears (h : Grown d s t ts) :
    Outcome (statementBlock g) i t (Fails d s) (Bears d s ts (Plain t.place)) := by
  rw [statementBlock, Outcome.skipNewlines_bind, Outcome.start_bind]
  refine (h.goto _).expect fun _ => (statementList_gathers hg (h.goto _)).bind ?_
  rintro _ u ⟨xs, hu, hle, rfl, hxs⟩
  refine hu.expect fun _ => ?_
  exact (hu.goto _).add (n := .statementBlock xs) (.refl _) rfl (.of rfl rfl hxs)
    fun id => ⟨rfl, by grind⟩

omit hg in
theorem addNamedBlock_bears {kind : BlockKind} {unnamed : Bool} {xs : List (Tree NodeId)}
    (h : Grown d s t (ts ++ xs)) (hxs : ∀ x ∈ xs, x.isMarker = false) :
    Outcome (addNamedBlock kind unnamed (xs.map label) start) i t (Fails d s)
      (Bears d s ts fun x q => x.isMarker = false ∧ q = t.place) := by
  have hlabel {x : Tree NodeId} (hx : x ∈ xs) : Grammar.isTrap t.arena x.label = x.isTrap :=
    isTrap_label (h.held x (List.mem_append_right _ hx))
  have hperm : (xs.filter (!·.isTrap) ++ xs.filter (·.isTrap)).Perm xs :=
    List.perm_append_comm.trans (List.filter_append_perm _ xs)
  rw [addNamedBlock, Outcome.get_bind]
  refine h.add (n := .namedBlock kind unnamed (xs.filter (!·.isTrap)) (xs.filter (·.isTrap))) hperm
    ?_ (.of rfl rfl fun x hx => hxs x (hperm.subset hx)) fun id => ⟨rfl, rfl⟩
  simp only [Node.map, List.filter_map, Node.namedBlock.injEq, true_and]
  constructor
  · congr 1
    refine List.filter_congr fun x hx => ?_
    simp [hlabel hx]
  · congr 1
    exact List.filter_congr fun x hx => hlabel hx

theorem namedBlock_bears {kind : BlockKind} (h : Grown d s t ts) :
    Outcome (namedBlock g kind) i t (Fails d s) (Bears d s ts (Plain t.place)) := by
  rw [namedBlock, Outcome.start_bind, Outcome.advance_bind, Outcome.skipNewlines_bind]
  refine (h.goto _).expect fun _ => (statementList_gathers hg (h.goto _)).bind ?_
  rintro _ u ⟨xs, hu, hle, rfl, hxs⟩
  refine hu.expect fun _ => (addNamedBlock_bears (hu.goto _) hxs).imp ?_
  rintro _ v ⟨x, hv, hid, hmark, hplace⟩
  exact ⟨x, hv, hid, hmark, by grind⟩

theorem listedNamedBlock_gathers (h : Grown d s t ts) :
    Outcome (listedNamedBlock g) i t (Fails d s) (Gathers d s ts fun o xs q =>
      q.left ≤ t.place.left ∧ (o = none → xs = []) ∧
        ∀ id, o = some id → q.left < t.place.left ∧ IsPlain id xs) := by
  rw [listedNamedBlock, Outcome.atNamedBlock?_bind]
  split
  · refine (namedBlock_bears hg h).bind ?_
    rintro _ u ⟨x, hu, rfl, hmark, hlt⟩
    rw [Outcome.skipTerminators_bind]
    exact ⟨[x], hu.goto _, by grind, by simp, fun id hid =>
      ⟨by grind, x, rfl, Option.some.inj hid, hmark⟩⟩
  · exact gathers_none h

theorem blocks_gathers (h : Grown d s t ts) :
    Outcome (blocks g closer) i t (Fails d s) (Gathers d s ts (Plains t.place)) := by
  rw [blocks, Outcome.atNamedBlock?_bind]
  split
  · refine (h.many fun hu _ => listedNamedBlock_gathers hg hu).bind ?_
    rintro ids u ⟨xs, hu, hle, hxs⟩
    rw [Outcome.peek_bind]
    split
    · exact ⟨xs, hu, plains_of_each hle hxs⟩
    · exact hu.unexpected
  · rw [Outcome.start_bind]
    refine (statementList_gathers hg h).bind ?_
    rintro _ u ⟨xs, hu, hle, rfl, hxs⟩
    split
    · rename_i hempty
      have hnil : xs = [] := by simpa using hempty
      subst hnil
      exact ⟨[], hu, hle, rfl, by simp⟩
    · refine (addNamedBlock_bears hu hxs).bind ?_
      rintro _ v ⟨x, hv, rfl, hmark, hplace⟩
      exact ⟨[x], hv, by rwa [hplace], rfl, by simpa using hmark⟩

theorem scriptBlock_bears (h : Grown d s t ts) :
    Outcome (scriptBlock g closer) i t (Fails d s)
      (Bears d s ts fun x q => x.isMarker = false ∧ q.left ≤ t.place.left) := by
  have hrest {u : State} {usings : List (Tree NodeId)} {start : Nat}
      (hu : Grown d s u (ts ++ usings)) (husings : ∀ x ∈ usings, x.isMarker = false)
      (hle : u.place.left ≤ t.place.left) :
      Outcome (do
        let params ← paramBlock? g
        skipTerminators
        let blocks ← blocks g closer
        add (.scriptBlock (usings.map label) params blocks) start) i u (Fails d s)
        (Bears d s ts fun x q => x.isMarker = false ∧ q.left ≤ t.place.left) := by
    refine (paramBlock?_gathers hg hu).bind ?_
    rintro o v ⟨ps, hv, hle', hnone, hsome⟩
    rw [Outcome.skipTerminators_bind]
    refine (blocks_gathers hg (hv.goto _)).bind ?_
    rintro _ w ⟨bs, hw, hle'', rfl, hbs⟩
    obtain ⟨params, rfl, rfl, hparams⟩ : ∃ params : Option (Tree NodeId), o = params.map label ∧
        ps = params.toList ∧ ∀ x ∈ params, ∃ attributes parameters,
          x.node = .paramBlock attributes parameters := by
      cases o with
      | none => exact ⟨none, rfl, hnone rfl, by simp⟩
      | some id =>
        obtain ⟨x, rfl, rfl, hx⟩ := hsome id rfl
        exact ⟨some x, rfl, rfl, fun y hy => by rwa [← Option.some.inj hy]⟩
    have hmarks : ∀ x ∈ params, x.isMarker = false := by
      intro x hx
      obtain ⟨attributes, parameters, hnode⟩ := hparams x hx
      rw [Tree.isMarker, Tree.marker?, hnode]
      rfl
    have hmade : Grown d s w (ts ++ (usings ++ params.toList ++ bs)) := by simpa using hw
    refine hmade.add (n := .scriptBlock usings params bs) (.refl _) rfl ⟨⟨?_, ?_⟩, fun _ => rfl⟩
      fun id => ⟨rfl, by grind⟩
    · intro c hc
      simp only [unattributed, Node.children, List.mem_append, Option.mem_toList] at hc
      rcases hc with (hc | hc) | hc
      · exact husings c hc
      · exact hmarks c hc
      · exact hbs c hc
    · intro usings' p blocks hnode
      obtain ⟨-, rfl, -⟩ := Node.scriptBlock.inj hnode
      exact hparams p rfl
  rw [scriptBlock, Outcome.start_bind, Outcome.skipTerminators_bind]
  by_cases hwhole : closer = .endOfText
  · simp only [if_pos hwhole]
    refine ((h.goto _).many fun hu _ => listedUsing_gathers hu).bind ?_
    rintro ids u ⟨xs, hu, hle, hxs⟩
    obtain ⟨rfl, hall⟩ := hxs.labels
    exact hrest hu hall (by grind)
  · simp only [if_neg hwhole, Outcome.pure_bind]
    exact @hrest _ [] _ (by simpa using h.goto _) (by simp) (by grind)

end ScriptInject.Grammar
