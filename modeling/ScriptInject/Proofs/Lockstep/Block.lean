import ScriptInject.Proofs.Lockstep.Command
/-! Lists of statements and the blocks that hold them, read twice. -/
namespace ScriptInject.Grammar

theorem usingTarget_shift (offset stop : Nat) (ls : List Lexeme) :
    usingTarget (stop + offset) (ls.map (Lexeme.shift offset)) =
      ((usingTarget stop ls).1, (usingTarget stop ls).2 + offset) := by
  induction ls generalizing stop with
  | nil => rfl
  | cons l ls ih =>
    simp only [List.map_cons, usingTarget, Lexeme.shift, Span.shift]
    split
    · rfl
    · rw [ih]

namespace Alignment

variable {σ : Alignment} {a b : Arena}

/-- What stands in front of the second text does not end with a brace. -/
theorem last?_place (p : Place) : ((σ.place p).last?.any fun l => l.token == .mark .rbrace) =
    p.last?.any fun l => l.token == .mark .rbrace := by
  cases hp : p.last? with
  | some l => simp [place, hp, Lexeme.shift]
  | none =>
    have hnewline := σ.newline
    cases hl : σ.last? with
    | none => simp [place, hp, hl]
    | some l => simp [place, hp, hl, hnewline l hl]

theorem isTrap_id (h : σ.Arenas a b) (id : NodeId) : isTrap b (σ.id id) = isTrap a id := by
  rw [isTrap, isTrap, Alignment.id, σ.get?_eq h]
  cases a.get? id with
  | none => rfl
  | some n => cases n <;> rfl

end Alignment

namespace Lockstep

variable {σ : Alignment} {P : State → Prop} {g : Nested} {closer : Closer}

theorem onward_errorStatement (s : State) :
    Onward s (final (errorStatement closer σ.input s)) := by
  rw [errorStatement]
  refine onward_bind ?_ (fun start => onward_bind ?_ fun p => onward_bind ?_ fun _ =>
    onward_bind ?_ fun q => onward_bind ?_ fun text => ?_) s
  · exact fun s => .refl s
  · exact fun s => .refl s
  · exact fun s => .of_place _
  · exact fun s => .refl s
  · exact (slice (P := fun _ => True)).onward
  · exact (add (P := fun _ => True) rfl).onward

theorem addNamedBlock {kind : BlockKind} {unnamed : Bool} {statements : List NodeId}
    {start : Nat} :
    Lockstep σ P σ.id (addNamedBlock kind unnamed statements start)
      (addNamedBlock kind unnamed (statements.map σ.id) (start + σ.offset)) Any := by
  rw [Grammar.addNamedBlock, Grammar.addNamedBlock]
  refine get_bind (fun s => (add (σ := σ) (P := fun _ => True) rfl).onward s) fun {s s'} ha hs => ?_
  refine add ?_
  have hfilter (q : Bool → Bool) : (statements.map σ.id).filter (fun i => q (isTrap s'.arena i)) =
      (statements.filter fun i => q (isTrap s.arena i)).map σ.id := by
    rw [List.filter_map]
    simp only [Function.comp_def, Alignment.isTrap_id ha.arena]
  rw [hfilter (!·), hfilter (·)]
  rfl

theorem atNamedBlock? : Lockstep σ P (fun a => a) atNamedBlock? atNamedBlock? Any := by
  rw [Grammar.atNamedBlock?]
  refine place_bind fun p => ?_
  rw [Place.current?_place, Place.nextSignificant?_place]
  split <;> exact pure rfl fun _ _ => trivial

theorem listedUsing : Lockstep σ P (Option.map σ.id) listedUsing listedUsing Any := by
  rw [Grammar.listedUsing]
  refine start_bind fun start => atWord_bind fun isUsing => ?_
  split
  · refine peekNext_bind fun t => ?_
    split
    · split
      · refine advanceBy_bind (start_bind fun nameStart => place_bind fun p => ?_)
        simp only [Alignment.place, usingTarget_shift]
        refine advanceBy_bind ?_
        by_cases hname : (usingTarget nameStart p.rest).2 = nameStart
        · rw [if_pos hname, if_pos (by rw [hname])]
          exact unexpected
        · rw [if_neg hname, if_neg (by omega)]
          refine bind slice fun name => bind (add rfl) fun id => skipTerminators_bind ?_
          exact pure rfl fun _ _ => trivial
      · exact pure rfl fun _ _ => trivial
    · exact pure rfl fun _ _ => trivial
  · exact pure rfl fun _ _ => trivial

variable (hg : Paired σ g)
include hg

theorem terminatedStatement :
    Lockstep σ P σ.id (terminatedStatement g closer) (terminatedStatement g closer) Any := by
  rw [Grammar.terminatedStatement]
  refine bind hg.statement fun id => place_bind fun p => ?_
  rw [Alignment.last?_place, Place.current?_place]
  dsimp only
  split
  iterate 3 exact pure rfl fun _ _ => trivial
  split
  · exact pure rfl fun _ _ => trivial
  · exact unexpected

theorem listedStatement : Lockstep σ P (Option.map σ.id) (listedStatement g closer)
    (listedStatement g closer) Any := by
  rw [Grammar.listedStatement]
  refine skipTerminators_bind (peek_bind fun t => ?_)
  split
  · exact pure rfl fun _ _ => trivial
  · refine (some_bind (orElseKeep (terminatedStatement hg) ?_)).imp fun _ _ _ => trivial
    exact onward_errorStatement

theorem statementList :
    Lockstep σ P (List.map σ.id) (statementList g closer) (statementList g closer) Any :=
  manyAny (listedStatement hg)

theorem statementBlock : Lockstep σ P σ.id (statementBlock g) (statementBlock g) Any := by
  rw [Grammar.statementBlock]
  refine skipNewlines_bind (start_bind fun start => expect_bind ?_)
  exact bind (statementList hg) fun statements => expect_bind (add rfl)

theorem namedBlock {kind : BlockKind} :
    Lockstep σ P σ.id (namedBlock g kind) (namedBlock g kind) Any := by
  rw [Grammar.namedBlock]
  refine start_bind fun start => advance_bind (skipNewlines_bind (expect_bind ?_))
  exact bind (statementList hg) fun statements => expect_bind addNamedBlock

theorem listedNamedBlock :
    Lockstep σ P (Option.map σ.id) (listedNamedBlock g) (listedNamedBlock g) Any := by
  rw [Grammar.listedNamedBlock]
  refine bind atNamedBlock? fun kind? => ?_
  split
  · refine bind (namedBlock hg) fun id => skipTerminators_bind ?_
    exact pure rfl fun _ _ => trivial
  · exact pure rfl fun _ _ => trivial

theorem blocks : Lockstep σ P (List.map σ.id) (blocks g closer) (blocks g closer) Any := by
  rw [Grammar.blocks]
  refine bind atNamedBlock? fun kind? => ?_
  split
  · refine bind (manyAny (listedNamedBlock hg)) fun ids => peek_bind fun t => ?_
    split
    · exact pure rfl fun _ _ => trivial
    · exact unexpected
  · refine start_bind fun start => bind (statementList hg) fun statements => ?_
    rw [List.isEmpty_map]
    split
    · exact pure rfl fun _ _ => trivial
    · exact bind addNamedBlock fun id => pure rfl fun _ _ => trivial

theorem scriptBlock : Lockstep σ P σ.id (scriptBlock g closer) (scriptBlock g closer) Any := by
  rw [Grammar.scriptBlock]
  refine start_bind fun start => skipTerminators_bind ?_
  have hrest {P : State → Prop} (usings : List NodeId) : Lockstep σ P σ.id
      (do
        let params ← Grammar.paramBlock? g
        Parser.skipTerminators
        let blocks ← Grammar.blocks g closer
        Parser.add (.scriptBlock usings params blocks) start)
      (do
        let params ← Grammar.paramBlock? g
        Parser.skipTerminators
        let blocks ← Grammar.blocks g closer
        Parser.add (.scriptBlock (usings.map σ.id) params blocks) (start + σ.offset)) Any := by
    refine bind (paramBlock? hg) fun params => skipTerminators_bind ?_
    exact bind (blocks hg) fun blocks => add rfl
  split
  · exact bind (manyAny listedUsing) hrest
  · exact bind (pure (Q := Any) rfl fun _ _ => trivial) hrest

end Lockstep

end ScriptInject.Grammar
