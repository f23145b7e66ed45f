import ScriptInject.Proofs.Lockstep.Steps
/-! Names of types, read twice. -/
namespace ScriptInject.Grammar.Lockstep

variable {σ : Alignment} {P : State → Prop} {p : Parser TypeName}

theorem dottedName : Lockstep σ P (fun a => a) dottedName dottedName Any := by
  rw [Grammar.dottedName]
  refine peek_bind fun t => ?_
  split
  · refine advance_bind (bind (manyAny (f := fun a => a) ?_) fun others => ?_)
    · refine peek_bind fun t => peekNext_bind fun u => ?_
      split
      · exact advanceBy_bind (pure rfl fun _ _ => trivial)
      · exact pure rfl fun _ _ => trivial
    · exact pure (by rw [List.map_id']) fun _ _ => trivial
  · exact unexpected

theorem typeArgument (h : ∀ {P}, Lockstep σ P (fun a => a) p p Any) :
    Lockstep σ P (fun a => a) (typeArgument p) (typeArgument p) Any := by
  rw [Grammar.typeArgument]
  refine eat_ite ?_ h
  exact bind h fun t => expect_bind (pure rfl fun _ _ => trivial)

theorem typeBracket (h : ∀ {P}, Lockstep σ P (fun a => a) p p Any) (t : TypeName × Nat) :
    Lockstep σ P (Option.map fun a => a) (typeBracket p t) (typeBracket p t) Any := by
  rw [Grammar.typeBracket]
  refine peek_bind fun _ => ?_
  split
  · refine peekNext_bind fun _ => ?_
    split
    · exact advanceBy_bind (pure rfl fun _ _ => trivial)
    · exact start_bind fun _ => refuse rfl
    · refine advance_bind (bind (typeArgument h) fun first => ?_)
      refine bind (afterCommasAny (typeArgument h)) fun others => expect_bind ?_
      exact pure (by rw [List.map_id']; rfl) fun _ _ => trivial
    · exact pure rfl fun _ _ => trivial
  · exact pure rfl fun _ _ => trivial

theorem typeNameUpTo (n : Nat) :
    Lockstep σ P (fun a => a) (typeNameUpTo n) (typeNameUpTo n) Any := by
  induction n generalizing P with
  | zero => exact throw rfl
  | succ n ih =>
    rw [Grammar.typeNameUpTo]
    refine bind dottedName fun name => bind (Q := Any) (f := fun a => a) ?_ fun t => ?_
    · refine (iterate (I := Any) (F := Any) (f := fun a => a) (fun t => ?_) _).weaken
        fun _ _ => trivial
      exact (typeBracket ih t).imp fun _ _ _ => ⟨fun _ => trivial, fun _ _ => trivial⟩
    · exact pure rfl fun _ _ => trivial

theorem typeName : Lockstep σ P (fun a => a) typeName typeName Any := by
  rw [Grammar.typeName]
  refine place_bind fun p => ?_
  rw [show (σ.place p).rest.length = p.rest.length from List.length_map _]
  exact typeNameUpTo _

theorem typeConstraint : Lockstep σ P σ.id typeConstraint typeConstraint Any := by
  rw [Grammar.typeConstraint]
  refine start_bind fun start => expect_bind (bind typeName fun t => expect_bind ?_)
  exact add rfl

end ScriptInject.Grammar.Lockstep
