import ScriptInject.Proofs.Stripping
/-! What rewriting makes of a script, told by recursion on its tree. -/
namespace ScriptInject

open ScriptInject.Tree

namespace Tree

variable {ι : Type}

end Tree

namespace Injection

variable (inj : Injection)

/-- What becomes of a node that a call is put in the place of, whatever is below it. A parameter
stays, with the call as its default. -/
def served (f : Fetch) (id : NodeId) (n : Node (Tree NodeId × Tree (Option NodeId))) :
    Tree (Option NodeId) :=
  match f.placement, f.path?, n with
  | .statement, some path, _ =>
    .mk (some id) (.assignment (.mk none (.variableRef path false)) .assign
      (.mk none (.pipeline [.mk none (.commandExpression (inj.callCopy f))])))
  | .parameter, _, .parameter attributes name _ =>
    .mk (some id) (.parameter (keptCopies attributes) name.2 (some (inj.callCopy f)))
  | _, _, _ => inj.callCopy f

/-- What becomes of another node. Its markers go. -/
def unserved (id : NodeId) : Node (Tree NodeId × Tree (Option NodeId)) → Tree (Option NodeId)
  | .paramBlock attributes parameters =>
    .mk (some id) (.paramBlock (keptCopies attributes) (parameters.map (·.2)))
  | .parameter attributes name value =>
    .mk (some id) (.parameter (keptCopies attributes) name.2 (value.map (·.2)))
  | .annotated mark child =>
    if mark.1.isMarker then child.2 else .mk (some id) (.annotated mark.2 child.2)
  | n => .mk (some id) (n.map (·.2))

/-- The block of parameters with the context before them. -/
def withContext : Option (Tree (Option NodeId)) → Tree (Option NodeId)
  | some (.mk origin (.paramBlock attributes parameters)) =>
    .mk origin (.paramBlock attributes (inj.contextParameterCopy :: parameters))
  | _ => .mk none (.paramBlock [] [inj.contextParameterCopy])

/-- What becomes of the script as a whole. Prepared lines go, and the context comes. -/
def wholeScript (id : NodeId) : Node (Tree NodeId × Tree (Option NodeId)) → Tree (Option NodeId)
  | .scriptBlock usings params? blocks =>
    .mk (some id) (.scriptBlock ((usings.filter (!inj.isPreparedLine ·.1)).map (·.2))
      (some (inj.withContext (params?.map (·.2)))) (blocks.map (·.2)))
  | n => unserved id n

/-- The script with its calls in place. The rule sees each child of a node with what becomes of
it. -/
def injected : Tree NodeId → Tree (Option NodeId) := para fun id n =>
  match inj.fetch? id with
  | some f => inj.served f id n
  | none => if inj.root? = some id then inj.wholeScript id n else unserved id n

variable {inj : Injection} {id : NodeId} {n : Node (Tree NodeId)} {t : Tree NodeId}

theorem injected_mk : inj.injected (.mk id n) =
    match inj.fetch? id with
    | some f => inj.served f id (n.map fun s => (s, inj.injected s))
    | none =>
      if inj.root? = some id then inj.wholeScript id (n.map fun s => (s, inj.injected s))
      else unserved id (n.map fun s => (s, inj.injected s)) := para_mk ..

/-- The block of parameters is rewritten as other blocks are, with the context before the rest. -/
theorem paramsCopy_eq {params? : Option (Tree NodeId)}
    (hparams : ∀ p ∈ params?, ∃ attributes parameters, p.node = .paramBlock attributes parameters)
    (hsuits : ∀ p ∈ params?, inj.Suits p.label p.node) :
    inj.paramsCopy params? = inj.withContext (params?.map inj.rewrite) := by
  cases params? with
  | none => rfl
  | some p =>
    obtain ⟨attributes, parameters, hn⟩ := hparams p rfl
    obtain ⟨id, n⟩ := p
    obtain rfl : n = .paramBlock attributes parameters := hn
    have hsuits : inj.Suits id (.paramBlock attributes parameters) := hsuits _ rfl
    have hbecomes := becomes hsuits
    rw [Option.map_some, paramsCopy]
    generalize inj.rewrite (.mk id (.paramBlock attributes parameters)) = y at hbecomes
    cases hbecomes with
    | called hf => exact absurd rfl (hsuits.place _ hf attributes parameters)
    | assigned hf => exact absurd rfl (hsuits.place _ hf attributes parameters)
    | copied => simp [withoutMarkers, Node.map, withContext]

theorem served_eq_callCopy {f : Fetch} {parts : Node (Tree NodeId × Tree (Option NodeId))}
    (hplacement : f.placement ≠ .parameter) (hpath : f.placement = .statement → f.path? = none) :
    inj.served f id parts = inj.callCopy f := by
  unfold served
  cases h : f.placement with
  | parameter => exact absurd h hplacement
  | statement => rw [hpath h]
  | expression => rfl

theorem unserved_map {g : Tree NodeId → Tree (Option NodeId)}
    (hmark : ∀ mark child, n = .annotated mark child → mark.isMarker = false) :
    unserved id (n.map fun s => (s, g s)) = .mk (some id) ((withoutMarkers n).map g) := by
  cases n with
  | paramBlock attributes parameters => simp [unserved, Node.map, withoutMarkers]
  | parameter attributes name value =>
    simp [unserved, Node.map, withoutMarkers, Function.comp_def]
  | annotated mark child => simp [unserved, Node.map, withoutMarkers, hmark mark child rfl]
  | _ => simp [unserved, Node.map, withoutMarkers, Function.comp_def]

/-- Rewriting is this recursion wherever calls have a place. -/
theorem injected_eq_rewrite (hsuits : ∀ s ∈ t.subtrees, inj.Suits s.label s.node)
    (hplaced : t.All MarksPlaced) : inj.injected t = inj.rewrite t := by
  induction t using Tree.induct with
  | h id n ih =>
    obtain ⟨hn, hall⟩ := all_mk.mp hplaced
    have hbelow (c : Tree NodeId) (hc : c ∈ n.children) : inj.injected c = inj.rewrite c :=
      ih c hc (fun s hs => hsuits s (mem_subtrees_mk.mpr (.inr ⟨c, hc, hs⟩))) (hall c hc)
    have hparts : n.map (fun s => (s, inj.injected s)) = n.map fun s => (s, inj.rewrite s) :=
      Node.map_congr fun c hc => by rw [hbelow c hc]
    have hself : inj.Suits id n := hsuits _ (self_mem_subtrees (.mk id n))
    have hbecomes := becomes hself
    rw [injected_mk, hparts]
    generalize inj.rewrite (.mk id n) = y at hbecomes
    cases hbecomes with
    | @called _ f hf hplacement hpath =>
      rw [hf]
      exact served_eq_callCopy hplacement hpath
    | assigned hf hplacement hpath => simp only [hf, served, hplacement, hpath]
    | defaulted hf hplacement =>
      simp only [hf, served, hplacement, Node.map, keptCopies_map]
    | @script usings params? blocks hf hroot =>
      have hparams := @paramsCopy_eq inj params?
        (fun p hp => hn.params usings p blocks (by rw [Option.mem_def.mp hp])) fun p hp => by
          refine hsuits p (mem_subtrees_mk.mpr (.inr ⟨p, ?_, self_mem_subtrees p⟩))
          simp [Node.children, Option.mem_def.mp hp]
      simp only [hf, hroot, if_true, Node.map, wholeScript, hparams]
      simp [List.filter_map, Function.comp_def]
    | unwrapped hf hmark =>
      have hroot : inj.root? ≠ some id := by
        intro hroot
        obtain ⟨usings, params?, blocks, h⟩ := hself.root hroot
        cases h
      simp only [hf, hroot, if_false, Node.map, unserved, hmark, if_true]
    | copied hf hmark hroot =>
      simp only [hf, hroot, if_false]
      exact unserved_map hmark

variable {a : Arena} {d : Definition} {e e' : Element} {i : NodeId}
  {placement placement' : Placement} {bindings : List Binding}

theorem Replaced.cases (h : Replaced a e (i, placement)) :
    (∃ attributes name value, a.get? i = some (.parameter attributes name value)) ∧ e.node = i ∨
      a.Declares i e.node ∨ a.isChain i = true ∧ e.node = i := by
  cases h with
  | parameter _ hc => exact .inl ⟨hc, rfl⟩
  | statement _ _ hdeclares => exact .inr (.inl hdeclares)
  | expression _ hchain => exact .inr (.inr ⟨hchain, rfl⟩)

end Injection

end ScriptInject
