import ScriptInject.Proofs.Mirror.Alike
import ScriptInject.Survey
/-! Surveys of arenas that mirror each other find the same, at the renamed ids. -/
namespace ScriptInject

variable {ρ : NodeId → NodeId} {ids : List NodeId} {a b : Arena}

def Candidate.renamed (ρ : NodeId → NodeId) (c : Candidate) : Candidate :=
  ⟨ρ c.node, ρ c.mark, c.declaration?.map ρ⟩

namespace Survey

def renamed (ρ : NodeId → NodeId) (s : Survey) : Survey where
  candidates := s.candidates.map fun (r, c) => (r, c.renamed ρ)
  parameters := s.parameters.map fun (owner, c) => (ρ owner, c.renamed ρ)
  usings := s.usings.map ρ
  warnings := s.warnings

/-- What is found stands at certain ids. -/
structure Within (ids : List NodeId) (s : Survey) : Prop where
  candidates : ∀ r c, (r, c) ∈ s.candidates → c.node ∈ ids ∧ c.mark ∈ ids
  parameters : ∀ owner c, (owner, c) ∈ s.parameters → owner ∈ ids ∧ c.node ∈ ids ∧ c.mark ∈ ids

def Walk.renamed (ρ : NodeId → NodeId) (w : Walk) : Walk where
  found := w.found.renamed ρ
  declarations := w.declarations.map fun (chain, statement) => (ρ chain, ρ statement)
  done := w.done.map ρ

/-- Two walks that have come as far as each other. -/
structure Walk.Mirrors (ρ : NodeId → NodeId) (ids : List NodeId) (w w' : Walk) : Prop where
  renamed : w' = w.renamed ρ
  within : w.found.Within ids

def Chain.renamed (ρ : NodeId → NodeId) (c : Chain) : Chain :=
  ⟨c.attributes.map ρ, c.inner.map ρ, ρ c.last⟩

variable {i j owner : NodeId} {n : Node NodeId} {k k' : Nat}

theorem addCandidate_alike (r : Role) {c : Candidate} (hnode : c.node ∈ ids)
    (hmark : c.mark ∈ ids) :
    Alike (Walk.Mirrors ρ ids) (addCandidate r c) (addCandidate r (c.renamed ρ)) := by
  refine .modify fun w w' hw => ⟨?_, ?_, hw.within.parameters⟩
  · simp [hw.renamed, Walk.renamed, Survey.renamed]
  · intro r' c' hc
    rcases List.mem_append.mp hc with hc | hc
    · exact hw.within.candidates r' c' hc
    · obtain ⟨rfl, rfl⟩ := Prod.mk.inj (List.mem_singleton.mp hc)
      exact ⟨hnode, hmark⟩

theorem addParameter_alike {c : Candidate} (howner : owner ∈ ids) (hnode : c.node ∈ ids)
    (hmark : c.mark ∈ ids) :
    Alike (Walk.Mirrors ρ ids) (addParameter owner c) (addParameter (ρ owner) (c.renamed ρ)) := by
  refine .modify fun w w' hw => ⟨?_, hw.within.candidates, ?_⟩
  · simp [hw.renamed, Walk.renamed, Survey.renamed]
  · intro owner' c' hc
    rcases List.mem_append.mp hc with hc | hc
    · exact hw.within.parameters owner' c' hc
    · obtain ⟨rfl, rfl⟩ := Prod.mk.inj (List.mem_singleton.mp hc)
      exact ⟨howner, hnode, hmark⟩

theorem warn_alike (w : Warning) : Alike (Walk.Mirrors ρ ids) (warn w) (warn w) :=
  .modify fun v v' hv => ⟨by simp [hv.renamed, Walk.renamed, Survey.renamed],
    hv.within.candidates, hv.within.parameters⟩

theorem addUsing_alike (i : NodeId) :
    Alike (Walk.Mirrors ρ ids) (addUsing i) (addUsing (ρ i)) :=
  .modify fun w w' hw => ⟨by simp [hw.renamed, Walk.renamed, Survey.renamed],
    hw.within.candidates, hw.within.parameters⟩

theorem declare_alike (chain statement : NodeId) :
    Alike (Walk.Mirrors ρ ids) (declare chain statement) (declare (ρ chain) (ρ statement)) :=
  .modify fun w w' hw => ⟨by simp [hw.renamed, Walk.renamed], hw.within⟩

theorem markDone_alike (is : List NodeId) :
    Alike (Walk.Mirrors ρ ids) (markDone is) (markDone (is.map ρ)) :=
  .modify fun w w' hw => ⟨by simp [hw.renamed, Walk.renamed], hw.within⟩

theorem unlessDone_alike {m m' : Walking Unit} (hρ : Function.Injective ρ)
    (h : Alike (Walk.Mirrors ρ ids) m m') (i : NodeId) :
    Alike (Walk.Mirrors ρ ids) (do unless ← isDone i do m) (do unless ← isDone (ρ i) do m') := by
  refine .bind (fun w w' hw => .ok ⟨?_, hw⟩ : Alike _ (isDone i) (isDone (ρ i))) fun done => ?_
  · rw [hw.renamed, Walk.renamed]
    simp [hρ.eq_iff]
  · cases done with
    | false => exact h
    | true => exact .pure _

end Survey

namespace Arena.Mirrors
open Survey

variable {i j owner : NodeId} {n : Node NodeId} {k k' : Nat} (h : Mirrors ρ ids a b)
include h

theorem fileMarks_alike {marks : List NodeId} (site : Option Site) {node : NodeId}
    (declaration? : Option NodeId) (hmarks : ∀ m ∈ marks, m ∈ ids) (hnode : node ∈ ids) :
    Alike (Walk.Mirrors ρ ids) (fileMarks a marks site node declaration?)
      (fileMarks b (marks.map ρ) site (ρ node) (declaration?.map ρ)) := by
  refine .forM fun mark hmark => ?_
  rw [h.marker?_eq (hmarks mark hmark)]
  cases a.marker? mark with
  | none => exact .pure _
  | some marker =>
    dsimp only
    cases site.bind marker.role? with
    | none =>
      dsimp only
      rw [h.label_eq hnode]
      exact warn_alike _
    | some role =>
      exact addCandidate_alike role (c := ⟨node, mark, declaration?⟩) hnode (hmarks mark hmark)

theorem visitParameter_alike {marks : List NodeId} (hmarks : ∀ m ∈ marks, m ∈ ids)
    (howner : owner ∈ ids) (hi : i ∈ ids) :
    Alike (Walk.Mirrors ρ ids) (visitParameter a owner i marks)
      (visitParameter b (ρ owner) (ρ i) (marks.map ρ)) := by
  refine .forM fun mark hmark => ?_
  rw [h.marker?_eq (hmarks mark hmark)]
  cases a.marker? mark with
  | none => exact .pure _
  | some marker =>
    dsimp only
    cases marker.role? .parameter with
    | none =>
      dsimp only
      rw [h.label_eq hi]
      exact warn_alike _
    | some role =>
      exact addParameter_alike (c := ⟨i, mark, some i⟩) howner hi (hmarks mark hmark)

theorem chainUpTo_eq (hi : i ∈ ids) (hk : i < k) (hk' : ρ i < k') : ∃ chain,
    chainUpTo a k i = .ok chain ∧ chainUpTo b k' (ρ i) = .ok (chain.renamed ρ) ∧
      (∀ m ∈ chain.attributes, m ∈ ids) ∧ chain.last ∈ ids := by
  induction k generalizing i k' with
  | zero => exact absurd hk (Nat.not_lt_zero _)
  | succ k ih =>
    obtain ⟨k', rfl⟩ := Nat.exists_eq_add_one_of_ne_zero (Nat.ne_zero_of_lt hk')
    -- From a link the chain goes on with the child, if that is a link.
    have honwards {n : Node NodeId} {c : NodeId} {marks : List NodeId} (hn : a.get? i = some n)
        (hc : c ∈ n.children) (hmarks : ∀ m ∈ marks, m ∈ ids) : ∃ chain,
        (do
          if a.isChain c then
            let rest ← chainUpTo a k c
            return ⟨marks ++ rest.attributes, c :: rest.inner, rest.last⟩
          return ⟨marks, [], c⟩ : Except ScriptError Chain) = .ok chain ∧
        (do
          if b.isChain (ρ c) then
            let rest ← chainUpTo b k' (ρ c)
            return ⟨marks.map ρ ++ rest.attributes, ρ c :: rest.inner, rest.last⟩
          return ⟨marks.map ρ, [], ρ c⟩ : Except ScriptError Chain) = .ok (chain.renamed ρ) ∧
        (∀ m ∈ chain.attributes, m ∈ ids) ∧ chain.last ∈ ids := by
      have hmem := h.child hi hn hc
      obtain ⟨hlt, hlt'⟩ := h.child_lt hi hn hc
      rw [h.isChain_eq hmem]
      cases a.isChain c with
      | false => exact ⟨⟨marks, [], c⟩, rfl, rfl, hmarks, hmem⟩
      | true =>
        obtain ⟨rest, hrest, hrest', hattributes, hlast⟩ := @ih _ k' hmem
          (Nat.lt_of_lt_of_le hlt (Nat.le_of_lt_succ hk))
          (Nat.lt_of_lt_of_le hlt' (Nat.le_of_lt_succ hk'))
        rw [hrest, hrest']
        refine ⟨⟨marks ++ rest.attributes, c :: rest.inner, rest.last⟩, rfl, ?_, ?_, hlast⟩
        · simp only [Chain.renamed, List.map_append]
          rfl
        · intro m hm
          exact (List.mem_append.mp hm).elim (hmarks m) (hattributes m)
    have hend : ∃ chain, (.ok ⟨[], [], i⟩ : Except ScriptError Chain) = .ok chain ∧
        (.ok ⟨[], [], ρ i⟩ : Except ScriptError Chain) = .ok (chain.renamed ρ) ∧
        (∀ m ∈ chain.attributes, m ∈ ids) ∧ chain.last ∈ ids :=
      ⟨_, rfl, rfl, by simp, hi⟩
    cases h.pair hi with
    | same n hn hm =>
      rw [chainUpTo, chainUpTo, Arena.node, Arena.node, hn, hm]
      cases n with
      | annotated mark child =>
        refine @honwards _ _ [mark] hn (by simp [Node.children]) fun m hm => ?_
        exact List.mem_singleton.mp hm ▸ h.child hi hn (by simp [Node.children])
      | convert type child => exact @honwards _ _ [] hn (by simp [Node.children]) (by simp)
      | _ => exact hend
    | marker positional named hn hm =>
      rw [chainUpTo, chainUpTo, Arena.node, Arena.node, hn, hm]
      exact hend

theorem chainSite_eq (hi : i ∈ ids) (hj : j ∈ ids) :
    ∃ site, chainSite a i j = .ok site ∧ chainSite b (ρ i) (ρ j) = .ok site := by
  rw [chainSite, chainSite, (h.chainVariable?_eq hi).1, Option.isSome_map]
  cases (a.chainVariable? i).isSome with
  | true => exact ⟨some .variableChain, rfl, rfl⟩
  | false =>
    cases h.pair hj with
    | same n hn hm =>
      rw [Arena.node, Arena.node, hn, hm]
      cases n with
      | scriptBlockExpression body => exact ⟨some .scriptBlock, rfl, rfl⟩
      | _ => exact ⟨none, rfl, rfl⟩
    | marker positional named hn hm =>
      rw [Arena.node, Arena.node, hn, hm]
      exact ⟨none, rfl, rfl⟩

theorem visitChain_alike (hi : i ∈ ids) :
    Alike (Walk.Mirrors ρ ids) (visitChain a i) (visitChain b (ρ i)) := by
  obtain ⟨chain, hchain, hchain', hattributes, hlast⟩ :=
    h.chainUpTo_eq hi (h.lt_depthBound hi).1 (h.lt_depthBound hi).2
  obtain ⟨site, hsite, hsite'⟩ := h.chainSite_eq hi hlast
  refine .lift_bind hchain hchain' ((markDone_alike chain.inner).bind fun _ => ?_)
  refine .lift_bind hsite hsite' (.get_bind fun w w' hw => ?_)
  have hlookup : w'.declarations.lookup (ρ i) = (w.declarations.lookup i).map ρ := by
    rw [hw.renamed]
    exact lookup_map h.injective ρ _ i
  dsimp only
  rw [hlookup]
  have hfiled := h.fileMarks_alike site
    (if site = some .variableChain then w.declarations.lookup i else none) hattributes hi
  rwa [apply_ite (Option.map ρ)] at hfiled

theorem visitFunction_alike (hi : i ∈ ids) (hj : j ∈ ids) :
    Alike (Walk.Mirrors ρ ids) (visitFunction a i j) (visitFunction b (ρ i) (ρ j)) := by
  refine .node h hj (fun n hn _ => ?_) fun _ _ _ _ _ => .pure _
  cases n with
  | scriptBlock usings params? blocks =>
    cases params? with
    | none => exact .pure _
    | some params =>
      have hparams : params ∈ ids := h.child hj hn (by simp [Node.children])
      refine (markDone_alike [params]).bind fun _ => ?_
      refine .node h hparams (fun m hm _ => ?_) fun _ _ _ _ _ => .pure _
      cases m with
      | paramBlock marks parameters =>
        exact h.fileMarks_alike (some .function) none
          (fun mark hmark => h.child hparams hm (List.mem_append_left _ hmark)) hi
      | _ => exact .pure _
  | _ => exact .pure _

theorem declare_expression_alike {statement : NodeId} (hi : i ∈ ids) :
    Alike (Walk.Mirrors ρ ids) (if a.isChain i then declare i statement else pure ())
      (if b.isChain (ρ i) then declare (ρ i) (ρ statement) else pure ()) := by
  rw [h.isChain_eq hi]
  cases a.isChain i with
  | false => exact .pure _
  | true => exact declare_alike i statement

theorem visitPipeline_alike {element : NodeId} (hn : a.get? i = some (.pipeline [element]))
    (hi : i ∈ ids) :
    Alike (Walk.Mirrors ρ ids) (visitNode a owner i (.pipeline [element]))
      (visitNode b (ρ owner) (ρ i) (.pipeline [ρ element])) := by
  have helement : element ∈ ids := h.child hi hn (by simp [Node.children])
  rw [visitNode, visitNode]
  cases h.pair helement with
  | same m hm hm' =>
    rw [hm, hm']
    cases m with
    | commandExpression expression =>
      exact h.declare_expression_alike (h.child helement hm (by simp [Node.children]))
    | _ => exact .pure _
  | marker positional named hm hm' =>
    rw [hm, hm']
    exact .pure _

theorem visitNode_alike {n : Node NodeId} (hn : a.get? i = some n) (hi : i ∈ ids)
    (howner : owner ∈ ids) :
    Alike (Walk.Mirrors ρ ids) (visitNode a owner i n) (visitNode b (ρ owner) (ρ i) (n.map ρ)) := by
  have hchild {j : NodeId} (hj : j ∈ n.children) : j ∈ ids := h.child hi hn hj
  cases n with
  | usingStatement kind name => exact addUsing_alike i
  | functionDefinition name isFilter parameters body =>
    exact h.visitFunction_alike hi (hchild (by simp [Node.children]))
  | paramBlock marks parameters =>
    refine unlessDone_alike h.injective ?_ i
    exact h.fileMarks_alike none none (fun mark hmark => hchild (List.mem_append_left _ hmark))
      howner
  | parameter marks name value =>
    exact h.visitParameter_alike (fun mark hmark => hchild (by simp [Node.children, hmark])) howner
      hi
  | pipeline elements =>
    rcases elements with - | ⟨e, - | ⟨f, elements⟩⟩
    · exact .pure _
    · exact h.visitPipeline_alike hn hi
    · exact .pure _
  | assignment left operator right =>
    exact h.declare_expression_alike (hchild (by simp [Node.children]))
  | annotated mark child => exact unlessDone_alike h.injective (h.visitChain_alike hi) i
  | convert type child => exact unlessDone_alike h.injective (h.visitChain_alike hi) i
  | _ => exact .pure _

omit h in
theorem ownerBelow_map (owner i : NodeId) (n : Node NodeId) :
    ownerBelow (ρ owner) (ρ i) (n.map ρ) = ρ (ownerBelow owner i n) := by
  cases n <;> rfl

omit h in
theorem ownerBelow_mem (howner : owner ∈ ids) (hi : i ∈ ids) (n : Node NodeId) :
    ownerBelow owner i n ∈ ids := by
  cases n with
  | functionDefinition | scriptBlockExpression => exact hi
  | _ => exact howner

theorem visitUpTo_alike (howner : owner ∈ ids) (hi : i ∈ ids) (hk : i < k) (hk' : ρ i < k') :
    Alike (Walk.Mirrors ρ ids) (visitUpTo a k owner i) (visitUpTo b k' (ρ owner) (ρ i)) := by
  induction k generalizing i k' owner with
  | zero => exact absurd hk (Nat.not_lt_zero _)
  | succ k ih =>
    obtain ⟨k', rfl⟩ := Nat.exists_eq_add_one_of_ne_zero (Nat.ne_zero_of_lt hk')
    have hbelow {n : Node NodeId} {owner c : NodeId} (hn : a.get? i = some n)
        (howner : owner ∈ ids) (hc : c ∈ n.children) :
        Alike (Walk.Mirrors ρ ids) (visitUpTo a k owner c) (visitUpTo b k' (ρ owner) (ρ c)) := by
      obtain ⟨hlt, hlt'⟩ := h.child_lt hi hn hc
      exact ih howner (h.child hi hn hc) (Nat.lt_of_lt_of_le hlt (Nat.le_of_lt_succ hk))
        (Nat.lt_of_lt_of_le hlt' (Nat.le_of_lt_succ hk'))
    refine .node h hi (fun n hn _ => ?_) fun s t positional named hn => ?_
    · refine (h.visitNode_alike hn hi howner).bind fun _ => ?_
      rw [Node.children_map, ownerBelow_map]
      exact .forM fun c hc => hbelow hn (ownerBelow_mem howner hi n) hc
    · refine (Alike.pure _).bind fun _ => ?_
      change Alike _ ((positional ++ named).forM _) ((positional.map ρ ++ named.map ρ).forM _)
      rw [← List.map_append]
      exact .forM fun c hc => hbelow hn howner hc

/-- Both surveys fail alike, or the one finds what the other finds at the renamed ids. -/
theorem ofArena?_agree (hroot : ∀ i ∈ a.root?, i ∈ ids) (hroot' : b.root? = a.root?.map ρ) :
    Agree (fun s s' => s' = s.renamed ρ ∧ s.Within ids) (ofArena? a) (ofArena? b) := by
  unfold ofArena?
  rw [Arena.root, Arena.root, hroot']
  cases hr : a.root? with
  | none => exact .error _
  | some root =>
    have hmem : root ∈ ids := hroot root hr
    have hrun := h.visitUpTo_alike hmem hmem (h.lt_depthBound hmem).1 (h.lt_depthBound hmem).2
      {} {} ⟨rfl, nofun, nofun⟩
    change Agree _ (visitUpTo a a.depthBound root root {} >>= fun q => .ok q.2.found)
      (visitUpTo b b.depthBound (ρ root) (ρ root) {} >>= fun q => .ok q.2.found)
    generalize visitUpTo a a.depthBound root root {} = r at hrun
    generalize visitUpTo b b.depthBound (ρ root) (ρ root) {} = r' at hrun
    cases hrun with
    | error e => exact .error e
    | ok hpq => exact .ok ⟨congrArg Walk.found hpq.2.renamed, hpq.2.within⟩

end Arena.Mirrors


end ScriptInject
