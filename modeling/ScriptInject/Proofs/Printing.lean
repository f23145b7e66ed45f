import ScriptInject.Proofs.Shape
import ScriptInject.Source.Generate
/-! The source text of a tree comes from its shape: two runs over trees of one shape go alike. -/
namespace ScriptInject

namespace Source

variable {E : ScriptError → ScriptError → Prop} {α β γ : Type}

/-- The same comes out of both, or errors that belong together. -/
inductive Tallies (E : ScriptError → ScriptError → Prop) :
    Except ScriptError α → Except ScriptError α → Prop
  | ok (v : α) : Tallies E (.ok v) (.ok v)
  | error {d e : ScriptError} (h : E d e) : Tallies E (.error d) (.error e)

namespace Tallies

variable {x y : Except ScriptError α} {k l : α → Except ScriptError β}

theorem pure (v : α) : Tallies E (pure v) (pure v) := .ok v

theorem bind (h : Tallies E x y) (hk : ∀ v, Tallies E (k v) (l v)) :
    Tallies E (x >>= k) (y >>= l) := by
  cases h with
  | ok v => exact hk v
  | error h => exact .error h

theorem map (h : Tallies E x y) (k : α → β) :
    Tallies E (x >>= fun v => Pure.pure (k v)) (y >>= fun v => Pure.pure (k v)) :=
  h.bind fun v => pure (k v)

theorem mapM {p q : γ → α} {cs : List γ} (h : ∀ c ∈ cs, Tallies E (k (p c)) (l (q c))) :
    Tallies E ((cs.map p).mapM k) ((cs.map q).mapM l) := by
  induction cs with
  | nil => exact pure []
  | cons c cs ih =>
    rw [List.map_cons, List.map_cons, List.mapM_cons, List.mapM_cons]
    exact (h c (by simp)).bind fun _ => (ih fun d hd => h d (by simp [hd])).map _

end Tallies

/-! Texts of parts, from the texts of what they consist of. -/

section

variable {f g : β → NodeId} {emit emit' : NodeId → Printed} {cs ds us : List β} {o : Option β}

theorem tallies_joined (h : ∀ c ∈ cs, Tallies E (emit (f c)) (emit' (g c))) (separator : String) :
    Tallies E (joined emit separator (cs.map f)) (joined emit' separator (cs.map g)) :=
  (Tallies.mapM h).map _

theorem tallies_optional (h : ∀ c ∈ o.toList, Tallies E (emit (f c)) (emit' (g c)))
    (lead : String) : Tallies E (optional emit lead (o.map f)) (optional emit' lead (o.map g)) := by
  cases o with
  | none => exact .pure _
  | some c => exact (h c (by simp)).map _

theorem tallies_statementLines (h : ∀ c ∈ cs, Tallies E (emit (f c)) (emit' (g c))) :
    Tallies E (statementLines emit (cs.map f)) (statementLines emit' (cs.map g)) :=
  (Tallies.mapM fun c hc => (h c hc).map _).map _

theorem tallies_bracedStatements (h : ∀ c ∈ cs, Tallies E (emit (f c)) (emit' (g c))) :
    Tallies E (bracedStatements emit (cs.map f)) (bracedStatements emit' (cs.map g)) :=
  (tallies_statementLines h).map _

theorem tallies_caught (h : ∀ c ∈ cs, Tallies E (emit (f c)) (emit' (g c))) :
    Tallies E (caught emit (cs.map f)) (caught emit' (cs.map g)) := by
  cases cs with
  | nil => exact .pure _
  | cons c cs => exact (tallies_joined h _).map _

theorem tallies_parenthesized (h : ∀ c ∈ cs, Tallies E (emit (f c)) (emit' (g c))) :
    Tallies E (parenthesized emit (cs.map f)) (parenthesized emit' (cs.map g)) := by
  cases cs with
  | nil => exact .pure _
  | cons c cs => exact (tallies_joined h _).map _

theorem tallies_scriptBlock
    (h : ∀ c ∈ us ++ o.toList ++ cs, Tallies E (emit (f c)) (emit' (g c))) :
    Tallies E (scriptBlock emit (us.map f) (o.map f) (cs.map f))
      (scriptBlock emit' (us.map g) (o.map g) (cs.map g)) := by
  have husings := Tallies.mapM (k := fun i => return (← emit i) ++ ";")
    (l := fun i => return (← emit' i) ++ ";") fun c (hc : c ∈ us) => (h c (by simp [hc])).map _
  have hparams := Tallies.mapM fun c (hc : c ∈ o.toList) => h c (List.mem_append_left _ (List.mem_append_right _ hc))
  have hblocks := Tallies.mapM fun c (hc : c ∈ cs) => h c (List.mem_append_right _ hc)
  rw [← Option.toList_map, ← Option.toList_map] at hparams
  exact husings.bind fun _ => hparams.bind fun _ => hblocks.map _

variable {c d : β}

theorem tallies_clause (hc : Tallies E (emit (f c)) (emit' (g c)))
    (hd : Tallies E (emit (f d)) (emit' (g d))) (word : String) :
    Tallies E (clause emit word (f c, f d)) (clause emit' word (g c, g d)) :=
  hc.bind fun _ => hd.map _

theorem tallies_pair (hc : Tallies E (emit (f c)) (emit' (g c)))
    (hd : Tallies E (emit (f d)) (emit' (g d))) :
    Tallies E (pair emit (f c, f d)) (pair emit' (g c, g d)) :=
  hc.bind fun _ => hd.map _

end

/-! Some texts depend on what node an id stands for. -/

variable {a b : Arena} {emit emit' : NodeId → Printed} {i j : NodeId}

/-- Two ids stand for nodes of one kind, with the same data. -/
def Akin (a b : Arena) (i j : NodeId) : Prop :=
  ∃ m n, a.get? i = some m ∧ b.get? j = some n ∧ m.shell = n.shell

/-- What looks at a node looks for leaves, and leaves of one kind are one node. -/
theorem Akin.tallies {k l : Node NodeId → Printed} (h : Akin a b i j)
    (hleaf : ∀ n : Node NodeId, n.children = [] → Tallies E (k n) (l n))
    (hinner : ∀ m n : Node NodeId, m.children ≠ [] → n.children ≠ [] → Tallies E (k m) (l n)) :
    Tallies E (do k (← a.node i)) (do l (← b.node j)) := by
  obtain ⟨m, n, hm, hn, hshell⟩ := h
  have hlength : m.children.length = n.children.length := by
    rw [← m.length_children_shell, hshell, n.length_children_shell]
  rw [Arena.node, Arena.node, hm, hn]
  by_cases hnone : m.children = []
  · have hnone' : n.children = [] := List.eq_nil_of_length_eq_zero (by rw [← hlength, hnone]; rfl)
    obtain rfl : m = n := Node.eq_of_shell hshell (hnone.trans hnone'.symm)
    exact hleaf m hnone
  · refine hinner m n hnone fun hnone' => hnone ?_
    exact List.eq_nil_of_length_eq_zero (by rw [hlength, hnone']; rfl)

theorem tallies_accessTarget (h : Akin a b i j) (hemit : Tallies E (emit i) (emit' j))
    (nullConditional : Bool) :
    Tallies E (accessTarget a emit i nullConditional) (accessTarget b emit' j nullConditional) := by
  apply h.tallies
  · intro n _
    split
    · split
      · exact .pure _
      · exact hemit
    · exact hemit
  · intro m n hm hn
    split
    · exact absurd rfl hm
    · split
      · exact absurd rfl hn
      · exact hemit

theorem tallies_memberName (h : Akin a b i j) (hemit : Tallies E (emit i) (emit' j)) :
    Tallies E (memberName a emit i) (memberName b emit' j) := by
  apply h.tallies
  · intro n _
    split
    · exact .pure _
    · exact hemit
  · intro m n hm hn
    split
    · exact absurd rfl hm
    · split
      · exact absurd rfl hn
      · exact hemit

theorem tallies_outerVariable (h : Akin a b i j) (hemit : Tallies E (emit i) (emit' j)) :
    Tallies E (outerVariable a emit i) (outerVariable b emit' j) := by
  apply h.tallies
  · intro n _
    split
    · exact .pure _
    · exact hemit
  · intro m n hm hn
    split
    · exact absurd rfl hm
    · split
      · exact absurd rfl hn
      · exact hemit

theorem mem_pairs {α : Type} {ps : List (α × α)} {p : α × α} (h : p ∈ ps) :
    p.1 ∈ ps.flatMap (fun (a, b) => [a, b]) ∧ p.2 ∈ ps.flatMap (fun (a, b) => [a, b]) :=
  ⟨List.mem_flatMap.mpr ⟨p, h, by simp⟩, List.mem_flatMap.mpr ⟨p, h, by simp⟩⟩

/-- What the texts of two nodes of one shape have to do with each other: an error node has none,
wherever it was read. -/
theorem tallies_ofNode {f g : β → NodeId} {n : Node β}
    (hlook : ∀ c ∈ n.children, Akin a b (f c) (g c))
    (hemit : ∀ c ∈ n.children, Tallies E (emit (f c)) (emit' (g c)))
    (herror : ∀ text, n = .error text → ∀ s s', E (.unprintable "error" s) (.unprintable "error" s')) :
    Tallies E (ofNode a emit i (n.map f)) (ofNode b emit' j (n.map g)) := by
  cases n with
  | error text => exact .error (herror text rfl _ _)
  | ifStatement clauses elseBody =>
    have hclause (word : String) {ps : List (β × β)} (hps : ∀ p ∈ ps, p ∈ clauses) :
        Tallies E ((ps.map fun (x, y) => (f x, f y)).mapM (clause emit word))
          ((ps.map fun (x, y) => (g x, g y)).mapM (clause emit' word)) := by
      apply Tallies.mapM
      intro p hp
      obtain ⟨hx, hy⟩ := mem_pairs (hps p hp)
      exact tallies_clause (hemit p.1 (List.mem_append_left _ hx))
        (hemit p.2 (List.mem_append_left _ hy)) word
    have helse := tallies_optional (fun c hc => hemit c (List.mem_append_right _ hc)) " else "
    cases clauses with
    | nil => exact helse.map _
    | cons p ps =>
      exact (@hclause "if" [p] (by simp)).bind fun _ =>
        (@hclause " elseif" ps fun q hq => by simp [hq]).bind fun _ => helse.map _
  | hashtable pairs =>
    refine Tallies.map (.mapM fun p hp => ?_) _
    obtain ⟨hx, hy⟩ := mem_pairs hp
    exact tallies_pair (hemit p.1 hx) (hemit p.2 hy)
  | scriptBlock usings params blocks => exact tallies_scriptBlock hemit
  | namedBlock kind unnamed statements traps =>
    have hlines : ∀ c ∈ traps ++ statements, Tallies E (emit (f c)) (emit' (g c)) :=
      fun c hc => hemit c (List.mem_append.mpr (List.mem_append.mp hc).symm)
    dsimp only [ofNode, Node.map]
    rw [← List.map_append, ← List.map_append]
    split
    · exact tallies_statementLines hlines
    · exact (tallies_bracedStatements hlines).map _
  | attributeSpec type positional named =>
    dsimp only [ofNode, Node.map]
    rw [← List.map_append, ← List.map_append]
    exact (tallies_joined hemit _).map _
  | paramBlock annotations parameters =>
    refine Tallies.bind (.mapM fun c hc => (hemit c (List.mem_append_left _ hc)).map _) fun _ => ?_
    exact (tallies_joined (fun c hc => hemit c (List.mem_append_right _ hc)) _).map _
  | tryStatement body catches cleanup =>
    simp only [Node.children] at hemit
    refine (hemit body (by simp)).bind fun _ => ?_
    refine Tallies.bind (.mapM fun c hc => (hemit c (by simp [hc])).map _) fun _ => ?_
    exact (tallies_optional (fun c hc => hemit c (by simp_all)) _).map _
  | arrayLiteral elements =>
    dsimp only [ofNode, Node.map]
    rw [List.length_map, List.length_map]
    exact (tallies_joined hemit _).map _
  | trap type body =>
    dsimp only [ofNode, Node.map]
    rw [Option.toList_map, Option.toList_map]
    exact (tallies_caught (fun c hc => hemit c (List.mem_append_left _ hc)) ).bind fun _ =>
      (hemit body (by simp [Node.children])).map _
  | statementBlock statements => exact tallies_bracedStatements hemit
  | pipeline elements => exact tallies_joined hemit _
  | commandExpression expression => exact hemit expression (by simp [Node.children])
  | usingExpression target =>
    exact tallies_outerVariable (hlook target (by simp [Node.children]))
      (hemit target (by simp [Node.children]))
  | _ =>
    -- What is left joins the texts of the children.
    simp only [Node.children] at hlook hemit
    dsimp only [ofNode, Node.map]
    repeat first
      | exact .pure _
      | refine Tallies.bind (tallies_accessTarget (hlook _ (by simp)) (hemit _ (by simp)) _)
          fun _ => ?_
      | refine Tallies.bind (tallies_memberName (hlook _ (by simp)) (hemit _ (by simp))) fun _ => ?_
      | refine Tallies.bind (hemit _ (by simp)) fun _ => ?_
      | refine Tallies.bind (tallies_joined (fun c hc => hemit c (by simp [hc])) _) fun _ => ?_
      | refine Tallies.bind (tallies_optional (fun c hc => hemit c (by simp_all)) _) fun _ => ?_
      | refine Tallies.bind (tallies_caught fun c hc => hemit c (by simp [hc])) fun _ => ?_
      | refine Tallies.bind (tallies_parenthesized fun c hc => hemit c (by simp [hc])) fun _ => ?_

/-! Texts of trees. -/

variable {z : Tree β} {f g : β → NodeId} {k l : Nat}

/-- Over two arenas that hold one tree, each with labels of its own, generating goes alike. -/
theorem tallies_generateUpTo (h : a.Holds (z.map f)) (h' : b.Holds (z.map g)) (hk : z.Within k)
    (hl : z.Within l) (herror : ∀ s ∈ z.subtrees, ∀ text, s.node = .error text →
      ∀ s s', E (.unprintable "error" s) (.unprintable "error" s')) :
    Tallies E (generateUpTo a k (f z.label)) (generateUpTo b l (g z.label)) := by
  induction k generalizing z l with
  | zero => exact absurd hk id
  | succ k ih =>
    obtain _ | l := l
    · exact absurd hl id
    obtain ⟨label, n⟩ := z
    have hnode {c : Arena} {e : β → NodeId} (hc : c.Holds ((Tree.mk label n).map e)) :
        c.get? (e label) = some (n.map fun d => e d.label) := by
      have hget := hc.get?
      rw [Tree.label_map, Tree.node_map, Node.map_map] at hget
      simpa only [Function.comp_def, Tree.label_map, Tree.label_mk, Tree.node_mk] using hget
    have hbelow {c : Arena} {e : β → NodeId} (hc : c.Holds ((Tree.mk label n).map e))
        {d : Tree β} (hd : d ∈ n.children) : c.Holds (d.map e) := by
      apply hc.child
      rw [Tree.node_map, Node.children_map]
      exact List.mem_map_of_mem hd
    rw [Tree.label_mk, generateUpTo, generateUpTo, Arena.node, Arena.node, hnode h, hnode h']
    apply tallies_ofNode
    · intro d hd
      have hget {c : Arena} {e : β → NodeId} (hc : c.Holds ((Tree.mk label n).map e)) :
          c.get? (e d.label) = some ((d.map e).node.map Tree.label) := by
        rw [← Tree.label_map e d]
        exact (hbelow hc hd).get?
      refine ⟨_, _, hget h, hget h', ?_⟩
      simp only [Node.shell_map, Tree.node_map]
    · intro c hc
      refine ih (hbelow h hc) (hbelow h' hc) (hk c hc) (hl c hc) fun s hs => herror s ?_
      exact Tree.mem_subtrees_mk.mpr (.inr ⟨c, hc, hs⟩)
    · intro text hn
      cases n with
      | error text => exact herror _ (Tree.self_mem_subtrees _) text rfl
      | _ => cases hn

theorem tallies_generate (h : a.Holds (z.map f)) (h' : b.Holds (z.map g))
    (herror : ∀ s ∈ z.subtrees, ∀ text, s.node = .error text →
      ∀ s s', E (.unprintable "error" s) (.unprintable "error" s')) :
    Tallies E (generate a (f z.label)) (generate b (g z.label)) :=
  tallies_generateUpTo h h' ((Tree.within_map f).mp h.within_depthBound)
    ((Tree.within_map g).mp h'.within_depthBound) herror

/-- Arenas that hold one tree have one text for it. -/
theorem tallies_generate_held {t : Tree NodeId} (h : a.Holds t) (h' : b.Holds t)
    (herror : ∀ s ∈ t.subtrees, ∀ text, s.node = .error text →
      ∀ s s', E (.unprintable "error" s) (.unprintable "error" s')) :
    Tallies E (generate a t.label) (generate b t.label) := by
  rw [← t.map_id] at h h'
  exact tallies_generate h h' herror

/-- Scripts of one shape have one text, or they have none: because of a broken statement, which each
of them tells by its own place, or because there is no script. -/
theorem generateScript_of_sameShapeAs (h : a.sameShapeAs b = true) :
    (∃ text, generateScript a = .ok text ∧ generateScript b = .ok text) ∨
    (∃ s s', generateScript a = .error (.unprintable "error" s) ∧
      generateScript b = .error (.unprintable "error" s')) ∨
    (a.root? = none ∧ b.root? = none ∧ generateScript a = .error (.arena .noRoot) ∧
      generateScript b = .error (.arena .noRoot)) := by
  rw [generateScript, generateScript, Arena.root, Arena.root]
  rw [Arena.sameShapeAs] at h
  split at h
  · rename_i i j hi hj
    obtain ⟨z, hz, hfst, hsnd⟩ := Arena.exists_holds_of_sameShapeUpTo h
    have hrun := tallies_generate (E := fun d e => ∃ s s', d = .unprintable "error" s ∧
      e = .unprintable "error" s') hfst hsnd fun _ _ _ _ s s' => ⟨s, s', rfl, rfl⟩
    rw [hz] at hrun
    rw [hi, hj]
    change (∃ text, generate a i = .ok text ∧ generate b j = .ok text) ∨
      (∃ s s', generate a i = .error (.unprintable "error" s) ∧
        generate b j = .error (.unprintable "error" s')) ∨ _
    dsimp only at hrun
    generalize generate a i = r at hrun
    generalize generate b j = r' at hrun
    cases hrun with
    | ok text => exact .inl ⟨text, rfl, rfl⟩
    | error he =>
      obtain ⟨s, s', rfl, rfl⟩ := he
      exact .inr (.inl ⟨s, s', rfl, rfl⟩)
  · rename_i hi hj
    rw [hi, hj]
    exact .inr (.inr ⟨rfl, rfl, rfl, rfl⟩)
  · exact absurd h nofun

/-- A sum of which the operands are one node has the text of one of which they are two nodes. -/
theorem generateScript_sum : ∃ a b : Arena, a.root? = some 2 ∧
    a.get? 2 = some (.binary .add 1 1) ∧ b.root? = some 3 ∧ b.get? 3 = some (.binary .add 7 4) ∧
    a.sameShapeAs b = true ∧ generateScript b = .ok "1 + 1" := by
  let script (root : NodeId) (entries : List (NodeId × Node NodeId)) : Arena :=
    { nodes := Std.TreeMap.ofList entries compare, root? := some root }
  let a := script 2 [(1, .number "1"), (2, .binary .add 1 1)]
  let b := script 3 [(3, .binary .add 7 4), (4, .number "1"), (5, .error "x"), (7, .number "1")]
  have hsum : a.get? 2 = some (.binary .add 1 1) := by decide +kernel
  have hsum' : b.get? 3 = some (.binary .add 7 4) := by decide +kernel
  have hsame : a.sameShapeAs b = true := by decide +kernel
  have htext : generateScript a = .ok "1 + 1" := by rfl
  refine ⟨a, b, rfl, hsum, rfl, hsum', hsame, ?_⟩
  rcases generateScript_of_sameShapeAs hsame with
    ⟨text, ha, hb⟩ | ⟨_, _, ha, -⟩ | ⟨hroot, -⟩
  · rw [hb, ← ha, htext]
  · rw [htext] at ha
    cases ha
  · cases hroot

/-- Two arenas without a root are compared alike, and have no text for want of a script. -/
theorem generateScript_rootless : ¬ ∀ a b : Arena, a.sameShapeAs b = true →
    (∃ text, generateScript a = .ok text ∧ generateScript b = .ok text) ∨
    ∃ kind s kind' s', generateScript a = .error (.unprintable kind s) ∧
      generateScript b = .error (.unprintable kind' s') := by
  intro h
  have hempty : generateScript {} = .error (.arena .noRoot) := rfl
  rcases h {} {} rfl with ⟨text, ha, -⟩ | ⟨kind, s, kind', s', ha, -⟩
  · rw [hempty] at ha
    cases ha
  · rw [hempty] at ha
    cases ha

end Source

end ScriptInject
