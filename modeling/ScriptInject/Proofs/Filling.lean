import ScriptInject.Proofs.Tree
/-! A node is its shell with its children. What runs over a node runs over its children, one after
the other. -/
namespace ScriptInject.Node

variable {α β : Type} {m n : Node α}

@[simp] theorem shell_map (f : α → β) (n : Node α) : (n.map f).shell = n.shell := map_map ..

theorem length_children_shell (n : Node α) : n.shell.children.length = n.children.length := by
  rw [shell, children_map, List.length_map]

/-- The next one of the children that are still to be put in their places. -/
def next : StateT (List α) Option α := fun
  | [] => none
  | c :: cs => some (c, cs)

/-- The children that come first are put in their places. -/
def Takes {γ : Type} (m : StateT (List α) Option γ) (cs : List α) (x : γ) : Prop :=
  ∀ rest, m (cs ++ rest) = some (x, rest)

namespace Takes

variable {γ δ : Type} {k : StateT (List α) Option γ} {f : γ → StateT (List α) Option δ}
  {cs ds : List α} {x : γ} {y : δ}

theorem pure (x : γ) : Takes (α := α) (pure x) [] x := fun _ => rfl

theorem next (c : α) : Takes next [c] c := fun _ => rfl

theorem bind (h : Takes k cs x) (hf : Takes (f x) ds y) : Takes (k >>= f) (cs ++ ds) y := by
  intro rest
  change (k (cs ++ ds ++ rest)).bind (fun q => f q.1 q.2) = _
  rw [List.append_assoc, h]
  exact hf rest

theorem one {c : α} {f : α → StateT (List α) Option δ} (hf : Takes (f c) ds y) :
    Takes (Node.next >>= f) (c :: ds) y := (Takes.next c).bind hf

theorem last (h : Takes k cs x) (hf : Takes (f x) [] y) : Takes (k >>= f) cs y := by
  have hbind := h.bind hf
  rwa [List.append_nil] at hbind

theorem list (xs : List α) : Takes ((xs.map fun _ => ()).mapM fun _ => Node.next) xs xs := by
  induction xs with
  | nil => exact .pure []
  | cons x xs ih =>
    rw [List.map_cons, List.mapM_cons]
    exact (Takes.next x).bind (ih.last (.pure _))

theorem option (x : Option α) :
    Takes ((x.map fun _ => ()).mapM fun _ => Node.next) x.toList x := by
  cases x with
  | none => exact .pure none
  | some x =>
    change Takes (some <$> Node.next) [x] (some x)
    rw [map_eq_pure_bind]
    exact (Takes.next x).last (.pure _)

theorem pairs (ps : List (α × α)) :
    Takes ((ps.map fun (_, _) => ((), ())).mapM (pairM fun _ => Node.next))
      (ps.flatMap fun (a, b) => [a, b]) ps := by
  induction ps with
  | nil => exact .pure []
  | cons p ps ih =>
    rw [List.map_cons, List.mapM_cons]
    exact (Takes.bind (.next p.1) ((Takes.next p.2).last (.pure p))).bind (ih.last (.pure _))

end Takes

/-- The children fill the shell up again, each in its place. -/
theorem refill (n : Node α) : Takes (n.shell.mapM fun _ => next) n.children n := by
  cases n
  all_goals simp only [shell, map, mapM, children, List.append_assoc, List.cons_append,
    List.nil_append]
  all_goals repeat first
    | exact .pure _
    | refine .one ?_
    | refine (Takes.list _).last (.pure _)
    | refine (Takes.option _).last (.pure _)
    | refine (Takes.pairs _).last (.pure _)
    | refine (Takes.list _).bind ?_
    | refine (Takes.option _).bind ?_
    | refine (Takes.pairs _).bind ?_

theorem eq_of_shell (hshell : m.shell = n.shell) (hchildren : m.children = n.children) :
    m = n := by
  have hm := m.refill []
  rw [hshell, hchildren, n.refill []] at hm
  exact (congrArg Prod.fst (Option.some.inj hm)).symm

/-! Runs over nodes. -/

/-- A run comes to the same as a run over some children, one after the other, but for what is made
of the outcomes. -/
def Runs {m : Type → Type} [Monad m] {γ : Type} (f : α → m β) (p : m γ) (cs : List α)
    (R : γ → List β → Prop) : Prop :=
  ∀ ⦃δ : Type⦄ (k : γ → m δ) (h : List β → m δ), (∀ x vs, R x vs → k x = h vs) →
    p >>= k = cs.mapM f >>= h

namespace Runs

variable {m : Type → Type} [Monad m] [LawfulMonad m] {γ δ : Type} {f : α → m β} {p : m γ}
  {q : γ → m δ} {cs ds : List α} {P : γ → List β → Prop} {R : δ → List β → Prop}

theorem pure {x : γ} (h : P x []) : Runs f (pure x) [] P := by
  intro δ k h' hk
  rw [pure_bind, List.mapM_nil, pure_bind]
  exact hk x [] h

theorem bind (hp : Runs f p cs P)
    (hq : ∀ x us, P x us → Runs f (q x) ds fun y ws => R y (us ++ ws)) :
    Runs f (p >>= q) (cs ++ ds) R := by
  intro ε k h hk
  rw [bind_assoc, List.mapM_append]
  simp only [bind_assoc, pure_bind]
  apply hp
  intro x us hx
  exact hq x us hx k _ fun y ws hy => hk y (us ++ ws) hy

theorem last (hp : Runs f p cs P)
    (hq : ∀ x us, P x us → Runs f (q x) [] fun y ws => R y (us ++ ws)) :
    Runs f (p >>= q) cs R := by
  have hbind := hp.bind hq
  rwa [List.append_nil] at hbind

theorem one (c : α) : Runs f (f c) [c] fun y vs => vs = [y] := by
  intro δ k h hk
  rw [List.mapM_cons, List.mapM_nil]
  simp only [bind_assoc, pure_bind]
  congr 1
  funext y
  exact hk y [y] rfl

theorem list (cs : List α) : Runs f (cs.mapM f) cs fun ys vs =>
    vs = ys ∧ (ys.map fun _ => ()) = cs.map fun _ => () := by
  induction cs with
  | nil => exact .pure ⟨rfl, rfl⟩
  | cons c cs ih =>
    rw [List.mapM_cons]
    refine (Runs.one c).bind fun y _ hy => ih.last fun ys _ hys => .pure ?_
    simp [hy, hys]

theorem option (c : Option α) : Runs f (c.mapM f) c.toList fun y vs =>
    vs = y.toList ∧ (y.map fun _ => ()) = c.map fun _ => () := by
  cases c with
  | none => exact .pure ⟨rfl, rfl⟩
  | some c =>
    change Runs f (some <$> f c) [c] _
    rw [map_eq_pure_bind]
    exact (Runs.one c).last fun y _ hy => .pure (by simp [hy])

theorem pairs (ps : List (α × α)) :
    Runs f (ps.mapM (pairM f)) (ps.flatMap fun (a, b) => [a, b]) fun qs vs =>
      vs = (qs.flatMap fun (a, b) => [a, b]) ∧
        (qs.map fun (_, _) => ((), ())) = ps.map fun (_, _) => ((), ()) := by
  induction ps with
  | nil => exact .pure ⟨rfl, rfl⟩
  | cons p ps ih =>
    rw [List.mapM_cons, pairM]
    simp only [bind_assoc, pure_bind]
    refine (Runs.one p.1).bind fun x _ hx => (Runs.one p.2).bind fun y _ hy => ?_
    refine ih.last fun qs _ hqs => .pure ?_
    simp [hx, hy, hqs]

end Runs

variable {m : Type → Type} [Monad m] [LawfulMonad m] (f : α → m β)

/-- A run over a node is a run over its children, which gives a node of the same shell. -/
theorem runs_mapM (n : Node α) : Runs f (n.mapM f) n.children fun k vs =>
    k.shell = n.shell ∧ k.children = vs := by
  cases n
  all_goals dsimp only [mapM, children]
  all_goals repeat first
    | exact .pure ⟨by simp only [shell, map, *], by simp [*]⟩
    | rw [List.append_assoc]
    | refine (Runs.list _).last fun _ _ _ => ?_
    | refine (Runs.option _).last fun _ _ _ => ?_
    | refine (Runs.pairs _).last fun _ _ _ => ?_
    | refine (Runs.list _).bind fun _ _ _ => ?_
    | refine (Runs.option _).bind fun _ _ _ => ?_
    | refine (Runs.pairs _).bind fun _ _ _ => ?_
    | refine (Runs.one _).bind fun _ _ _ => ?_
    | refine (Runs.one _).last fun _ _ _ => ?_

/-- A node of the same shell with other children; an error without a text if they do not fit. -/
def fill (n : Node α) (vs : List β) : Node β :=
  match (n.shell.mapM fun _ => next) vs with
  | some (k, _) => k
  | none => .error ""

theorem fill_eq {n : Node α} {k : Node β} {vs : List β} (hshell : k.shell = n.shell)
    (hchildren : k.children = vs) : n.fill vs = k := by
  have hrefill := k.refill []
  rw [List.append_nil, hshell, hchildren] at hrefill
  rw [fill, hrefill]

theorem fill_congr {γ : Type} {n : Node α} {k : Node γ} (h : k.shell = n.shell) :
    (k.fill : List β → Node β) = n.fill := by
  funext vs
  rw [fill, fill, h]

theorem fill_map (n : Node α) (g : α → β) : n.fill (n.children.map g) = n.map g :=
  fill_eq (shell_map g n) (children_map g n)

/-- A run over a node puts the outcomes for its children in their places. -/
theorem mapM_eq (n : Node α) : n.mapM f = n.fill <$> n.children.mapM f := by
  have hrun := runs_mapM f n Pure.pure (fun vs => Pure.pure (n.fill vs)) fun k vs hk => by
    rw [fill_eq hk.1 hk.2]
  rw [bind_pure] at hrun
  rw [hrun, map_eq_pure_bind]

theorem mapM_map {γ : Type} (g : γ → α) (n : Node γ) :
    (n.map g).mapM f = n.mapM fun c => f (g c) := by
  rw [mapM_eq, mapM_eq, children_map, List.mapM_map, fill_congr (shell_map g n)]
  rfl

variable {f} in
theorem mapM_congr {g : α → m β} {n : Node α} (h : ∀ c ∈ n.children, f c = g c) :
    n.mapM f = n.mapM g := by
  have hlist {cs : List α} (hcs : ∀ c ∈ cs, f c = g c) : cs.mapM f = cs.mapM g := by
    induction cs with
    | nil => rfl
    | cons c cs ih =>
      rw [List.mapM_cons, List.mapM_cons, hcs c (by simp), ih fun d hd => hcs d (by simp [hd])]
  rw [mapM_eq, mapM_eq, hlist h]

/-- Children that are as many as the places fill them. -/
theorem exists_filled (n : Node α) {vs : List β} (hlength : vs.length = n.children.length) :
    ∃ k : Node β, k.shell = n.shell ∧ k.children = vs := by
  have hnext {cs : List α} {vs : List β} (hlength : vs.length = cs.length) :
      (cs.mapM fun _ => (next : StateT (List β) Option β)) vs = some (vs, []) := by
    induction cs generalizing vs with
    | nil =>
      obtain rfl := List.eq_nil_of_length_eq_zero hlength
      rfl
    | cons c cs ih =>
      obtain _ | ⟨v, vs⟩ := vs
      · cases hlength
      · have hrest := ih (Nat.succ.inj hlength)
        rw [List.mapM_cons]
        change ((cs.mapM fun _ => next) vs).bind (fun q => some (v :: q.1, q.2)) = _
        rw [hrest]
        rfl
  have hrun := runs_mapM (fun _ => (next : StateT (List β) Option β)) n
    (fun k => Pure.pure (k.shell, k.children)) (fun vs => Pure.pure (n.shell, vs))
    fun k vs hk => by rw [hk.1, hk.2]
  have hat := congrFun hrun vs
  change ((n.mapM fun _ => next) vs).bind (fun q => some ((q.1.shell, q.1.children), q.2)) =
    ((n.children.mapM fun _ => next) vs).bind (fun q => some ((n.shell, q.1), q.2)) at hat
  rw [hnext hlength] at hat
  obtain ⟨⟨k, rest⟩, -, hk⟩ := Option.bind_eq_some_iff.mp hat
  obtain ⟨hk, -⟩ := Prod.mk.inj (Option.some.inj hk)
  obtain ⟨hshell, hchildren⟩ := Prod.mk.inj hk
  exact ⟨k, hshell, hchildren⟩

theorem children_fill {vs : List β} (h : vs.length = n.children.length) :
    (n.fill vs).children = vs := by
  obtain ⟨k, hshell, hchildren⟩ := n.exists_filled h
  rw [fill_eq hshell hchildren, hchildren]

theorem shell_fill {vs : List β} (h : vs.length = n.children.length) :
    (n.fill vs).shell = n.shell := by
  obtain ⟨k, hshell, hchildren⟩ := n.exists_filled h
  rw [fill_eq hshell hchildren, hshell]

theorem map_fill {γ : Type} {vs : List β} (h : vs.length = n.children.length) (g : β → γ) :
    (n.fill vs).map g = n.fill (vs.map g) := by
  refine (fill_eq ?_ ?_).symm
  · rw [shell_map, shell_fill h]
  · rw [children_map, children_fill h]

end ScriptInject.Node
