import ScriptInject.Proofs.Filling
/-! The laws of going through the children of a node: its kind and its data stay, and its children
are dealt with as a list of them is. -/
namespace ScriptInject

variable {α β ε : Type}

/-- What the function fails with at the first of some values that it fails at. -/
def FirstFailure (f : α → Except ε β) (cs : List α) (e : ε) : Prop :=
  ∃ before c behind, cs = before ++ c :: behind ∧ (∀ b ∈ before, ∃ v, f b = .ok v) ∧
    f c = .error e

section

variable {f : α → Except ε β} {c : α} {cs : List α} {e : ε}

theorem firstFailure_cons :
    FirstFailure f (c :: cs) e ↔ f c = .error e ∨ ∃ v, f c = .ok v ∧ FirstFailure f cs e := by
  constructor
  · rintro ⟨before, d, behind, hsplit, hbefore, hd⟩
    cases before with
    | nil =>
      obtain ⟨rfl, rfl⟩ := List.cons.inj hsplit
      exact .inl hd
    | cons b before =>
      obtain ⟨rfl, rfl⟩ := List.cons.inj hsplit
      obtain ⟨v, hv⟩ := hbefore c (by simp)
      exact .inr ⟨v, hv, before, d, behind, rfl, fun b hb => hbefore b (by simp [hb]), hd⟩
  · rintro (hc | ⟨v, hv, before, d, behind, rfl, hbefore, hd⟩)
    · exact ⟨[], c, cs, rfl, by simp, hc⟩
    · refine ⟨c :: before, d, behind, rfl, ?_, hd⟩
      intro b hb
      rcases List.mem_cons.mp hb with rfl | hb
      · exact ⟨v, hv⟩
      · exact hbefore b hb

theorem mapM_eq_error_iff : cs.mapM f = .error e ↔ FirstFailure f cs e := by
  induction cs with
  | nil => simp [FirstFailure, pure, Except.pure]
  | cons c cs ih =>
    rw [List.mapM_cons, firstFailure_cons, ← ih]
    cases hc : f c with
    | error d => simp [bind, Except.bind]
    | ok v => cases hcs : cs.mapM f <;> simp [bind, Except.bind, pure, Except.pure]

theorem mapM_eq_ok {g : α → β} (h : ∀ c ∈ cs, f c = .ok (g c)) : cs.mapM f = .ok (cs.map g) := by
  induction cs with
  | nil => rfl
  | cons c cs ih =>
    rw [List.mapM_cons, h c (by simp), ih fun d hd => h d (by simp [hd])]
    rfl

end

namespace Node

theorem kindName_map (f : α → β) (n : Node α) : (n.map f).kindName = n.kindName := by
  cases n <;> rfl

/-- A function is put through a node as through the list of its children. A node is all that its
shell and its children say, and running something over it, whatever effects that has, is running it
over the children in their order: where it may fail, the first failure ends it. -/
theorem map_lawful (n : Node α) :
    n.map id = n ∧
    (∀ (β γ : Type) (f : α → β) (g : β → γ), (n.map f).map g = n.map (g ∘ f)) ∧
    (∀ (β : Type) (f : α → β), (n.map f).children = n.children.map f ∧
      (n.map f).kindName = n.kindName ∧ (n.map f).shell = n.shell) ∧
    (∀ m : Node α, m.shell = n.shell → m.children = n.children → m = n) ∧
    (∀ (β : Type) (vs : List β), vs.length = n.children.length →
      (n.fill vs).shell = n.shell ∧ (n.fill vs).children = vs) ∧
    (∀ (m : Type → Type) [Monad m] [LawfulMonad m] (β : Type) (f : α → m β),
      n.mapM f = n.fill <$> n.children.mapM f) ∧
    (∀ (ε β : Type) (f : α → Except ε β),
      (∀ e, n.mapM f = .error e ↔ FirstFailure f n.children e) ∧
      ∀ g : α → β, (∀ c ∈ n.children, f c = .ok (g c)) → n.mapM f = .ok (n.map g)) := by
  refine ⟨n.map_id, fun _ _ f g => n.map_map f g,
    fun _ f => ⟨n.children_map f, n.kindName_map f, n.shell_map f⟩, fun m => eq_of_shell,
    fun _ vs h => ⟨shell_fill h, children_fill h⟩, fun m _ _ _ f => n.mapM_eq f, ?_⟩
  intro ε β f
  rw [mapM_eq]
  constructor
  · intro e
    rw [← mapM_eq_error_iff]
    cases n.children.mapM f <;> simp [Functor.map, Except.map]
  · intro g hg
    rw [mapM_eq_ok hg, ← fill_map]
    rfl

/-- The body of such a loop comes before its condition. -/
example : (Node.doUntil none 1 2).mapM (fun id => (.error id : Except Nat Nat)) = .error 1 := rfl

end Node

end ScriptInject
