import ScriptInject.Proofs.Mirror.Basic
import ScriptInject.ScriptError
/-! Two runs that go alike. -/
namespace ScriptInject

variable {α β γ σ τ : Type}

/-- Two computations fail alike, or yield values that correspond. -/
inductive Agree {ε : Type} (R : α → β → Prop) : Except ε α → Except ε β → Prop
  | ok {x : α} {y : β} (h : R x y) : Agree R (.ok x) (.ok y)
  | error (e : ε) : Agree R (.error e) (.error e)

/-- Runs that may change a state. -/
abbrev Running (σ : Type) := StateT σ (Except ScriptError)

/-- Runs from corresponding states fail alike, or yield one value and end in states that
correspond. -/
def Alike (R : σ → τ → Prop) (m : Running σ α) (m' : Running τ α) : Prop :=
  ∀ s t, R s t → Agree (fun p q => p.1 = q.1 ∧ R p.2 q.2) (m s) (m' t)

namespace Alike

variable {R : σ → τ → Prop} {m : Running σ α} {m' : Running τ α}
  {f g : α → Running σ β} {f' : α → Running τ β}

theorem pure (x : α) : Alike R (pure x) (pure x) := fun _ _ h => .ok ⟨rfl, h⟩

theorem bind (h : Alike R m m') (hf : ∀ x, Alike R (f x) (f' x)) :
    Alike R (m >>= f) (m' >>= f') := by
  intro s t hst
  change Agree _ (m s >>= fun p => f p.1 p.2) (m' t >>= fun p => f' p.1 p.2)
  have hrun := h s t hst
  generalize m s = r at hrun
  generalize m' t = r' at hrun
  cases hrun with
  | error e => exact .error e
  | @ok p q hpq =>
    obtain ⟨x, u⟩ := p
    obtain ⟨y, v⟩ := q
    obtain ⟨rfl, huv⟩ := hpq
    exact hf x u v huv

theorem modify {g : σ → σ} {g' : τ → τ} (h : ∀ s t, R s t → R (g s) (g' t)) :
    Alike R (modify g) (modify g') := fun s t hst => .ok ⟨rfl, h s t hst⟩

theorem get_bind {f : σ → Running σ β} {f' : τ → Running τ β}
    (h : ∀ s t, R s t → Alike R (f s) (f' t)) : Alike R (get >>= f) (get >>= f') :=
  fun s t hst => h s t hst s t hst

/-- Both go on with what they are given. -/
theorem lift_bind {r : Except ScriptError α} {r' : Except ScriptError γ} {x : α} {y : γ}
    {f : α → Running σ β} {f' : γ → Running τ β} (h : r = .ok x) (h' : r' = .ok y)
    (hf : Alike R (f x) (f' y)) : Alike R (liftM r >>= f) (liftM r' >>= f') := by
  subst h h'
  exact hf

/-! Over the members of a list, and over what they are renamed to. -/

variable {ρ : α → γ} {xs : List α}

theorem forM {f : α → Running σ PUnit} {f' : γ → Running τ PUnit}
    (h : ∀ x ∈ xs, Alike R (f x) (f' (ρ x))) : Alike R (xs.forM f) ((xs.map ρ).forM f') := by
  induction xs with
  | nil => exact .pure _
  | cons x xs ih => exact (h x (by simp)).bind fun _ => ih fun y hy => h y (by simp [hy])

theorem mapM {f : α → Running σ β} {f' : γ → Running τ β}
    (h : ∀ x ∈ xs, Alike R (f x) (f' (ρ x))) : Alike R (xs.mapM f) ((xs.map ρ).mapM f') := by
  induction xs with
  | nil => exact .pure _
  | cons x xs ih =>
    rw [List.map_cons, List.mapM_cons, List.mapM_cons]
    exact (h x (by simp)).bind fun _ => (ih fun y hy => h y (by simp [hy])).bind fun _ => .pure _

/-! At a node and at what it is renamed to. -/

variable {a b : Arena} {ids : List NodeId} {ρ : NodeId → NodeId} {i : NodeId}

theorem node {f : Node NodeId → Running σ β} {f' : Node NodeId → Running τ β}
    (h : a.Mirrors ρ ids b) (hi : i ∈ ids)
    (same : ∀ n, a.get? i = some n → b.get? (ρ i) = some (n.map ρ) →
      Alike R (f n) (f' (n.map ρ)))
    (marker : ∀ s t positional named, a.get? i = some (.attributeSpec s positional named) →
      Alike R (f (.attributeSpec s positional named))
        (f' (.attributeSpec t (positional.map ρ) (named.map ρ)))) :
    Alike R (do f (← a.node i)) (do f' (← b.node (ρ i))) := by
  cases h.pair hi with
  | same n hn hm =>
    rw [Arena.node, Arena.node, hn, hm]
    exact same n hn hm
  | marker positional named hn hm =>
    rw [Arena.node, Arena.node, hn, hm]
    exact marker _ _ positional named hn

end Alike

/-! Steps that leave a state behind even where they fail. -/

variable {V : α → β → Prop} {R : σ → τ → Prop}

/-- Steps fail alike or yield corresponding values, and leave corresponding states either way. -/
inductive Matches (R : σ → τ → Prop) (V : α → β → Prop) :
    EStateM.Result ScriptError σ α → EStateM.Result ScriptError τ β → Prop
  | ok {x : α} {y : β} {s : σ} {t : τ} (hv : V x y) (h : R s t) : Matches R V (.ok x s) (.ok y t)
  | error (e : ScriptError) {s : σ} {t : τ} (h : R s t) : Matches R V (.error e s) (.error e t)

def Corresponds (R : σ → τ → Prop) (V : α → β → Prop) (m : EStateM ScriptError σ α)
    (m' : EStateM ScriptError τ β) : Prop :=
  ∀ s t, R s t → Matches R V (m s) (m' t)

namespace Corresponds

variable {δ : Type} {W : γ → δ → Prop} {m : EStateM ScriptError σ α}
  {m' : EStateM ScriptError τ β} {f : α → EStateM ScriptError σ γ}
  {f' : β → EStateM ScriptError τ δ}

theorem pure {x : α} {y : β} (h : V x y) :
    Corresponds R V (pure x : EStateM ScriptError σ α) (pure y : EStateM ScriptError τ β) :=
  fun _ _ hst => .ok h hst

theorem bind (h : Corresponds R V m m') (hf : ∀ x y, V x y → Corresponds R W (f x) (f' y)) :
    Corresponds R W (m >>= f) (m' >>= f') := by
  intro s t hst
  have hrun := h s t hst
  change Matches R W (EStateM.bind m f s) (EStateM.bind m' f' t)
  rw [EStateM.bind, EStateM.bind]
  generalize m s = r at hrun
  generalize m' t = r' at hrun
  cases hrun with
  | ok hv hu => exact hf _ _ hv _ _ hu
  | error e hu => exact .error e hu

/-- Steps that yield the same value. -/
theorem andThen {m : EStateM ScriptError σ α} {m' : EStateM ScriptError τ α}
    {f' : α → EStateM ScriptError τ δ} (h : Corresponds R Eq m m')
    (hf : ∀ x, Corresponds R W (f x) (f' x)) : Corresponds R W (m >>= f) (m' >>= f') :=
  h.bind fun x _ hxy => hxy ▸ hf x

theorem modify {g : σ → σ} {g' : τ → τ} (h : ∀ s t, R s t → R (g s) (g' t)) :
    Corresponds R Eq (modify g : EStateM ScriptError σ PUnit) (modify g') :=
  fun s t hst => .ok rfl (h s t hst)

theorem get_bind {f : σ → EStateM ScriptError σ γ} {f' : τ → EStateM ScriptError τ δ}
    (h : ∀ s t, R s t → Matches R W (f s s) (f' t t)) :
    Corresponds R W (get >>= f) (get >>= f') := h

theorem forM {ρ : α → β} {xs : List α} {f : α → EStateM ScriptError σ PUnit}
    {f' : β → EStateM ScriptError τ PUnit} (h : ∀ x ∈ xs, Corresponds R Eq (f x) (f' (ρ x))) :
    Corresponds R Eq (xs.forM f) ((xs.map ρ).forM f') := by
  induction xs with
  | nil => exact .pure rfl
  | cons x xs ih => exact (h x (by simp)).andThen fun _ => ih fun y hy => h y (by simp [hy])

theorem refl (m : EStateM ScriptError σ α) : Corresponds Eq Eq m m := by
  rintro s _ rfl
  cases m s with
  | ok x t => exact .ok rfl rfl
  | error e t => exact .error e rfl

theorem eq {m m' : EStateM ScriptError σ α} (h : Corresponds Eq Eq m m') : m = m' := by
  funext s
  have hrun := h s s rfl
  generalize m s = r at hrun
  generalize m' s = r' at hrun
  cases hrun with
  | ok hv hu => rw [hv, hu]
  | error e hu => rw [hu]

end Corresponds

end ScriptInject
