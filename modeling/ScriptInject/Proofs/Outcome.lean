import ScriptInject.Grammar.Script
/-! What is known of a run of a rule: something of its result, or something of its failure. The steps
of a rule are run one after the other. -/
namespace ScriptInject.Grammar

/-- Where the word stands, in any case. -/
def Place.wordAt (p : Place) (keyword : String) : Bool :=
  match p.current? with
  | some (.word w) => Text.caselessEq w keyword
  | _ => false

/-- The result of the run has the property `Q`, or its failure has the property `E`. -/
def Outcome {α : Type} (p : Parser α) (i : Input) (s : State) (E : Failure → State → Prop)
    (Q : α → State → Prop) : Prop :=
  match p i s with
  | .ok a t => Q a t
  | .error f t => E f t

namespace Outcome

variable {α β γ : Type} {i : Input} {s : State} {p : Parser α} {f : α → Parser β}
  {E E' : Failure → State → Prop} {P P' : α → State → Prop} {Q : β → State → Prop}

@[simp] theorem pure_iff {a : α} : Outcome (pure a) i s E P ↔ P a s := Iff.rfl

@[simp] theorem throw_iff {e : Failure} : Outcome (throw e : Parser α) i s E P ↔ E e s := Iff.rfl

theorem bind (hp : Outcome p i s E P) (hf : ∀ a t, P a t → Outcome (f a) i t E Q) :
    Outcome (p >>= f) i s E Q := by
  change match EStateM.bind (p i) (fun a => f a i) s with
    | .ok a t => Q a t
    | .error e t => E e t
  rw [EStateM.bind]
  rw [Outcome] at hp
  cases hr : p i s with
  | ok a t =>
    rw [hr] at hp
    exact hf a t hp
  | error e t =>
    rw [hr] at hp
    exact hp

theorem mono (h : Outcome p i s E P) (he : ∀ e t, E e t → E' e t) (hq : ∀ a t, P a t → P' a t) :
    Outcome p i s E' P' := by
  rw [Outcome] at h ⊢
  cases hr : p i s with
  | ok a t =>
    rw [hr] at h
    exact hq a t h
  | error e t =>
    rw [hr] at h
    exact he e t h

theorem imp (h : Outcome p i s E P) (hq : ∀ a t, P a t → P' a t) : Outcome p i s E P' :=
  h.mono (fun _ _ he => he) hq

theorem map {g : α → β} (h : Outcome p i s E P) (hq : ∀ a t, P a t → Q (g a) t) :
    Outcome (g <$> p) i s E Q := by
  change match EStateM.map g (p i) s with
    | .ok a t => Q a t
    | .error e t => E e t
  rw [EStateM.map]
  rw [Outcome] at h
  cases hr : p i s with
  | ok a t =>
    rw [hr] at h
    exact hq a t h
  | error e t =>
    rw [hr] at h
    exact h

theorem of_ok {a : α} {t : State} (h : Outcome p i s E P) (hr : p i s = .ok a t) : P a t := by
  rw [Outcome, hr] at h
  exact h

theorem eq_ok {a : α} {t : State}
    (h : Outcome p i s (fun _ _ => False) fun b u => b = a ∧ u = t) : p i s = .ok a t := by
  rw [Outcome] at h
  cases hr : p i s with
  | error e u =>
    rw [hr] at h
    exact h.elim
  | ok b u =>
    rw [hr] at h
    rw [h.1, h.2]

@[simp] theorem pure_bind {a : α} : Outcome (Pure.pure a >>= f) i s E Q ↔ Outcome (f a) i s E Q :=
  Iff.rfl

@[simp] theorem assoc {g : β → Parser γ} {R : γ → State → Prop} :
    Outcome ((p >>= f) >>= g) i s E R ↔ Outcome (p >>= fun a => f a >>= g) i s E R := by
  have hrun : ((p >>= f) >>= g) i s = (p >>= fun a => f a >>= g) i s := by
    change EStateM.bind (EStateM.bind (p i) (fun a => f a i)) (fun b => g b i) s =
      EStateM.bind (p i) (fun a => EStateM.bind (f a i) (fun b => g b i)) s
    simp only [EStateM.bind]
    cases p i s <;> rfl
  rw [Outcome, Outcome, hrun]

/-! Steps that do not fail. -/
section Steps

open Grammar.Parser
variable {f : Place → Parser β} {t : Option Token → Parser β} {k : Nat → Parser β}
  {u : Unit → Parser β} {b : Bool → Parser β} {c : State → Parser β} {m : Mark}

@[simp] theorem place_bind : Outcome (place >>= f) i s E Q ↔ Outcome (f s.place) i s E Q := Iff.rfl

@[simp] theorem peek_bind :
    Outcome (peek >>= t) i s E Q ↔ Outcome (t s.place.current?) i s E Q := Iff.rfl

@[simp] theorem peekNext_bind :
    Outcome (peekNext >>= t) i s E Q ↔ Outcome (t s.place.next?) i s E Q := Iff.rfl

@[simp] theorem start_bind :
    Outcome (start >>= k) i s E Q ↔ Outcome (k (s.place.start i.text)) i s E Q := Iff.rfl

@[simp] theorem advance_bind : Outcome (advance >>= u) i s E Q ↔
    Outcome (u ()) i { s with place := s.place.advance } E Q := Iff.rfl

@[simp] theorem advanceBy_bind {n : Nat} : Outcome (advanceBy n >>= u) i s E Q ↔
    Outcome (u ()) i { s with place := s.place.advanceBy n } E Q := Iff.rfl

@[simp] theorem goto_bind {p : Place} :
    Outcome (goto p >>= u) i s E Q ↔ Outcome (u ()) i { s with place := p } E Q := Iff.rfl

@[simp] theorem get_bind : Outcome (get >>= c) i s E Q ↔ Outcome (c s) i s E Q := Iff.rfl

theorem atWord_bind {keyword : String} : Outcome (atWord keyword >>= b) i s E Q ↔
    Outcome (b (s.place.wordAt keyword)) i s E Q := by
  simp only [atWord, assoc, peek_bind, Place.wordAt]
  cases s.place.current? with
  | none => rfl
  | some t => cases t <;> rfl

theorem eat_bind : Outcome (eat m >>= b) i s E Q ↔
    (s.place.current? = some (.mark m) →
      Outcome (b true) i { s with place := s.place.advance } E Q) ∧
    (s.place.current? ≠ some (.mark m) → Outcome (b false) i s E Q) := by
  simp only [eat, assoc, peek_bind]
  by_cases h : s.place.current? = some (.mark m)
  · simp [h]
  · simp [h]

theorem eat_ite {x y : Parser β} : Outcome (eat m >>= fun b => if b = true then x else y) i s E Q ↔
    (s.place.current? = some (.mark m) → Outcome x i { s with place := s.place.advance } E Q) ∧
    (s.place.current? ≠ some (.mark m) → Outcome y i s E Q) := by
  simp [eat_bind]

theorem expect_bind : Outcome (expect m >>= u) i s E Q ↔
    (s.place.current? = some (.mark m) →
      Outcome (u ()) i { s with place := s.place.advance } E Q) ∧
    (s.place.current? ≠ some (.mark m) →
      Outcome (unexpected (Token.mark m).describe >>= u) i s E Q) := by
  simp only [expect, assoc, eat_bind]
  by_cases h : s.place.current? = some (.mark m)
  · simp [h]
  · simp [h]

end Steps

/-! Repetition. The property `I` holds before each step. -/

theorem manyUpTo {item : Parser (Option α)} {I F : List α → State → Prop} {n : Nat} {as : List α}
    (h : I as s) (stall : ∀ as t, I as t → E .stalled t)
    (step : ∀ as t, I as t → Outcome item i t E fun o u =>
      (o = none → F as u) ∧ ∀ a, o = some a → I (as ++ [a]) u) :
    Outcome (Parser.manyUpTo item n) i s E fun bs t => F (as ++ bs) t := by
  induction n generalizing s as with
  | zero => exact stall as s h
  | succ n ih =>
    rw [Parser.manyUpTo]
    refine (step as s h).bind fun o t ho => ?_
    cases o with
    | none => simpa using ho.1 rfl
    | some a =>
      refine (ih (ho.2 a rfl)).bind fun bs u hu => ?_
      simpa using hu

theorem many {item : Parser (Option α)} {I F : List α → State → Prop} (h : I [] s)
    (stall : ∀ as t, I as t → E .stalled t)
    (step : ∀ as t, I as t → Outcome item i t E fun o u =>
      (o = none → F as u) ∧ ∀ a, o = some a → I (as ++ [a]) u) :
    Outcome (Parser.many item) i s E F := by
  rw [Parser.many, place_bind]
  simpa using manyUpTo h stall step

theorem iterateUpTo {step : α → Parser (Option α)} {I F : α → State → Prop} {n : Nat} {a : α}
    (h : I a s) (stall : ∀ a t, I a t → E .stalled t)
    (hstep : ∀ a t, I a t → Outcome (step a) i t E fun o u =>
      (o = none → F a u) ∧ ∀ b, o = some b → I b u) :
    Outcome (Parser.iterateUpTo step n a) i s E F := by
  induction n generalizing s a with
  | zero => exact stall a s h
  | succ n ih =>
    rw [Parser.iterateUpTo]
    refine (hstep a s h).bind fun o t ho => ?_
    cases o with
    | none => exact ho.1 rfl
    | some b => exact ih (ho.2 b rfl)

theorem iterate {step : α → Parser (Option α)} {I F : α → State → Prop} {a : α} (h : I a s)
    (stall : ∀ a t, I a t → E .stalled t)
    (hstep : ∀ a t, I a t → Outcome (step a) i t E fun o u =>
      (o = none → F a u) ∧ ∀ b, o = some b → I b u) :
    Outcome (Parser.iterate step a) i s E F := by
  rw [Parser.iterate, place_bind]
  exact iterateUpTo h stall hstep

end Outcome

end ScriptInject.Grammar
