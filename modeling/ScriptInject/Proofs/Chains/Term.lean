import Mathlib.Data.List.Induction
import ScriptInject.Operator
/-! Operands joined by binary operators, and the one way to group them by precedence. -/
namespace ScriptInject

/-- A plain variable or a decimal integer. -/
inductive Operand where
  | var (name : String)
  | number (digits : String)
deriving DecidableEq, Repr

/-- How operands are grouped. -/
inductive Term where
  | operand (o : Operand)
  | binary (operator : BinaryOperator) (left right : Term)
deriving DecidableEq, Repr

namespace Term

variable {s t l r : Term} {op : BinaryOperator} {p q : Nat}

/-- The operands and operators as they are written: the first operand, and each operator with the
operand after it. -/
def inOrder : Term → Operand × List (BinaryOperator × Operand)
  | operand o => (o, [])
  | binary op l r => (l.inOrder.1, l.inOrder.2 ++ (op, r.inOrder.1) :: r.inOrder.2)

/-- An operand, or a group whose operator binds at least as tightly. -/
def BindsFrom (p : Nat) : Term → Prop
  | operand _ => True
  | binary op _ _ => p ≤ op.precedence

/-- Operators bind at least as tightly as those they stand in the left side of, and more tightly than
those they stand in the right side of. -/
def Graded : Term → Prop
  | operand _ => True
  | binary op l r =>
    l.BindsFrom op.precedence ∧ r.BindsFrom (op.precedence + 1) ∧ l.Graded ∧ r.Graded

theorem BindsFrom.mono (h : t.BindsFrom p) (hq : q ≤ p) : t.BindsFrom q := by
  cases t with
  | operand o => trivial
  | binary op l r => exact Nat.le_trans hq h

/-- What holds of the operator of a group holds of all operators in it. -/
theorem Graded.all (h : t.Graded) (hp : t.BindsFrom p) :
    ∀ link ∈ t.inOrder.2, p ≤ link.1.precedence := by
  induction t generalizing p with
  | operand o => exact nofun
  | binary op l r ihl ihr =>
    obtain ⟨hl, hr, hleft, hright⟩ := h
    have hop : p ≤ op.precedence := hp
    intro link hlink
    rcases List.mem_append.mp hlink with hlink | hlink
    · exact ihl hleft (hl.mono hop) link hlink
    rcases List.mem_cons.mp hlink with rfl | hlink
    · exact hop
    · exact ihr hright (hr.mono (Nat.le_succ_of_le hop)) link hlink

/-- The operator of a group does not stand in the left side of another one that groups the same. -/
theorem not_split_left {l' r' : Term} {op' : BinaryOperator} {o o' : Operand}
    {before others : List (BinaryOperator × Operand)} (h : (binary op l r).Graded)
    (h' : (binary op' l' r').Graded) (hleft : l'.inOrder.2 = l.inOrder.2 ++ (op, o) :: before)
    (hright : r.inOrder.2 = others ++ (op', o') :: r'.inOrder.2) : False := by
  have hin : op'.precedence ≤ op.precedence :=
    h'.2.2.1.all h'.1 (op, o) (by rw [hleft]; simp)
  have hout : op.precedence + 1 ≤ op'.precedence :=
    h.2.2.2.all h.2.1 (op', o') (by rw [hright]; simp)
  omega

/-- There is one way at most to group operands by the precedence of the operators between them. -/
theorem Graded.unique (h : s.Graded) (h' : t.Graded) (heq : s.inOrder = t.inOrder) : s = t := by
  induction s generalizing t with
  | operand o =>
    cases t with
    | operand o' => rw [(Prod.mk.inj heq).1]
    | binary op' l' r' => exact absurd (congrArg List.length (Prod.mk.inj heq).2) (by simp)
  | binary op l r ihl ihr =>
    cases t with
    | operand o' => exact absurd (congrArg List.length (Prod.mk.inj heq).2) (by simp)
    | binary op' l' r' =>
      obtain ⟨hfirst, hlinks⟩ := Prod.mk.inj heq
      have hsplit : l.inOrder.2 = l'.inOrder.2 ∧
          (op, r.inOrder.1) :: r.inOrder.2 = (op', r'.inOrder.1) :: r'.inOrder.2 := by
        rcases List.append_eq_append_iff.mp hlinks with ⟨as, hl, hr⟩ | ⟨as, hl, hr⟩
        · cases as with
          | nil => exact ⟨by simpa using hl.symm, hr⟩
          | cons link before =>
            obtain ⟨rfl, hrest⟩ := List.cons.inj hr
            exact (not_split_left h h' hl hrest).elim
        · cases as with
          | nil => exact ⟨by simpa using hl, hr.symm⟩
          | cons link before =>
            obtain ⟨rfl, hrest⟩ := List.cons.inj hr
            exact (not_split_left h' h hl hrest).elim
      obtain ⟨hop, hr⟩ := List.cons.inj hsplit.2
      obtain ⟨rfl, hnext⟩ := Prod.mk.inj hop
      rw [ihl h.2.2.1 h'.2.2.1 (Prod.ext hfirst hsplit.1),
        ihr h.2.2.2 h'.2.2.2 (Prod.ext hnext hr)]

/-- One more operand at the end. Its operator takes the outermost group there that binds as tightly, or
more tightly, to its left. -/
def push (op : BinaryOperator) (o : Operand) : Term → Term
  | operand o' => binary op (operand o') (operand o)
  | binary op' l r =>
    if op.precedence ≤ op'.precedence then binary op (binary op' l r) (operand o)
    else binary op' l (r.push op o)

theorem inOrder_push (op : BinaryOperator) (o : Operand) (t : Term) :
    (t.push op o).inOrder = (t.inOrder.1, t.inOrder.2 ++ [(op, o)]) := by
  induction t with
  | operand o' => rfl
  | binary op' l r _ ih =>
    rw [push]
    split
    · rfl
    · simp [inOrder, ih]

theorem BindsFrom.push {o : Operand} (h : t.BindsFrom p) (hp : p ≤ op.precedence) :
    (t.push op o).BindsFrom p := by
  cases t with
  | operand o' => exact hp
  | binary op' l r =>
    rw [Term.push]
    split
    · exact hp
    · exact h

theorem Graded.push {o : Operand} (h : t.Graded) : (t.push op o).Graded := by
  induction t with
  | operand o' => exact ⟨trivial, trivial, trivial, trivial⟩
  | binary op' l r _ ih =>
    rw [Term.push]
    split
    · exact ⟨‹_›, trivial, h, trivial⟩
    · obtain ⟨hl, hr, hleft, hright⟩ := h
      exact ⟨hl, hr.push (by omega), hleft, ih hright⟩

/-- There is a way to group operands by the precedence of the operators between them. -/
theorem exists_graded (o : Operand) (links : List (BinaryOperator × Operand)) :
    ∃ t : Term, t.inOrder = (o, links) ∧ t.Graded := by
  induction links using List.reverseRecOn with
  | nil => exact ⟨operand o, rfl, trivial⟩
  | append_singleton links link ih =>
    obtain ⟨t, ht, hgraded⟩ := ih
    exact ⟨t.push link.1 link.2, by rw [inOrder_push, ht], hgraded.push⟩

end Term

end ScriptInject
