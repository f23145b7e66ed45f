import ScriptInject.Proofs.Widening.Statement
/-! Why an annotation that is refused is not read otherwise: statements in its place would begin with
the same brackets, and with three levels of nesting less. With these the grammar is tied together. -/
namespace ScriptInject.Grammar

variable {α β : Type} {i : Input} {s t u : State} {g g' : Nested} {p : Parser α} {m n : Nat}
  {place : Place} {closer : Closer}

namespace Hopeless

theorem bind {k : α → Parser β} (h : Hopeless p i s) : Hopeless (p >>= k) i s :=
  Outcome.bind h fun _ _ hf => hf.elim

/-- A rule that begins with steps whose result is known. -/
theorem bind_of_ok {k : α → Parser β} {a : α} (hr : p i s = .ok a t) (h : Hopeless (k a) i t) :
    Hopeless (p >>= k) i s := by
  rw [Hopeless, Outcome, Lockstep.bind_run, hr]
  exact h

theorem bind_of_error {k : α → Parser β} {e : Failure} (hr : p i s = .error e t)
    (ht : t.recovering = false) : Hopeless (p >>= k) i s := by
  rw [Hopeless, Outcome, Lockstep.bind_run, hr]
  exact ht

theorem guarded (hs : s.recovering = false)
    (h : s.depth < i.maxDepth → Hopeless p i { s with depth := s.depth + 1 }) :
    Hopeless (Parser.guarded p) i s := by
  rw [Hopeless, Outcome, Parser.guarded]
  split
  · rename_i hr
    split at hr
    · cases hr
    · rename_i hd
      have hp := h (Nat.lt_of_not_le hd)
      cases hu : p i { s with depth := s.depth + 1 } with
      | ok a u => exact hp.of_ok hu
      | error e u =>
        rw [hu] at hr
        cases hr
  · rename_i hr
    split at hr
    · obtain ⟨-, rfl⟩ := EStateM.Result.error.inj hr
      exact hs
    · rename_i hd
      have hp := h (Nat.lt_of_not_le hd)
      rw [Hopeless, Outcome] at hp
      cases hu : p i { s with depth := s.depth + 1 } with
      | ok a u =>
        rw [hu] at hr
        cases hr
      | error e u =>
        rw [hu] at hr hp
        obtain ⟨-, rfl⟩ := EStateM.Result.error.inj hr
        exact hp

theorem orElseKeep {other : Parser α} (h : Hopeless p i s) :
    Hopeless (Grammar.orElseKeep p other) i s := by
  rw [Hopeless, Outcome] at h ⊢
  cases hr : p i s with
  | ok a t =>
    rw [hr] at h
    exact h.elim
  | error e t =>
    rw [hr] at h
    have hstrict : (final (p i s)).recovering = false := by rwa [hr]
    rw [Lockstep.orElseKeep_strict hstrict, hr]
    exact h

theorem many {item : Parser (Option α)} (h : Hopeless item i s) :
    Hopeless (Parser.many item) i s := by
  rw [Hopeless, Parser.many, Outcome.place_bind]
  exact h.bind

theorem unary_newline (h : s.place.current? = some .newline) (hs : s.recovering = false) :
    Hopeless (unary g) i s := by
  rw [Hopeless, unary, Outcome.start_bind, Outcome.peek_bind, h]
  simp only [Option.bind_some, unaryOperator?]
  refine Outcome.bind (P := fun _ _ => False) ?_ fun _ _ hf => hf.elim
  rw [primary, Outcome.place_bind, primaryUpTo, Outcome.start_bind, Outcome.peek_bind, h]
  exact Outcome.unexpected fun _ => hs

end Hopeless

/-- With `n` levels of nesting left, a reading that does not recover stands at the place. -/
structure Left (i : Input) (place : Place) (n : Nat) (s : State) : Prop where
  place : s.place = place
  strict : s.recovering = false
  depth : s.depth + n = i.maxDepth

/-- With less than `n` levels of nesting left, no operand is read at the place. -/
def Barred (i : Input) (place : Place) (n : Nat) : Prop :=
  ∀ m, m < n → ∀ s, Left i place m s → Hopeless (unary (nested m)) i s

namespace Left

theorem deeper (h : Left i place (m + 1) s) : Left i place m { s with depth := s.depth + 1 } where
  place := h.place
  strict := h.strict
  depth := by
    have := h.depth
    change s.depth + 1 + m = i.maxDepth
    omega

/-- Rules that contain themselves are hopeless if their contents are, one level deeper. -/
theorem nested (rule inner : Nat → Parser NodeId)
    (hzero : rule 0 = Parser.guarded (throw .stalled))
    (hsucc : ∀ k, rule (k + 1) = Parser.guarded (inner k)) (h : Left i place m s)
    (hinner : ∀ {k s}, k < m → Left i place k s → Hopeless (inner k) i s) :
    Hopeless (rule m) i s := by
  have hdepth := h.depth
  cases m with
  | zero =>
    rw [hzero]
    refine Hopeless.guarded h.strict fun hd => ?_
    omega
  | succ m =>
    rw [hsucc]
    exact Hopeless.guarded h.strict fun _ => hinner (Nat.lt_succ_self m) h.deeper

end Left

/-! From the operand outwards: all that begins with an opening bracket begins with an operand. -/
section Outwards

variable (hb : Barred i place n) (hplace : place.current? = some (.mark .lbracket))

include hplace in
theorem Left.bracket (h : Left i place m s) : s.place.current? = some (.mark .lbracket) := by
  rw [h.place, hplace]

include hb

theorem Barred.nested_unary (hm : m ≤ n) (h : Left i place m s) :
    Hopeless (nested m).unary i s :=
  h.nested (fun m => (nested m).unary) _ rfl (fun _ => rfl) fun hk hs =>
    hb _ (Nat.lt_of_lt_of_le hk hm) _ hs

include hplace

theorem Barred.ternary {commas : Bool} (hm : m ≤ n) (h : Left i place m s) :
    Hopeless (ternary (nested m) commas) i s := by
  have hoperand : Hopeless (listOrOperand (nested m) commas) i s := by
    rw [Hopeless, listOrOperand, Outcome.start_bind]
    split
    · rw [Outcome.eat_ite]
      refine ⟨fun hcomma => ?_, fun _ => ?_⟩
      · rw [h.bracket hplace] at hcomma
        cases hcomma
      · exact (hb.nested_unary hm h).bind
    · exact hb.nested_unary hm h
  have hbinary (levels : Nat) :
      Hopeless (binary (listOrOperand (nested m) commas) levels) i s := by
    induction levels with
    | zero => exact hoperand
    | succ levels ih =>
      rw [Hopeless, binary, Outcome.start_bind]
      exact ih.bind
  rw [Hopeless, Grammar.ternary, Outcome.start_bind]
  exact (hbinary 7).bind

theorem Barred.pipeline (hm : m ≤ n) (h : Left i place m s) :
    Hopeless (pipeline (nested m)) i s := by
  rw [Hopeless, Grammar.pipeline, Outcome.start_bind, atCommand, Outcome.assoc, Outcome.peek_bind,
    h.bracket hplace]
  dsimp only
  rw [Outcome.pure_bind, if_neg Bool.false_ne_true]
  refine Hopeless.bind ?_
  exact h.nested (fun m => (nested m).expression true) _ rfl (fun _ => rfl) fun hk hs =>
    hb.ternary hplace (Nat.le_trans (Nat.le_of_lt hk) hm) hs

theorem Barred.statement (hm : m ≤ n) (h : Left i place m s) :
    Hopeless (statement (nested m)) i s := by
  have hbracket := h.bracket hplace
  rw [Hopeless, Grammar.statement, Outcome.start_bind, label?, Outcome.assoc, Outcome.place_bind,
    hbracket]
  dsimp only
  rw [Outcome.pure_bind, Outcome.place_bind, hbracket]
  exact hb.pipeline hplace hm h

theorem Barred.blocks (h : Left i place n s) : Hopeless (blocks (nested n) closer) i s := by
  have hbracket := h.bracket hplace
  have hstatement : Hopeless (terminatedStatement (nested n) closer) i s := by
    rw [terminatedStatement]
    refine Hopeless.bind ?_
    exact h.nested (fun m => (nested m).statement) _ rfl (fun _ => rfl) fun hk hs =>
      hb.statement hplace (Nat.le_of_lt hk) hs
  have hlist : Hopeless (statementList (nested n) closer) i s := by
    refine Hopeless.many ?_
    rw [Hopeless, listedStatement, Outcome.skipTerminators_bind, Place.past_bracket hbracket,
      Outcome.peek_bind, hbracket]
    cases closer <;> exact hstatement.orElseKeep.bind
  rw [Hopeless, Grammar.blocks, atNamedBlock?, Outcome.assoc, Outcome.place_bind, hbracket]
  dsimp only
  rw [Outcome.pure_bind, Outcome.start_bind]
  exact hlist.bind

end Outwards

/-- A reading that stands deeper next to an earlier one of the same text, into another arena. -/
def Widening.later (i : Input) (d m n : Nat) (hm : m < n) (hn : d + n = i.maxDepth) : Widening where
  narrow := i
  wide := i
  depth := i.maxDepth - m
  depth' := d
  equal := False
  text_eq := rfl
  roomier := by omega

/-- After brackets that are no type, an operand must be read. -/
theorem Left.unary (hu : Left i place m u) (hb : place.current? = some (.mark .lbracket))
    (hrest : Rests i (bracketHead (Grammar.nested m)))
    (hok : ∀ {head v}, bracketHead (Grammar.nested m) i u = .ok head v →
      ∃ id, head = .attributeSpec id ∧ Hopeless (Grammar.nested m).unary i v) :
    Hopeless (Grammar.unary (Grammar.nested m)) i u := by
  have hcalm := hrest u
  rw [Hopeless, Grammar.unary, Outcome.start_bind, Outcome.peek_bind, hu.bracket hb]
  dsimp only
  rw [bracketExpression, Outcome.start_bind]
  cases hr : bracketHead (Grammar.nested m) i u with
  | error e v =>
    rw [hr] at hcalm
    exact Hopeless.bind_of_error hr (hcalm.recovering.trans hu.strict)
  | ok head v =>
    obtain ⟨id, rfl, hunary⟩ := hok hr
    exact Hopeless.bind_of_ok hr hunary.bind

/-- Where an annotation is refused, no operand is read with less levels left, unless no id is left
then. -/
theorem Refused.barred {d : Nat} (hn : d + n = i.maxDepth)
    (hw : ∀ m (hm : m < n), Widened (.later i d m n hm hn) (nested m) (nested n))
    (h : Refused i (nested n) s t) (hd : s.depth = d) (hs : s.recovering = false)
    (hfull : ¬ t.arena.Full) : Barred i s.place n := by
  have halike {m : Nat} (hm : m < n) {s u : State} (hu : Left i s.place m u) (hd : s.depth = d)
      (hs : s.recovering = false) : (Widening.later i d m n hm hn).Alike u s :=
    { place := hu.place.symm
      arena := False.elim
      depth := by
        have := hu.depth
        change u.depth = i.maxDepth - m
        omega
      depth' := hd
      strict := hu.strict
      strict' := hs }
  induction h with
  | @here s t e hb hr =>
    intro m hm u hu
    have hhead := Widens.bracketHead (hw m hm)
    refine hu.unary hb hhead.narrow fun hok => ?_
    have hsame := hhead.follows (halike hm hu hd hs) hok
    change Sustains _ _ _ _ (bracketHead (nested n) i s) at hsame
    rw [hr] at hsame
    cases hsame with
    | full _ hfull' => exact absurd hfull' hfull
  | @later s t v id hb hr hrest ih =>
    intro m hm u hu
    have hhead := Widens.bracketHead (hw m hm)
    have hcalm := hhead.wide s
    change Calm s (final (bracketHead (nested n) i s)) at hcalm
    rw [hr] at hcalm
    have hthen : Calm t v := (Calm.goto _).trans (hrest.calm hhead.wide)
    refine hu.unary hb hhead.narrow fun {head w} hok => ?_
    have hsame := hhead.follows (halike hm hu hd hs) hok
    change Sustains _ _ _ _ (bracketHead (nested n) i s) at hsame
    rw [hr] at hsame
    cases hsame with
    | full _ hfull' => exact absurd (hthen.full hfull') hfull
    | ok hid hw' =>
      cases head with
      | type type => cases hid.shape
      | attributeSpec id' =>
        have hleft : Left i t.place m w :=
          { place := hw'.place.symm
            strict := hw'.strict
            depth := by
              have hdepth : w.depth = i.maxDepth - m := hw'.depth
              omega }
        refine ⟨id', rfl, ?_⟩
        refine hleft.nested (fun m => (nested m).unary) _ rfl (fun _ => rfl) fun {k u'} hk hu' => ?_
        by_cases hnewline : t.place.current? = some .newline
        -- An annotation and its operand stand on one line.
        · exact Hopeless.unary_newline (by rwa [hu'.place]) hu'.strict
        · have hstay : t.place.past (· == .newline) = t.place := by
            refine Place.past_eq fun token ht => ?_
            rw [ht] at hnewline
            simpa using hnewline
          have hlater := ih (hcalm.depth.trans hd) (hcalm.recovering.trans hs) hfull
          change Barred i (t.place.past (· == .newline)) n at hlater
          rw [hstay] at hlater
          exact hlater k (Nat.lt_trans hk hm) u' hu'

/-- What is refused among annotations is refused otherwise too. -/
theorem refused_nested {d : Nat} (hn : d + n = i.maxDepth)
    (hw : ∀ m (hm : m < n), Widened (.later i d m n hm hn) (nested m) (nested n))
    (h : Refused i (nested n) s t) (hd : s.depth = d) (hs : s.recovering = false) :
    t.arena.Full ∨ ∀ {u closer}, u.place = s.place → u.depth = s.depth → u.recovering = false →
      Hopeless (blocks (nested n) closer) i u := by
  by_cases hfull : t.arena.Full
  · exact .inl hfull
  · refine .inr fun hplace hdepth hstrict => ?_
    exact (h.barred hn hw hd hs hfull).blocks h.bracket ⟨hplace, hstrict, by omega⟩

/-! The grammar tied together. -/

/-- One reading next to itself. -/
def Widening.refl (i : Input) (d : Nat) : Widening := ⟨i, i, d, d, True, rfl, Nat.le_refl _⟩

/-- Without a level left nothing is read. -/
theorem widens_stalled {σ : Widening} {f : α → β} {q : Parser α} (hq : Rests σ.wide q) :
    Widens σ f (Parser.guarded (throw .stalled)) q where
  narrow := Rests.guarded .refl
  wide := hq
  follows {s _ _ _} _ hr := by
    rw [Parser.guarded] at hr
    split at hr <;> cases hr

/-- With the levels that are left up to the limit, and with more of them. -/
theorem widened_nested {σ : Widening} (hn : σ.depth + n = σ.narrow.maxDepth)
    (hm : σ.depth' + m = σ.wide.maxDepth) : Widened σ (nested n) (nested m) := by
  -- What is refused is read again with less levels by the same grammar, hence the order.
  induction m using Nat.strongRecOn generalizing σ n with
  | ind m wider =>
    induction n using Nat.strongRecOn generalizing σ with
    | ind n narrower =>
      have hroomier := σ.roomier
      have hrefused {s t : State} (h : Refused σ.narrow (nested n) s t) (hd : s.depth = σ.depth)
          (hs : s.recovering = false) := by
        refine refused_nested hn (fun k hk => ?_) h hd hs
        have hk' : σ.narrow.maxDepth - k + k = σ.narrow.maxDepth := by omega
        rcases Nat.lt_or_eq_of_le (show n ≤ m by omega) with hlt | rfl
        · exact wider n hlt hk' hn
        · exact narrower k hk hk' hn
      cases m with
      | zero =>
        obtain rfl : n = 0 := by omega
        have hnone : Rests σ.wide (throw .stalled : Parser NodeId) := Calm.refl
        exact
          { statement := widens_stalled hnone.guarded
            expression := fun _ => widens_stalled hnone.guarded
            unary := widens_stalled hnone.guarded
            refused := hrefused }
      | succ m =>
        cases n with
        | zero =>
          have hself : Widened (.refl σ.wide (σ.depth' + 1)) (nested m) (nested m) :=
            wider m (Nat.lt_succ_self m) ((Nat.succ_add_eq_add_succ _ m).trans hm)
              ((Nat.succ_add_eq_add_succ _ m).trans hm)
          exact
            { statement := widens_stalled (Widens.statement hself).wide.guarded
              expression := fun _ => widens_stalled (Widens.ternary hself).wide.guarded
              unary := widens_stalled (Widens.unary hself).wide.guarded
              refused := hrefused }
        | succ n =>
          have hinner : Widened σ.deeper (nested n) (nested m) :=
            wider m (Nat.lt_succ_self m) ((Nat.succ_add_eq_add_succ _ n).trans hn)
              ((Nat.succ_add_eq_add_succ _ m).trans hm)
          exact
            { statement := .guarded (.statement hinner)
              expression := fun _ => .guarded (.ternary hinner)
              unary := .guarded (.unary hinner)
              refused := hrefused }

end ScriptInject.Grammar
