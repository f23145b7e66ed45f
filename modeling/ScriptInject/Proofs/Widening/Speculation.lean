import ScriptInject.Proofs.Widening.Attribute
/-! Annotations that may turn out to be none: what is refused in them is no error, and the text is
read otherwise. With more room to spare they are found again, unless one of them is refused. -/
namespace ScriptInject.Grammar

variable {σ : Widening} {i : Input} {g g' : Nested} {s s' t u : State} {n : Nat}
  {found : Option (List NodeId)}

theorem Place.past_bracket {p : Place} (h : p.current? = some (.mark .lbracket)) :
    p.past isTerminator = p := by
  refine past_eq fun token ht => ?_
  obtain rfl := Option.some.inj (h.symm.trans ht)
  rfl

theorem Refused.bracket (h : Refused i g s t) : s.place.current? = some (.mark .lbracket) := by
  cases h <;> assumption

theorem Refused.calm (h : Refused i g s t) (hg : Rests i (bracketHead g)) : Calm s t := by
  induction h with
  | @here s t e _ hr =>
    have hhead := hg s
    rw [hr] at hhead
    exact hhead
  | @later s t u id _ hr _ ih =>
    have hhead := hg s
    rw [hr] at hhead
    exact hhead.trans ((Calm.goto _).trans ih)

/-- What is done with the first thing in brackets. -/
def annotationsFrom (g : Nested) (n : Nat) : Option BracketHead → Parser (Option (List NodeId))
  | some (.attributeSpec id) => do
    Parser.skipNewlines
    return (← annotationsUpTo g n).map (id :: ·)
  | _ => return none

theorem annotationsUpTo_bracket (h : s.place.current? = some (.mark .lbracket)) :
    annotationsUpTo g (n + 1) i s =
      (Parser.attempt (bracketHead g) >>= annotationsFrom g n) i s := by
  obtain ⟨⟨last?, rest⟩, arena, depth, recovering, errors⟩ := s
  cases rest with
  | nil => cases h
  | cons l ls =>
    obtain ⟨token, span⟩ := l
    obtain rfl : token = .mark .lbracket := Option.some.inj h
    rfl

theorem annotationsUpTo_none (h : s.place.current? ≠ some (.mark .lbracket)) :
    annotationsUpTo g (n + 1) i s = .ok (some []) s := by
  obtain ⟨⟨last?, rest⟩, arena, depth, recovering, errors⟩ := s
  cases rest with
  | nil => rfl
  | cons l ls =>
    obtain ⟨token, span⟩ := l
    cases token with
    | mark m =>
      cases m with
      | lbracket => exact absurd rfl h
      | _ => rfl
    | _ => rfl

theorem rests_annotationsUpTo (hg : Rests i (bracketHead g)) (n : Nat) :
    Rests i (annotationsUpTo g n) := by
  induction n with
  | zero => exact .refl
  | succ n ih =>
    intro s
    by_cases h : s.place.current? = some (.mark .lbracket)
    · rw [annotationsUpTo_bracket h]
      refine Rests.bind hg.attempt (fun head => ?_) s
      rcases head with _ | _ | id
      · exact .refl
      · exact .refl
      · exact Rests.bind (fun s => .goto _) fun _ => ih.bind fun _ => .refl
    · rw [annotationsUpTo_none h]
      exact .refl s

theorem Refused.annotationsUpTo (h : Refused i g s t)
    (hr : annotationsUpTo g n i s = .ok found u) : found = none ∧ u = t := by
  induction h generalizing n found u with
  | here hb hhead =>
    cases n with
    | zero => cases hr
    | succ n =>
      rw [annotationsUpTo_bracket hb, Lockstep.bind_run, Parser.attempt, hhead] at hr
      obtain ⟨rfl, rfl⟩ := EStateM.Result.ok.inj hr
      exact ⟨rfl, rfl⟩
  | @later s t v id hb hhead _ ih =>
    cases n with
    | zero => cases hr
    | succ n =>
      rw [annotationsUpTo_bracket hb, Lockstep.bind_run, Parser.attempt, hhead] at hr
      change (Grammar.annotationsUpTo g n >>= fun ids => Pure.pure (ids.map (id :: ·))) i
        { t with place := t.place.past (· == .newline) } = .ok found u at hr
      rw [Lockstep.bind_run] at hr
      cases hids : Grammar.annotationsUpTo g n i
          { t with place := t.place.past (· == .newline) } with
      | ok ids w =>
        rw [hids] at hr
        obtain ⟨rfl, rfl⟩ := ih hids
        obtain ⟨rfl, rfl⟩ := EStateM.Result.ok.inj hr
        exact ⟨rfl, rfl⟩
      | error e w =>
        rw [hids] at hr
        cases hr

/-- Annotations none of which is refused are found again. -/
theorem annotationsUpTo_sustains (hg : Widened σ g g') (ha : σ.Alike s s')
    (hr : annotationsUpTo g n σ.narrow s = .ok found t) (hnot : ¬ Refused σ.narrow g s t) :
    Sustains σ (Option.map veiled) found t (annotationsUpTo g' n σ.wide s') := by
  have hrest : Rests σ.wide (bracketHead g') := (Widens.bracketHead hg).wide
  induction n generalizing s s' found with
  | zero => cases hr
  | succ n ih =>
    by_cases hb : s.place.current? = some (.mark .lbracket)
    · rw [annotationsUpTo_bracket hb, Lockstep.bind_run, Parser.attempt] at hr
      rw [annotationsUpTo_bracket (by rwa [ha.place])]
      have hfrom (head : Option BracketHead) : Rests σ.wide (annotationsFrom g' n head) := by
        rcases head with _ | _ | id
        · exact .refl
        · exact .refl
        · exact Rests.bind (fun s => .goto _) fun _ =>
            (rests_annotationsUpTo hrest n).bind fun _ => .refl
      cases hhead : bracketHead g σ.narrow s with
      | error e u =>
        rw [hhead] at hr
        cases e with
        | refused e =>
          obtain ⟨rfl, rfl⟩ := EStateM.Result.ok.inj hr
          exact absurd (.here hb hhead) hnot
        | cut => cases hr
        | stalled => cases hr
      | ok head u =>
        rw [hhead] at hr
        refine ((Widens.bracketHead hg).follows ha hhead).attempt.bind (fun head' u' h hu => ?_) hfrom
        rcases head with type | id <;> rcases head' with _ | type' | id'
        · cases h.shape
        · obtain ⟨rfl, rfl⟩ := EStateM.Result.ok.inj hr
          exact .ok (.refl _) hu
        · cases h.shape
        · cases h.shape
        · cases h.shape
        change (Grammar.annotationsUpTo g n >>= fun ids => Pure.pure (ids.map (id :: ·))) σ.narrow
          { u with place := u.place.past (· == .newline) } = .ok found t at hr
        change Sustains σ (Option.map veiled) found t
          ((Grammar.annotationsUpTo g' n >>= fun ids => Pure.pure (ids.map (id' :: ·))) σ.wide
            { u' with place := u'.place.past (· == .newline) })
        rw [Lockstep.bind_run] at hr
        cases hids : Grammar.annotationsUpTo g n σ.narrow
            { u with place := u.place.past (· == .newline) } with
        | error e w =>
          rw [hids] at hr
          cases hr
        | ok ids w =>
          rw [hids] at hr
          obtain ⟨rfl, rfl⟩ := EStateM.Result.ok.inj hr
          have hu' : σ.Alike { u with place := u.place.past (· == .newline) }
              { u' with place := u'.place.past (· == .newline) } :=
            { hu with place := by rw [hu.place] }
          refine (ih hu' hids fun h => hnot (.later hb hhead h)).bind (fun ids' w' hs hw => ?_)
            fun _ => .refl
          refine .ok ⟨?_, fun he => ?_⟩ hw
          · rcases ids with _ | as <;> rcases ids' with _ | bs
            · rfl
            · cases hs.shape
            · cases hs.shape
            · rfl
          · rw [hs.eq he, BracketHead.attributeSpec.inj (Option.some.inj (h.eq he))]
    · rw [annotationsUpTo_none hb] at hr
      rw [annotationsUpTo_none (by rwa [ha.place])]
      obtain ⟨rfl, rfl⟩ := EStateM.Result.ok.inj hr
      exact .ok (.refl _) ha

theorem speculatively_strict {α : Type} {p : Parser α} (hs : s.recovering = false)
    (hp : Rests i p) : Parser.speculatively p i s = p i s := by
  have hcalm := (hp s).recovering
  have hsame : { s with recovering := false } = s := by rw [← hs]
  rw [Parser.speculatively, hsame]
  cases hr : p i s with
  | ok a t =>
    rw [hr] at hcalm
    rw [← show t.recovering = s.recovering from hcalm]
  | error e t =>
    rw [hr] at hcalm
    rw [← show t.recovering = s.recovering from hcalm]

/-- What is done with the annotations, if there are only such. -/
def paramBlockFrom (g : Nested) (before : Place) (start : Nat) (found : Option (List NodeId)) :
    Parser (Option NodeId) := do
  match found, ← Parser.atWord "param", (← Parser.place).nextSignificant? with
  | some annotations, true, some (.mark .lparen) =>
    Parser.advance
    Parser.skipNewlines
    Parser.expect .lparen
    let parameters ← Parser.untilParen (parameter g)
    return some (← Parser.add (.paramBlock annotations parameters) start)
  | _, _, _ =>
    Parser.goto before
    return none

theorem paramBlockFrom_none (before : Place) (start : Nat) :
    paramBlockFrom g before start none i s = .ok none { s with place := before } := by
  obtain ⟨⟨last?, rest⟩, arena, depth, recovering, errors⟩ := s
  cases rest with
  | nil => rfl
  | cons l ls =>
    obtain ⟨token, span⟩ := l
    cases token <;> rfl

theorem Widens.paramBlockFrom (hg : Widened σ g g') {before : Place} {start : Nat}
    {found found' : Option (List NodeId)} (h : σ.Same (Option.map veiled) found found') :
    Widens σ (Option.map veiled) (paramBlockFrom g before start found)
      (paramBlockFrom g' before start found') := by
  rw [Grammar.paramBlockFrom, Grammar.paramBlockFrom]
  refine atWord_bind fun word => place_bind fun p => ?_
  have hback : Widens σ (Option.map (veiled (α := NodeId)))
      (do Parser.goto before; return none) (do Parser.goto before; return none) :=
    goto_bind (pure (.refl _))
  cases found with
  | none =>
    cases found' with
    | none => exact hback
    | some _ => cases h.shape
  | some annotations =>
    cases found' with
    | none => cases h.shape
    | some annotations' =>
      split
      · rename_i hsome hnext
        obtain rfl := Option.some.inj hsome
        rw [hnext]
        refine advance_bind (skipNewlines_bind (expect_bind ?_))
        refine bind (untilParen (parameter hg)) fun parameters parameters' hp => ?_
        refine bind (add fun he => ?_) fun id id' hid => pure hid.some
        rw [Option.some.inj (h.eq he), hp.eq he]
      · rename_i hnot
        split
        · rename_i hnext
          exact absurd hnext (hnot _ rfl rfl)
        · exact hback

theorem paramBlock?_strict (hs : s.recovering = false) (hg : Rests i (bracketHead g)) :
    paramBlock? g i s = (annotationsUpTo g (s.place.rest.length + 1) >>=
      paramBlockFrom g s.place (s.place.start i.text)) i s := by
  rw [Lockstep.bind_run, ← speculatively_strict hs (rests_annotationsUpTo hg _)]
  change (Parser.speculatively (annotations g) >>= paramBlockFrom g s.place (s.place.start i.text))
    i s = _
  rw [Lockstep.bind_run]
  rfl

theorem rests_paramBlock? (hg : Widened σ g g') :
    Rests σ.narrow (paramBlock? g) ∧ Rests σ.wide (paramBlock? g') := by
  have hhead := Widens.bracketHead hg
  have hrest {i : Input} {g : Nested} (hhead : Rests i (bracketHead g))
      (hfrom : ∀ before start found, Rests i (paramBlockFrom g before start found)) :
      Rests i (paramBlock? g) := by
    change Rests i (Parser.place >>= fun before => Parser.start >>= fun start =>
      Parser.speculatively (annotations g) >>= paramBlockFrom g before start)
    refine Rests.bind .refl fun before => Rests.bind .refl fun start => ?_
    refine Rests.bind (Rests.speculatively ?_) (hfrom before start)
    exact Rests.bind .refl fun _ => rests_annotationsUpTo hhead _
  exact ⟨hrest hhead.narrow fun _ _ found => (Widens.paramBlockFrom hg (.refl found)).narrow,
    hrest hhead.wide fun _ _ found => (Widens.paramBlockFrom hg (.refl found)).wide⟩

/-- A param block is found again, and so is that there is none, unless an annotation has been
refused. -/
theorem paramBlock?_sustains (hg : Widened σ g g') {params : Option NodeId} (ha : σ.Alike s s')
    (hr : paramBlock? g σ.narrow s = .ok params t) :
    Sustains σ (Option.map veiled) params t (paramBlock? g' σ.wide s') ∨
      ∃ u, Refused σ.narrow g s u ∧ t = { u with place := s.place } := by
  have hhead := Widens.bracketHead hg
  rw [paramBlock?_strict ha.strict hhead.narrow, Lockstep.bind_run] at hr
  rw [paramBlock?_strict ha.strict' hhead.wide, ha.place, σ.text_eq]
  cases hfound : annotationsUpTo g (s.place.rest.length + 1) σ.narrow s with
  | error e u =>
    rw [hfound] at hr
    cases hr
  | ok found u =>
    rw [hfound] at hr
    by_cases hrefused : Refused σ.narrow g s u
    · obtain ⟨rfl, -⟩ := hrefused.annotationsUpTo hfound
      dsimp only at hr
      rw [paramBlockFrom_none] at hr
      obtain ⟨-, rfl⟩ := EStateM.Result.ok.inj hr
      exact .inr ⟨u, hrefused, rfl⟩
    · refine .inl ((annotationsUpTo_sustains hg ha hfound hrefused).bind
        (fun found' u' h hu => ?_) fun found' => ?_)
      · exact (Widens.paramBlockFrom hg h).follows hu hr
      · exact (Widens.paramBlockFrom hg (.refl found')).wide

end ScriptInject.Grammar
