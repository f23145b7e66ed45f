import ScriptInject.Proofs.Widening.Basic
/-! The steps that the rules are made of, with and without room to spare. -/
namespace ScriptInject.Grammar.Widens

variable {σ : Widening} {α β γ δ : Type} {f : α → β} {g : γ → δ} {p q : Parser α}
  {k l : α → Parser γ}

theorem pure {a b : α} (h : σ.Same f a b) : Widens σ f (pure a) (pure b) :=
  ⟨.refl, .refl, fun ha hr => by
    obtain ⟨rfl, rfl⟩ := EStateM.Result.ok.inj hr
    exact .ok h ha⟩

/-- A rule that fails at once. -/
theorem failing (hp : ∀ i s, ∃ e, p i s = .error e s) (hq : ∀ i s, ∃ e, q i s = .error e s) :
    Widens σ f p q where
  narrow s := by
    obtain ⟨e, hr⟩ := hp σ.narrow s
    rw [hr]
    exact .refl s
  wide s := by
    obtain ⟨e, hr⟩ := hq σ.wide s
    rw [hr]
    exact .refl s
  follows {s _ _ _} _ hr := by
    obtain ⟨e, he⟩ := hp σ.narrow s
    rw [he] at hr
    cases hr

theorem throw {e : Failure} : Widens σ f (throw e) (throw e) :=
  failing (fun _ _ => ⟨e, rfl⟩) fun _ _ => ⟨e, rfl⟩

theorem refuse {e : ParseError} : Widens σ f (Parser.refuse e) (Parser.refuse e) := throw

theorem unexpected {expected : String} :
    Widens σ f (Parser.unexpected expected) (Parser.unexpected expected) := by
  have hrun (i : Input) (s : State) : Parser.unexpected (α := α) expected i s =
      .error (.refused (s.place.refusal expected)) s := by
    obtain ⟨⟨last?, rest⟩, arena, depth, recovering, errors⟩ := s
    cases rest <;> rfl
  exact failing (fun i s => ⟨_, hrun i s⟩) fun i s => ⟨_, hrun i s⟩

theorem bind (hp : Widens σ f p q) (hk : ∀ a b, σ.Same f a b → Widens σ g (k a) (l b)) :
    Widens σ g (p >>= k) (q >>= l) where
  narrow := hp.narrow.bind fun a => (hk a a (.refl a)).narrow
  wide := hp.wide.bind fun b => (hk b b (.refl b)).wide
  follows {s s' c u} ha hr := by
    rw [Lockstep.bind_run] at hr
    cases ht : p σ.narrow s with
    | ok a t =>
      rw [ht] at hr
      refine (hp.follows ha ht).bind (fun b t' hab ht' => ?_) fun b => (hk b b (.refl b)).wide
      exact (hk a b hab).follows ht' hr
    | error e t =>
      rw [ht] at hr
      cases hr

/-- A step with a result that is known in both readings. -/
theorem bindEq {p q : Parser α} (hp : Widens σ id p q) (hk : ∀ a, Widens σ g (k a) (l a)) :
    Widens σ g (p >>= k) (q >>= l) :=
  bind hp fun a b hab => by
    obtain rfl : a = b := hab.shape
    exact hk a

/-- A step that only looks at the state. -/
theorem looking {m : Parser α} (look : Input → State → α)
    (hm : ∀ i s, m i s = .ok (look i s) s)
    (hlook : ∀ {s s'}, σ.Alike s s' → look σ.wide s' = look σ.narrow s)
    (h : ∀ a, Widens σ g (k a) (l a)) : Widens σ g (m >>= k) (m >>= l) := by
  refine bindEq ⟨fun s => ?_, fun s => ?_, fun {s s' a t} ha hr => ?_⟩ h
  · rw [hm]
    exact .refl s
  · rw [hm]
    exact .refl s
  · rw [hm] at hr
    obtain ⟨rfl, rfl⟩ := EStateM.Result.ok.inj hr
    rw [hm, hlook ha]
    exact .ok (.refl _) ha

/-- A step that only goes elsewhere in the text. -/
theorem moving {m : Parser Unit} (move : Place → Place) {k l : Unit → Parser γ}
    (hm : ∀ i s, m i s = .ok () { s with place := move s.place })
    (h : Widens σ g (k ()) (l ())) : Widens σ g (m >>= k) (m >>= l) := by
  refine bindEq ⟨fun s => ?_, fun s => ?_, fun {s s' a t} ha hr => ?_⟩ fun _ => h
  · rw [hm]
    exact .goto _
  · rw [hm]
    exact .goto _
  · rw [hm] at hr
    obtain ⟨-, rfl⟩ := EStateM.Result.ok.inj hr
    rw [hm, ha.place]
    exact .ok (.refl _) { ha with place := rfl }

section Looking

open Grammar.Parser

theorem place_bind {k l : Place → Parser γ} (h : ∀ p, Widens σ g (k p) (l p)) :
    Widens σ g (place >>= k) (place >>= l) :=
  looking (fun _ s => s.place) (fun _ _ => rfl) (fun ha => ha.place) h

theorem peek_bind {k l : Option Token → Parser γ} (h : ∀ t, Widens σ g (k t) (l t)) :
    Widens σ g (peek >>= k) (peek >>= l) :=
  looking (fun _ s => s.place.current?) (fun _ _ => rfl) (fun ha => by rw [ha.place]) h

theorem peekNext_bind {k l : Option Token → Parser γ} (h : ∀ t, Widens σ g (k t) (l t)) :
    Widens σ g (peekNext >>= k) (peekNext >>= l) :=
  looking (fun _ s => s.place.next?) (fun _ _ => rfl) (fun ha => by rw [ha.place]) h

theorem start_bind {k l : Nat → Parser γ} (h : ∀ n, Widens σ g (k n) (l n)) :
    Widens σ g (start >>= k) (start >>= l) :=
  looking (fun i s => s.place.start i.text) (fun _ _ => rfl)
    (fun ha => by rw [ha.place, σ.text_eq]) h

theorem atWord_bind {keyword : String} {k l : Bool → Parser γ} (h : ∀ b, Widens σ g (k b) (l b)) :
    Widens σ g (atWord keyword >>= k) (atWord keyword >>= l) := by
  refine looking (fun _ s => s.place.wordAt keyword) (fun i s => ?_) (fun ha => by rw [ha.place]) h
  obtain ⟨⟨last?, rest⟩, arena, depth, recovering, errors⟩ := s
  cases rest with
  | nil => rfl
  | cons l ls =>
    obtain ⟨token, span⟩ := l
    cases token <;> rfl

/-- A step that shows the whole state. -/
theorem get_bind {k l : State → Parser γ}
    (h : ∀ {s s' : State}, (σ.equal → s'.arena = s.arena) → Widens σ g (k s) (l s')) :
    Widens σ g (get >>= k) (get >>= l) where
  narrow s := (h fun _ => rfl).narrow s
  wide s := (h fun _ => rfl).wide s
  follows ha hr := (h ha.arena).follows ha hr

end Looking

section Moving

open Grammar.Parser
variable {m : Mark} {k l : Unit → Parser γ}

theorem advance_bind (h : Widens σ g (k ()) (l ())) :
    Widens σ g (advance >>= k) (advance >>= l) :=
  moving .advance (fun _ _ => rfl) h

theorem advanceBy_bind {n : Nat} (h : Widens σ g (k ()) (l ())) :
    Widens σ g (advanceBy n >>= k) (advanceBy n >>= l) :=
  moving (.advanceBy n) (fun _ _ => rfl) h

theorem goto_bind {p : Place} (h : Widens σ g (k ()) (l ())) :
    Widens σ g (goto p >>= k) (goto p >>= l) :=
  moving (fun _ => p) (fun _ _ => rfl) h

theorem skipNewlines_bind (h : Widens σ g (k ()) (l ())) :
    Widens σ g (skipNewlines >>= k) (skipNewlines >>= l) :=
  moving (.past (· == .newline)) (fun _ _ => rfl) h

theorem skipTerminators_bind (h : Widens σ g (k ()) (l ())) :
    Widens σ g (skipTerminators >>= k) (skipTerminators >>= l) :=
  moving (.past isTerminator) (fun _ _ => rfl) h

theorem eat_bind {k l : Bool → Parser γ} (h : ∀ b, Widens σ g (k b) (l b)) :
    Widens σ g (eat m >>= k) (eat m >>= l) := by
  rw [eat]
  refine bindEq (peek_bind fun t => ?_) h
  split
  · exact advance_bind (pure (.refl _))
  · exact pure (.refl _)

theorem eat_ite {x y x' y' : Parser γ} (hthen : Widens σ g x x') (helse : Widens σ g y y') :
    Widens σ g (eat m >>= fun b => if b = true then x else y)
      (eat m >>= fun b => if b = true then x' else y') := by
  refine eat_bind fun b => ?_
  cases b with
  | true => exact hthen
  | false => exact helse

theorem expect_bind (h : Widens σ g (k ()) (l ())) :
    Widens σ g (expect m >>= k) (expect m >>= l) := by
  rw [expect]
  refine bindEq (eat_bind fun b => ?_) fun _ => h
  cases b with
  | true => exact pure (.refl _)
  | false => exact unexpected

end Moving

/-! Texts and nodes. -/

theorem slice {start stop : Nat} :
    Widens σ id (Parser.slice start stop) (Parser.slice start stop) := by
  have hrest (i : Input) : Rests i (Parser.slice start stop) := by
    intro s
    rw [Lockstep.slice_run]
    cases Text.slice? i.text start stop <;> exact .refl s
  refine ⟨hrest _, hrest _, fun {s s' a t} ha hr => ?_⟩
  rw [Lockstep.slice_run] at hr ⊢
  rw [σ.text_eq]
  cases hslice : Text.slice? σ.narrow.text start stop with
  | none =>
    rw [hslice] at hr
    cases hr
  | some cs =>
    rw [hslice] at hr
    obtain ⟨rfl, rfl⟩ := EStateM.Result.ok.inj hr
    exact .ok (.refl _) ha

theorem addAt {n m : Node NodeId} {span span' : Span} (hn : σ.equal → n = m)
    (hspan : σ.equal → span = span') :
    Widens σ veiled (Parser.addAt n span) (Parser.addAt m span') := by
  refine ⟨.addAt n span, .addAt m span', fun {s s' id t} ha hr => ?_⟩
  rw [Lockstep.addAt_run] at hr ⊢
  cases hadd : s.arena.add n (some span) with
  | error e =>
    rw [hadd] at hr
    cases hr
  | ok r =>
    rw [hadd] at hr
    obtain ⟨rfl, rfl⟩ := EStateM.Result.ok.inj hr
    by_cases he : σ.equal
    · rw [ha.arena he, ← hn he, ← hspan he, hadd]
      exact .ok (.refl _) { ha with arena := fun _ => rfl }
    · cases hadd' : s'.arena.add m (some span') with
      | error e => exact .full he (Arena.full_of_add hadd')
      | ok r' => exact .ok (.veiled fun h => absurd h he) { ha with arena := fun h => absurd h he }

theorem add {n m : Node NodeId} {start : Nat} (hn : σ.equal → n = m) :
    Widens σ veiled (Parser.add n start) (Parser.add m start) := by
  rw [Parser.add, Parser.add]
  exact place_bind fun p => addAt hn fun _ => rfl

/-! Recovery and depth. -/

/-- With a level to spare here there is one in the second reading too. -/
theorem guarded (h : Widens σ.deeper f p q) :
    Widens σ f (Parser.guarded p) (Parser.guarded q) := by
  refine ⟨h.narrow.guarded, h.wide.guarded, fun {s s' a t} ha hr => ?_⟩
  have hroomier := σ.roomier
  have hdepth := ha.depth
  have hdepth' := ha.depth'
  rw [Parser.guarded] at hr ⊢
  split at hr
  · cases hr
  · rw [if_neg (by omega)]
    have ha' : σ.deeper.Alike { s with depth := s.depth + 1 } { s' with depth := s'.depth + 1 } :=
      { ha with
        depth := congrArg (· + 1) ha.depth
        depth' := congrArg (· + 1) ha.depth' }
    cases hu : p σ.narrow { s with depth := s.depth + 1 } with
    | error e u =>
      rw [hu] at hr
      cases hr
    | ok b u =>
      rw [hu] at hr
      obtain ⟨rfl, rfl⟩ := EStateM.Result.ok.inj hr
      have hinner := h.follows ha' hu
      change Sustains σ.deeper f _ u (q σ.wide { s' with depth := s'.depth + 1 }) at hinner
      generalize q σ.wide { s' with depth := s'.depth + 1 } = r at hinner ⊢
      cases hinner with
      | ok hab ht =>
        refine .ok ⟨hab.shape, hab.eq⟩ ?_
        exact
          { ht with
            depth := congrArg (· - 1) ht.depth
            depth' := congrArg (· - 1) ht.depth' }
      | full he hfull =>
        cases r with
        | ok b t' => exact .full he hfull
        | error e t' => exact .full he hfull

/-- A reading that does not recover keeps no broken statement. -/
theorem orElseKeep {other other' : Parser α} (h : Widens σ f p q)
    (ho : Rests σ.narrow other) (ho' : Rests σ.wide other') :
    Widens σ f (Grammar.orElseKeep p other) (Grammar.orElseKeep q other') := by
  refine ⟨h.narrow.orElseKeep ho, h.wide.orElseKeep ho', fun {s s' a t} ha hr => ?_⟩
  rw [Lockstep.orElseKeep_strict ((h.narrow s).recovering.trans ha.strict)] at hr
  rw [Lockstep.orElseKeep_strict ((h.wide s').recovering.trans ha.strict')]
  exact h.follows ha hr

/-! Repetition. -/

section Repetition

variable {item item' : Parser (Option α)}

theorem manyUpTo (step : Widens σ (Option.map f) item item') (n : Nat) :
    Widens σ (List.map f) (Parser.manyUpTo item n) (Parser.manyUpTo item' n) := by
  induction n with
  | zero => exact throw
  | succ n ih =>
    rw [Parser.manyUpTo, Parser.manyUpTo]
    refine bind step fun o o' ho => ?_
    cases o with
    | none =>
      cases o' with
      | none => exact pure (.refl _)
      | some b => cases ho.shape
    | some a =>
      cases o' with
      | none => cases ho.shape
      | some b =>
        refine bind ih fun as bs has => pure (.cons ?_ has)
        exact ⟨Option.some.inj ho.shape, fun he => Option.some.inj (ho.eq he)⟩

theorem many (step : Widens σ (Option.map f) item item') :
    Widens σ (List.map f) (Parser.many item) (Parser.many item') := by
  rw [Parser.many, Parser.many]
  exact place_bind fun p => manyUpTo step _

theorem iterateUpTo {step step' : α → Parser (Option α)}
    (h : ∀ a b, σ.Same f a b → Widens σ (Option.map f) (step a) (step' b)) (n : Nat) {a b : α}
    (hab : σ.Same f a b) :
    Widens σ f (Parser.iterateUpTo step n a) (Parser.iterateUpTo step' n b) := by
  induction n generalizing a b with
  | zero => exact throw
  | succ n ih =>
    rw [Parser.iterateUpTo, Parser.iterateUpTo]
    refine bind (h a b hab) fun o o' ho => ?_
    cases o with
    | none =>
      cases o' with
      | none => exact pure hab
      | some b => cases ho.shape
    | some a =>
      cases o' with
      | none => cases ho.shape
      | some b => exact ih ⟨Option.some.inj ho.shape, fun he => Option.some.inj (ho.eq he)⟩

theorem iterate {step step' : α → Parser (Option α)}
    (h : ∀ a b, σ.Same f a b → Widens σ (Option.map f) (step a) (step' b)) {a b : α}
    (hab : σ.Same f a b) : Widens σ f (Parser.iterate step a) (Parser.iterate step' b) := by
  rw [Parser.iterate, Parser.iterate]
  exact place_bind fun p => iterateUpTo h _ hab

theorem some_bind (h : Widens σ f p q) :
    Widens σ (Option.map f) (p >>= fun a => Pure.pure (some a))
      (q >>= fun a => Pure.pure (some a)) :=
  bind h fun _ _ hab => pure hab.some

theorem some_map (h : Widens σ f p q) :
    Widens σ (Option.map f) (some <$> p) (some <$> q) := by
  rw [map_eq_pure_bind, map_eq_pure_bind]
  exact some_bind h

variable (step : Widens σ f p q)
include step

theorem afterCommas : Widens σ (List.map f) (Parser.afterCommas p) (Parser.afterCommas q) := by
  rw [Parser.afterCommas, Parser.afterCommas]
  exact many (eat_ite (some_bind step) (pure (.refl _)))

theorem spaced : Widens σ f (Parser.spaced p) (Parser.spaced q) := by
  rw [Parser.spaced, Parser.spaced]
  exact skipNewlines_bind (bind step fun a b hab => skipNewlines_bind (pure hab))

theorem untilParen : Widens σ (List.map f) (Parser.untilParen p) (Parser.untilParen q) := by
  rw [Parser.untilParen, Parser.untilParen]
  refine skipNewlines_bind (eat_ite (pure (.refl _)) ?_)
  refine bind (spaced step) fun first first' hfirst => ?_
  refine bind (afterCommas (spaced step)) fun others others' hothers => ?_
  exact expect_bind (pure (.cons hfirst hothers))

end Repetition

end ScriptInject.Grammar.Widens
