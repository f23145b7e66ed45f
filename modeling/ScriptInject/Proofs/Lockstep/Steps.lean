import ScriptInject.Proofs.Lockstep.Basic
/-! The steps that the rules are made of, taken by two readings at once. -/
namespace ScriptInject.Grammar

variable {σ : Alignment} {α β γ δ ε : Type} {P P' : State → Prop} {Q Q' : α → State → Prop}
  {R : γ → State → Prop} {f : α → β} {g : γ → δ} {s t u : State}

theorem Follows.imp {r : EStateM.Result Failure State α} {r' : EStateM.Result Failure State β}
    (h : Follows σ f Q s r r') (hQ : ∀ a t, Q a t → Q' a t) : Follows σ f Q' s r r' :=
  ⟨fun he => (h.same he).imp fun _ => hQ _ _, h.noted⟩

namespace Lockstep

variable {p : Parser α} {p' : Parser β} {k : α → Parser γ} {k' : β → Parser δ}

theorem mono (h : Lockstep σ P f p p' Q) (hP : ∀ s, P' s → P s) (hQ : ∀ a s, Q a s → Q' a s) :
    Lockstep σ P' f p p' Q' :=
  ⟨h.onward, fun ha hs hroom => (h.follows ha (hP _ hs) hroom).imp hQ⟩

theorem weaken (h : Lockstep σ P f p p' Q) (hP : ∀ s, P' s → P s) : Lockstep σ P' f p p' Q :=
  h.mono hP fun _ _ hq => hq

theorem imp (h : Lockstep σ P f p p' Q) (hQ : ∀ a s, Q a s → Q' a s) : Lockstep σ P f p p' Q' :=
  h.mono (fun _ hs => hs) hQ

/-- What is only equal where something is known of the state. -/
theorem of_eq {τ : Type} {x y : τ} (q : τ → Parser β) (hxy : ∀ s, P s → x = y)
    (h : Lockstep σ P f p (q y) Q) : Lockstep σ P f p (q x) Q :=
  ⟨h.onward, fun ha hs hroom => hxy _ hs ▸ h.follows ha hs hroom⟩

/-- A rule that notes nothing. -/
theorem of_run (ho : ∀ s, Onward s (final (p σ.input s)))
    (he : ∀ s, (final (p σ.input s)).errors = s.errors)
    (h : ∀ {s s'}, σ.Alike s s' → P s → σ.Room (final (p σ.input s)).arena →
      Matches σ f Q (p σ.input s) (p' σ.shifted s')) : Lockstep σ P f p p' Q where
  onward := ho
  follows ha hs hroom := ⟨fun _ => h ha hs hroom, fun hne => absurd (he _) hne⟩

theorem pure {a : α} {b : β} (h : b = f a) (hQ : ∀ s, P s → Q a s) :
    Lockstep σ P f (pure a) (pure b) Q :=
  of_run .refl (fun _ => rfl) fun ha hs _ => .ok h ha (hQ _ hs)

theorem throw {e : Failure} (h : e.shift σ.offset = e) :
    Lockstep σ P f (throw e) (throw e) Q :=
  of_run .refl (fun _ => rfl) fun {_ s'} ha _ _ => by
    have := Matches.error (σ := σ) (f := f) (Q := Q) (e := e) ha
    rwa [h] at this

theorem refuse {e e' : ParseError} (h : e' = e.shift σ.offset) :
    Lockstep σ P f (Parser.refuse e) (Parser.refuse e') Q :=
  of_run .refl (fun _ => rfl) fun ha _ _ => h ▸ .error ha

theorem unexpected {expected : String} :
    Lockstep σ P f (Parser.unexpected expected) (Parser.unexpected expected) Q := by
  have hrun {τ : Type} (i : Input) (s : State) :
      Parser.unexpected (α := τ) expected i s = .error (.refused (s.place.refusal expected)) s := by
    obtain ⟨⟨last?, rest⟩, arena, depth, recovering, errors⟩ := s
    cases rest <;> rfl
  refine of_run (fun s => ?_) (fun s => ?_) fun {s s'} ha _ _ => ?_
  · rw [hrun]
    exact .refl s
  · rw [hrun]
    rfl
  · rw [hrun, hrun, ha.place, Place.refusal_place]
    exact .error ha

theorem bind_run {τ υ : Type} (q : Parser τ) (l : τ → Parser υ) (i : Input) (s : State) :
    (q >>= l) i s = match q i s with
      | .ok a t => l a i t
      | .error e t => .error e t := by
  change EStateM.bind (q i) (fun a => l a i) s = _
  rw [EStateM.bind]
  cases q i s <;> rfl

theorem onward_bind {i : Input} (hp : ∀ s, Onward s (final (p i s)))
    (hk : ∀ a s, Onward s (final (k a i s))) (s : State) : Onward s (final ((p >>= k) i s)) := by
  have hp := hp s
  rw [bind_run]
  cases hr : p i s with
  | ok a t =>
    rw [hr] at hp
    exact hp.trans (hk a t)
  | error e t =>
    rw [hr] at hp
    exact hp

theorem bind (hp : Lockstep σ P f p p' Q)
    (hk : ∀ a, Lockstep σ (Q a) g (k a) (k' (f a)) R) : Lockstep σ P g (p >>= k) (p' >>= k') R := by
  refine ⟨onward_bind hp.onward fun a => (hk a).onward, fun {s s'} ha hs hroom => ?_⟩
  have honward := hp.onward s
  have hfollows := hp.follows ha hs
  rw [bind_run] at hroom ⊢
  rw [bind_run]
  cases hr : p σ.input s with
  | error e t =>
    rw [hr] at hfollows hroom
    have hfollows := hfollows hroom
    refine ⟨fun he => ?_, fun hne => ?_⟩
    · generalize p' σ.shifted s' = r' at hfollows
      cases hfollows.same he with
      | error ha => exact .error ha
    · obtain ⟨e, t', hr', ht'⟩ := hfollows.noted hne
      exact ⟨e, t', by rw [hr'], ht'⟩
  | ok a t =>
    rw [hr] at hfollows hroom honward
    have hlater := (hk a).onward t
    have hfollows := hfollows (hroom.of_onward hlater)
    by_cases he : t.errors = s.errors
    · generalize p' σ.shifted s' = r' at hfollows
      cases hfollows.same he with
      | ok hb ha hq =>
        have hnext := (hk a).follows ha hq hroom
        rw [hb]
        exact ⟨fun he' => hnext.same (he'.trans he.symm), fun hne => hnext.noted (he ▸ hne)⟩
    · obtain ⟨e, t', hr', ht'⟩ := hfollows.noted he
      refine ⟨fun he' => absurd (honward.errors_of_trans hlater he') he, fun _ => ?_⟩
      exact ⟨e, t', by rw [hr'], ht'⟩

/-- A step that only looks at the state. -/
theorem looking {m : Parser γ} {m' : Parser δ} (look : Input → State → γ) (look' : Input → State → δ)
    {k : γ → Parser α} {k' : δ → Parser β}
    (hm : ∀ i s, m i s = .ok (look i s) s) (hm' : ∀ i s, m' i s = .ok (look' i s) s)
    (hlook : ∀ {s s'}, σ.Alike s s' → P s → look' σ.shifted s' = g (look σ.input s))
    (h : ∀ c, Lockstep σ (fun s => P s ∧ look σ.input s = c) f (k c) (k' (g c)) Q) :
    Lockstep σ P f (m >>= k) (m' >>= k') Q := by
  refine bind (Q := fun c s => P s ∧ look σ.input s = c) (f := g) ?_ h
  refine of_run (fun s => ?_) (fun s => ?_) fun {s s'} ha hs _ => ?_
  · rw [hm]
    exact .refl s
  · rw [hm]
    rfl
  · rw [hm, hm']
    exact .ok (hlook ha hs) ha ⟨hs, rfl⟩

/-- A step that only goes elsewhere in the text. -/
theorem moving {m m' : Parser Unit} {move : Place → Place} (move' : Place → Place) {k : Unit → Parser α}
    {k' : Unit → Parser β}
    (hm : ∀ i s, m i s = .ok () { s with place := move s.place })
    (hm' : ∀ i s, m' i s = .ok () { s with place := move' s.place })
    (hmove : ∀ p, move' (σ.place p) = σ.place (move p))
    (h : Lockstep σ (After P move) f (k ()) (k' ()) Q) :
    Lockstep σ P f (m >>= k) (m' >>= k') Q := by
  refine bind (Q := fun _ => After P move) (f := fun u => u) ?_ fun _ => h
  refine of_run (fun s => ?_) (fun s => ?_) fun {s s'} ha hs _ => ?_
  · rw [hm]
    exact .of_place _
  · rw [hm]
    rfl
  · rw [hm, hm']
    refine .ok rfl ?_ (.mk hs)
    exact { ha with place := by rw [ha.place, hmove] }

section Looking

open Grammar.Parser
variable {m : Mark} {b c : Parser α} {b' c' : Parser β}

theorem place_bind {k : Place → Parser α} {k' : Place → Parser β}
    (h : ∀ p, Lockstep σ (fun s => P s ∧ s.place = p) f (k p) (k' (σ.place p)) Q) :
    Lockstep σ P f (place >>= k) (place >>= k') Q :=
  looking (fun _ s => s.place) (fun _ s => s.place) (fun _ _ => rfl)
    (fun _ _ => rfl) (fun ha _ => ha.place) h

theorem peek_bind {k : Option Token → Parser α} {k' : Option Token → Parser β}
    (h : ∀ t, Lockstep σ (fun s => P s ∧ s.place.current? = t) f (k t) (k' t) Q) :
    Lockstep σ P f (peek >>= k) (peek >>= k') Q :=
  looking (fun _ s => s.place.current?) (fun _ s => s.place.current?)
    (fun _ _ => rfl) (fun _ _ => rfl) (fun ha _ => by rw [ha.place, Place.current?_place]) h

theorem peekNext_bind {k : Option Token → Parser α} {k' : Option Token → Parser β}
    (h : ∀ t, Lockstep σ P f (k t) (k' t) Q) :
    Lockstep σ P f (peekNext >>= k) (peekNext >>= k') Q :=
  looking (fun _ s => s.place.next?) (fun _ s => s.place.next?)
    (fun _ _ => rfl) (fun _ _ => rfl) (fun ha _ => by rw [ha.place, Place.next?_place])
    fun t => (h t).weaken fun _ hs => hs.1

theorem start_bind {k : Nat → Parser α} {k' : Nat → Parser β}
    (h : ∀ n, Lockstep σ P f (k n) (k' (n + σ.offset)) Q) :
    Lockstep σ P f (start >>= k) (start >>= k') Q :=
  looking (fun i s => s.place.start i.text) (fun i s => s.place.start i.text)
    (fun _ _ => rfl) (fun _ _ => rfl) (fun ha _ => by rw [ha.place, Place.start_place])
    fun n => (h n).weaken fun _ hs => hs.1

theorem atWord_bind {keyword : String} {k : Bool → Parser α} {k' : Bool → Parser β}
    (h : ∀ b, Lockstep σ P f (k b) (k' b) Q) :
    Lockstep σ P f (atWord keyword >>= k) (atWord keyword >>= k') Q := by
  have hrun (i : Input) (s : State) : atWord keyword i s = .ok (s.place.wordAt keyword) s := by
    obtain ⟨⟨last?, rest⟩, arena, depth, recovering, errors⟩ := s
    cases rest with
    | nil => rfl
    | cons l ls =>
      obtain ⟨token, span⟩ := l
      cases token <;> rfl
  refine looking _ _ hrun hrun (fun ha _ => ?_) fun b => (h b).weaken fun _ hs => hs.1
  rw [ha.place, Place.wordAt, Place.current?_place, Place.wordAt]

/-- A step that shows the whole state. -/
theorem get_bind {k : State → Parser α} {k' : State → Parser β}
    (ho : ∀ s, Onward s (final (k s σ.input s)))
    (h : ∀ {s s'}, σ.Alike s s' → P s →
      Lockstep σ (fun t => P t ∧ t = s) f (k s) (k' s') Q) :
    Lockstep σ P f (get >>= k) (get >>= k') Q :=
  ⟨ho, fun ha hs hroom => (h ha hs).follows ha ⟨hs, rfl⟩ hroom⟩

end Looking

section Moving

open Grammar.Parser
variable {m : Mark} {k : Unit → Parser α} {k' : Unit → Parser β}

theorem advance_bind (h : Lockstep σ (After P .advance) f (k ()) (k' ()) Q) :
    Lockstep σ P f (advance >>= k) (advance >>= k') Q :=
  moving _ (fun _ _ => rfl) (fun _ _ => rfl) Place.advance_place h

theorem advanceBy_bind {n : Nat} (h : Lockstep σ (After P (.advanceBy n)) f (k ()) (k' ()) Q) :
    Lockstep σ P f (advanceBy n >>= k) (advanceBy n >>= k') Q :=
  moving _ (fun _ _ => rfl) (fun _ _ => rfl) (Place.advanceBy_place n) h

theorem goto_bind {p : Place} (h : Lockstep σ (After P fun _ => p) f (k ()) (k' ()) Q) :
    Lockstep σ P f (goto p >>= k) (goto (σ.place p) >>= k') Q :=
  moving (fun _ => σ.place p) (fun _ _ => rfl) (fun _ _ => rfl) (fun _ => rfl) h

theorem skipNewlines_bind (h : Lockstep σ (After P (.past (· == .newline))) f (k ()) (k' ()) Q) :
    Lockstep σ P f (skipNewlines >>= k) (skipNewlines >>= k') Q :=
  moving _ (fun _ _ => rfl) (fun _ _ => rfl) (Place.past_place _) h

theorem skipTerminators_bind (h : Lockstep σ (After P (.past isTerminator)) f (k ()) (k' ()) Q) :
    Lockstep σ P f (skipTerminators >>= k) (skipTerminators >>= k') Q :=
  moving _ (fun _ _ => rfl) (fun _ _ => rfl) (Place.past_place _) h

theorem eat_bind {k : Bool → Parser α} {k' : Bool → Parser β}
    (hthen : Lockstep σ (Read P (.mark m)) f (k true) (k' true) Q)
    (helse : Lockstep σ P f (k false) (k' false) Q) :
    Lockstep σ P f (eat m >>= k) (eat m >>= k') Q := by
  have hrun {τ : Type} (l : Bool → Parser τ) :
      (eat m >>= l) = peek >>= fun t =>
        if t = some (.mark m) then advance >>= fun _ => l true else l false := by
    funext i s
    change (ite (s.place.current? = some (.mark m)) (advance >>= fun _ => Pure.pure true)
      (Pure.pure false) >>= l) i s = (ite (s.place.current? = some (.mark m)) _ _ : Parser τ) i s
    split <;> rfl
  rw [hrun, hrun]
  refine peek_bind fun t => ?_
  split
  · rename_i ht
    subst ht
    exact advance_bind hthen
  · exact helse.weaken fun _ hs => hs.1

theorem eat_ite {x y : Parser α} {x' y' : Parser β}
    (hthen : Lockstep σ (Read P (.mark m)) f x x' Q) (helse : Lockstep σ P f y y' Q) :
    Lockstep σ P f (eat m >>= fun b => if b = true then x else y)
      (eat m >>= fun b => if b = true then x' else y') Q :=
  eat_bind hthen helse

theorem expect_bind (h : Lockstep σ (Read P (.mark m)) f (k ()) (k' ()) Q) :
    Lockstep σ P f (expect m >>= k) (expect m >>= k') Q := by
  have hrun {τ : Type} (l : Unit → Parser τ) : (expect m >>= l) =
      eat m >>= fun b => if b = true then l () else Parser.unexpected (Token.mark m).describe >>= l := by
    funext i s
    change EStateM.bind (EStateM.bind (eat m i) _) _ s = EStateM.bind (eat m i) _ s
    simp only [EStateM.bind]
    cases eat m i s with
    | error e t => rfl
    | ok b t => cases b <;> rfl
  rw [hrun, hrun]
  exact eat_ite h (bind (Q := fun _ _ => False) (f := fun u => u) unexpected fun _ =>
    ⟨h.onward, fun _ hs => hs.elim⟩)

end Moving

/-! Texts and nodes. -/

theorem slice_run (a b : Nat) (i : Input) (s : State) : Parser.slice a b i s =
    match Text.slice? i.text a b with
    | some cs => .ok (String.ofList cs) s
    | none => .error .cut s := by
  change (match Text.slice? i.text a b with
    | some cs => Pure.pure (String.ofList cs)
    | none => MonadExcept.throw .cut : Parser String) i s = _
  cases Text.slice? i.text a b <;> rfl

theorem slice {start stop : Nat} :
    Lockstep σ P (fun a => a) (Parser.slice start stop)
      (Parser.slice (start + σ.offset) (stop + σ.offset)) fun _ => P := by
  refine of_run (fun s => ?_) (fun s => ?_) fun {s s'} ha hs _ => ?_
  · rw [slice_run]
    cases Text.slice? σ.input.text start stop <;> exact .refl s
  · rw [slice_run]
    cases Text.slice? σ.input.text start stop <;> rfl
  · rw [slice_run, slice_run]
    have hslice : Text.slice? σ.shifted.text (start + σ.offset) (stop + σ.offset) =
        Text.slice? σ.input.text start stop := Text.slice?_shift _ _ _ _
    rw [hslice]
    cases Text.slice? σ.input.text start stop with
    | none => exact .error ha
    | some cs => exact .ok rfl ha hs

theorem addAt_run (n : Node NodeId) (span : Span) (i : Input) (s : State) :
    Parser.addAt n span i s = match s.arena.add n (some span) with
      | .ok (id, a) => .ok id { s with arena := a }
      | .error e => .error (.refused (.arena e)) s := by
  change (match s.arena.add n (some span) with
    | .ok (id, a) => modify ({ · with arena := a }) >>= fun _ => Pure.pure id
    | .error e => Parser.refuse (.arena e) : Parser NodeId) i s = _
  cases s.arena.add n (some span) <;> rfl

theorem onward_addAt (n : Node NodeId) (span : Span) (i : Input) (s : State) :
    Onward s (final (Parser.addAt n span i s)) := by
  rw [addAt_run]
  cases hadd : s.arena.add n (some span) with
  | error e => exact .refl s
  | ok r =>
    refine ⟨?_, List.prefix_refl _, rfl, fun _ => rfl⟩
    change s.arena.nextId ≤ r.2.nextId
    rw [Arena.add_nextId hadd, Arena.add_id hadd]
    exact Nat.le_succ _

theorem addAt {n n' : Node NodeId} {span span' : Span} {Q : NodeId → State → Prop}
    (hn : n' = n.map σ.id) (hspan : span' = span.shift σ.offset)
    (hQ : ∀ s id a, P s → (a.span? id).isSome = true → Q id { s with arena := a }) :
    Lockstep σ P σ.id (Parser.addAt n span) (Parser.addAt n' span') Q := by
  refine of_run (onward_addAt n span σ.input) (fun s => ?_) fun {s s'} ha hs hroom => ?_
  · rw [addAt_run]
    cases s.arena.add n (some span) <;> rfl
  · subst hn hspan
    rw [addAt_run] at hroom ⊢
    rw [addAt_run]
    cases hadd : s.arena.add n (some span) with
    | error e =>
      rw [hadd] at hroom
      rw [σ.add_error ha.arena hroom hadd]
      exact .error ha
    | ok r =>
      rw [hadd] at hroom
      obtain ⟨b, hb, hadd'⟩ := σ.add_ok ha.arena hroom hadd
      change Matches σ σ.id Q _ (match s'.arena.add (n.map (NodeId.shift σ.ids))
        (some (span.shift (Text.size σ.before))) with
        | .ok (id, a) => .ok id { s' with arena := a }
        | .error e => .error (.refused (.arena e)) s')
      rw [hadd']
      refine .ok rfl ⟨ha.place, hb, ha.depth, ha.strict, Arena.add_spanned hadd ha.spanned⟩ ?_
      exact hQ s _ _ hs (by rw [Arena.add_span?_some hadd]; rfl)

theorem addWith {n n' : Node NodeId} {start : Nat} {Q : NodeId → State → Prop}
    (hn : n' = n.map σ.id)
    (hQ : ∀ s id a, P s → (a.span? id).isSome = true → Q id { s with arena := a }) :
    Lockstep σ P σ.id (Parser.add n start) (Parser.add n' (start + σ.offset)) Q := by
  rw [Parser.add, Parser.add]
  refine place_bind fun p => addAt hn ?_ fun s id a hs => hQ s id a hs.1
  rw [Place.stop_place, Span.shift, Nat.add_max_add_right]

theorem add {n n' : Node NodeId} {start : Nat} (hn : n' = n.map σ.id) :
    Lockstep σ P σ.id (Parser.add n start) (Parser.add n' (start + σ.offset)) Any :=
  addWith hn fun _ _ _ _ _ => trivial

theorem addStood {n n' : Node NodeId} {start : Nat} (hn : n' = n.map σ.id)
    (hP : ∀ s, P s → Begun s) :
    Lockstep σ P σ.id (Parser.add n start) (Parser.add n' (start + σ.offset)) Stood :=
  addWith hn fun s _ _ hs hspan => ⟨hspan, hP s hs⟩

/-! Recovery and depth. -/

theorem attempt (h : Lockstep σ P f p p' Q) (hP : ∀ s, P s → s.recovering = false) :
    Lockstep σ P (Option.map f) (Parser.attempt p) (Parser.attempt p')
      fun _ t => t.recovering = false := by
  have hfinal (s : State) :
      final (Parser.attempt p σ.input s) = final (p σ.input s) := by
    rw [Parser.attempt]
    cases p σ.input s with
    | ok a t => rfl
    | error e t => cases e <;> rfl
  refine ⟨fun s => hfinal s ▸ h.onward s, fun {s s'} ha hs hroom => ?_⟩
  rw [hfinal] at hroom
  have hstrict := (h.onward s).strict (hP s hs)
  have hrecovering := (h.onward s).recovering.trans (hP s hs)
  have hmatches := (h.follows ha hs hroom).same hstrict
  refine ⟨fun _ => ?_, fun hne => Not.elim (by rwa [hfinal] at hne) hstrict⟩
  rw [Parser.attempt, Parser.attempt]
  cases hr : p σ.input s with
  | ok a t =>
    rw [hr] at hmatches hrecovering
    generalize p' σ.shifted s' = r' at hmatches
    cases hmatches with
    | ok hb ha _ => exact .ok (by rw [hb]; rfl) ha hrecovering
  | error e t =>
    rw [hr] at hmatches hrecovering
    generalize p' σ.shifted s' = r' at hmatches
    cases hmatches with
    | error ha => cases e with
      | refused e => exact .ok rfl ha hrecovering
      | cut => exact .error ha
      | stalled => exact .error ha

theorem speculatively (h : Lockstep σ (fun s => s.recovering = false) f p p' Q) :
    Lockstep σ P f (Parser.speculatively p) (Parser.speculatively p') Any := by
  have hfinal {τ : Type} (q : Parser τ) (i : Input) (s : State) :
      final (Parser.speculatively q i s) =
        { final (q i { s with recovering := false }) with recovering := s.recovering } := by
    rw [Parser.speculatively]
    cases q i { s with recovering := false } <;> rfl
  have hstrict (s : State) : (final (Parser.speculatively p σ.input s)).errors = s.errors := by
    rw [hfinal]
    exact (h.onward { s with recovering := false }).strict rfl
  refine ⟨fun s => ?_, fun {s s'} ha _ hroom => ⟨fun _ => ?_, fun hne => absurd (hstrict s) hne⟩⟩
  · rw [hfinal]
    have ho := h.onward { s with recovering := false }
    exact ⟨ho.nextId_le, ho.errors, rfl, fun _ => ho.strict rfl⟩
  · rw [hfinal] at hroom
    have ha' : σ.Alike { s with recovering := false } { s' with recovering := false } :=
      { ha with strict := rfl }
    have hmatches := (h.follows ha' rfl hroom).same
      ((h.onward { s with recovering := false }).strict rfl)
    have hback {t t' : State} (ht : σ.Alike t t') : σ.Alike
        { t with recovering := s.recovering } { t' with recovering := s'.recovering } :=
      { ht with strict := ha.strict }
    rw [Parser.speculatively, Parser.speculatively]
    generalize p σ.input { s with recovering := false } = r at hmatches
    generalize p' σ.shifted { s' with recovering := false } = r' at hmatches
    cases hmatches with
    | ok hb ht _ => exact .ok hb (hback ht) trivial
    | error ht => exact .error (hback ht)

theorem guarded (h : Lockstep σ (fun _ => True) f p p' Q)
    (hQ : ∀ a t depth, Q a t → Q a { t with depth }) :
    Lockstep σ P f (Parser.guarded p) (Parser.guarded p') Q := by
  have hrun {τ : Type} (q : Parser τ) (i : Input) (s : State) (hd : ¬ i.maxDepth ≤ s.depth) :
      Parser.guarded q i s = match q i { s with depth := s.depth + 1 } with
        | .ok a t => .ok a { t with depth := t.depth - 1 }
        | .error f t => .error f { t with depth := t.depth - 1 } := if_neg hd
  have hdeep {τ : Type} (q : Parser τ) (i : Input) (s : State) (hd : i.maxDepth ≤ s.depth) :
      Parser.guarded q i s = .error (.refused (.tooDeep s.depth i.maxDepth)) s := if_pos hd
  have hfinal (s : State) (hd : ¬ σ.input.maxDepth ≤ s.depth) :
      ∃ depth, final (Parser.guarded p σ.input s) =
        { final (p σ.input { s with depth := s.depth + 1 }) with depth } := by
    rw [hrun p _ s hd]
    cases p σ.input { s with depth := s.depth + 1 } <;> exact ⟨_, rfl⟩
  refine ⟨fun s => ?_, fun {s s'} ha hs hroom => ?_⟩
  · by_cases hd : σ.input.maxDepth ≤ s.depth
    · rw [hdeep p _ s hd]
      exact .refl s
    · obtain ⟨depth, hfinal⟩ := hfinal s hd
      rw [hfinal]
      have ho := h.onward { s with depth := s.depth + 1 }
      exact ⟨ho.nextId_le, ho.errors, ho.recovering, ho.strict⟩
  · by_cases hd : σ.input.maxDepth ≤ s.depth
    · have hd' : σ.shifted.maxDepth ≤ s'.depth := ha.depth ▸ hd
      rw [hdeep p _ s hd, hdeep p' _ s' hd', ha.depth]
      exact ⟨fun _ => .error ha, fun hne => absurd rfl hne⟩
    · have hd' : ¬ σ.shifted.maxDepth ≤ s'.depth := ha.depth ▸ hd
      obtain ⟨depth, hfinal⟩ := hfinal s hd
      rw [hfinal] at hroom
      have ha' : σ.Alike { s with depth := s.depth + 1 } { s' with depth := s'.depth + 1 } :=
        { ha with depth := congrArg (· + 1) ha.depth }
      have hfollows := h.follows ha' trivial hroom
      have hout {t t' : State} (ht : σ.Alike t t') : σ.Alike
          { t with depth := t.depth - 1 } { t' with depth := t'.depth - 1 } :=
        { ht with depth := congrArg (· - 1) ht.depth }
      refine ⟨fun he => ?_, fun hne => ?_⟩
      · rw [hfinal] at he
        have hmatches := hfollows.same he
        rw [hrun p _ s hd, hrun p' _ s' hd']
        generalize p σ.input { s with depth := s.depth + 1 } = r at hmatches
        generalize p' σ.shifted { s' with depth := s'.depth + 1 } = r' at hmatches
        cases hmatches with
        | ok hb ht hq => exact .ok hb (hout ht) (hQ _ _ _ hq)
        | error ht => exact .error (hout ht)
      · rw [hfinal] at hne
        obtain ⟨e, t', hr', ht'⟩ := hfollows.noted hne
        rw [hrun p' _ s' hd', hr']
        exact ⟨e, _, rfl, ht'⟩

theorem orElseKeep_strict {q other : Parser α} {i : Input} {s : State}
    (h : (final (q i s)).recovering = false) : Grammar.orElseKeep q other i s = q i s := by
  rw [Grammar.orElseKeep]
  cases hr : q i s with
  | ok a t => rfl
  | error e t =>
    rw [hr] at h
    cases e with
    | refused e => exact if_neg (by simp [show t.recovering = false from h])
    | cut => rfl
    | stalled => rfl

/-- Either the outcome is that of `q`, or what `q` refuses has been noted. -/
theorem orElseKeep_cases {q other : Parser α} {i : Input} (ho : ∀ s, Onward s (final (other i s)))
    (s : State) : Grammar.orElseKeep q other i s = q i s ∨
      ∃ e t, q i s = .error (.refused e) t ∧ t.recovering = true ∧
        Onward { t with errors := t.errors ++ [e] } (final (Grammar.orElseKeep q other i s)) := by
  rw [Grammar.orElseKeep]
  cases hr : q i s with
  | ok a t => exact .inl rfl
  | error e t =>
    cases e with
    | refused e =>
      by_cases hkeep : (t.recovering && isRecoverable e) = true
      · refine .inr ⟨e, t, rfl, (Bool.and_eq_true_iff.mp hkeep).1, ?_⟩
        simp only [hkeep, if_true]
        exact .trans (.of_place _) (ho _)
      · exact .inl (if_neg hkeep)
    | cut => exact .inl rfl
    | stalled => exact .inl rfl

/-- Where the first reading notes what it refuses, the second one fails. -/
theorem orElseKeep {other : Parser α} {other' : Parser β} (h : Lockstep σ P f p p' Q)
    (ho : ∀ s, Onward s (final (other σ.input s))) :
    Lockstep σ P f (Grammar.orElseKeep p other) (Grammar.orElseKeep p' other') Q := by
  refine ⟨fun s => ?_, fun {s s'} ha hs hroom => ?_⟩
  · have honward := h.onward s
    rcases orElseKeep_cases ho s with hsame | ⟨e, t, hr, hrecovering, hmore⟩
    · rwa [hsame]
    · rw [hr] at honward
      exact honward.noted hrecovering hmore
  · rcases orElseKeep_cases ho s with hsame | ⟨e, t, hr, -, hmore⟩
    · rw [hsame] at hroom ⊢
      have hfollows := h.follows ha hs hroom
      refine ⟨fun he => ?_, fun hne => ?_⟩
      · have hmatches := hfollows.same he
        rwa [orElseKeep_strict hmatches.strict]
      · obtain ⟨e, t', hr', ht'⟩ := hfollows.noted hne
        refine ⟨e, t', ?_, ht'⟩
        rw [orElseKeep_strict (by rwa [hr']), hr']
    · have honward := h.onward s
      have hfollows := h.follows ha hs
      rw [hr] at hfollows honward
      have hroom' : σ.Room t.arena :=
        @Alignment.Room.of_onward _ { t with errors := t.errors ++ [e] } _ hroom hmore
      obtain ⟨e', t', hr', ht'⟩ := (hfollows hroom').lost
      refine ⟨fun he => absurd he (honward.errors_ne hmore), fun _ => ⟨e', t', ?_, ht'⟩⟩
      rw [orElseKeep_strict (by rwa [hr']), hr']

/-! Repetition. The property `I` holds before each step. -/

section Repetition

variable {f : α → α} {item item' : Parser (Option α)} {I F : State → Prop}

theorem manyUpTo (step : Lockstep σ I (Option.map f) item item' fun o t =>
      (o = none → F t) ∧ (o.isSome = true → I t)) (n : Nat) :
    Lockstep σ I (List.map f) (Parser.manyUpTo item n) (Parser.manyUpTo item' n) fun _ => F := by
  induction n with
  | zero => exact throw rfl
  | succ n ih =>
    rw [Parser.manyUpTo, Parser.manyUpTo]
    refine bind step fun o => ?_
    cases o with
    | none => exact pure rfl fun _ h => h.1 rfl
    | some a =>
      refine bind (ih.weaken fun _ h => h.2 rfl) fun as => ?_
      exact pure rfl fun _ h => h

theorem many (step : Lockstep σ I (Option.map f) item item' fun o t =>
      (o = none → F t) ∧ (o.isSome = true → I t)) :
    Lockstep σ I (List.map f) (Parser.many item) (Parser.many item') fun _ => F := by
  rw [Parser.many, Parser.many]
  refine place_bind fun p => ?_
  have hlength : (σ.place p).rest.length = p.rest.length := List.length_map _
  rw [hlength]
  exact (manyUpTo step _).weaken fun _ hs => hs.1

/-- Repetition of an item after which nothing needs to be known. -/
theorem manyAny (step : Lockstep σ (fun _ => True) (Option.map f) item item' Any) :
    Lockstep σ P (List.map f) (Parser.many item) (Parser.many item') Any :=
  (many (F := fun _ => True) (step.imp fun _ _ _ => ⟨fun _ => trivial, fun _ => trivial⟩)).weaken
    fun _ _ => trivial

theorem iterateUpTo {step step' : α → Parser (Option α)} {I F : α → State → Prop}
    (h : ∀ a, Lockstep σ (I a) (Option.map f) (step a) (step' (f a)) fun o t =>
      (o = none → F a t) ∧ ∀ b, o = some b → I b t) (n : Nat) (a : α) :
    Lockstep σ (I a) f (Parser.iterateUpTo step n a) (Parser.iterateUpTo step' n (f a)) F := by
  induction n generalizing a with
  | zero => exact throw rfl
  | succ n ih =>
    rw [Parser.iterateUpTo, Parser.iterateUpTo]
    refine bind (h a) fun o => ?_
    cases o with
    | none => exact pure rfl fun _ h => h.1 rfl
    | some b => exact (ih b).weaken fun _ h => h.2 b rfl

theorem iterate {step step' : α → Parser (Option α)} {I F : α → State → Prop}
    (h : ∀ a, Lockstep σ (I a) (Option.map f) (step a) (step' (f a)) fun o t =>
      (o = none → F a t) ∧ ∀ b, o = some b → I b t) (a : α) :
    Lockstep σ (I a) f (Parser.iterate step a) (Parser.iterate step' (f a)) F := by
  rw [Parser.iterate, Parser.iterate]
  refine place_bind fun p => ?_
  have hlength : (σ.place p).rest.length = p.rest.length := List.length_map _
  rw [hlength]
  exact (iterateUpTo h _ a).weaken fun _ hs => hs.1

variable {p p' : Parser α}

theorem some_bind (h : Lockstep σ P f p p' Q) :
    Lockstep σ P (Option.map f) (p >>= fun a => Pure.pure (some a))
      (p' >>= fun a => Pure.pure (some a)) fun o t => ∃ a, o = some a ∧ Q a t :=
  bind h fun a => pure rfl fun _ hq => ⟨a, rfl, hq⟩

theorem some_map (h : Lockstep σ P f p p' Q) :
    Lockstep σ P (Option.map f) (some <$> p) (some <$> p') Any := by
  rw [map_eq_pure_bind, map_eq_pure_bind]
  exact (some_bind h).imp fun _ _ _ => trivial

theorem afterCommas (step : ∀ {P}, Lockstep σ P f p p' fun _ => I) :
    Lockstep σ I (List.map f) (Parser.afterCommas p) (Parser.afterCommas p') fun _ => I := by
  rw [Parser.afterCommas, Parser.afterCommas]
  refine many (eat_bind ?_ ?_)
  · exact (some_bind step).imp fun _ _ ⟨_, ho, hs⟩ => ⟨by simp [ho], fun _ => hs⟩
  · exact pure rfl fun _ hs => ⟨fun _ => hs, nofun⟩

variable (step : ∀ {P}, Lockstep σ P f p p' Any)
include step

theorem afterCommasAny :
    Lockstep σ P (List.map f) (Parser.afterCommas p) (Parser.afterCommas p') Any :=
  (afterCommas (I := fun _ => True) (step.imp fun _ _ _ => trivial)).mono (fun _ _ => trivial)
    fun _ _ _ => trivial

theorem spaced : Lockstep σ P f (Parser.spaced p) (Parser.spaced p') Any := by
  rw [Parser.spaced, Parser.spaced]
  refine skipNewlines_bind (bind step fun a => skipNewlines_bind ?_)
  exact pure rfl fun _ _ => trivial

/-- After the items the closing parenthesis has been read. -/
theorem untilParen :
    Lockstep σ P (List.map f) (Parser.untilParen p) (Parser.untilParen p') fun _ => Begun := by
  rw [Parser.untilParen, Parser.untilParen]
  refine skipNewlines_bind (eat_ite ?_ ?_)
  · exact pure rfl fun _ hs => hs.begun
  · refine bind (spaced step) fun first => bind (afterCommasAny (spaced step)) fun others => ?_
    exact expect_bind (pure rfl fun _ hs => hs.begun)

end Repetition

end Lockstep

end ScriptInject.Grammar
