import ScriptInject.Proofs.Targeting
/-! Attributes that are read strictly, next to a reading that is not strict. An argument that means
nothing is an error of the one and a warning of the other, and nothing else tells them apart. -/
namespace ScriptInject

variable {α β : Type}

def Warning.isUnknownArgument : Warning → Bool
  | .unknownArgument .. => true
  | .misplacedMarker .. => false

/-- From one list of warnings to the other, only arguments that mean nothing have been told. -/
def Tells (ws ws' : List Warning) : Prop :=
  ∃ more, ws' = ws ++ more ∧ ∀ w ∈ more, w.isUnknownArgument = true

namespace Tells

variable {ws ws' ws'' : List Warning}

theorem refl (ws : List Warning) : Tells ws ws := ⟨[], (List.append_nil ws).symm, nofun⟩

theorem trans (h : Tells ws ws') (k : Tells ws' ws'') : Tells ws ws'' := by
  obtain ⟨more, rfl, hmore⟩ := h
  obtain ⟨others, rfl, hothers⟩ := k
  refine ⟨more ++ others, List.append_assoc .., fun w hw => ?_⟩
  rcases List.mem_append.mp hw with hw | hw
  · exact hmore w hw
  · exact hothers w hw

theorem antisymm (h : Tells ws ws') (k : Tells ws' ws) : ws' = ws := by
  obtain ⟨more, rfl, -⟩ := h
  obtain ⟨others, hsame, -⟩ := k
  rw [List.append_assoc, List.self_eq_append_right, List.append_eq_nil_iff] at hsame
  rw [hsame.1, List.append_nil]

end Tells

namespace Target

/-- The warnings that a reading ends with. -/
def warningsOf : EStateM.Result ScriptError (List Warning) α → List Warning
  | .ok _ ws | .error _ ws => ws

/-- The second reading gives a value where the first one does and has nothing to tell. -/
structure Tightens (x y : Reading α) : Prop where
  tells : ∀ ws, Tells ws (warningsOf (x ws))
  ok_iff : ∀ ws v ws', y ws = .ok v ws' ↔ x ws = .ok v ws ∧ ws' = ws

namespace Tightens

variable {x y : Reading α} {f g : α → Reading β}

theorem pure (v : α) : Tightens (pure v) (pure v) where
  tells := Tells.refl
  ok_iff ws w ws' := by
    change EStateM.Result.ok v ws = .ok w ws' ↔ EStateM.Result.ok v ws = .ok w ws ∧ ws' = ws
    simp only [EStateM.Result.ok.injEq, and_true, eq_comm]

theorem throw (e : ScriptError) : Tightens (throw e : Reading α) (throw e) where
  tells := Tells.refl
  ok_iff ws w ws' := by
    change EStateM.Result.error e ws = .ok w ws' ↔ EStateM.Result.error e ws = .ok w ws ∧ ws' = ws
    simp

theorem lift (o : Except ScriptError α) : Tightens (liftM o : Reading α) (liftM o) := by
  cases o with
  | ok v => exact .pure v
  | error e => exact .throw e

theorem tells_bind (h : Tightens x y) (hf : ∀ v, Tightens (f v) (g v)) (ws : List Warning) :
    Tells ws (warningsOf ((x >>= f) ws)) := by
  have htells := h.tells ws
  rw [bind_run]
  cases hrun : x ws with
  | ok v ws' =>
    rw [hrun] at htells
    exact htells.trans ((hf v).tells ws')
  | error e ws' =>
    rw [hrun] at htells
    exact htells

theorem bind (h : Tightens x y) (hf : ∀ v, Tightens (f v) (g v)) :
    Tightens (x >>= f) (y >>= g) where
  tells := h.tells_bind hf
  ok_iff ws w ws' := by
    constructor
    · intro hrun
      obtain ⟨v, us, hy, hg⟩ := ok_of_bind hrun
      obtain ⟨hx, rfl⟩ := (h.ok_iff ws v us).mp hy
      obtain ⟨hfv, rfl⟩ := ((hf v).ok_iff us w ws').mp hg
      rw [bind_run, hx]
      exact ⟨hfv, rfl⟩
    · rintro ⟨hrun, rfl⟩
      obtain ⟨v, us, hx, hfv⟩ := ok_of_bind hrun
      have hthere := h.tells ws'
      have hback := (hf v).tells us
      rw [hx] at hthere
      rw [hfv] at hback
      obtain rfl : us = ws' := hthere.antisymm hback
      rw [bind_run, (h.ok_iff us v us).mpr ⟨hx, rfl⟩]
      exact ((hf v).ok_iff us w us).mpr ⟨hfv, rfl⟩

theorem forM {f g : α → Reading Unit} (h : ∀ v, Tightens (f v) (g v)) (vs : List α) :
    Tightens (vs.forM f) (vs.forM g) := by
  induction vs with
  | nil => exact .pure ()
  | cons v vs ih => exact (h v).bind fun _ => ih

end Tightens

variable (a : Arena) (e : Element) (args : Arguments) (argument : String)

/-- The one warns, and the other fails. -/
theorem tightens_unknownArgument :
    Tightens (unknownArgument false args argument) (unknownArgument true args argument) where
  tells ws := ⟨[.unknownArgument argument args.element], rfl, fun w hw => by
    rw [List.mem_singleton.mp hw]
    rfl⟩
  ok_iff ws v ws' := by
    have hmore : ws ++ [.unknownArgument argument args.element] ≠ ws := fun h => by simp at h
    refine ⟨fun h => ?_, fun h => ?_⟩
    · cases h
    · exact absurd (EStateM.Result.ok.inj h.1).2 hmore

theorem tightens_argumentsOf : Tightens (argumentsOf false a e) (argumentsOf true a e) := by
  refine (Tightens.lift _).bind fun args => ?_
  refine Tightens.bind (.forM (fun p => ?_) _) fun _ => ?_
  · dsimp only
    split
    · exact .pure ()
    · exact tightens_unknownArgument args p.1
  · split
    · exact (tightens_unknownArgument args _).bind fun _ => .pure args
    · exact .pure args

theorem tightens_ofElement (scope? : Option String) :
    Tightens (ofElement false a scope? e) (ofElement true a scope? e) :=
  (tightens_argumentsOf a e).bind fun _ => (Tightens.lift _).bind fun _ =>
    (Tightens.lift _).bind fun _ => (Tightens.lift _).bind fun _ => .pure _

end Target

namespace Resolver

open Target (Reading)

/-- From one state of the notes to the other, errors have been noted and arguments that mean nothing
have been told. -/
structure Noted (n m : Notes) : Prop where
  errors : n.errors <+: m.errors
  warnings : Tells n.warnings m.warnings

theorem Noted.trans {n m o : Notes} (h : Noted n m) (k : Noted m o) : Noted n o :=
  ⟨h.errors.trans k.errors, h.warnings.trans k.warnings⟩

theorem Noted.antisymm {n m : Notes} (h : Noted n m) (k : Noted m n) : m = n := by
  obtain ⟨ws, es⟩ := n
  obtain ⟨ws', es'⟩ := m
  have hwarnings : ws' = ws := h.warnings.antisymm k.warnings
  have herrors : es' = es := k.errors.eq_of_length_le h.errors.length_le
  rw [hwarnings, herrors]

theorem noting_ok {p : Reading α} {n : Notes} {v : α} {ws : List Warning}
    (h : p n.warnings = .ok v ws) : noting p n = (some v, { n with warnings := ws }) := by
  rw [noting, EStateM.run, h]

theorem noting_error {p : Reading α} {n : Notes} {e : ScriptError} {ws : List Warning}
    (h : p n.warnings = .error e ws) :
    noting p n = (none, { warnings := ws, errors := n.errors ++ [e] }) := by
  rw [noting, EStateM.run, h]

/-- The second one notes an error where the first one notes or tells anything; elsewhere both go
alike. -/
structure Tightens (x y : Gathering α) : Prop where
  noted : ∀ n, Noted n (x n).2
  errors : ∀ n : Notes, n.errors <+: (y n).2.errors
  same_iff : ∀ n : Notes, (y n).2.errors = n.errors ↔ (x n).2 = n
  eq : ∀ n, (x n).2 = n → y n = x n

namespace Tightens

variable {x y : Gathering α} {f g : α → Gathering β}

theorem pure (v : α) : Tightens (pure v) (pure v) where
  noted _ := ⟨List.prefix_refl _, .refl _⟩
  errors _ := List.prefix_refl _
  same_iff _ := ⟨fun _ => rfl, fun _ => rfl⟩
  eq _ _ := rfl

theorem bind (h : Tightens x y) (hf : ∀ v, Tightens (f v) (g v)) :
    Tightens (x >>= f) (y >>= g) := by
  have herrors (n : Notes) : (y n).2.errors <+: ((y >>= g) n).2.errors := (hf (y n).1).errors _
  -- Where the first one has nothing to note, neither of its parts has.
  have hquiet (n : Notes) (hn : ((x >>= f) n).2 = n) :
      (x n).2 = n ∧ (f (x n).1 n).2 = n ∧ (y >>= g) n = g (x n).1 n := by
    have hback : Noted (x n).2 n := by
      have := (hf (x n).1).noted (x n).2
      change Noted (x n).2 ((x >>= f) n).2 at this
      rwa [hn] at this
    have hx : (x n).2 = n := (h.noted n).antisymm hback
    change (f (x n).1 (x n).2).2 = n at hn
    rw [hx] at hn
    refine ⟨hx, hn, ?_⟩
    change g (y n).1 (y n).2 = g (x n).1 n
    rw [h.eq n hx, hx]
  refine ⟨fun n => (h.noted n).trans ((hf _).noted _), fun n => (h.errors n).trans (herrors n),
    fun n => ⟨fun hnone => ?_, fun hn => ?_⟩, fun n hn => ?_⟩
  · have hy : (y n).2.errors = n.errors :=
      ((h.errors n).eq_of_length_le (hnone ▸ (herrors n).length_le)).symm
    have hx : (x n).2 = n := (h.same_iff n).mp hy
    change (g (y n).1 (y n).2).2.errors = n.errors at hnone
    rw [h.eq n hx, hx] at hnone
    change (f (x n).1 (x n).2).2 = n
    rw [hx]
    exact ((hf _).same_iff n).mp hnone
  · obtain ⟨-, hfx, hrun⟩ := hquiet n hn
    rw [hrun]
    exact ((hf _).same_iff n).mpr hfx
  · obtain ⟨hx, hfx, hrun⟩ := hquiet n hn
    rw [hrun, (hf _).eq n hfx]
    change f (x n).1 n = f (x n).1 (x n).2
    rw [hx]

theorem noting {p q : Reading α} (h : Target.Tightens p q) : Tightens (noting p) (noting q) := by
  have hmore (es : List ScriptError) (e : ScriptError) : es ++ [e] ≠ es := fun h => by simp at h
  have hquiet (n : Notes) (hn : (Resolver.noting p n).2 = n) :
      ∃ v, Resolver.noting p n = (some v, n) ∧ Resolver.noting q n = (some v, n) := by
    cases hrun : p n.warnings with
    | error e ws =>
      rw [noting_error hrun] at hn
      exact absurd (congrArg Notes.errors hn) (hmore _ _)
    | ok v ws =>
      rw [noting_ok hrun] at hn
      obtain rfl : ws = n.warnings := congrArg Notes.warnings hn
      exact ⟨v, noting_ok hrun, noting_ok ((h.ok_iff _ _ _).mpr ⟨hrun, rfl⟩)⟩
  refine ⟨fun n => ?_, fun n => ?_, fun n => ⟨fun hnone => ?_, fun hn => ?_⟩, fun n hn => ?_⟩
  · have htells := h.tells n.warnings
    cases hrun : p n.warnings with
    | ok v ws =>
      rw [hrun] at htells
      rw [noting_ok hrun]
      exact ⟨List.prefix_refl _, htells⟩
    | error e ws =>
      rw [hrun] at htells
      rw [noting_error hrun]
      exact ⟨List.prefix_append .., htells⟩
  · cases hrun : q n.warnings with
    | ok v ws =>
      simp only [noting_ok hrun]
      exact List.prefix_refl _
    | error e ws =>
      rw [noting_error hrun]
      exact List.prefix_append ..
  · cases hrun : q n.warnings with
    | ok v ws => rw [noting_ok ((h.ok_iff _ _ _).mp hrun).1]
    | error e ws =>
      rw [noting_error hrun] at hnone
      exact absurd hnone (hmore _ _)
  · obtain ⟨v, -, hq⟩ := hquiet n hn
    rw [hq]
  · obtain ⟨v, hp, hq⟩ := hquiet n hn
    rw [hp, hq]

theorem unit {p q : Reading α} (h : Target.Tightens p q) :
    Tightens (do let _ ← Resolver.noting p : Gathering Unit) (do let _ ← Resolver.noting q) :=
  (noting h).bind fun _ => pure ()

theorem mapM (h : ∀ v, Tightens (f v) (g v)) (vs : List α) :
    Tightens (vs.mapM f) (vs.mapM g) := by
  induction vs with
  | nil => exact pure []
  | cons v vs ih =>
    rw [List.mapM_cons, List.mapM_cons]
    exact (h v).bind fun _ => ih.bind fun _ => pure _

theorem filterMapM {f g : α → Gathering (Option β)} (h : ∀ v, Tightens (f v) (g v))
    (vs : List α) : Tightens (vs.filterMapM f) (vs.filterMapM g) := by
  induction vs with
  | nil => exact pure []
  | cons v vs ih =>
    rw [List.filterMapM_cons, List.filterMapM_cons]
    refine (h v).bind fun o => ?_
    cases o with
    | none => exact ih
    | some w => exact ih.bind fun _ => pure _

theorem forM {f g : α → Gathering Unit} (h : ∀ v, Tightens (f v) (g v)) (vs : List α) :
    Tightens (vs.forM f) (vs.forM g) := by
  induction vs with
  | nil => exact pure ()
  | cons v vs ih => exact (h v).bind fun _ => ih

end Tightens

variable (d : Definition)

theorem tightens_textSlot (id : ElementId) (name : String) :
    Target.Tightens (textSlot ⟨d, false⟩ id name) (textSlot ⟨d, true⟩ id name) :=
  (Target.Tightens.lift _).bind fun _ => (Target.tightens_argumentsOf _ _).bind fun _ => .lift _

theorem tightens_targetOf (scope? : Option String) (id : ElementId) :
    Target.Tightens (targetOf ⟨d, false⟩ scope? id) (targetOf ⟨d, true⟩ scope? id) :=
  (Target.Tightens.lift _).bind fun _ => (Target.tightens_ofElement _ _ _).bind fun _ => .pure _

theorem tightens_siteTargets (site : InjectionSite) :
    Tightens (siteTargets ⟨d, false⟩ site) (siteTargets ⟨d, true⟩ site) := by
  refine (Tightens.noting (tightens_textSlot d site.element "Scope")).bind fun o => ?_
  cases o with
  | none => exact .pure []
  | some scope? => exact .filterMapM (fun id => .noting (tightens_targetOf d scope? id)) _

theorem tightens_gather : Tightens (gather ⟨d, false⟩) (gather ⟨d, true⟩) := by
  have hlifecycle (id : ElementId) :
      Tightens (checkLifecycle ⟨d, false⟩ id) (checkLifecycle ⟨d, true⟩ id) :=
    .unit ((Target.Tightens.lift _).bind fun _ => Target.tightens_argumentsOf _ _)
  refine (Tightens.mapM (tightens_siteTargets d) _).bind fun _ => ?_
  refine (Tightens.filterMapM (fun id => .noting (tightens_targetOf d none id)) _).bind fun _ => ?_
  refine (Tightens.forM (fun id => .unit (tightens_textSlot d id "Target")) _).bind fun _ => ?_
  exact (Tightens.forM hlifecycle _).bind fun _ => .pure _

/-- Read strictly, a definition has targets exactly where it has targets anyway and no argument has
been told to mean nothing, and then they are the same. -/
theorem targets_strict_iff (d : Definition) (ts : List (ElementId × Target)) :
    (targets ⟨d, true⟩).1 = .ok ts ↔ (targets ⟨d, false⟩).1 = .ok ts ∧
      ∀ w ∈ (targets ⟨d, false⟩).2, w.isUnknownArgument = false := by
  have hgather := tightens_gather d
  have hrun (strict : Bool) : targets ⟨d, strict⟩ =
      if (gather ⟨d, strict⟩ {}).2.errors.isEmpty then
        (.ok ((gather ⟨d, strict⟩ {}).1.mergeSort fun s t => decide (s.1 ≤ t.1)),
          (gather ⟨d, strict⟩ {}).2.warnings)
      else (.error (gather ⟨d, strict⟩ {}).2.errors, (gather ⟨d, strict⟩ {}).2.warnings) := rfl
  have hquiet (hsame : (gather ⟨d, false⟩ {}).2 = {}) :
      targets ⟨d, true⟩ = targets ⟨d, false⟩ ∧ (targets ⟨d, false⟩).2 = [] := by
    refine ⟨by rw [hrun, hrun, hgather.eq _ hsame], ?_⟩
    rw [hrun, hsame]
    rfl
  constructor
  · intro hok
    have hnone : (gather ⟨d, true⟩ {}).2.errors = [] := by
      by_contra hsome
      rw [hrun, if_neg (by rwa [List.isEmpty_iff])] at hok
      cases hok
    obtain ⟨htargets, hwarnings⟩ := hquiet ((hgather.same_iff {}).mp hnone)
    rw [← htargets, htargets, hwarnings, ← htargets]
    exact ⟨hok, nofun⟩
  · rintro ⟨hok, hnone⟩
    obtain ⟨more, hmore, hunknown⟩ := (hgather.noted {}).warnings
    have herrors : (gather ⟨d, false⟩ {}).2.errors = [] := by
      by_contra hsome
      rw [hrun, if_neg (by rwa [List.isEmpty_iff])] at hok
      cases hok
    have hwarnings : (gather ⟨d, false⟩ {}).2.warnings = [] := by
      rw [hrun, if_pos (by rw [herrors]; rfl)] at hnone
      refine List.eq_nil_iff_forall_not_mem.mpr fun w hw => ?_
      have hknown := hnone w hw
      rw [hmore, List.nil_append] at hw
      rw [hunknown w hw] at hknown
      cases hknown
    have hsame : (gather ⟨d, false⟩ {}).2 = {} := by
      generalize (gather ⟨d, false⟩ {}).2 = notes at herrors hwarnings
      obtain ⟨ws, es⟩ := notes
      obtain rfl : es = [] := herrors
      obtain rfl : ws = [] := hwarnings
      rfl
    rw [(hquiet hsame).1]
    exact hok

end Resolver

end ScriptInject
