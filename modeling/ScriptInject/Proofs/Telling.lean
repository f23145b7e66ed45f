import ScriptInject.Compiler
import ScriptInject.Proofs.Filling
/-! Which errors the steps of compiling can tell. Only the reading of the text tells what is wrong
with the text. -/
namespace ScriptInject

/-- The error is not about how the text is written. -/
def ScriptError.IsLate (e : ScriptError) : Prop := ∀ cause, e ≠ .parse cause

/-- A monad in which it can be said of a step which errors it tells. -/
class Telling (m : Type → Type) [Monad m] where
  /-- All errors of the step have the property. -/
  Tells {α : Type} : (ScriptError → Prop) → m α → Prop
  tells_pure {α : Type} (E : ScriptError → Prop) (a : α) : Tells E (pure a)
  tells_bind {α β : Type} {E : ScriptError → Prop} {x : m α} {f : α → m β} :
    Tells E x → (∀ a, Tells E (f a)) → Tells E (x >>= f)

instance : Telling (Except ScriptError) where
  Tells E x := ∀ e, x = .error e → E e
  tells_pure _ _ _ h := absurd h nofun
  tells_bind {_ _ _ x f} hx hf e h := by
    cases x with
    | error d => exact hx e (congrArg Except.error (Except.error.inj h))
    | ok a => exact hf a e h

instance {σ : Type} : Telling (StateT σ (Except ScriptError)) where
  Tells E x := ∀ s e, x s = .error e → E e
  tells_pure _ _ _ _ h := absurd h nofun
  tells_bind {_ _ _ x f} hx hf s e h := by
    change (x s >>= fun r => f r.1 r.2) = _ at h
    cases hr : x s with
    | error d =>
      rw [hr] at h
      exact hx s e (hr.trans (congrArg Except.error (Except.error.inj h)))
    | ok r =>
      rw [hr] at h
      exact hf r.1 r.2 e h

instance {σ : Type} : Telling (EStateM ScriptError σ) where
  Tells E x := ∀ s e t, x s = .error e t → E e
  tells_pure _ _ _ _ _ h := absurd h nofun
  tells_bind {_ _ _ x f} hx hf s e t h := by
    change EStateM.bind x f s = _ at h
    rw [EStateM.bind] at h
    cases hr : x s with
    | error e u =>
      rw [hr] at h
      obtain ⟨rfl, rfl⟩ := EStateM.Result.error.inj h
      exact hx s _ _ hr
    | ok a u =>
      rw [hr] at h
      exact hf a u e t h

/-- A step tells nothing about how the text is written. -/
def Late {m : Type → Type} [Monad m] [Telling m] {α : Type} (x : m α) : Prop :=
  Telling.Tells ScriptError.IsLate x

namespace Late

section
variable {m : Type → Type} [Monad m] [Telling m] {α β : Type}

@[grind ←] theorem pure (a : α) : Late (pure a : m α) := Telling.tells_pure _ a

@[grind ←] theorem bind {x : m α} {f : α → m β} (hx : Late x) (hf : ∀ a, Late (f a)) :
    Late (x >>= f) := Telling.tells_bind hx hf

@[grind ←] theorem forM {f : α → m PUnit} {xs : List α} (h : ∀ x, Late (f x)) :
    Late (xs.forM f) := by
  induction xs with
  | nil => exact .pure _
  | cons x xs ih => exact .bind (h x) fun a => ih

@[grind ←] theorem mapM [LawfulMonad m] {f : α → m β} {xs : List α} (h : ∀ x, Late (f x)) :
    Late (xs.mapM f) := by
  induction xs with
  | nil => simpa using Late.pure _
  | cons x xs ih =>
    rw [List.mapM_cons]
    exact .bind (h x) fun a => .bind ih fun as => .pure _

end

section
variable {α σ : Type} {e : ScriptError}

@[grind ←] theorem throw_except (h : e.IsLate) : Late (throw e : Except ScriptError α) := by
  rintro _ ⟨⟩
  exact h

@[grind ←] theorem error (h : e.IsLate) : Late (.error e : Except ScriptError α) := throw_except h

@[grind ←] theorem ok (a : α) : Late (.ok a : Except ScriptError α) := .pure a

theorem throw_state (h : e.IsLate) :
    Late (throw e : StateT σ (Except ScriptError) α) := by
  rintro s _ ⟨⟩
  exact h

theorem throw_estate (h : e.IsLate) : Late (throw e : EStateM ScriptError σ α) := by
  rintro _ _ _ ⟨⟩
  exact h

@[grind ←] theorem modify_state (f : σ → σ) :
    Late (modify f : StateT σ (Except ScriptError) PUnit) := by
  rintro s _ ⟨⟩

@[grind ←] theorem get_state : Late (get : StateT σ (Except ScriptError) σ) := by
  rintro s _ ⟨⟩

@[grind ←] theorem set_state (s : σ) : Late (set s : StateT σ (Except ScriptError) PUnit) := by
  rintro s _ ⟨⟩

@[grind ←] theorem modify_estate (f : σ → σ) :
    Late (modify f : EStateM ScriptError σ PUnit) := by
  rintro _ _ _ ⟨⟩

@[grind ←] theorem get_estate : Late (get : EStateM ScriptError σ σ) := by
  rintro _ _ _ ⟨⟩

@[grind ←] theorem set_estate (s : σ) : Late (set s : EStateM ScriptError σ PUnit) := by
  rintro _ _ _ ⟨⟩

@[grind ←] theorem arena (x : Except ArenaError α) : Late (monadLift x : Except ScriptError α) := by
  cases x with
  | ok a => exact ok a
  | error e => exact error nofun

theorem lift_state {x : Except ScriptError α} (h : Late x) :
    Late (monadLift x : StateT σ (Except ScriptError) α) := by
  intro s e he
  cases x with
  | ok a => exact absurd he nofun
  | error d => exact h e (congrArg Except.error (Except.error.inj he))

theorem arena_state (x : Except ArenaError α) :
    Late (monadLift x : StateT σ (Except ScriptError) α) := lift_state (arena x)

@[grind ←] theorem lift_reading {x : Except ScriptError α} (h : Late x) :
    Late (monadLift x : Target.Reading α) := by
  intro s e t he
  cases x with
  | ok a => exact absurd he nofun
  | error d => exact h e (congrArg Except.error (EStateM.Result.error.inj he).1)

end

/-! In the monads of the steps. -/

@[grind ←] theorem throw_walking (h : e.IsLate) : Late (throw e : Survey.Walking α) := throw_state h

@[grind ←] theorem lift_walking {x : Except ScriptError α} (h : Late x) :
    Late (monadLift x : Survey.Walking α) := lift_state h

@[grind ←] theorem arena_walking (x : Except ArenaError α) :
    Late (monadLift x : Survey.Walking α) := arena_state x

@[grind ←] theorem throw_copying (h : e.IsLate) : Late (throw e : Copying α) := throw_state h

@[grind ←] theorem arena_copying (x : Except ArenaError α) :
    Late (monadLift x : Copying α) := arena_state x

@[grind ←] theorem throw_reading (h : e.IsLate) : Late (throw e : Target.Reading α) := throw_estate h

@[grind ←] theorem throw_building (h : e.IsLate) : Late (throw e : Builder.Building α) :=
  throw_estate h

end Late

namespace Survey

variable {a : Arena}

theorem late_chainUpTo (n : Nat) (id : NodeId) : Late (chainUpTo a n id) := by
  induction n generalizing id with
  | zero => exact .pure _
  | succ n ih =>
    rw [chainUpTo]
    grind

theorem late_fileMarks (attributes : List NodeId) (site : Option Site) (node : NodeId)
    (declaration? : Option NodeId) : Late (fileMarks a attributes site node declaration?) := by
  unfold fileMarks warn addCandidate
  grind

theorem late_chainSite (head last : NodeId) : Late (chainSite a head last) := by
  unfold chainSite
  grind

theorem late_visitChain (head : NodeId) : Late (visitChain a head) := by
  unfold visitChain markDone
  grind [late_chainUpTo, late_chainSite, late_fileMarks]

theorem late_visitFunction (id body : NodeId) : Late (visitFunction a id body) := by
  unfold visitFunction markDone
  grind [late_fileMarks]

theorem late_visitParameter (owner id : NodeId) (attributes : List NodeId) :
    Late (visitParameter a owner id attributes) := by
  unfold visitParameter addParameter warn
  grind

theorem late_visitNode (owner id : NodeId) (n : Node NodeId) : Late (visitNode a owner id n) := by
  unfold visitNode addUsing isDone declare
  grind [late_fileMarks, late_visitChain, late_visitFunction, late_visitParameter]

theorem late_visitUpTo (depth : Nat) (owner id : NodeId) : Late (visitUpTo a depth owner id) := by
  induction depth generalizing owner id with
  | zero => exact .throw_walking nofun
  | succ depth ih =>
    rw [visitUpTo]
    grind [late_visitNode]

theorem late_ofArena? : Late (ofArena? a) := by
  have hwalk (root : NodeId) : Late ((visitUpTo a a.depthBound root root).run {}) :=
    late_visitUpTo _ _ _ {}
  unfold ofArena?
  grind

end Survey

namespace Target
variable {a : Arena} {e : Element} {args : Arguments}

theorem late_invalid (argument reason : String) : (args.invalid argument reason).IsLate := nofun

theorem late_slot? (name : String) (position : Option Nat) : Late (args.slot? name position) := by
  unfold Arguments.slot?
  grind [ScriptError.IsLate]

theorem late_value (slot : Slot) (argument : String) : Late (args.value a slot argument) := by
  have hvalue (n : Node NodeId) : Late (args.valueOf argument n) := by
    unfold Arguments.valueOf
    grind [late_invalid]
  unfold Arguments.value
  grind

theorem late_argumentsOf (strict : Bool) : Late (argumentsOf strict a e) := by
  have hread : Late (readArguments a e) := by
    unfold readArguments
    grind [ScriptError.IsLate]
  have hunknown (args : Arguments) (argument : String) :
      Late (unknownArgument strict args argument) := by
    unfold unknownArgument
    grind [late_invalid]
  unfold argumentsOf
  grind

theorem late_textOf (name : String) (position : Option Nat) : Late (textOf a args name position) := by
  unfold textOf
  grind [late_slot?, late_value, late_invalid]

theorem late_ofElement (strict : Bool) (scope? : Option String) :
    Late (ofElement strict a scope? e) := by
  have hkey (args : Arguments) : Late (keyOf a e args) := by
    have hinferred : Late (inferredKey a e args) := by
      unfold inferredKey
      grind [late_invalid]
    unfold keyOf
    grind [late_slot?, late_value, late_invalid]
  have hoptional (args : Arguments) : Late (optionalOf a args) := by
    unfold optionalOf
    grind [late_slot?, late_value, late_invalid]
  have hconnection (args : Arguments) : Late (connectionStringOf a e args) := by
    unfold connectionStringOf
    grind [late_textOf]
  unfold ofElement
  grind [late_argumentsOf]

end Target

namespace Builder

variable {c : Candidate}

theorem late_ensureOpen : Late ensureOpen := by
  unfold ensureOpen
  grind [ScriptError.IsLate]

theorem late_register (role : Role) : Late (register role c) := by
  unfold register
  grind [late_ensureOpen, ScriptError.IsLate]

theorem late_enter (role : Role) (file : ElementId → Definition → Definition) :
    Late (enter role c file) := by
  unfold enter edit
  grind [late_register]

theorem late_add (role : Role) : Late (add role c) := by
  have hsite : Late (addSite c) := by
    unfold addSite
    grind [late_register]
  have hstartup : Late (setStartup c) := by
    unfold setStartup edit
    grind [late_ensureOpen, late_register, ScriptError.IsLate]
  unfold add addOnError addOnLoaded addBeforeUnload addTemplate addVariable
  grind [late_enter, ScriptError.IsLate]

theorem late_addParameter (function : NodeId) : Late (addParameter function c) := by
  unfold addParameter
  grind [late_ensureOpen, late_enter, ScriptError.IsLate]

theorem late_foldl {α : Type} {step : α → Building ElementId} {xs : List α}
    (h : ∀ x, Late (step x)) {s : Builder × List ScriptError} (hs : ∀ e ∈ s.2, e.IsLate) :
    ∀ e ∈ (xs.foldl (fun s x => attempt (step x) s) s).2, e.IsLate := by
  induction xs generalizing s with
  | nil => exact hs
  | cons x xs ih =>
    rw [List.foldl_cons]
    apply ih
    rw [attempt]
    cases hstep : step x s.1 with
    | ok r b => exact hs
    | error d b =>
      intro e he
      rcases List.mem_append.mp he with he | he
      · exact hs e he
      · rw [List.mem_singleton.mp he]
        exact h x s.1 d b hstep

end Builder

theorem Definition.late_ofSurvey? {a : Arena} {s : Survey} {es : List ScriptError}
    (h : ofSurvey? a s = .error es) : ∀ e ∈ es, e.IsLate := by
  have hadded : ∀ e ∈ ((Builder.ofArena a).addSurvey s).2, e.IsLate := by
    refine Builder.late_foldl (fun entry : NodeId × Candidate =>
      Builder.late_addParameter (c := entry.2) entry.1) ?_
    exact Builder.late_foldl (fun entry : Role × Candidate =>
      Builder.late_add (c := entry.2) entry.1) nofun
  rw [ofSurvey?] at h
  rcases hb : (Builder.ofArena a).addSurvey s with ⟨b, errors⟩
  rw [hb] at h hadded
  cases errors with
  | cons d ds =>
    obtain rfl := Except.error.inj h
    exact hadded
  | nil =>
    have hbuild : Late Builder.build := by
      unfold Builder.build
      grind [Builder.late_ensureOpen]
    dsimp only at h
    split at h
    · exact absurd h nofun
    · rename_i d b' hd
      obtain rfl := Except.error.inj h
      intro e he
      rw [List.mem_singleton.mp he]
      exact hbuild b d b' hd

namespace Resolver
open Target (Reading)

instance : Telling Gathering where
  Tells E x := ∀ notes, (∀ e ∈ notes.errors, E e) → ∀ e ∈ (x notes).2.errors, E e
  tells_pure _ _ _ h := h
  tells_bind hx hf notes h := hf _ _ (hx notes h)

variable {r : Resolver}

theorem late_noting {α : Type} {x : Reading α} (h : Late x) : Late (noting x) := by
  intro notes hnotes e he
  rw [noting] at he
  cases hr : x.run notes.warnings with
  | ok a ws =>
    rw [hr] at he
    exact hnotes e he
  | error d ws =>
    rw [hr] at he
    rcases List.mem_append.mp he with he | he
    · exact hnotes e he
    · rw [List.mem_singleton.mp he]
      exact h _ _ _ hr

theorem late_element (id : ElementId) : Late (r.element id) := by
  unfold element
  grind [ScriptError.IsLate]

theorem late_textSlot (id : ElementId) (name : String) : Late (r.textSlot id name) := by
  unfold textSlot
  grind [late_element, Target.late_argumentsOf, Target.late_textOf]

theorem late_targetOf (scope? : Option String) (id : ElementId) : Late (r.targetOf scope? id) := by
  unfold targetOf
  grind [late_element, Target.late_ofElement]

theorem late_filterMapM {α β : Type} {f : α → Gathering (Option β)} {xs : List α}
    (h : ∀ x, Late (f x)) : Late (xs.filterMapM f) := by
  induction xs with
  | nil => exact .pure _
  | cons x xs ih =>
    rw [List.filterMapM_cons]
    refine .bind (h x) fun o => ?_
    cases o with
    | none => exact ih
    | some y => exact .bind ih fun ys => .pure _

theorem late_siteTargets (site : InjectionSite) : Late (r.siteTargets site) := by
  rw [siteTargets]
  refine .bind (late_noting (late_textSlot _ _)) fun o => ?_
  split
  · exact late_filterMapM fun id => late_noting (late_targetOf _ _)
  · exact .pure _

theorem late_checkLifecycle (id : ElementId) : Late (r.checkLifecycle id) := by
  have hread : Late (do
      let e ← (r.element id : Except ScriptError _)
      Target.argumentsOf r.strict r.definition.arena e : Reading Target.Arguments) := by
    grind [late_element, Target.late_argumentsOf]
  exact .bind (late_noting hread) fun _ => .pure _

theorem late_gather : Late r.gather := by
  rw [gather]
  refine .bind (.mapM late_siteTargets) fun _ => ?_
  refine .bind (late_filterMapM fun id => late_noting (late_targetOf _ _)) fun _ => ?_
  refine .bind (.forM fun id => ?_) fun _ => .bind (.forM late_checkLifecycle) fun _ => .pure _
  exact .bind (late_noting (late_textSlot _ _)) fun _ => .pure _

theorem late_targets {es : List ScriptError} (h : r.targets.1 = .error es) :
    ∀ e ∈ es, e.IsLate := by
  have hgather : ∀ e ∈ (r.gather.run {}).2.errors, e.IsLate := late_gather {} nofun
  unfold targets at h
  generalize r.gather.run {} = g at h hgather
  obtain ⟨found, notes⟩ := g
  dsimp only at h
  split at h
  · exact absurd h nofun
  · obtain rfl := Except.error.inj h
    exact hgather

theorem late_resolve {find : ProviderKey → Option String → Option ProviderHandle}
    {es : List ScriptError} (h : (r.resolve find).1 = .error es) : ∀ e ∈ es, e.IsLate := by
  have htargets := @late_targets r
  rw [resolve] at h
  generalize r.targets = targets at h htargets
  obtain ⟨ds | ts, ws⟩ := targets
  · obtain rfl := Except.error.inj h
    exact htargets rfl
  · dsimp only at h
    split at h
    · exact absurd h nofun
    · obtain rfl := Except.error.inj h
      intro e he
      rw [List.mem_singleton.mp he]
      exact nofun

end Resolver

namespace Entrypoints

theorem late_ofResolver (r : Resolver) : Late (ofResolver r) := by
  have hsite (site : InjectionSite) : Late (siteEntry r site) := by
    unfold siteEntry Resolver.siteScope
    grind [Resolver.late_textSlot]
  unfold ofResolver Resolver.templateName
  grind [Resolver.late_textSlot]

end Entrypoints

namespace Injection

variable {inj : Injection} {a : Arena} {k : Copier}

theorem late_add (n : Node NodeId) (span : Option Span) : Late (Copying.add n span) := by
  unfold Copying.add
  grind

theorem late_addNew (n : Node NodeId) : Late (Copying.addNew n) := late_add n none

theorem late_call (f : Fetch) : Late (inj.call f) := by
  unfold call context
  grind [late_addNew]

theorem late_mapM_option {α β : Type} {f : α → Copying β} {o : Option α} (h : ∀ x, Late (f x)) :
    Late (o.mapM f) := by
  cases o with
  | none => exact .pure _
  | some x => exact .bind (h x) fun y => .pure _

theorem late_mapM_node {f : NodeId → Copying NodeId} (h : ∀ x, Late (f x)) (n : Node NodeId) :
    Late (n.mapM f) := by
  rw [Node.mapM_eq, map_eq_pure_bind]
  exact .bind (.mapM h) fun _ => .pure _

variable (hcopy : ∀ id, Late (k.copy id)) (hrebuild : ∀ id, Late (k.rebuild id))
include hcopy

theorem late_keptAttributes (attributes : List NodeId) :
    Late (keptAttributes a k attributes) := .mapM hcopy

theorem late_applyFetch (f : Fetch) (id : NodeId) (n : Node NodeId) :
    Late (inj.applyFetch a k f id n) := by
  unfold applyFetch
  grind [late_call, late_add, late_addNew, late_keptAttributes]

include hrebuild

theorem late_rootParams (params? : Option NodeId) : Late (inj.rootParams a k params?) := by
  unfold rootParams
  refine .bind (.bind (late_addNew _) fun name => late_addNew _) fun context => ?_
  split
  · exact late_addNew _
  · refine .bind (.arena_copying _) fun n => ?_
    split
    · exact .bind (late_keptAttributes hcopy _) fun _ => .bind (.mapM hcopy) fun _ => late_add _ _
    · exact hrebuild _

theorem late_strip (id : NodeId) (n : Node NodeId) : Late (inj.strip a k id n) := by
  unfold strip
  grind [late_add, late_rootParams, late_keptAttributes, late_mapM_option]

omit hcopy hrebuild

theorem late_rebuildWith {copy : NodeId → Copying NodeId} (h : ∀ id, Late (copy id)) (id : NodeId) :
    Late (Replacement.rebuildWith a copy id) :=
  .bind (.arena_copying _) fun n => .bind (late_mapM_node h n) fun _ => late_add _ _

theorem late_copyUpTo (depth : Nat) (id : NodeId) :
    Late (inj.replacement.copyUpTo a depth id) := by
  induction depth generalizing id with
  | zero => exact .throw_copying fun _ he => by cases he
  | succ depth ih =>
    have hrebuild := @late_rebuildWith a _ ih
    have hreplace (n : Node NodeId) : Late (inj.replacement.replace a
        ⟨inj.replacement.copyUpTo a depth, Replacement.rebuildWith a (inj.replacement.copyUpTo a depth)⟩
        id n) := by
      dsimp only [replacement]
      split
      · exact late_applyFetch ih _ _ _
      · exact late_strip ih hrebuild _ _
    rw [Replacement.copyUpTo]
    grind

theorem late_apply : Late (inj.apply a) := by
  have hrun (root : NodeId) : Late ((inj.replacement.copyUpTo a a.depthBound root).run {}) :=
    late_copyUpTo a.depthBound root {}
  unfold apply Replacement.apply
  grind

end Injection

namespace Source

variable {a : Arena} {emit : NodeId → Printed}

section
variable (h : ∀ id, Late (emit id))
include h

theorem late_joined (separator : String) (ids : List NodeId) : Late (joined emit separator ids) := by
  unfold joined
  grind

theorem late_optional (lead : String) (id? : Option NodeId) : Late (optional emit lead id?) := by
  unfold optional
  grind

theorem late_statementLines (ids : List NodeId) : Late (statementLines emit ids) := by
  unfold statementLines
  grind

theorem late_ofNode (id : NodeId) (n : Node NodeId) : Late (ofNode a emit id n) := by
  have haccess (target : NodeId) (b : Bool) : Late (accessTarget a emit target b) := by
    unfold accessTarget
    grind
  have hmember (name : NodeId) : Late (memberName a emit name) := by
    unfold memberName
    grind
  have houter (target : NodeId) : Late (outerVariable a emit target) := by
    unfold outerVariable
    grind
  have hclause (word : String) (p : NodeId × NodeId) : Late (clause emit word p) := by
    unfold clause
    grind
  have hpair (p : NodeId × NodeId) : Late (pair emit p) := by
    unfold pair
    grind
  have hcaught (types : List NodeId) : Late (caught emit types) := by
    unfold caught
    grind [late_joined]
  have hparenthesized (ids : List NodeId) : Late (parenthesized emit ids) := by
    unfold parenthesized
    grind [late_joined]
  have hbraced (ids : List NodeId) : Late (bracedStatements emit ids) := by
    unfold bracedStatements
    grind [late_statementLines]
  have hscript (usings : List NodeId) (params : Option NodeId) (blocks : List NodeId) :
      Late (scriptBlock emit usings params blocks) := by
    unfold scriptBlock
    grind
  unfold ofNode
  split <;> grind [late_joined, late_optional, late_statementLines, ScriptError.IsLate]

end

theorem late_generateScript : Late (generateScript a) := by
  have hgenerate (depth : Nat) (id : NodeId) : Late (generateUpTo a depth id) := by
    induction depth generalizing id with
    | zero => exact .error nofun
    | succ depth ih => exact .bind (.arena _) fun n => late_ofNode ih id n
  exact .bind (.arena _) fun root => hgenerate _ root

end Source

/-- How many bytes the lines in front have. -/
def Script.preparedSize (source : String) (namespaces : List String) : Nat :=
  Text.size (prepare source namespaces).toList - Text.size source.toList

namespace Compiler

variable {α β : Type}

/-- All errors that the step fails with are late. -/
def FailsLate (x : Compiling α) : Prop :=
  ∀ ws es ws', x ws = .error (.errors es) ws' → ∀ e ∈ es, e.IsLate

namespace FailsLate

variable {x : Compiling α} {f : α → Compiling β}

theorem pure (a : α) : FailsLate (pure a) := nofun

theorem bind (hx : FailsLate x) (hf : ∀ a, FailsLate (f a)) : FailsLate (x >>= f) := by
  intro ws es ws' h
  change EStateM.bind x f ws = _ at h
  rw [EStateM.bind] at h
  cases hr : x ws with
  | ok a vs =>
    rw [hr] at h
    exact hf a vs es ws' h
  | error g vs =>
    rw [hr] at h
    obtain ⟨rfl, rfl⟩ := EStateM.Result.error.inj h
    exact hx ws es _ hr

theorem orErrors {x : Except (List ScriptError) α} (h : ∀ es, x = .error es → ∀ e ∈ es, e.IsLate) :
    FailsLate (orErrors x) := by
  rintro ws es ws' hx
  cases x with
  | ok a => exact absurd hx nofun
  | error ds =>
    obtain rfl := Failure.errors.inj (EStateM.Result.error.inj hx).1
    exact h ds rfl

theorem orError {x : Except ScriptError α} (h : Late x) : FailsLate (orError x) := by
  refine orErrors fun es hes => ?_
  cases x with
  | ok a => exact absurd hes nofun
  | error d =>
    obtain rfl := Except.error.inj hes
    intro e he
    rw [List.mem_singleton.mp he]
    exact h d rfl

theorem warn (ws : List Warning) : FailsLate (warn ws) := nofun

theorem reading {r : Target.Reading α} (h : Late r) : FailsLate (reading r) := by
  intro ws es ws' hr
  rw [Compiler.reading] at hr
  cases hrun : r.run ws with
  | ok a vs =>
    rw [hrun] at hr
    exact absurd hr nofun
  | error d vs =>
    rw [hrun] at hr
    obtain rfl := Failure.errors.inj (EStateM.Result.error.inj hr).1
    intro e he
    rw [List.mem_singleton.mp he]
    exact h _ _ _ hrun

end FailsLate

variable {c : Compiler} {source : String}

theorem late_mapError {x : Source.Printed} (h : Late x) {offset : Nat} :
    Late (x.mapError (shiftBack offset) : Source.Printed) := by
  cases x with
  | ok a => exact .ok a
  | error d =>
    have hd : d.IsLate := h d rfl
    refine .error ?_
    cases d with
    | parse cause => exact absurd rfl (hd cause)
    | _ => exact nofun

/-- After the text has been read, nothing is said about how it is written. -/
theorem compileStep_error {ws ws' : List Warning} {es : List ScriptError}
    (h : c.compileStep source ws = .error (.errors es) ws') :
    parse (Script.preparedSize source c.config.namespaces)
        (Script.prepare source c.config.namespaces) ws = .error (.errors es) ws' ∨
      ∀ e ∈ es, e.IsLate := by
  change EStateM.bind (parse (Script.preparedSize source c.config.namespaces) _) _ ws = _ at h
  rw [EStateM.bind] at h
  cases hr : parse (Script.preparedSize source c.config.namespaces)
      (Script.prepare source c.config.namespaces) ws with
  | error f vs =>
    rw [hr] at h
    obtain ⟨rfl, rfl⟩ := EStateM.Result.error.inj h
    exact .inl rfl
  | ok a vs =>
    rw [hr] at h
    refine .inr (FailsLate.bind (.orError Survey.late_ofArena?) (fun survey => ?_) vs es ws' h)
    refine .bind (.warn _) fun _ => .bind (.orErrors fun _ => Definition.late_ofSurvey?) fun d => ?_
    refine .bind (.warn _) fun _ => .bind (.orErrors fun _ => Resolver.late_resolve) fun bindings => ?_
    refine .bind (.reading (Entrypoints.late_ofResolver _)) fun entrypoints => ?_
    refine .bind (.orError Injection.late_apply) fun output => .bind (.orError ?_) fun _ => .pure _
    exact late_mapError Source.late_generateScript

theorem compile_fst (c : Compiler) (source : String) : (c.compile source).1 =
    match c.compileStep source [] with
    | .ok compiled _ => .ok compiled
    | .error f _ => .error f := by
  rw [compile, EStateM.run]
  cases c.compileStep source [] <;> rfl

theorem parse_eq_error_iff {offset : Nat} {text : String} {e : ParseError}
    {ws ws' : List Warning} : parse offset text ws = .error (.errors [.parse e]) ws' ↔
      ws' = ws ∧ ∃ d, Script.parse text = .error (.refused d) ∧ d.shiftBack offset = e := by
  constructor
  · intro h
    rw [parse] at h
    cases hd : Script.parse text with
    | ok a =>
      rw [hd] at h
      exact absurd h nofun
    | error d =>
      rw [hd] at h
      cases d with
      | refused d =>
        obtain ⟨hf, rfl⟩ := EStateM.Result.error.inj h
        injection hf with hf
        injection hf with hf
        injection hf with hf
        exact ⟨rfl, d, rfl, hf⟩
      | cut => exact absurd (EStateM.Result.error.inj h).1 nofun
      | stalled => exact absurd (EStateM.Result.error.inj h).1 nofun
  · rintro ⟨rfl, d, hd, rfl⟩
    rw [parse, hd]
    rfl

/-- Compiling tells an error of the text exactly where reading the prepared text does. -/
theorem compile_eq_parse_iff (c : Compiler) (source : String) (e : ParseError) :
    (c.compile source).1 = .error (.errors [.parse e]) ↔
      ∃ d, Script.parse (Script.prepare source c.config.namespaces) = .error (.refused d) ∧
        d.shiftBack (Script.preparedSize source c.config.namespaces) = e := by
  rw [compile_fst]
  constructor
  · intro h
    cases hstep : c.compileStep source [] with
    | ok compiled ws =>
      rw [hstep] at h
      exact absurd h nofun
    | error f ws =>
      rw [hstep] at h
      obtain rfl := Except.error.inj h
      rcases compileStep_error hstep with hparse | hlate
      · exact (parse_eq_error_iff.mp hparse).2
      · exact absurd rfl (hlate _ (by simp) e)
  · intro h
    have hparse := parse_eq_error_iff.mpr ⟨@rfl _ ([] : List Warning), h⟩
    have hstep : c.compileStep source [] = .error (.errors [.parse e]) [] := by
      change EStateM.bind (parse (Script.preparedSize source c.config.namespaces) _) _ [] = _
      rw [EStateM.bind, hparse]
    rw [hstep]

end Compiler

end ScriptInject
