import ScriptInject.Proofs.Compiling
import ScriptInject.Proofs.Targeting
/-! A registry that grows serves whatever it served before, though perhaps from another provider. So
a script that compiled compiles again, and no binding loses its provider. -/
namespace ScriptInject

/-- How a registry answers. -/
abbrev Finder := ProviderKey → Option String → Option ProviderHandle

/-- Whatever the first serves, the second serves too. -/
def Finder.Within (find find' : Finder) : Prop :=
  ∀ key scope, (find key scope).isSome = true → (find' key scope).isSome = true

theorem eq_ok_of_toOption {ε α : Type} {x : Except ε α} {v : α} (h : x.toOption = some v) :
    x = .ok v := by
  cases x with
  | error e => exact absurd h (by simp [Except.toOption])
  | ok w => exact congrArg Except.ok (Option.some.inj h)

namespace Registry

variable {p : Provider} {r : Registry}

theorem replaceFirst_eq_append {old : Provider → Bool} {ps : List Provider}
    (h : ∀ q ∈ ps, ¬ old q = true) : replaceFirst old p ps = ps ++ [p] := by
  induction ps with
  | nil => rfl
  | cons q ps ih =>
    rw [replaceFirst, if_neg (h q List.mem_cons_self),
      ih fun q' hq' => h q' (List.mem_cons_of_mem q hq'), List.cons_append]

/-- What is found in a scope is still found after a new entry, which comes last. -/
theorem lookupIn_register_new (hnew : ∀ q ∈ r.providers, ¬ q.sameEntry p = true) {key : ProviderKey}
    {scope : Option String} {q : Provider} (hq : r.lookupIn key scope = some q) :
    (r.register p).lookupIn key scope = some q := by
  rw [lookupIn] at hq
  rw [lookupIn, register, replaceFirst_eq_append hnew, List.find?_append, hq, Option.some_or]

/-- A new entry in a scope can win over the global one that was found before. The key is served in
either case. -/
theorem resolve_within_register (hnew : ∀ q ∈ r.providers, ¬ q.sameEntry p = true) :
    Finder.Within r.resolve (r.register p).resolve := by
  intro key scope hserved
  rw [resolve_eq, Option.isSome_map, Option.isSome_or] at hserved ⊢
  rcases Bool.or_eq_true_iff.mp hserved with hscoped | hglobal
  · obtain ⟨q, hq⟩ := Option.isSome_iff_exists.mp hscoped
    obtain ⟨s, rfl, hq⟩ := Option.bind_eq_some_iff.mp hq
    rw [Option.bind_some, lookupIn_register_new hnew hq]
    rfl
  · obtain ⟨q, hq⟩ := Option.isSome_iff_exists.mp hglobal
    rw [lookupIn_register_new hnew hq, Option.isSome_some, Bool.or_true]

end Registry

/-- The same element asks for the same, and is served if it was. -/
structure Binding.Kept (b b' : Binding) : Prop where
  element : b'.element = b.element
  target : b'.target = b.target
  resolved : b.isResolved = true → b'.isResolved = true

namespace Resolver

variable {find find' : Finder} {ts : List (ElementId × Target)} {bindings : List Binding}

theorem settled_within (hfind : find.Within find') {t : Target} (h : Settled find t = true) :
    Settled find' t = true := by
  rw [Settled, Bool.or_eq_true_iff] at h ⊢
  exact h.imp_right (hfind _ _)

/-- Looking up in what serves more fails for nothing new. -/
theorem outcome_within (hfind : find.Within find') (h : outcome find ts = .ok bindings) :
    ∃ bindings', outcome find' ts = .ok bindings' ∧
      List.Forall₂ Binding.Kept bindings bindings' := by
  unfold outcome at h
  split at h
  · rename_i hsettled
    refine ⟨_, if_pos fun p hp => settled_within hfind (hsettled p hp), ?_⟩
    rw [← Except.ok.inj h, List.forall₂_map_left_iff, List.forall₂_map_right_iff,
      List.forall₂_same]
    exact fun p _ => ⟨rfl, rfl, hfind _ _⟩
  · simp at h

theorem resolve_within {r : Resolver} (hfind : find.Within find')
    (h : (r.resolve find).1 = .ok bindings) :
    ∃ bindings', (r.resolve find').1 = .ok bindings' ∧
      List.Forall₂ Binding.Kept bindings bindings' := by
  cases htargets : r.targets.1 with
  | error es =>
    rw [resolve_of_targets_error htargets] at h
    simp at h
  | ok ts =>
    rw [resolve_of_targets htargets] at h ⊢
    exact outcome_within hfind h

end Resolver

namespace Compiler

variable {find find' : Finder} {config : Config} {source : String} {compiled : Compiled}

/-- Where everything was found, more that is served changes bindings only: the script, the
definition and what the host is told of it stay. -/
theorem Resolved.within (hfind : find.Within find')
    (r : Resolved ⟨find, config⟩ source) : ∃ r' : Resolved ⟨find', config⟩ source,
      r'.resolver = r.resolver ∧ List.Forall₂ Binding.Kept r.bindings r'.bindings := by
  obtain ⟨bindings', hresolved, hkept⟩ := Resolver.resolve_within hfind r.resolved
  exact ⟨{ r with bindings := bindings', resolved := hresolved }, rfl, hkept⟩

/-- A script that is compiled is one in which everything was found. -/
theorem resolved_of_compile {c : Compiler} (h : (c.compile source).1 = .ok compiled) :
    ∃ r : c.Resolved source, r.bindings = compiled.bindings ∧
      Target.Yields (Entrypoints.ofResolver r.resolver) compiled.entrypoints := by
  rcases compile_cases c source with ⟨f, -, hfails⟩ | ⟨es, -, -, hfails⟩ | ⟨⟨r⟩⟩
  · exact absurd (h.symm.trans hfails) (by simp)
  · exact absurd (h.symm.trans hfails) (by simp)
  · obtain ⟨entrypoints, htold, ⟨output, text, -, -, -, hcompile⟩ | ⟨-, hfails⟩⟩ := r.rest_cases
    · obtain rfl := Except.ok.inj (h.symm.trans hcompile)
      exact ⟨r, rfl, htold⟩
    · exact absurd (h.symm.trans hfails) (by simp)

/-- What comes of a script that was compiled before: it is compiled again, with the same to tell its
host and no binding worse off, or its calls need more ids than there are. -/
inductive Kept (c : Compiler) (source : String) (compiled : Compiled) : Prop
  | compiled {compiled' : Compiled} (h : (c.compile source).1 = .ok compiled')
    (entrypoints : compiled'.entrypoints = compiled.entrypoints)
    (bindings : List.Forall₂ Binding.Kept compiled.bindings compiled'.bindings)
  | full (h : (c.compile source).1 = .error (.errors [.arena .full])) (r : c.Resolved source)
    (hsize : Arena.idLimit ≤ r.size)

theorem compile_within (hfind : find.Within find')
    (h : ((⟨find, config⟩ : Compiler).compile source).1 = .ok compiled) :
    Kept ⟨find', config⟩ source compiled := by
  obtain ⟨r, hbindings, htold⟩ := resolved_of_compile h
  obtain ⟨r', hresolver, hkept⟩ := r.within hfind
  obtain ⟨entrypoints, htold', ⟨output, text, -, -, -, hcompile⟩ | ⟨hsize, hfails⟩⟩ :=
    r'.rest_cases
  · exact .compiled hcompile ((hresolver ▸ htold' : Target.Yields _ _).unique htold)
      (hbindings ▸ hkept)
  · exact .full hfails r' hsize

/-- Whatever provider is registered under a new name and scope, a script that compiled before
compiles still, and what was bound to a provider is bound to one. -/
theorem compile_register {r : Registry} {p : Provider}
    (hnew : ∀ q ∈ r.providers, ¬ q.sameEntry p = true)
    (h : ((⟨r.resolve, config⟩ : Compiler).compile source).1 = .ok compiled) :
    Kept ⟨(r.register p).resolve, config⟩ source compiled :=
  compile_within (Registry.resolve_within_register hnew) h

/-- A provider in the scope of a site wins over the global one of the same name. -/
theorem compile_register_scoped : ∃ (r : Registry) (p : Provider) (config : Config)
    (source : String) (compiled compiled' : Compiled),
      (∀ q ∈ r.providers, ¬ q.sameEntry p = true) ∧
      ((⟨r.resolve, config⟩ : Compiler).compile source).1 = .ok compiled ∧
      ((⟨(r.register p).resolve, config⟩ : Compiler).compile source).1 = .ok compiled' ∧
      compiled.providers = ["A"] ∧ compiled'.providers = ["a"] ∧
      Kept ⟨(r.register p).resolve, config⟩ source compiled := by
  have hnew : ∀ q ∈ (⟨[⟨"A", none, [], .singleton⟩]⟩ : Registry).providers,
    ¬ q.sameEntry ⟨"a", some "J", [], .transient⟩ = true := by decide
  have hok : ((((⟨Registry.resolve ⟨[⟨"A", none, [], .singleton⟩]⟩, { namespaces := [] }⟩ :
      Compiler).compile "function F\x7b[InjectionSite('J')]param([Inject()]$a)\x7d").1.toOption.any
      fun c => c.providers == ["A"]) &&
    ((⟨(Registry.register ⟨[⟨"A", none, [], .singleton⟩]⟩ ⟨"a", some "J", [], .transient⟩).resolve,
      { namespaces := [] }⟩ : Compiler).compile
      "function F\x7b[InjectionSite('J')]param([Inject()]$a)\x7d").1.toOption.any
      fun c => c.providers == ["a"]) = true := by decide +kernel
  obtain ⟨hglobal, hscoped⟩ := Bool.and_eq_true_iff.mp hok
  obtain ⟨compiled, hcompiled, hA⟩ := (Option.any_eq_true _ _).mp hglobal
  obtain ⟨compiled', hcompiled', ha⟩ := (Option.any_eq_true _ _).mp hscoped
  have hbefore := eq_ok_of_toOption hcompiled
  exact ⟨_, _, _, _, compiled, compiled', hnew, hbefore, eq_ok_of_toOption hcompiled',
    eq_of_beq hA, eq_of_beq ha, compile_register hnew hbefore⟩

end Compiler

end ScriptInject
