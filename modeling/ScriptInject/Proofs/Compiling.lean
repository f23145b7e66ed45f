import ScriptInject.Proofs.Accounting
import ScriptInject.Proofs.Counting
import ScriptInject.Proofs.Generating
import ScriptInject.Proofs.Injecting
import ScriptInject.Proofs.Resolving
import ScriptInject.Proofs.Telling
/-! Why compiling fails: for what the author of a script can mend, or for want of ids. -/
namespace ScriptInject.Compiler

variable {α β : Type} {c : Compiler} {source : String}

/-- A script in which everything that it asks for has been found. -/
structure Resolved (c : Compiler) (source : String) where
  arena : Arena
  tree : Tree NodeId
  survey : Survey
  definition : Definition
  bindings : List Binding
  parsed : Script.parse (Script.prepare source c.config.namespaces) = .ok arena
  root : arena.root? = some tree.label
  holds : arena.Holds tree
  surveyed : Survey.ofArena? arena = .ok survey
  defined : Definition.ofSurvey? arena survey = .ok definition
  resolved : (Resolver.resolve ⟨definition, c.config.strictArguments⟩ c.find).1 = .ok bindings

namespace Resolved

variable (r : c.Resolved source)

def resolver : Resolver := ⟨r.definition, c.config.strictArguments⟩

def injection : Injection :=
  .ofBindings r.definition r.bindings c.config.contextVariable c.config.namespaces

/-- How many nodes the script has with its calls in place. -/
def size : Nat := (r.injection.injected r.tree).size

/-- Rewriting a script in which everything has been found gives what has a source text. It fails
for want of ids only. -/
theorem apply_cases : match r.injection.apply r.arena with
    | .ok output => r.size < Arena.idLimit ∧ Source.Works (Source.generateScript output)
    | .error e => e = .arena .full ∧ Arena.idLimit ≤ r.size := by
  obtain ⟨t, ht⟩ := Script.reads_of_parseWithin r.parsed
  obtain ⟨u, hu⟩ := Script.forms_of_parseWithin r.parsed
  obtain rfl : t = r.tree := ht.holds.unique r.holds (Option.some.inj (ht.root.symm.trans r.root))
  obtain rfl : u = r.tree := hu.holds.unique r.holds (Option.some.inj (hu.root.symm.trans r.root))
  have hsound := Definition.sound_of_ofSurvey? r.defined (Survey.found_of_ofArena? r.surveyed)
  have hsuits : ∀ s ∈ r.tree.subtrees, r.injection.Suits s.label s.node :=
    fun s hs => Injection.suits_ofBindings hsound r.holds r.root ht.parsed.fits hs
  have hplaced : r.tree.All Tree.MarksPlaced := ht.parsed.fits.marksPlaced
  have hsize : r.size = (r.injection.rewrite r.tree).size := by
    rw [size, Injection.injected_eq_rewrite hsuits hplaced]
  have happly := @Injection.apply_reads r.arena r.injection r.tree ht.tidy r.holds r.root
  have hcount := Injection.size_of_apply ht.tidy r.holds r.root hsuits hplaced
  rw [hsize]
  cases hout : r.injection.apply r.arena with
  | error e =>
    rw [hout] at happly hcount
    exact ⟨happly, hcount⟩
  | ok output =>
    rw [hout] at happly hcount
    obtain ⟨y, hroot, hheld, htidy, -, hspans⟩ := happly
    have hread : r.tree.Whole := hu.proper.mono fun n hn => hn.whole rfl
    have hwhole : (r.injection.rewrite r.tree).Whole :=
      Injection.rewrite_whole hsuits hread r.tree r.tree.self_mem_subtrees
    rw [← Tree.whole_map r.arena.sourceSpan, ← hspans, Tree.whole_map] at hwhole
    exact ⟨hcount, Source.works_generateScript hheld hroot hwhole⟩

/-- What the host is told of a script in which everything has been found can be told. -/
theorem succeeds_entrypoints : Resolver.Succeeds (Entrypoints.ofResolver r.resolver) := by
  obtain ⟨t, ht⟩ := Script.reads_of_parseWithin r.parsed
  have hsound := Definition.sound_of_ofSurvey? r.defined (Survey.found_of_ofArena? r.surveyed)
  have hresolve := @Resolver.resolve_mendable r.arena r.resolver ht.tidy hsound c.find
  rw [show (r.resolver.resolve c.find).1 = _ from r.resolved] at hresolve
  exact Entrypoints.succeeds_ofResolver hresolve

end Resolved

/-! Runs of steps, their warnings left out. -/

/-- What compiling gives or fails with. -/
def outcome : EStateM.Result Failure (List Warning) α → Except Failure α
  | .ok v _ => .ok v
  | .error f _ => .error f

theorem compile_eq_outcome (c : Compiler) (source : String) :
    (c.compile source).1 = outcome (c.compileStep source []) := by
  rw [compile_fst]
  cases c.compileStep source [] <;> rfl

/-- A failure to read the prepared text, told by its place in the source. -/
def unparsed (offset : Nat) : Grammar.Failure → Failure
  | .refused e => .errors [.parse (e.shiftBack offset)]
  | f => .unread f

section
variable {x : Except (List ScriptError) α} {f : α → Compiling β} {v : α} {es : List ScriptError}
  {y : Except ScriptError α} {e : ScriptError} {ws : List Warning}

theorem orErrors_ok (h : x = .ok v) : outcome ((orErrors x >>= f) ws) = outcome (f v ws) := by
  rw [h]
  rfl

theorem orErrors_error (h : x = .error es) :
    outcome ((orErrors x >>= f) ws) = .error (.errors es) := by
  rw [h]
  rfl

theorem orError_ok (h : y = .ok v) : outcome ((orError y >>= f) ws) = outcome (f v ws) := by
  rw [h]
  rfl

theorem orError_error (h : y = .error e) :
    outcome ((orError y >>= f) ws) = .error (.errors [e]) := by
  rw [h]
  rfl

theorem reading_ok {r : Target.Reading α} {ws' : List Warning} (h : r ws = .ok v ws') :
    outcome ((reading r >>= f) ws) = outcome (f v ws') := by
  change outcome (EStateM.bind (reading r) f ws) = _
  rw [EStateM.bind, reading, EStateM.run, h]

theorem parse_ok {offset : Nat} {text : String} {a : Arena} {f : Arena → Compiling β}
    (h : Script.parse text = .ok a) :
    outcome ((parse offset text >>= f) ws) = outcome (f a ws) := by
  rw [parse, h]
  rfl

theorem parse_error {offset : Nat} {text : String} {g : Grammar.Failure} {f : Arena → Compiling β}
    (h : Script.parse text = .error g) :
    outcome ((parse offset text >>= f) ws) = .error (unparsed offset g) := by
  rw [parse, h]
  cases g <;> rfl

end

/-- What is left to be done once everything has been found. -/
def Resolved.rest (r : c.Resolved source) : Compiling Compiled := do
  let entrypoints ← reading (Entrypoints.ofResolver r.resolver)
  let output ← orError (r.injection.apply r.arena)
  let text ← orError ((Source.generateScript output).mapError
    (shiftBack (Script.preparedSize source c.config.namespaces)))
  return ⟨text, entrypoints, r.bindings⟩

theorem Resolved.compile_eq (r : c.Resolved source) :
    ∃ ws, (c.compile source).1 = outcome (r.rest ws) := by
  refine ⟨[] ++ r.survey.warnings ++
    (Resolver.resolve ⟨r.definition, c.config.strictArguments⟩ c.find).2, ?_⟩
  rw [compile_eq_outcome, compileStep]
  refine (parse_ok r.parsed).trans ((orError_ok r.surveyed).trans ?_)
  exact (orErrors_ok r.defined).trans (orErrors_ok r.resolved)

/-- Compiling ends early for what the author can mend, or everything has been found. -/
theorem compile_cases (c : Compiler) (source : String) :
    (∃ f, Script.parse (Script.prepare source c.config.namespaces) = .error f ∧
      (c.compile source).1 =
        .error (unparsed (Script.preparedSize source c.config.namespaces) f)) ∨
    (∃ es, es ≠ [] ∧ (∀ e ∈ es, e.IsMendable) ∧ (c.compile source).1 = .error (.errors es)) ∨
    Nonempty (c.Resolved source) := by
  rw [compile_eq_outcome, compileStep]
  cases hparse : Script.parse (Script.prepare source c.config.namespaces) with
  | error f => exact .inl ⟨f, rfl, parse_error hparse⟩
  | ok a =>
    obtain ⟨t, ht⟩ := Script.forms_of_parseWithin hparse
    have hsurvey := Survey.ofArena?_eq ht.tidy ht.holds ht.root
      (ht.proper.mono fun _ hn => hn.toMarksPlaced) ht.nodup
    generalize ({} : Survey).plus a (t.positions t.label .free) = survey at hsurvey
    have hfound := Definition.sound_or_isConflict (Survey.found_of_ofArena? hsurvey)
    refine .inr ?_
    cases hdefinition : Definition.ofSurvey? a survey with
    | error es =>
      rw [hdefinition] at hfound
      refine .inl ⟨es, hfound.1, fun e he => (hfound.2 e he).isMendable, ?_⟩
      exact (parse_ok hparse).trans ((orError_ok hsurvey).trans (orErrors_error hdefinition))
    | ok d =>
      rw [hdefinition] at hfound
      have hresolve := @Resolver.resolve_mendable a ⟨d, c.config.strictArguments⟩ ht.tidy hfound
        c.find
      cases hbindings : (Resolver.resolve ⟨d, c.config.strictArguments⟩ c.find).1 with
      | error es =>
        rw [hbindings] at hresolve
        refine .inl ⟨es, hresolve.1, hresolve.2, ?_⟩
        exact (parse_ok hparse).trans ((orError_ok hsurvey).trans
          ((orErrors_ok hdefinition).trans (orErrors_error hbindings)))
      | ok bindings =>
        exact .inr ⟨⟨a, t, survey, d, bindings, hparse, ht.root, ht.holds, hsurvey, hdefinition,
          hbindings⟩⟩

/-- Once everything has been found, only a want of ids keeps a script from being compiled. -/
theorem Resolved.rest_cases (r : c.Resolved source) :
    ∃ entrypoints, (∀ ws, ∃ ws', Entrypoints.ofResolver r.resolver ws = .ok entrypoints ws') ∧
      ((∃ output text, r.size < Arena.idLimit ∧ r.injection.apply r.arena = .ok output ∧
        Source.generateScript output = .ok text ∧
        (c.compile source).1 = .ok ⟨text, entrypoints, r.bindings⟩) ∨
      Arena.idLimit ≤ r.size ∧ (c.compile source).1 = .error (.errors [.arena .full])) := by
  obtain ⟨entrypoints, hentrypoints⟩ := r.succeeds_entrypoints
  obtain ⟨ws, hcompile⟩ := r.compile_eq
  obtain ⟨ws', hrun⟩ := hentrypoints ws
  have happly := r.apply_cases
  refine ⟨entrypoints, hentrypoints, ?_⟩
  rw [hcompile, rest]
  cases hout : r.injection.apply r.arena with
  | error e =>
    rw [hout] at happly
    obtain ⟨rfl, hsize⟩ := happly
    exact .inr ⟨hsize, (reading_ok hrun).trans (orError_error rfl)⟩
  | ok output =>
    rw [hout] at happly
    obtain ⟨hsize, text, htext⟩ := happly
    have hshifted : (Source.generateScript output).mapError
        (shiftBack (Script.preparedSize source c.config.namespaces)) = .ok text := by
      rw [htext]
      rfl
    exact .inl ⟨output, text, hsize, rfl, htext,
      (reading_ok hrun).trans ((orError_ok rfl).trans (orError_ok hshifted))⟩

/-- Compiling fails for what the author of the script can mend, and always tells why. There are two
exceptions: the reading of the text can be cut off, which gives no script to compile, and the
rewritten script can have more nodes than there are ids. Once everything has been found that a
script asks for, and the rewritten script has few enough nodes, nothing fails any more. -/
theorem compile_mendable (c : Compiler) (source : String) :
    (match (c.compile source).1 with
      | .ok _ => True
      | .error (.unread cause) =>
        cause = .cut ∧ Script.parse (Script.prepare source c.config.namespaces) = .error .cut
      | .error (.errors es) => es ≠ [] ∧ ((∀ e ∈ es, e.IsMendable) ∨
        es = [.arena .full] ∧ ∃ r : c.Resolved source, Arena.idLimit ≤ r.size)) ∧
    ∀ r : c.Resolved source, r.size < Arena.idLimit → ∃ entrypoints output text,
      (∀ ws, ∃ ws', Entrypoints.ofResolver r.resolver ws = .ok entrypoints ws') ∧
        r.injection.apply r.arena = .ok output ∧ Source.generateScript output = .ok text ∧
        (c.compile source).1 = .ok ⟨text, entrypoints, r.bindings⟩ := by
  constructor
  · rcases compile_cases c source with ⟨f, hparse, hcompile⟩ | ⟨es, hne, hmend, hcompile⟩ | ⟨⟨r⟩⟩
    · rw [hcompile]
      cases f with
      | refused e => exact ⟨List.cons_ne_nil _ _, .inl fun d hd => by
          rw [List.mem_singleton.mp hd]; trivial⟩
      | cut => exact ⟨rfl, hparse⟩
      | stalled => exact absurd hparse Script.parseWithin_ne_stalled
    · rw [hcompile]
      exact ⟨hne, .inl hmend⟩
    · obtain ⟨entrypoints, -, ⟨output, text, -, -, -, hcompile⟩ | ⟨hsize, hcompile⟩⟩ :=
        r.rest_cases
      · rw [hcompile]
        trivial
      · rw [hcompile]
        exact ⟨List.cons_ne_nil _ _, .inr ⟨rfl, r, hsize⟩⟩
  · intro r hfits
    obtain ⟨entrypoints, hentrypoints, ⟨output, text, -, hout, htext, hcompile⟩ | ⟨hsize, -⟩⟩ :=
      r.rest_cases
    · exact ⟨entrypoints, output, text, hentrypoints, hout, htext, hcompile⟩
    · exact absurd hfits (Nat.not_lt.mpr hsize)

end ScriptInject.Compiler
