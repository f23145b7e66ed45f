import Mathlib.Data.List.Basic
import Mathlib.Data.List.Induction
import ScriptInject.Provider
/-! A registry is a map from names and scopes. It holds the last registration of each entry, where the
entry was first registered. -/
namespace ScriptInject

variable {p q : Provider} {ps : List Provider} {r : Registry}

theorem eraseDups_concat {α : Type} [BEq α] [LawfulBEq α] (xs : List α) (x : α) :
    (xs ++ [x]).eraseDups = if x ∈ xs then xs.eraseDups else xs.eraseDups ++ [x] := by
  simp only [List.eraseDups_append, List.removeAll, List.filter_singleton, List.elem_eq_mem]
  by_cases h : x ∈ xs
  · simp [h]
  · simp [h, List.eraseDups_cons]

/-- What a provider is registered under: its name, in small letters, and its scope. -/
abbrev Registry.Entry := String × Option String

def Provider.entry (p : Provider) : Registry.Entry := (Text.lower p.name, p.scope?)

theorem Provider.sameEntry_iff : p.sameEntry q = true ↔ p.entry = q.entry := by
  simp [sameEntry, entry, Text.caselessEq_iff]

theorem Provider.answers_name_iff {n : String} {scope : Option String} :
    (p.scope? == scope && p.answers (.name n)) = true ↔ p.entry = (Text.lower n, scope) := by
  simp [answers, entry, Text.caselessEq_iff, and_comm]

namespace Registry

/-- A change of a registry. -/
inductive Call where
  | register (p : Provider)
  | clear

def Call.run : Call → Registry → Registry
  | register p, r => r.register p
  | clear, r => r.clear

def Call.runAll (calls : List Call) (r : Registry) : Registry :=
  calls.foldl (fun r call => call.run r) r

def Call.note (ps : List Provider) : Call → List Provider
  | register p => ps ++ [p]
  | clear => []

/-- The registrations since the registry was last cleared, in order. -/
def Call.recent (calls : List Call) : List Provider := calls.foldl note []

/-- The entries of some registrations, each once, in the order in which they first occur. -/
def entries (ps : List Provider) : List Entry := (ps.map Provider.entry).eraseDups

/-- The last registration of an entry. -/
def latest? (ps : List Provider) (k : Entry) : Option Provider :=
  (ps.filter (·.entry = k)).getLast?

/-- Of the last registrations in a scope, in the order in which their entries were first registered,
the first that provides a type. -/
def earliest? (ps : List Provider) (typeName : String) (scope : Option String) : Option Provider :=
  (((entries ps).filter (·.2 = scope)).filterMap (latest? ps)).find? (·.provides typeName)

/-- What the registrations amount to. -/
def held (ps : List Provider) : List Provider := (entries ps).filterMap (latest? ps)

theorem entries_concat (ps : List Provider) (p : Provider) : entries (ps ++ [p]) =
    if p.entry ∈ entries ps then entries ps else entries ps ++ [p.entry] := by
  simp only [entries, List.map_append, List.map_singleton, eraseDups_concat, List.mem_eraseDups]

theorem nodup_entries (ps : List Provider) : (entries ps).Nodup := by
  induction ps using List.reverseRecOn with
  | nil => exact .nil
  | append_singleton ps p ih =>
    rw [entries_concat]
    split
    · exact ih
    · rename_i hnew
      refine List.nodup_append.mpr ⟨ih, by simp, fun k hk k' hk' => ?_⟩
      rw [List.mem_singleton.mp hk']
      exact ne_of_mem_of_not_mem hk hnew

theorem latest?_concat (ps : List Provider) (p : Provider) (k : Entry) :
    latest? (ps ++ [p]) k = if p.entry = k then some p else latest? ps k := by
  rw [latest?, List.filter_append, List.getLast?_append]
  split
  · rename_i h
    simp [h]
  · rename_i h
    simp [h, latest?]

theorem entry_of_latest? {k : Entry} (h : latest? ps k = some p) : p.entry = k := by
  have hmem := List.mem_of_getLast? h
  simpa using (List.mem_filter.mp hmem).2

theorem latest?_eq_none_iff {k : Entry} : latest? ps k = none ↔ k ∉ entries ps := by
  simp [latest?, entries, List.mem_eraseDups]

theorem exists_latest? {k : Entry} (hk : k ∈ entries ps) :
    ∃ q, latest? ps k = some q ∧ q.entry = k := by
  obtain ⟨q, hq⟩ := Option.ne_none_iff_exists'.mp fun hnone => latest?_eq_none_iff.mp hnone hk
  exact ⟨q, hq, entry_of_latest? hq⟩

/-- A provider takes the place of the one with its entry, or comes last. -/
theorem replaceFirst_filterMap {ks : List Entry} {f : Entry → Option Provider} (hks : ks.Nodup)
    (hf : ∀ k ∈ ks, ∃ q, f k = some q ∧ q.entry = k) (p : Provider) :
    replaceFirst (·.sameEntry p) p (ks.filterMap f) =
      (ks.filterMap fun k => if p.entry = k then some p else f k) ++
        if p.entry ∈ ks then [] else [p] := by
  induction ks with
  | nil => rfl
  | cons k ks ih =>
    obtain ⟨q, hq, hentry⟩ := hf k (by simp)
    obtain ⟨hk, hnodup⟩ := List.nodup_cons.mp hks
    rw [List.filterMap_cons_some hq, replaceFirst]
    by_cases h : p.entry = k
    · subst h
      have hrest : (ks.filterMap fun k => if p.entry = k then some p else f k) = ks.filterMap f :=
        List.filterMap_congr fun k hk' => if_neg (ne_of_mem_of_not_mem hk' hk).symm
      rw [if_pos (Provider.sameEntry_iff.mpr hentry)]
      simp [hrest]
    · have hold : ¬ q.sameEntry p = true := fun hs =>
        h ((Provider.sameEntry_iff.mp hs).symm.trans hentry)
      rw [if_neg hold, ih hnodup fun k' hk' => hf k' (List.mem_cons_of_mem k hk')]
      simp [h, hq]

theorem register_held (ps : List Provider) (p : Provider) :
    register ⟨held ps⟩ p = ⟨held (ps ++ [p])⟩ := by
  rw [register, held, replaceFirst_filterMap (nodup_entries ps) (fun _ => exists_latest?), held,
    entries_concat]
  congr 1
  split
  · simp [latest?_concat]
  · simp [latest?_concat]

/-- After any calls a registry holds the last registration of each entry. -/
theorem runAll_held (calls : List Call) : Call.runAll calls {} = ⟨held (Call.recent calls)⟩ := by
  induction calls using List.reverseRecOn with
  | nil => rfl
  | append_singleton calls call ih =>
    rw [Call.runAll, List.foldl_concat, Call.recent, List.foldl_concat]
    change call.run (Call.runAll calls {}) = ⟨held (Call.note (Call.recent calls) call)⟩
    rw [ih]
    cases call with
    | register p => exact register_held _ p
    | clear => rfl

theorem mem_held : p ∈ held ps ↔ latest? ps p.entry = some p := by
  rw [held, List.mem_filterMap]
  constructor
  · rintro ⟨k, -, hk⟩
    rwa [entry_of_latest? hk]
  · intro h
    refine ⟨p.entry, Decidable.by_contra fun hnew => ?_, h⟩
    exact absurd ((latest?_eq_none_iff.mpr hnew).symm.trans h) nofun

theorem map_entry_held (ps : List Provider) : (held ps).map Provider.entry = entries ps := by
  have hentry : ∀ k ∈ entries ps, (latest? ps k).map Provider.entry = some k := fun k hk => by
    obtain ⟨q, hq, rfl⟩ := exists_latest? hk
    rw [hq, Option.map_some]
  rw [held, List.map_filterMap, List.filterMap_congr hentry, List.filterMap_some]

theorem pairwise_held (ps : List Provider) :
    (held ps).Pairwise fun p q => ¬ p.sameEntry q = true := by
  have hnodup : ((held ps).map Provider.entry).Nodup := map_entry_held ps ▸ nodup_entries ps
  exact (List.pairwise_map.mp hnodup).imp fun hne h => hne (Provider.sameEntry_iff.mp h)

theorem lookupIn_name (ps : List Provider) (n : String) (scope : Option String) :
    lookupIn ⟨held ps⟩ (.name n) scope = latest? ps (Text.lower n, scope) := by
  cases hfound : lookupIn ⟨held ps⟩ (.name n) scope with
  | some p =>
    have hanswers := List.find?_some hfound
    rw [← Provider.answers_name_iff.mp hanswers, mem_held.mp (List.mem_of_find?_eq_some hfound)]
  | none =>
    refine (Option.eq_none_iff_forall_ne_some.mpr fun p hp => ?_).symm
    have hentry := entry_of_latest? hp
    have hmem : p ∈ held ps := mem_held.mpr (hentry ▸ hp)
    exact List.find?_eq_none.mp hfound p hmem (Provider.answers_name_iff.mpr hentry)

theorem lookupIn_eq (r : Registry) (key : ProviderKey) (scope : Option String) :
    r.lookupIn key scope = (r.providers.filter (·.scope? = scope)).find? (·.answers key) := by
  rw [lookupIn, List.find?_filter]
  congr 1
  funext p
  by_cases h : p.scope? = scope <;> simp [h]

theorem lookupIn_type (ps : List Provider) (t : String) (scope : Option String) :
    lookupIn ⟨held ps⟩ (.type t) scope = earliest? ps t scope := by
  have hscope : ((entries ps).filter (·.2 = scope)).filterMap (latest? ps) =
      (held ps).filter (·.scope? = scope) := by
    rw [held, List.filter_filterMap, List.filterMap_filter]
    refine List.filterMap_congr fun k hk => ?_
    obtain ⟨q, hq, rfl⟩ := exists_latest? hk
    rw [hq, Option.filter_some]
    rfl
  rw [earliest?, hscope, lookupIn_eq]
  rfl

theorem filter_replaceFirst {old : Provider → Bool} {scope : Option String}
    (hold : ∀ q, old q = true → q.scope? ≠ scope) (hp : p.scope? ≠ scope) (qs : List Provider) :
    (replaceFirst old p qs).filter (·.scope? = scope) = qs.filter (·.scope? = scope) := by
  induction qs with
  | nil => simp [replaceFirst, hp]
  | cons q qs ih =>
    rw [replaceFirst]
    split
    · rename_i h
      simp [hp, hold q h]
    · rw [List.filter_cons, List.filter_cons, ih]

theorem lookupIn_register {key : ProviderKey} {scope : Option String} (hp : p.scope? ≠ scope)
    (r : Registry) : (r.register p).lookupIn key scope = r.lookupIn key scope := by
  have hold : ∀ q : Provider, q.sameEntry p = true → q.scope? ≠ scope := fun q hq => by
    have hscope : q.scope? = p.scope? := congrArg Prod.snd (Provider.sameEntry_iff.mp hq)
    rwa [hscope]
  rw [lookupIn_eq, lookupIn_eq, register, filter_replaceFirst hold hp]

theorem resolve_eq (r : Registry) (key : ProviderKey) (scope : Option String) :
    r.resolve key scope = ((scope.bind fun s => r.lookupIn key (some s)).or
      (r.lookupIn key none)).map Provider.handle := by
  cases scope <;> rfl

/-- What is registered in a scope is seen in that scope only. -/
theorem resolve_register {key : ProviderKey} {scope : Option String} (hlimited : p.scope? ≠ none)
    (hother : p.scope? ≠ scope) (r : Registry) :
    (r.register p).resolve key scope = r.resolve key scope := by
  rw [resolve_eq, resolve_eq, lookupIn_register hlimited]
  cases scope with
  | none => rfl
  | some s => rw [Option.bind_some, Option.bind_some, lookupIn_register hother]

/-- Whatever is registered and cleared, a registry is a map from names and scopes that remembers the
order in which its entries were first registered: a name leads to the last registration of its
entry, a type to the earliest entry, and a scope hides nothing and shows nothing outside it. -/
theorem runAll_refines (calls : List Call) :
    let r := Call.runAll calls {}
    let ps := Call.recent calls
    (r.providers.Pairwise fun p q => ¬ p.sameEntry q = true) ∧
    r.size = (entries ps).length ∧
    (∀ n scope, r.resolve (.name n) scope =
      ((scope.bind fun s => latest? ps (Text.lower n, some s)).or
        (latest? ps (Text.lower n, none))).map Provider.handle) ∧
    (∀ t scope, r.resolve (.type t) scope =
      ((scope.bind fun s => earliest? ps t (some s)).or (earliest? ps t none)).map
        Provider.handle) ∧
    ∀ (p : Provider) key scope, p.scope? ≠ none → p.scope? ≠ scope →
      (r.register p).resolve key scope = r.resolve key scope := by
  intro r ps
  have hr : r = ⟨held ps⟩ := runAll_held calls
  refine ⟨hr ▸ pairwise_held ps, ?_, fun n scope => ?_, fun t scope => ?_, fun p key scope => ?_⟩
  · rw [hr, size, ← map_entry_held, List.length_map]
  · simp only [hr, resolve_eq, lookupIn_name]
  · simp only [hr, resolve_eq, lookupIn_type]
  · exact fun hlimited hother => resolve_register hlimited hother r

/-- A provider of the same name in the scope of some jobs is not seen outside of it. -/
theorem resolve_outside_jobs :
    let r := Call.runAll [.register ⟨"Log", none, ["ILog"], .singleton⟩] {}
    let p : Provider := ⟨"log", some "Jobs", [], .transient⟩
    p.scope? ≠ none ∧ p.scope? ≠ some "Web" ∧
      (r.register p).resolve (.name "LOG") (some "Web") = r.resolve (.name "LOG") (some "Web") ∧
        r.resolve (.name "LOG") (some "Web") = some ⟨"Log", none, .singleton⟩ :=
  ⟨by decide, by decide, (runAll_refines _).2.2.2.2 _ _ _ (by decide) (by decide), by decide⟩

end Registry

end ScriptInject
