import ScriptInject.Proofs.Building
import ScriptInject.Proofs.Phrase
import ScriptInject.Proofs.Rewriting
/-! The calls that bindings amount to, and the nodes in whose places they are put. -/
namespace ScriptInject

open Injection

variable {a : Arena} {d : Definition} {b : Binding} {bindings : List Binding} {e : Element}
  {c : Candidate} {i : NodeId} {f : Fetch} {t s : Tree NodeId} {contextVariable : String}
  {namespaces : List String}

namespace Injection

/-- Where the call for an element is put. -/
def target (e : Element) : NodeId × Placement :=
  match e.role, e.declaration? with
  | .injectParameter, _ => (e.node, .parameter)
  | _, some declaration => (declaration, .statement)
  | _, none => (e.node, .expression)

/-- A call is put in for a binding that something serves. -/
theorem fetchOf?_eq (h : fetchOf? d b = some (i, f)) :
    ∃ provider e method, b.provider? = some provider ∧ d.element? b.element = some e ∧
      e.role.fetchMethod? = some method ∧ (i, f.placement) = target e ∧ f.method = method ∧
      f.arguments = provider.id ::
        (b.target.scope?.toList ++ b.target.connectionString?.toList) := by
  unfold fetchOf? at h
  cases hprovider : b.provider? with
  | none => simp [hprovider] at h
  | some provider =>
    cases helement : d.element? b.element with
    | none => simp [hprovider, helement] at h
    | some e =>
      cases hmethod : e.role.fetchMethod? with
      | none => simp [hprovider, helement, hmethod] at h
      | some method =>
        simp only [hprovider, helement, hmethod, Option.bind_eq_bind, Option.bind_some] at h
        obtain ⟨rfl, rfl⟩ := Prod.mk.inj (Option.some.inj h)
        exact ⟨provider, e, method, rfl, rfl, hmethod, rfl, rfl, rfl⟩

theorem mem_of_fetch? (h : (ofBindings d bindings contextVariable namespaces).fetch? i = some f) :
    ∃ b ∈ bindings, fetchOf? d b = some (i, f) := by
  obtain ⟨pre, post, hsplit, -⟩ := List.lookup_eq_some_iff.mp h
  have hmem : (i, f) ∈ (bindings.filterMap (fetchOf? d)).reverse := by
    rw [show (bindings.filterMap (fetchOf? d)).reverse = _ from hsplit]
    simp
  exact List.mem_filterMap.mp (List.mem_reverse.mp hmem)

/-- The node that is replaced is a parameter, a declaring statement or a chain. -/
inductive Replaced (a : Arena) (e : Element) : NodeId × Placement → Prop
  | parameter : e.role = .injectParameter → a.Carries ⟨e.node, e.mark, e.declaration?⟩ .parameter →
      Replaced a e (e.node, .parameter)
  | statement {declaration} : e.role ≠ .injectParameter → e.declaration? = some declaration →
      a.Declares declaration e.node → Replaced a e (declaration, .statement)
  | expression : e.role ≠ .injectParameter → a.isChain e.node = true →
      Replaced a e (e.node, .expression)

theorem replaced_target (hd : d.Sound a) (he : e ∈ d.elements) (hr : e.role.isInjectable = true) :
    Replaced a e (target e) := by
  have hcarries := (hd.elements e he).carries
  unfold target
  split
  · rename_i hrole
    rw [hrole] at hcarries
    exact .parameter hrole hcarries
  · rename_i declaration hdeclaration hrole
    have hsite : e.role.site = .variableChain := by
      cases h : e.role <;> simp_all [Role.isInjectable, Role.fetchMethod?, Role.site]
    rw [hsite] at hcarries
    exact .statement hrole hdeclaration (hcarries.2 declaration hdeclaration)
  · rename_i hdeclaration hrole
    have hsite : e.role.site = .variableChain := by
      cases h : e.role <;> simp_all [Role.isInjectable, Role.fetchMethod?, Role.site]
    rw [hsite] at hcarries
    exact .expression hrole hcarries.1

theorem replaced_of_fetchOf? (hd : d.Sound a) (h : fetchOf? d b = some (i, f)) :
    ∃ e, d.element? b.element = some e ∧ Replaced a e (i, f.placement) := by
  obtain ⟨provider, e, method, -, he, hmethod, htarget, -⟩ := fetchOf?_eq h
  refine ⟨e, he, ?_⟩
  rw [htarget]
  apply replaced_target hd (List.mem_of_getElem? he)
  rw [Role.isInjectable, hmethod]
  rfl

theorem Replaced.parameter_of (h : Replaced a e (i, .parameter)) :
    ∃ attributes name value, a.get? i = some (.parameter attributes name value) := by
  cases h with
  | parameter _ h => exact h

/-- No block of parameters is replaced, and no function. -/
theorem Replaced.kind {placement : Placement} (h : Replaced a e (i, placement)) :
    (∀ attributes parameters, a.get? i ≠ some (.paramBlock attributes parameters)) ∧
      ∀ name isFilter parameters body,
        a.get? i ≠ some (.functionDefinition name isFilter parameters body) := by
  cases h with
  | parameter _ h =>
    obtain ⟨attributes, name, value, hget⟩ := h
    constructor <;> intros <;> rw [hget] <;> simp
  | statement _ _ h =>
    rcases h.2 with ⟨element, hget, -⟩ | ⟨operator, right, hget⟩
    · constructor <;> intros <;> rw [hget] <;> simp
    · constructor <;> intros <;> rw [hget] <;> simp
  | expression _ h =>
    constructor <;> intros <;> intro hget <;> rw [Arena.isChain, hget] at h <;> cases h

theorem node_of_get? {n : Node NodeId} (h : a.Holds s) (hn : a.get? s.label = some n) :
    s.node.map Tree.label = n := Option.some.inj (h.get?.symm.trans hn)

/-- The calls of a definition all have a place. -/
theorem suits_of_scriptBlock (hd : d.Sound a) (h : a.Holds t) (hroot : a.root? = some t.label)
    (htop : ∃ usings params? blocks, t.node = .scriptBlock usings params? blocks)
    (hs : s ∈ t.subtrees) :
    (ofBindings d bindings contextVariable namespaces).Suits s.label s.node := by
  have hheld := h.subtree hs
  constructor
  · intro f hf hplacement
    obtain ⟨b, -, hb⟩ := mem_of_fetch? hf
    obtain ⟨e, -, he⟩ := replaced_of_fetchOf? hd hb
    rw [hplacement] at he
    obtain ⟨attributes, name, value, hget⟩ := he.parameter_of
    have hnode := node_of_get? hheld hget
    cases hn : s.node with
    | parameter attributes name value => exact ⟨attributes, name, value, rfl⟩
    | _ => simp [hn, Node.map] at hnode
  · intro f hf attributes parameters hn
    obtain ⟨b, -, hb⟩ := mem_of_fetch? hf
    obtain ⟨e, -, he⟩ := replaced_of_fetchOf? hd hb
    apply he.kind.1 (attributes.map Tree.label) (parameters.map Tree.label)
    rw [hheld.get?, hn]
    rfl
  · intro hr
    have hlabel : t.label = s.label := by
      have hr' : d.arena.root? = some s.label := hr
      rw [hd.arena, hroot] at hr'
      exact Option.some.inj hr'
    exact h.unique hheld hlabel ▸ htop

theorem suits_ofBindings (hd : d.Sound a) (h : a.Holds t) (hroot : a.root? = some t.label)
    (hfits : Tree.Fits (.script true) t) (hs : s ∈ t.subtrees) :
    (ofBindings d bindings contextVariable namespaces).Suits s.label s.node := by
  refine suits_of_scriptBlock hd h hroot ?_ hs
  cases hfits
  exact ⟨_, _, _, rfl⟩

end Injection

end ScriptInject
