import ScriptInject.Proofs.Binding
import ScriptInject.Proofs.Mirror.Copying
import ScriptInject.Proofs.Mirror.Generating
import ScriptInject.Proofs.Mirror.Targeting
import ScriptInject.Proofs.Parsing.Script
import ScriptInject.Proofs.Reach
import ScriptInject.Proofs.Stripping
/-! Scripts that differ in the spelling of their markers only. Whatever is asked of one of them is
asked of the other with the same answer. -/
namespace ScriptInject

namespace Script
open Grammar

/-- An arena that a text was read into, with broken statements kept or without. -/
def Read (a : Arena) : Prop :=
  (∃ source maxDepth, parseWithin maxDepth source = .ok a) ∨
    ∃ source errors, parseRecovering source = .ok (a, errors)

/-- The arena of a text holds one tree, with a script block on top. -/
structure Stands (a : Arena) (t : Tree NodeId) : Prop where
  root : a.root? = some t.label
  holds : a.Holds t
  tidy : a.Tidy
  nodup : t.labels.Nodup
  placed : t.All Tree.MarksPlaced
  plain : t.isMarker = false
  top : ∃ usings params? blocks, t.node = .scriptBlock usings params? blocks

variable {a : Arena} {t : Tree NodeId}

theorem Forms.stands {recovering : Bool} (h : Forms recovering a t)
    (htop : ∃ usings params? blocks, a.get? t.label = some (.scriptBlock usings params? blocks)) :
    Stands a t where
  root := h.root
  holds := h.holds
  tidy := h.tidy
  nodup := h.nodup
  placed := h.proper.mono fun n hn => hn.toMarksPlaced
  plain := h.plain
  top := by
    obtain ⟨usings, params?, blocks, hget⟩ := htop
    rw [h.holds.get?, Option.some.injEq] at hget
    cases hn : t.node with
    | scriptBlock usings params? blocks => exact ⟨usings, params?, blocks, rfl⟩
    | _ => exact absurd (hn ▸ hget) nofun

/-- What was read has a script on top, or nothing. -/
theorem Read.stands (h : Read a) : (∃ t, Stands a t) ∨ a.root? = none := by
  rcases h with ⟨source, maxDepth, h⟩ | ⟨source, errors, h⟩
  · obtain ⟨t, ht⟩ := forms_of_parseWithin h
    exact .inl ⟨t, ht.stands (top_of_parseWithin h ht.root)⟩
  · rcases forms_of_parseRecovering h with ⟨t, ht⟩ | ⟨hnone, -⟩
    · exact .inl ⟨t, ht.stands (top_of_parseRecovering h ht.root)⟩
    · exact .inr hnone

variable {b : Arena} {s : Tree NodeId} {ρ : NodeId → NodeId}

theorem Stands.root_mem (hs : Stands a s) : ∀ i ∈ a.root?, i ∈ s.labels := by
  rw [hs.root]
  rintro _ ⟨⟩
  exact List.mem_map_of_mem s.self_mem_subtrees

theorem Stands.root_map (hs : Stands a s) (ht : Stands b t) (hlabel : t.label = ρ s.label) :
    b.root? = a.root?.map ρ := by
  rw [ht.root, hs.root, Option.map_some, hlabel]

end Script

/-! Copies without markers. -/

namespace Arena

variable {c c' : Arena} {z : Tree NodeId}

/-- Without markers there is nothing to be spelled in another way. -/
theorem Holds.of_twins (h : c.Holds z) (hc : Twins c c') (hz : z.Unmarked) : c'.Holds z := by
  induction h with
  | @mk id n hn held ih =>
    obtain ⟨hmark, hbelow⟩ := Tree.unmarked_mk.mp hz
    refine .mk ?_ fun t ht => ih t ht (hbelow t ht)
    have hget := hc.get? id
    rw [hn, Option.map_some] at hget
    obtain ⟨m, hm, hrespelled⟩ := Option.map_eq_some_iff.mp hget
    rw [hm]
    have hspells := Node.respells_of_respelled hrespelled
    generalize hl : n.map Tree.label = l at hspells
    cases hspells with
    | same => rfl
    | marker positional named hs ht =>
      cases n with
      | attributeSpec type ps ns =>
        obtain ⟨rfl, -, -⟩ := Node.attributeSpec.inj hl
        have hnone : (Marker.ofTypeName? type.fullName).isSome = false := hmark
        rw [ht] at hnone
        exact absurd hnone nofun
      | _ => exact absurd hl nofun

end Arena

namespace Injection

variable {ρ : NodeId → NodeId} {a b : Arena} {s t : Tree NodeId} {d : Definition}
  {bindings : List Binding} {contextVariable : String} {namespaces : List String}

/-- Rewritings of scripts that differ in the spelling of their markers have one shape and one
text. -/
theorem apply_same (hs : Script.Stands a s) (ht : Script.Stands b t)
    (h : a.Mirrors ρ s.labels b) (hlabel : t.label = ρ s.label) (hd : d.Sound a)
    (hwithin : d.Within s.labels) :
    Agree (fun out out' => out.sameShapeAs out' = true ∧
        Source.Same (Source.generateScript out) (Source.generateScript out'))
      ((ofBindings d bindings contextVariable namespaces).apply a)
      ((ofBindings (d.renamed ρ b) bindings contextVariable namespaces).apply b) := by
  have hroot := hs.root_map ht hlabel
  have harena := hd.arena
  have hinj := ofBindings_renamed (harena.symm ▸ h) hwithin (harena.symm ▸ hroot) bindings
    contextVariable namespaces
  rw [hinj]
  have hsuits : ∀ x ∈ s.subtrees,
      (ofBindings d bindings contextVariable namespaces).Suits x.label x.node :=
    fun x hx => suits_of_scriptBlock hd hs.holds hs.root hs.top hx
  have hunmarked := rewrite_unmarked hsuits hs.placed s s.self_mem_subtrees hs.plain
  generalize ofBindings d bindings contextVariable namespaces = inj at hunmarked
  have hrun : Agree _ (inj.apply a) ((inj.renamed ρ).apply b) :=
    apply_agree h hs.root_mem hroot
  have hreads := @apply_reads a inj s hs.tidy hs.holds hs.root
  generalize inj.apply a = r at hrun hreads
  generalize (inj.renamed ρ).apply b = r' at hrun
  cases hrun with
  | error e => exact .error e
  | @ok out out' hok =>
    obtain ⟨htwins, hroots⟩ := hok
    obtain ⟨y, hy, hheld, -, -, hspans⟩ := hreads
    rw [← Tree.unmarked_map a.sourceSpan, ← hspans, Tree.unmarked_map] at hunmarked
    have hheld' := hheld.of_twins htwins hunmarked
    refine .ok ⟨?_, Source.same_generateScript hheld hheld' hy (hroots.trans hy)⟩
    rw [Arena.sameShapeAs, hroots, hy]
    exact (hheld.sameShape_iff hheld').mpr rfl

end Injection

namespace Script

variable {a b : Arena} {s t : Tree NodeId}

theorem Stands.reachable_ids (hs : Stands a s) : a.reachable.map (·.1) = s.labels := by
  rw [hs.holds.reachable hs.root hs.nodup, List.map_map, Tree.labels]
  rfl

/-- Scripts of one shape once their markers are respelled mirror each other. -/
theorem Stands.mirrors (hs : Stands a s) (ht : Stands b t)
    (h : a.respelled.sameShapeAs b.respelled = true) : ∃ ρ : NodeId → NodeId,
    a.Mirrors ρ s.labels b ∧ t.labels = s.labels.map ρ ∧ t.label = ρ s.label := by
  have hroot : a.respelled.root? = some s.label := hs.root
  have hroot' : b.respelled.root? = some t.label := ht.root
  rw [Arena.sameShapeAs, hroot, hroot', ← s.label_respelled, ← t.label_respelled] at h
  obtain ⟨ρ, hmirrors, hlabels⟩ := Arena.mirrors_of_shape hs.tidy ht.tidy hs.holds ht.holds
    hs.nodup ht.nodup (hs.holds.respelled.shape_eq ht.holds.respelled h)
  refine ⟨ρ, hmirrors, hlabels, ?_⟩
  obtain ⟨i, n⟩ := s
  obtain ⟨j, m⟩ := t
  rw [Tree.labels_mk, Tree.labels_mk] at hlabels
  exact (List.cons.inj hlabels).1

/-- What is asked of the definitions of two scripts is answered alike: their targets, how these
resolve from a registry, what a host is told, and the script that is made when their names are
bound. -/
structure Interchangeable (a : Arena) (d : Definition) (b : Arena) (d' : Definition) : Prop where
  targets : ∀ strict, Resolver.targets ⟨d', strict⟩ = Resolver.targets ⟨d, strict⟩
  resolve : ∀ strict find, Resolver.resolve ⟨d', strict⟩ find = Resolver.resolve ⟨d, strict⟩ find
  entrypoints : ∀ strict,
    Entrypoints.ofResolver ⟨d', strict⟩ = Entrypoints.ofResolver ⟨d, strict⟩
  rewrite : ∀ bindings contextVariable namespaces,
    Agree (fun out out' => out.sameShapeAs out' = true ∧
        Source.Same (Source.generateScript out) (Source.generateScript out'))
      ((Injection.ofBindings d bindings contextVariable namespaces).apply a)
      ((Injection.ofBindings d' bindings contextVariable namespaces).apply b)

/-- Surveys and definitions of scripts that mirror each other fail alike, or are each other's
mirror image. -/
theorem Stands.alike {ρ : NodeId → NodeId} (hs : Stands a s) (ht : Stands b t)
    (h : a.Mirrors ρ s.labels b) (hlabel : t.label = ρ s.label) :
    Agree (fun s s' => s' = s.renamed ρ ∧
        Agree (fun d d' => d' = d.renamed ρ b ∧ Interchangeable a d b d')
          (Definition.ofSurvey? a s) (Definition.ofSurvey? b s'))
      (Survey.ofArena? a) (Survey.ofArena? b) := by
  have hsurvey := h.ofArena?_agree hs.root_mem (hs.root_map ht hlabel)
  have hfound := @Survey.found_of_ofArena? a
  generalize Survey.ofArena? a = r at hsurvey hfound
  generalize Survey.ofArena? b = r' at hsurvey
  cases hsurvey with
  | error e => exact .error e
  | @ok survey survey' hok =>
    obtain ⟨rfl, hwithin⟩ := hok
    refine .ok ⟨rfl, ?_⟩
    have hdefined := Builder.ofSurvey?_agree h hwithin
    have hsound := fun d hd => @Definition.sound_of_ofSurvey? a survey d hd (hfound rfl)
    generalize Definition.ofSurvey? a survey = r at hdefined hsound
    generalize Definition.ofSurvey? b (survey.renamed ρ) = r' at hdefined
    cases hdefined with
    | error e => exact .error e
    | @ok d d' hok =>
      obtain ⟨rfl, harena, hwithin⟩ := hok
      have hd : d.arena.Mirrors ρ s.labels b := harena.symm ▸ h
      exact .ok ⟨rfl, {
        targets := fun strict => Resolver.targets_eq strict hd hwithin
        resolve := fun strict => Resolver.resolve_eq strict hd hwithin
        entrypoints := fun strict => Resolver.ofResolver_eq strict hd hwithin
        rewrite := fun _ _ _ => Injection.apply_same hs ht h hlabel (hsound d rfl) hwithin }⟩

/-- Two scripts that differ in the spelling of their markers only fail alike, or have surveys and
definitions that correspond place by place, and the definitions are interchangeable. -/
theorem respelled_alike (ha : Read a) (hb : Read b)
    (h : a.respelled.sameShapeAs b.respelled = true) : ∃ ρ : NodeId → NodeId,
    Function.Injective ρ ∧ b.reachable.map (·.1) = a.reachable.map (fun p => ρ p.1) ∧
    Agree (fun s s' => s' = s.renamed ρ ∧
        Agree (fun d d' => d' = d.renamed ρ b ∧ Interchangeable a d b d')
          (Definition.ofSurvey? a s) (Definition.ofSurvey? b s'))
      (Survey.ofArena? a) (Survey.ofArena? b) := by
  rcases ha.stands with ⟨s, hs⟩ | hs <;> rcases hb.stands with ⟨t, ht⟩ | ht
  · obtain ⟨ρ, hmirrors, hlabels, hlabel⟩ := hs.mirrors ht h
    refine ⟨ρ, hmirrors.injective, ?_, hs.alike ht hmirrors hlabel⟩
    rw [ht.reachable_ids, hlabels, ← hs.reachable_ids, List.map_map]
    rfl
  · have hroot : a.respelled.root? = some s.label := hs.root
    have hroot' : b.respelled.root? = none := ht
    rw [Arena.sameShapeAs, hroot, hroot'] at h
    exact absurd h Bool.false_ne_true
  · have hroot : a.respelled.root? = none := hs
    have hroot' : b.respelled.root? = some t.label := ht.root
    rw [Arena.sameShapeAs, hroot, hroot'] at h
    exact absurd h Bool.false_ne_true
  · refine ⟨id, Function.injective_id, ?_, ?_⟩
    · rw [Arena.reachable, Arena.reachable, hs, ht]
      rfl
    · rw [Survey.ofArena?, Survey.ofArena?, Arena.root, Arena.root, hs, ht]
      exact .error _

/-- A marker by its short name and by one of its long ones. -/
theorem respelled_alike_prefixed : ∃ a b, Script.parse "[Inject()]$x" = .ok a ∧
    Script.parse "[psyringe.language.Attributes.injectATTRIBUTE()]$x" = .ok b ∧
    a.respelled.sameShapeAs b.respelled = true ∧ ∃ ρ : NodeId → NodeId,
    Function.Injective ρ ∧ b.reachable.map (·.1) = a.reachable.map (fun p => ρ p.1) ∧
    Agree (fun s s' => s' = s.renamed ρ ∧
        Agree (fun d d' => d' = d.renamed ρ b ∧ Interchangeable a d b d')
          (Definition.ofSurvey? a s) (Definition.ofSurvey? b s'))
      (Survey.ofArena? a) (Survey.ofArena? b) := by
  have hok : ((Script.parse "[Inject()]$x").toOption.any fun a =>
      (Script.parse "[psyringe.language.Attributes.injectATTRIBUTE()]$x").toOption.any fun b =>
        a.respelled.sameShapeAs b.respelled) = true := by decide +kernel
  cases ha : Script.parse "[Inject()]$x" with
  | error e => simp [ha, Except.toOption] at hok
  | ok a =>
    rw [ha, Except.toOption, Option.any_some] at hok
    cases hb : Script.parse "[psyringe.language.Attributes.injectATTRIBUTE()]$x" with
    | error e => simp [hb, Except.toOption] at hok
    | ok b =>
      rw [hb, Except.toOption, Option.any_some] at hok
      exact ⟨a, b, rfl, rfl, hok,
        respelled_alike (.inl ⟨_, _, ha⟩) (.inl ⟨_, _, hb⟩) hok⟩

end Script

end ScriptInject
