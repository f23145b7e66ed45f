import ScriptInject.Proofs.Parsing.Basic
import ScriptInject.Proofs.Printing
import ScriptInject.Proofs.Telling
/-! Every tree without error nodes has a source text, and rewriting makes no error nodes. -/
namespace ScriptInject

variable {α β : Type}

namespace Node

@[simp] theorem isError_map (f : α → β) (n : Node α) : (n.map f).isError = n.isError := by
  cases n <;> rfl

end Node

namespace Tree

variable {ι κ : Type} {t : Tree ι} {l : ι} {n : Node (Tree ι)}

/-- No broken statement has been kept. -/
def Whole (t : Tree ι) : Prop := t.All fun n => n.isError = false

theorem whole_mk : (mk l n).Whole ↔ n.isError = false ∧ ∀ c ∈ n.children, c.Whole := all_mk

theorem whole_map (f : ι → κ) : (t.map f).Whole ↔ t.Whole := by
  simp only [Whole, All, subtrees_map, List.forall_mem_map, node_map, Node.isError_map]

end Tree

namespace Source

/-- A text, or whatever else is made of parts of it, comes out. -/
def Works (x : Except ScriptError α) : Prop := ∃ v, x = .ok v

theorem Tallies.works {x y : Except ScriptError α} (h : Tallies (fun _ _ => False) x y) :
    Works x := by
  cases h with
  | ok v => exact ⟨v, rfl⟩
  | error he => exact he.elim

variable {a : Arena} {t : Tree NodeId}

/-- A script without error nodes has a source text. -/
theorem works_generateScript (h : a.Holds t) (hroot : a.root? = some t.label) (hw : t.Whole) :
    Works (generateScript a) := by
  rw [generateScript, Arena.root, hroot]
  refine (tallies_generate_held h h fun s hs text hn => ?_).works
  have herror := hw s hs
  rw [hn] at herror
  cases herror

end Source

namespace Injection

open ScriptInject.Tree

variable {inj : Injection} {t : Tree NodeId} {f : Fetch} {id : NodeId} {n : Node (Tree NodeId)}

theorem callCopy_whole : (inj.callCopy f).Whole := by
  simp +contextual [callCopy, contextCopy, whole_mk, Node.children, Node.isError]

theorem contextParameterCopy_whole : inj.contextParameterCopy.Whole := by
  simp [contextParameterCopy, contextCopy, whole_mk, Node.children, Node.isError]

theorem paramsCopy_whole {params? : Option (Tree NodeId)}
    (hn : ∀ p, params? = some p → p.node.isError = false)
    (hc : ∀ p, params? = some p → ∀ c ∈ p.node.children, (inj.rewrite c).Whole) :
    (inj.paramsCopy params?).Whole := by
  cases params? with
  | none => simp [paramsCopy, whole_mk, Node.children, Node.isError, contextParameterCopy_whole]
  | some p =>
    have hp := hn p rfl
    have hbelow := hc p rfl
    rw [paramsCopy]
    cases hnode : p.node with
    | paramBlock attributes parameters =>
      rw [hnode] at hbelow
      refine whole_mk.mpr ⟨rfl, ?_⟩
      simp only [Node.children, List.mem_append, List.mem_map, List.mem_filter, List.mem_cons]
      rintro y (⟨x, ⟨hx, -⟩, rfl⟩ | rfl | ⟨x, hx, rfl⟩)
      · exact hbelow x (List.mem_append_left _ hx)
      · exact contextParameterCopy_whole
      · exact hbelow x (List.mem_append_right _ hx)
    | _ =>
      rw [hnode] at hp hbelow
      refine whole_mk.mpr ⟨by rwa [Node.isError_map], ?_⟩
      rw [Node.children_map]
      exact List.forall_mem_map.mpr hbelow

/-- What becomes of a node has no errors if what stands below it gets none. -/
theorem becomes_whole {y : Tree (Option NodeId)} (h : inj.Becomes id n y)
    (hn : n.isError = false) (hall : ∀ c ∈ n.children, c.node.isError = false)
    (hc : ∀ c ∈ n.children, (inj.rewrite c).Whole)
    (hcc : ∀ c ∈ n.children, ∀ d ∈ c.node.children, (inj.rewrite d).Whole) : y.Whole := by
  cases h with
  | called => exact callCopy_whole
  | assigned => simp [whole_mk, Node.children, Node.isError, callCopy_whole]
  | @defaulted f attributes name value =>
    refine whole_mk.mpr ⟨rfl, ?_⟩
    simp only [Node.children, List.mem_append, List.mem_map, List.mem_filter, List.mem_singleton,
      Option.mem_toList]
    rintro y ((⟨x, ⟨hx, -⟩, rfl⟩ | rfl) | hy)
    · exact hc x (by simp [Node.children, hx])
    · exact hc name (by simp [Node.children])
    · obtain rfl := Option.some.inj hy
      exact callCopy_whole
  | @script usings params? blocks =>
    have hparams : ∀ p, params? = some p →
        p ∈ (Node.scriptBlock usings params? blocks).children := by
      rintro p rfl
      simp [Node.children]
    refine whole_mk.mpr ⟨rfl, ?_⟩
    simp only [Node.children, List.mem_append, List.mem_map, List.mem_filter, Option.mem_toList]
    rintro y ((⟨x, ⟨hx, -⟩, rfl⟩ | hy) | ⟨x, hx, rfl⟩)
    · exact hc x (by simp [Node.children, hx])
    · obtain rfl := Option.some.inj hy
      exact paramsCopy_whole (fun p hp => hall p (hparams p hp)) fun p hp => hcc p (hparams p hp)
    · exact hc x (by simp [Node.children, hx])
  | @unwrapped mark child => exact hc child (by simp [Node.children])
  | copied =>
    refine whole_mk.mpr ⟨?_, ?_⟩
    · rw [Node.isError_map]
      cases n <;> exact hn
    · rw [Node.children_map]
      refine List.forall_mem_map.mpr fun c hcn => hc c ?_
      cases n with
      | paramBlock attributes parameters =>
        exact List.mem_append.mpr ((List.mem_append.mp hcn).imp_left List.mem_of_mem_filter)
      | parameter attributes name value =>
        simp only [withoutMarkers, Node.children, List.mem_append, List.mem_filter] at hcn ⊢
        grind
      | _ => exact hcn

/-- Rewriting makes no error nodes. -/
theorem rewrite_whole (hp : ∀ s ∈ t.subtrees, inj.Suits s.label s.node) (hw : t.Whole) :
    ∀ s ∈ t.subtrees, (inj.rewrite s).Whole := by
  induction t using Tree.induct with
  | h id n ih =>
    obtain ⟨hn, hall⟩ := whole_mk.mp hw
    have hbelow : ∀ c ∈ n.children, ∀ s ∈ c.subtrees, (inj.rewrite s).Whole := by
      intro c hcn
      refine ih c hcn (fun s hs => hp s ?_) (hall c hcn)
      exact mem_subtrees_mk.mpr (.inr ⟨c, hcn, hs⟩)
    intro s hs
    rcases mem_subtrees_mk.mp hs with rfl | ⟨c, hcn, hs⟩
    · refine becomes_whole (becomes (hp _ hs)) hn (fun c hcn => ?_)
        (fun c hcn => hbelow c hcn c (self_mem_subtrees c)) fun c hcn d hd => hbelow c hcn d ?_
      · exact hall c hcn c (self_mem_subtrees c)
      · obtain ⟨l, m⟩ := c
        exact mem_subtrees_mk.mpr (.inr ⟨d, hd, self_mem_subtrees d⟩)
    · exact hbelow c hcn s hs

end Injection

end ScriptInject
