import ScriptInject.Proofs.Lockstep.Statement
import ScriptInject.Proofs.Preparing.Usings
/-! What a script is made of, apart from the node that holds it together. -/
namespace ScriptInject.Grammar
open Chunk Grammar.Parser

variable {α : Type} {i : Input} {s : State} {g : Nested}

namespace Place

theorem length_advanceBy_le (p : Place) (n : Nat) :
    (p.advanceBy n).rest.length ≤ p.rest.length - n := by
  have hlength : (p.advanceBy n).rest.length = p.rest.length - n := by
    rw [rest_advanceBy, List.length_drop]
  exact Nat.le_of_eq hlength

theorem length_past_le (p : Place) (q : Token → Bool) :
    (p.past q).rest.length ≤ p.rest.length :=
  Nat.le_trans (p.length_advanceBy_le _) (Nat.sub_le _ _)

theorem rest_pos_of_wordAt {p : Place} {keyword : String} (h : p.wordAt keyword = true) :
    0 < p.rest.length := by
  cases hr : p.rest with
  | nil => simp [wordAt, current?, hr] at h
  | cons l ls => simp

end Place

/-- A `using` line takes tokens away. -/
theorem listedUsing_shortens : Outcome listedUsing i s (fun _ _ => True) fun o t =>
    o.isSome = true → t.place.rest.length < s.place.rest.length := by
  rw [listedUsing, Outcome.start_bind, Outcome.atWord_bind]
  split
  · rename_i husing
    rw [Outcome.peekNext_bind]
    split
    · split
      · rw [Outcome.advanceBy_bind, Outcome.start_bind, Outcome.place_bind]
        dsimp only
        rw [Outcome.advanceBy_bind]
        split
        · exact Outcome.unexpected fun _ => trivial
        · have hpos := Place.rest_pos_of_wordAt husing
          have htwo := s.place.length_advanceBy_le 2
          generalize (usingTarget _ _).1 = n
          have hmore := (s.place.advanceBy 2).length_advanceBy_le n
          let place := (s.place.advanceBy 2).advanceBy n
          refine Outcome.bind (P := fun _ t => t.place = place) ?_ fun name t ht => ?_
          · rw [Outcome, Lockstep.slice_run]
            cases Text.slice? i.text _ _ <;> trivial
          · refine Outcome.bind (P := fun _ t => t.place = place) ?_ fun id u hu => ?_
            · rw [Parser.add, Outcome.place_bind, Outcome, Lockstep.addAt_run]
              cases t.arena.add _ _ <;> trivial
            · rw [Outcome.skipTerminators_bind, hu]
              have hpast := place.length_past_le isTerminator
              exact fun _ => by simp only [place] at hpast ⊢; omega
      · simp
    · simp
  · simp

/-- Steps that are left over change nothing. -/
theorem manyUpTo_eq {item : Parser (Option α)} {n m : Nat}
    (h : ∀ s, Outcome item i s (fun _ _ => True) fun o t =>
      o.isSome = true → t.place.rest.length < s.place.rest.length)
    (hn : s.place.rest.length < n) (hm : s.place.rest.length < m) :
    manyUpTo item n i s = manyUpTo item m i s := by
  induction n generalizing s m with
  | zero => exact absurd hn (Nat.not_lt_zero _)
  | succ n ih =>
    obtain ⟨m, rfl⟩ : ∃ k, m = k + 1 := ⟨m - 1, by omega⟩
    rw [manyUpTo, manyUpTo, Lockstep.bind_run, Lockstep.bind_run]
    cases hr : item i s with
    | error e t => rfl
    | ok o t =>
      cases o with
      | none => rfl
      | some a =>
        have hshort := (h s).of_ok hr rfl
        dsimp only
        rw [Lockstep.bind_run, Lockstep.bind_run, ih (m := m) (by omega) (by omega)]

/-- The sections of a script, of which the `using` lines are read in at most `n` steps. -/
def sections (g : Nested) (n : Nat) : Parser (List NodeId × Option NodeId × List NodeId) := do
  let usings ← manyUpTo listedUsing n
  let params ← paramBlock? g
  skipTerminators
  let blocks ← blocks g .endOfText
  return (usings, params, blocks)

theorem sections_eq {n m : Nat} (hn : s.place.rest.length < n) (hm : s.place.rest.length < m) :
    sections g n i s = sections g m i s := by
  rw [sections, sections, Lockstep.bind_run, Lockstep.bind_run,
    manyUpTo_eq (fun _ => listedUsing_shortens) hn hm]

/-- The node of a script holds its sections together, with the nodes `front` before its own
`using` lines. -/
def held (front : List NodeId) (start : Nat) (i : Input) :
    EStateM.Result Failure State (List NodeId × Option NodeId × List NodeId) →
      EStateM.Result Failure State NodeId
  | .ok (usings, params, blocks) t => add (.scriptBlock (front ++ usings) params blocks) start i t
  | .error e t => .error e t

theorem nextId_le_held (front : List NodeId) (start : Nat) (i : Input)
    (r : EStateM.Result Failure State (List NodeId × Option NodeId × List NodeId)) :
    (final r).arena.nextId ≤ (final (held front start i r)).arena.nextId := by
  cases r with
  | error e t => exact Nat.le_refl _
  | ok r t => exact (Lockstep.onward_addAt _ _ i t).nextId_le

theorem script_eq {n : Nat} (h : s.place.rest.length < n) : script i s =
    held [] (s.place.start i.text) i
      (sections (nested i.maxDepth) n i { s with place := s.place.past isTerminator }) := by
  have hsections : script i s =
      (sections (nested i.maxDepth) ((s.place.past isTerminator).rest.length + 1) >>=
        fun r => add (.scriptBlock r.1 r.2.1 r.2.2) (s.place.start i.text)) i
        { s with place := s.place.past isTerminator } := by
    rw [sections]
    simp only [bind_assoc, pure_bind]
    rfl
  have hfuel := @sections_eq i { s with place := s.place.past isTerminator }
    (nested i.maxDepth) ((s.place.past isTerminator).rest.length + 1) n (Nat.lt_succ_self _)
    (Nat.lt_of_le_of_lt (s.place.length_past_le _) h)
  rw [hsections, Lockstep.bind_run, hfuel]
  cases sections (nested i.maxDepth) n i _ <;> rfl

theorem Lockstep.sections {σ : Alignment} {P : State → Prop} (hg : Paired σ g) (n : Nat) :
    Lockstep σ P (fun (us, p, bs) => (us.map σ.id, p.map σ.id, bs.map σ.id))
      (sections g n) (sections g n) Any := by
  rw [Grammar.sections]
  refine bind (manyUpTo (I := fun _ => True) (F := fun _ => True) (listedUsing.imp
    fun _ _ _ => ⟨fun _ => trivial, fun _ => trivial⟩) n |>.weaken fun _ _ => trivial) fun us => ?_
  refine bind (paramBlock? hg) fun p => skipTerminators_bind (bind (blocks hg) fun bs => ?_)
  exact pure rfl fun _ _ => trivial

end ScriptInject.Grammar
