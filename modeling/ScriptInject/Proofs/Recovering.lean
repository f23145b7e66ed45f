import ScriptInject.Proofs.Lockstep.Statement
import ScriptInject.Proofs.Pieces
/-! A reading that recovers and one that does not agree on every text without errors: one of them
reports none exactly where the other one yields an arena, and then it is the same arena. -/
namespace ScriptInject

namespace NodeId

theorem shift_zero (i : NodeId) : shift 0 i = i := by
  by_cases h : i = 0 <;> simp [shift, h]

theorem map_shift_zero (n : Node NodeId) : n.map (shift 0) = n := by
  rw [show shift 0 = id from funext shift_zero, Node.map_id]

end NodeId

theorem Arena.add_error_of_error {a : Arena} {n m : Node NodeId} {span span' : Option Span}
    {e : ArenaError} (h : a.add n span = .error e) : a.add m span' = .error e := by
  unfold add at h ⊢
  cases hf : a.fresh? with
  | none => rwa [hf] at h
  | some id =>
    rw [hf] at h
    exact absurd h nofun

namespace Lexeme

variable {cs : List Char} {ls : List Lexeme}

theorem mapM_id_eq_ok_iff {rs : List (Except ParseError Lexeme)} :
    rs.mapM id = .ok ls ↔ (rs.filterMap fun r => r.toOption) = ls ∧
      (rs.filterMap fun
        | .ok _ => none
        | .error e => some e) = [] := by
  induction rs generalizing ls with
  | nil => simp [pure, Except.pure, eq_comm]
  | cons r rs ih =>
    rw [mapM_id_cons]
    cases r with
    | error e => simp
    | ok l => simp only [ih, List.filterMap_cons, Except.toOption]; grind

/-- A text has tokens exactly where tolerance has nothing to tolerate. -/
theorem ofText?_eq_ok_iff : ofText? cs = .ok ls ↔ ofBrokenText cs = (ls, []) := by
  rw [ofText?, ofBrokenText, Prod.mk.injEq]
  exact mapM_id_eq_ok_iff

end Lexeme

namespace Grammar

/-- The same text, into the same arena. -/
def Alignment.same (i : Input) : Alignment where
  input := i
  before := []
  last? := none
  ids := 0
  Arenas a b := b = a
  stop_eq := rfl
  newline := nofun
  get?_eq := by
    rintro _ a rfl i
    rw [NodeId.shift_zero]
    cases a.get? i with
    | none => rfl
    | some n => rw [Option.map_some, NodeId.map_shift_zero]
  span?_eq := by
    rintro a _ rfl i
    rw [NodeId.shift_zero]
    exact Option.map_id'.symm
  add_ok := by
    rintro a a' _ n span i rfl - hadd
    rw [NodeId.shift_zero, NodeId.map_shift_zero]
    exact ⟨a', rfl, hadd⟩
  add_error := by
    rintro a _ n m span span' e rfl - hadd
    exact Arena.add_error_of_error hadd

/-- Without recovery a script is read as with it, if nothing is noted. -/
theorem script_follows (i : Input) (lexemes : List Lexeme) :
    Follows (Alignment.same i) (fun id => id) Any
      { place := { rest := lexemes }, recovering := true }
      (script i { place := { rest := lexemes }, recovering := true })
      (script i { place := { rest := lexemes } }) := by
  have halike : (Alignment.same i).Alike { place := { rest := lexemes }, recovering := true }
      { place := { rest := lexemes } } :=
    { place := congrArg (Place.mk none) (List.map_id lexemes).symm
      arena := rfl
      depth := rfl
      strict := rfl
      spanned := Arena.spanned_empty }
  have hpaired : Paired (Alignment.same i) (nested i.maxDepth) := paired_nested i.maxDepth
  have hscript : Lockstep (Alignment.same i) (fun _ => True) (Alignment.same i).id
      (scriptBlock (nested i.maxDepth) .endOfText) (scriptBlock (nested i.maxDepth) .endOfText) Any :=
    Lockstep.scriptBlock hpaired
  have hfollows := hscript.follows halike trivial (.inr rfl)
  rwa [show (Alignment.same i).id = fun id => id from funext NodeId.shift_zero] at hfollows

/-- Both readings of the tokens yield the same, unless something is noted. -/
theorem script_eq_ok_iff {i : Input} {lexemes : List Lexeme} {root : NodeId} {a : Arena} :
    (∃ t, script i { place := { rest := lexemes } } = .ok root t ∧ t.arena = a) ↔
      ∃ t, script i { place := { rest := lexemes }, recovering := true } = .ok root t ∧
        t.arena = a ∧ t.errors = [] := by
  have hfollows := script_follows i lexemes
  generalize script i { place := { rest := lexemes } } = r' at hfollows ⊢
  generalize script i { place := { rest := lexemes }, recovering := true } = r at hfollows ⊢
  by_cases he : (final r).errors = []
  · cases hfollows.same he with
    | error _ => simp
    | ok hb ha _ =>
      obtain rfl := hb
      have harena := ha.arena
      constructor
      · rintro ⟨t, hr, rfl⟩
        obtain ⟨rfl, rfl⟩ := EStateM.Result.ok.inj hr
        exact ⟨_, rfl, harena.symm, he⟩
      · rintro ⟨t, hr, rfl, -⟩
        obtain ⟨rfl, rfl⟩ := EStateM.Result.ok.inj hr
        exact ⟨_, rfl, harena⟩
  · obtain ⟨e, t', rfl, -⟩ := hfollows.noted he
    constructor
    · rintro ⟨t, hr, -⟩
      exact absurd hr nofun
    · rintro ⟨t, rfl, -, hnone⟩
      exact absurd hnone he

end Grammar

namespace Script
open Grammar

variable {source : String} {a : Arena}

theorem parse_eq_ok_iff_script : parse source = .ok a ↔ ∃ lexemes root t,
    Lexeme.ofText? source.toList = .ok lexemes ∧
    script ⟨source.toList, defaultMaxDepth⟩ { place := { rest := lexemes } } = .ok root t ∧
    t.arena.withRoot root = a := by
  simp only [parse, parseWithin]
  constructor
  · intro h
    split at h
    · exact absurd h nofun
    · rename_i lexemes htext
      split at h
      · rename_i root t hr
        exact ⟨lexemes, root, t, htext, hr, Except.ok.inj h⟩
      · exact absurd h nofun
  · rintro ⟨lexemes, root, t, htext, hr, rfl⟩
    simp only [htext, hr]

theorem parseRecovering_eq_ok_iff_script : parseRecovering source = .ok (a, []) ↔
    ∃ lexemes root t, Lexeme.ofBrokenText source.toList = (lexemes, []) ∧
    script ⟨source.toList, defaultMaxDepth⟩ { place := { rest := lexemes }, recovering := true } =
      .ok root t ∧ t.arena.withRoot root = a ∧ t.errors = [] := by
  simp only [parseRecovering]
  constructor
  · intro h
    split at h
    · rename_i root t hr
      obtain ⟨rfl, hnone⟩ := Prod.mk.inj (Except.ok.inj h)
      obtain ⟨htokens, hnone⟩ := List.append_eq_nil_iff.mp hnone
      exact ⟨_, root, t, Prod.ext rfl htokens, hr, rfl, hnone⟩
    · obtain ⟨-, hnone⟩ := Prod.mk.inj (Except.ok.inj h)
      exact absurd (List.append_eq_nil_iff.mp hnone).2 nofun
    · exact absurd h nofun
  · rintro ⟨lexemes, root, t, htext, hr, rfl, hnone⟩
    simp only [htext, hr, hnone, List.append_nil]

/-- A text is read without recovery exactly where a reading that recovers has no errors to tell, and
both yield the same arena. -/
theorem parse_eq_ok_iff_parseRecovering : parse source = .ok a ↔ parseRecovering source = .ok (a, []) := by
  rw [parse_eq_ok_iff_script, parseRecovering_eq_ok_iff_script]
  constructor
  · rintro ⟨lexemes, root, t, htext, hr, rfl⟩
    obtain ⟨u, hu, harena, hnone⟩ := script_eq_ok_iff.mp ⟨t, hr, rfl⟩
    exact ⟨lexemes, root, u, Lexeme.ofText?_eq_ok_iff.mp htext, hu, by rw [harena], hnone⟩
  · rintro ⟨lexemes, root, t, htext, hr, rfl, hnone⟩
    obtain ⟨u, hu, harena⟩ := script_eq_ok_iff.mpr ⟨t, hr, rfl, hnone⟩
    exact ⟨lexemes, root, u, Lexeme.ofText?_eq_ok_iff.mpr htext, hu, by rw [harena]⟩

end Script

end ScriptInject
