import ScriptInject.Proofs.Printing
/-! Arenas that hold one tree have one text. -/
namespace ScriptInject

/-- The error without the place in a text that it tells. -/
def ScriptError.placeless : ScriptError → ScriptError
  | .unprintable kind _ => .unprintable kind {}
  | e => e

namespace Source

variable {α : Type}

/-- The same comes out, or one error, wherever it is. -/
def Same (x y : Except ScriptError α) : Prop :=
  x.mapError ScriptError.placeless = y.mapError ScriptError.placeless

theorem Tallies.same {x y : Except ScriptError α}
    (h : Tallies (fun d e => d.placeless = e.placeless) x y) : Same x y := by
  cases h with
  | ok v => rfl
  | error he => exact congrArg Except.error he

variable {a b : Arena} {t : Tree NodeId}

theorem same_generateScript (h : a.Holds t) (h' : b.Holds t) (hroot : a.root? = some t.label)
    (hroot' : b.root? = some t.label) : Same (generateScript a) (generateScript b) := by
  rw [generateScript, generateScript, Arena.root, Arena.root, hroot, hroot']
  exact (tallies_generate_held h h' fun _ _ _ _ _ _ => rfl).same

end Source

end ScriptInject
