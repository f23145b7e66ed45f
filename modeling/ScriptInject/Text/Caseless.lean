/-! Text up to the case of ASCII letters. -/
namespace ScriptInject.Text

/-- ASCII letters become small; every other character is kept. -/
def lower (s : String) : String := String.ofList (s.toList.map Char.toLower)

/-- Equality up to the case of ASCII letters. -/
def caselessEq (s t : String) : Bool := s.toList.map Char.toLower == t.toList.map Char.toLower

variable {s t u : String}

theorem caselessEq_iff : caselessEq s t = true ↔ lower s = lower t := by
  simp [caselessEq, lower, String.ofList_inj]

theorem caselessEq_refl (s : String) : caselessEq s s = true := by simp [caselessEq]

theorem caselessEq_comm (s t : String) : caselessEq s t = caselessEq t s :=
  Bool.eq_iff_iff.mpr (by simp only [caselessEq_iff]; exact eq_comm)

theorem caselessEq_trans (h : caselessEq s t = true) (k : caselessEq t u = true) :
    caselessEq s u = true :=
  caselessEq_iff.mpr ((caselessEq_iff.mp h).trans (caselessEq_iff.mp k))

end ScriptInject.Text
