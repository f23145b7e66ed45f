import ScriptInject.Proofs.Steps
/-! The names of types that are read: each of them may be written. Nothing but the place changes while
one is read. -/
namespace ScriptInject.Grammar
open Grammar.Parser

variable {α : Type} {i : Input} {s t u : State} {token : Token} {p : Place} {P : α → Prop}

/-- The result is a value that has some property, and no trees were added. -/
def Finds (i : Input) (s : State) (ts : List (Tree NodeId)) (P : α → Prop) : α → State → Prop :=
  fun a t => Made i s t ts ∧ P a

namespace Place

theorem next?_eq (h : p.current? = some token) : p.next? = p.advance.current? := by
  cases hr : p.rest with
  | nil => simp [current?, hr] at h
  | cons l ls => simp [next?, current?, Place.advance, hr]

theorem mem_of_current? (h : p.current? = some token) : ∃ l ∈ p.rest, l.token = token := by
  obtain ⟨l, hl, htoken⟩ := Option.map_eq_some_iff.mp h
  exact ⟨l, List.mem_of_mem_head? hl, htoken⟩

end Place

/-- From one state to the other, the reading has passed some tokens and done nothing else. -/
def State.Moves (s t : State) : Prop := ∃ n, t = { s with place := s.place.advanceBy n }

/-- The result has some property, and the reading has only moved. -/
def Gets (s : State) (P : α → Prop) : α → State → Prop := fun a t => s.Moves t ∧ P a

namespace State.Moves

theorem refl (s : State) : s.Moves s := ⟨0, rfl⟩

theorem advanceBy (h : s.Moves t) (k : Nat) :
    s.Moves { t with place := t.place.advanceBy k } := by
  obtain ⟨n, rfl⟩ := h
  exact ⟨n + k, by rw [Place.advanceBy_add]⟩

theorem advance (h : s.Moves t) : s.Moves { t with place := t.place.advance } := h.advanceBy 1

theorem mem_rest {l : Lexeme} (h : s.Moves t) (hl : l ∈ t.place.rest) : l ∈ s.place.rest := by
  obtain ⟨n, rfl⟩ := h
  rw [Place.rest_advanceBy] at hl
  exact List.mem_of_mem_drop hl

theorem unexpected {expected : String} {Q : α → State → Prop} (h : s.Moves t) :
    Outcome (Parser.unexpected expected) i t (fun _ => s.Moves) Q := Outcome.unexpected fun _ => h

theorem expect {β : Type} {f : Unit → Parser β} {m : Mark} {Q : β → State → Prop} (h : s.Moves t)
    (k : Outcome (f ()) i { t with place := t.place.advance } (fun _ => s.Moves) Q) :
    Outcome (Parser.expect m >>= f) i t (fun _ => s.Moves) Q := by
  rw [Outcome.expect_bind]
  exact ⟨fun _ => k, fun _ => Outcome.unexpected_bind fun _ => h⟩

/-- What each item gets whenever there is one. -/
theorem many {item : Parser (Option α)} (h : s.Moves t)
    (step : ∀ {u}, s.Moves u →
      Outcome item i u (fun _ => s.Moves) (Gets s fun o => ∀ a, o = some a → P a)) :
    Outcome (Parser.many item) i t (fun _ => s.Moves) (Gets s fun as => ∀ a ∈ as, P a) := by
  refine Outcome.many (I := Gets s fun as => ∀ a ∈ as, P a) ⟨h, List.forall_mem_nil _⟩
    (fun _ _ hu => hu.1) ?_
  rintro as u ⟨hu, has⟩
  refine (step hu).imp fun o v hv => ⟨fun _ => ⟨hv.1, has⟩, fun a ho => ⟨hv.1, ?_⟩⟩
  exact List.forall_mem_append.mpr ⟨has, List.forall_mem_singleton.mpr (hv.2 a ho)⟩

theorem afterCommas {item : Parser α} (h : s.Moves t)
    (step : ∀ {u}, s.Moves u → Outcome item i u (fun _ => s.Moves) (Gets s P)) :
    Outcome (Parser.afterCommas item) i t (fun _ => s.Moves) (Gets s fun as => ∀ a ∈ as, P a) := by
  refine h.many fun {u} hu => ?_
  rw [Outcome.eat_bind]
  constructor
  · intro _
    refine (step hu.advance).bind fun a v hv => ⟨hv.1, fun b hb => ?_⟩
    rw [← Option.some.inj hb]
    exact hv.2
  · intro _
    exact ⟨hu, nofun⟩

end State.Moves

/-- The tokens to come are such as occur in texts. -/
def State.Genuine (s : State) : Prop := ∀ l ∈ s.place.rest, l.token.Occurs

theorem State.Moves.occurs (h : s.Moves t) (ht : t.place.current? = some token)
    (hs : s.Genuine) : token.Occurs := by
  obtain ⟨l, hl, rfl⟩ := Place.mem_of_current? ht
  exact hs l (h.mem_rest hl)

/-! The rules for names of types. They move among any tokens, and their results may be written if
the tokens occur in texts. -/

theorem dottedName_moves (h : s.Moves t) : Outcome dottedName i t (fun _ => s.Moves)
    (Gets s fun name => s.Genuine → IsDottedName name) := by
  rw [dottedName, Outcome.peek_bind]
  split
  · rename_i first hfirst
    rw [Outcome.advance_bind]
    refine (h.advance.many (P := fun w => s.Genuine → (Token.word w).Occurs) ?_).bind ?_
    · intro u hu
      rw [Outcome.peek_bind, Outcome.peekNext_bind]
      split
      · rename_i w hdot hword
        rw [Outcome.advanceBy_bind, Outcome.pure_iff]
        refine ⟨hu.advanceBy 2, fun a ha => ?_⟩
        rw [← Option.some.inj ha]
        rw [Place.next?_eq hdot] at hword
        exact hu.advance.occurs hword
      · exact ⟨hu, nofun⟩
    · rintro words u ⟨hu, hwords⟩
      refine ⟨hu, fun hs => ⟨first :: words, List.cons_ne_nil _ _, rfl, ?_⟩⟩
      exact List.forall_mem_cons.mpr ⟨h.occurs hfirst hs, fun w hw => hwords w hw hs⟩
  · exact h.unexpected

/-- A type name as far as it has been read: its name, and the ranks behind it. -/
def IsRanked (s : State) (t : TypeName × Nat) : Prop :=
  (s.Genuine → t.1.Written) ∧ ∀ e n, t.1 ≠ .array e n

section Brackets

variable {typeName : Parser TypeName} (hname : ∀ {u}, s.Moves u →
  Outcome typeName i u (fun _ => s.Moves) (Gets s fun T => s.Genuine → T.Written))
include hname

theorem typeArgument_moves (h : s.Moves t) : Outcome (typeArgument typeName) i t (fun _ => s.Moves)
    (Gets s fun T => s.Genuine → T.Written) := by
  rw [typeArgument, Outcome.eat_bind]
  constructor
  · intro _
    refine (hname h.advance).bind fun a u hu => ?_
    exact hu.1.expect ⟨hu.1.advance, hu.2⟩
  · intro _
    exact hname h

theorem typeBracket_moves {r : TypeName × Nat} (h : s.Moves t) :
    Outcome (typeBracket typeName r) i t (fun _ => s.Moves)
      (Gets s fun o => ∀ q, o = some q → IsRanked s r → IsRanked s q) := by
  rw [typeBracket, Outcome.peek_bind]
  split
  · rw [Outcome.peekNext_bind]
    split
    · rename_i ty rank _
      refine ⟨h.advanceBy 2, fun q hq hr => ?_⟩
      rw [← Option.some.inj hq]
      exact hr
    · rw [Outcome.start_bind]
      exact h
    · rename_i name _ _
      rw [Outcome.advance_bind]
      refine (typeArgument_moves hname h.advance).bind ?_
      rintro first u ⟨hu, hfirst⟩
      refine (hu.afterCommas (typeArgument_moves hname)).bind ?_
      rintro others v ⟨hv, hothers⟩
      refine hv.expect ⟨hv.advance, fun q hq hr => ?_⟩
      rw [← Option.some.inj hq]
      refine ⟨fun hs => ?_, nofun⟩
      cases hr.1 hs with
      | simple hdotted =>
        refine .generic hdotted (List.cons_ne_nil _ _) ?_
        exact List.forall_mem_cons.mpr ⟨hfirst hs, fun a ha => hothers a ha hs⟩
    · exact ⟨h, nofun⟩
  · exact ⟨h, nofun⟩

end Brackets

theorem typeNameUpTo_moves {n : Nat} (h : s.Moves t) : Outcome (typeNameUpTo n) i t
    (fun _ => s.Moves) (Gets s fun T => s.Genuine → T.Written) := by
  induction n generalizing t with
  | zero => exact h
  | succ n ih =>
    rw [typeNameUpTo]
    refine (dottedName_moves h).bind fun name u hu => ?_
    refine (Outcome.iterate (I := Gets s (IsRanked s)) (F := Gets s (IsRanked s))
      ⟨hu.1, fun hs => .simple (hu.2 hs), by simp⟩ (fun _ _ hv => hv.1) ?_).bind ?_
    · intro r v hv
      refine (typeBracket_moves ih hv.1).imp fun o w hw => ⟨fun _ => ⟨hw.1, hv.2⟩, ?_⟩
      exact fun q hq => ⟨hw.1, hw.2 q hq hv.2⟩
    · rintro ⟨ty, rank⟩ v ⟨hv, hwritten, hplain⟩
      refine ⟨hv, fun hs => ?_⟩
      by_cases hrank : rank = 0
      · simpa [hrank] using hwritten hs
      · simpa [hrank] using TypeName.Written.array (hwritten hs) hplain hrank

theorem typeName_moves : Outcome typeName i s (fun _ => s.Moves)
    (Gets s fun T => s.Genuine → T.Written) := by
  rw [typeName, Outcome.place_bind]
  exact typeNameUpTo_moves (.refl s)

theorem Made.occurs {ts : List (Tree NodeId)} (h : Made i s t ts)
    (ht : t.place.current? = some token) : token.Occurs := h.scanned.occurs ht

theorem Made.occurs_next {ts : List (Tree NodeId)} {first : Token} (h : Made i s t ts)
    (hf : t.place.current? = some first) (ht : t.place.next? = some token) : token.Occurs := by
  rw [Place.next?_eq hf] at ht
  exact h.advance.occurs ht

theorem Made.moves {ts : List (Tree NodeId)} (h : Made i s t ts) (hu : t.Moves u) :
    Made i s u ts := by
  obtain ⟨n, rfl⟩ := hu
  exact h.advanceBy n

theorem typeName_finds {ts : List (Tree NodeId)} (h : Made i s t ts) :
    Outcome Grammar.typeName i t (Lost s) (Finds i s ts TypeName.Written) := by
  apply typeName_moves.mono
  · intro _ u hu
    exact (h.moves hu).toKept
  · intro T u hu
    exact ⟨h.moves hu.1, hu.2 fun l hl => h.scanned.occurs_of_mem hl⟩

end ScriptInject.Grammar
