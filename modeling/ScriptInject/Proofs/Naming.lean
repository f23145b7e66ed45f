import ScriptInject.Proofs.Fetching.Assigned
import ScriptInject.Proofs.Quoting
/-! Variables are read back under the name they were written with, with braces or without. -/
namespace ScriptInject

namespace Grammar
open Chunk

/-- The path begins with the name of the scope outside, in any case, and goes on behind it. -/
def IsForeignPath (path : String) : Prop :=
  ∃ scope name, path.toList = scope ++ name ∧ name ≠ [] ∧
    Text.caselessEq (String.ofList scope) "using:" = true

/-- The first six bytes of the path are whole characters, if there are more than six. -/
def IsDivisible (path : String) : Prop :=
  6 < Text.size path.toList → (Text.slice? path.toList 0 6).isSome

instance : DecidablePred IsDivisible := fun path =>
  inferInstanceAs (Decidable (6 < Text.size path.toList → (Text.slice? path.toList 0 6).isSome))

variable {path : String}

theorem isOwnPath_of_divisible (hdivisible : IsDivisible path) (hforeign : ¬ IsForeignPath path) :
    IsOwnPath path := by
  by_cases hlong : 6 < Text.size path.toList
  · obtain ⟨scope, hscope⟩ := Option.isSome_iff_exists.mp (hdivisible hlong)
    refine ⟨String.ofList scope, by rw [scope?, if_pos hlong, hscope]; rfl, ?_⟩
    have htake : Text.takeBytes? 6 path.toList = some scope := by
      simpa [Text.slice?, Text.dropBytes?] using hscope
    obtain ⟨hsize, hpath⟩ := Text.takeBytes?_eq htake
    have hname : path.toList.drop scope.length ≠ [] := by
      intro hnil
      rw [hnil, List.append_nil] at hpath
      rw [hpath, hsize] at hlong
      exact absurd hlong (Nat.lt_irrefl 6)
    exact Bool.eq_false_iff.mpr fun heq => hforeign ⟨scope, _, hpath, hname, heq⟩
  · exact ⟨"", by rw [scope?, if_neg hlong], rfl⟩

variable {i : Input} {bound k n : Nat} {t : State} {w : Chunk}

/-- A script that is a variable alone is that variable. -/
theorem variable_script_reads (hown : IsOwnPath path) (hw : w.piece = .token (.variableName path))
    (h : Stacked bound 0 t t [] (k + 5)) (hd : i.maxDepth = n + 3)
    (hp : t.place.At i.text [] ([] ++ [w])) :
    Outcome (scriptBlock (nested i.maxDepth) .endOfText) i t (Spent bound)
      (Reads i bound 0 t [] k [] (loneShape (expressionShape (variableShape path)))) := by
  have hcurrent : t.place.current? = some (.variableName path) :=
    hp.current? (List.forall_mem_nil _) hw
  rw [hd]
  refine lone_script_reads hcurrent rfl ?_
  refine expression_statement_reads hcurrent h (by omega) fun {u} hu hplace => ?_
  refine variable_reads hown hu (by omega) (hplace ▸ hp) hw fun q hq => ?_
  rw [hq.current?_nil]
  trivial

end Grammar

namespace Arena
open Grammar

variable {a : Arena} {x : Tree NodeId} {id : NodeId} {path : String}

/-- The node is a statement that consists of a variable. -/
def IsVariableStatement (a : Arena) (id : NodeId) (path : String) : Prop :=
  ∃ element expression, a.get? id = some (.pipeline [element]) ∧
    a.get? element = some (.commandExpression expression) ∧
    a.get? expression = some (.variableRef path false)

theorem isVariableStatement_of_shape (h : a.Holds x)
    (hx : x.shape = expressionShape (variableShape path)) :
    a.IsVariableStatement x.label path := by
  obtain ⟨id, n⟩ := x
  have hn := shape_inv hx
  rw [Tree.node_mk] at hn
  cases n with
  | pipeline elements =>
    obtain ⟨element, rfl, helement⟩ := List.map_eq_singleton_iff.mp (Node.pipeline.inj hn)
    have helementHeld := h.child (s := element) (by simp [Node.children])
    obtain ⟨e, n⟩ := element
    have hn := shape_inv helement
    rw [Tree.node_mk] at hn
    cases n with
    | commandExpression expression =>
      have hexpression := Node.commandExpression.inj hn
      exact ⟨e, expression.label, h.get?, helementHeld.get?,
        get?_variable (helementHeld.child (by simp [Node.children])) hexpression⟩
    | _ => cases hn
  | _ => cases hn

end Arena

namespace Source
open Grammar

variable {path : String}

theorem parse_variable (braced : Bool) (hpath : (Token.variableName path).Occurs)
    (hown : IsOwnPath path) : ∃ a id, Script.parse (variableText path braced) = .ok a ∧
      a.IsOnlyStatement id ∧ a.IsVariableStatement id path := by
  obtain ⟨hne, hbrace⟩ := Token.path_of_occurs hpath
  have hclean : Chunk.Clean [Chunk.ofPath path braced] [] :=
    ⟨Chunk.ofPath_stands braced hne hbrace nofun, .inr rfl, trivial⟩
  have htext : (variableText path braced).toList = Chunk.textOf [Chunk.ofPath path braced] :=
    (List.append_nil _).symm
  obtain ⟨a, x, hparse, hroot, hx, hshape⟩ := (Script.parseWithin_reads (k := 5) hclean htext
    fun t hp ht => variable_script_reads (n := 125) hown rfl ht rfl hp).resolve_right
      fun hfull => absurd hfull.2 (by decide)
  obtain ⟨y, honly, hy, hyshape⟩ := Arena.isOnlyStatement_of_shape hroot hx hshape
  exact ⟨a, y.label, hparse, honly, Arena.isVariableStatement_of_shape hy hyshape⟩

/-- A variable is read back from what is written for it, in front of all that does not go on with
its name, and on its own it is a script. -/
theorem variable_reads_back (hpath : (Token.variableName path).Arises) (braced : Bool) :
    (∀ after : List Char, (∀ c ∈ after.head?, Token.isNamePart c = false ∧ c ≠ ':') →
      Lexeme.readings ((variableText path braced).toList ++ after) =
        .ok ⟨.variableName path, ⟨0, Text.size (variableText path braced).toList⟩⟩ ::
          (Lexeme.readings after).map
            (Lexeme.shiftReading (Text.size (variableText path braced).toList))) ∧
    (¬ IsForeignPath path → IsDivisible path →
      ∃ a id, Script.parse (variableText path braced) = .ok a ∧ a.IsOnlyStatement id ∧
        a.IsVariableStatement id path) := by
  obtain ⟨hne, hbrace⟩ := Token.path_of_occurs hpath.occurs
  refine ⟨fun after hafter => ?_, fun hforeign hdivisible => ?_⟩
  · exact Lexeme.readings_append (w := Chunk.ofPath path braced)
      (Chunk.ofPath_stands braced hne hbrace hafter) rfl
  · exact parse_variable braced hpath.occurs (isOwnPath_of_divisible hdivisible hforeign)

/-- A path that is the name of a scope alone needs braces, and it is no path of that scope. -/
theorem variable_reads_back_scope : (Token.variableName "USING:").Arises ∧
    Lexeme.readings ((variableText "USING:" false).toList ++ "=1".toList) =
      [.ok ⟨.variableName "USING:", ⟨0, 9⟩⟩, .ok ⟨.mark .assign, ⟨9, 10⟩⟩,
        .ok ⟨.number "1", ⟨10, 11⟩⟩] ∧
    ∃ a id, Script.parse (variableText "USING:" false) = .ok a ∧ a.IsOnlyStatement id ∧
      a.IsVariableStatement id "USING:" := by
  have harises : (Token.variableName "USING:").Arises :=
    ⟨"$\x7bUSING:\x7d".toList, ⟨.variableName "USING:", ⟨0, 9⟩⟩, by decide, rfl⟩
  obtain ⟨hreads, hparses⟩ := variable_reads_back harises false
  refine ⟨harises, ?_, hparses ?_ fun hlong => absurd hlong (by decide)⟩
  · rw [hreads "=1".toList fun c hc => by
      obtain rfl := Option.some.inj hc
      decide]
    rfl
  · rintro ⟨scope, name, hpath, hname, heq⟩
    have hscope : scope.length = 6 := by
      simpa [Text.caselessEq] using congrArg List.length (beq_iff_eq.mp heq)
    have hlength := congrArg List.length hpath
    rw [List.length_append, hscope] at hlength
    exact hname (List.eq_nil_of_length_eq_zero (Nat.left_eq_add.mp hlength))

end Source

end ScriptInject
