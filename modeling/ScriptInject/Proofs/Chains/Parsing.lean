import ScriptInject.Proofs.Chains.Reading
import ScriptInject.Proofs.Fetching.Assigned
import ScriptInject.Proofs.Widening.Script
/-! A text that is a chain of operands is read as the one term in which they are grouped by
precedence, whatever the limit of depth is, if it is enough for an operand alone. -/
namespace ScriptInject
open Grammar Grammar.Parser

namespace Grammar

variable {i : Input} {s : State} {g : Nested} {name : String}

/-- The statement, the expression and the operand need a level of nesting each. -/
theorem hopeless_statement (hcurrent : s.place.current? = some (.variableName name))
    (hd : s.depth = 0) (hs : s.recovering = false) (hmax : i.maxDepth = 2) :
    Hopeless (nested 2).statement i s := by
  refine Hopeless.guarded hs fun _ => statement_variable hcurrent ?_
  rw [pipeline, Outcome.start_bind]
  refine atCommand_variable hcurrent (Hopeless.bind ?_)
  refine Hopeless.guarded hs fun _ => ternary_passes ?_ ?_ fun _ _ hno => hno.elim
  · simp [hcurrent]
  · have hleft : Left i s.place 0 { s with depth := s.depth + 1 + 1 } :=
      ⟨rfl, hs, by simp only [hd, hmax]⟩
    have hnone : Barred i s.place 0 := fun m hm => absurd hm (Nat.not_lt_zero m)
    exact hnone.nested_unary (Nat.le_refl 0) hleft

/-- A script from a variable on is a statement, or begins with one. -/
theorem hopeless_script (hcurrent : s.place.current? = some (.variableName name))
    (h : Hopeless g.statement i s) : Hopeless (scriptBlock g .endOfText) i s := by
  have hitem : Hopeless (listedStatement g .endOfText) i s := by
    rw [Hopeless, listedStatement, skipTerminators_here (by
      intro token ht
      obtain rfl := Option.some.inj (hcurrent.symm.trans ht)
      rfl), Outcome.peek_bind, hcurrent]
    simp only [Option.isNone_some, Closer.isAt, Bool.or_false, Bool.false_eq_true, if_false]
    exact h.bind.orElseKeep.bind
  exact scriptBlock_variable hcurrent (P := fun _ _ => False)
    (blocks_variable hcurrent (P := fun _ _ => False) hitem.many fun _ _ hno => hno.elim)
    fun _ _ hno => hno.elim

/-- No script that begins with a variable is read with two constructs open at most. -/
theorem script_two (hcurrent : s.place.current? = some (.variableName name)) (hd : s.depth = 0)
    (hs : s.recovering = false) (hmax : i.maxDepth = 2) :
    ∃ f t, script i s = .error f t := by
  have hrun : Hopeless (scriptBlock (nested 2) .endOfText) i s :=
    hopeless_script hcurrent (hopeless_statement hcurrent hd hs hmax)
  rw [script, hmax]
  rw [Hopeless, Outcome] at hrun
  cases hr : scriptBlock (nested 2) .endOfText i s with
  | ok root t =>
    rw [hr] at hrun
    exact hrun.elim
  | error f t => exact ⟨f, t, rfl⟩

end Grammar

namespace Script

variable {name : String} {links : List Link} {maxDepth : Nat} {a : Arena}

/-- A script that is a variable alone has a statement, an expression and an operand open at once. -/
theorem three_le_of_variable (hname : (Operand.var name).Plain)
    (h : parseWithin maxDepth (Operand.var name).text = .ok a) : 3 ≤ maxDepth := by
  by_contra hlt
  replace h := @parseWithin_mono _ _ 2 a (by omega) h
  have htext : Chunk.textOf (chainChunks (.var name) []) = (Operand.var name).text.toList := by
    rw [textOf_chain, chainText, List.map_nil, String.join_nil, String.append_empty]
  have hclean : Chunk.Clean (chainChunks (.var name) []) [] := chain_clean hname (by simp)
  have hlex := Lexeme.ofText?_of_clean hclean
  rw [htext] at hlex
  have hcurrent : (Place.mk none (Chunk.lexemes 0 (chainChunks (.var name) []))).current? =
      some (.variableName name) := rfl
  obtain ⟨f, t, hrun⟩ := @script_two ⟨(Operand.var name).text.toList, 2⟩
    { place := { rest := Chunk.lexemes 0 (chainChunks (.var name) []) } } _ hcurrent rfl rfl rfl
  rw [parseWithin, hlex] at h
  dsimp only at h
  rw [hrun] at h
  cases h

/-- The least limit is enough for a chain of any length. -/
theorem parse_chain_tree {e : Term} (hname : (Operand.var name).Plain)
    (hlinks : ∀ l ∈ links, l.Spelled ∧ l.operand.Plain)
    (hroom : 2 * links.length + 5 < Arena.idLimit)
    (horder : e.inOrder = (.var name, links.map Link.pair)) (hgraded : e.Graded) :
    ∃ a x, parseWithin 3 (chainText (.var name) links) = .ok a ∧ a.root? = some x.label ∧
      a.Holds x ∧ x.shape = loneShape (expressionShape e.shape) := by
  refine (parseWithin_reads (k := 2 * links.length + 5) (chain_clean hname hlinks)
    textOf_chain.symm fun t hp ht => ?_).resolve_right fun hfull => ?_
  · exact chain_script_reads (i := ⟨(chainText (.var name) links).toList, 3⟩) hname horder hgraded
      hlinks (ht.resize (by omega)) rfl hp
  · exact absurd hfull.2 (by omega)

/-- The limits within which an operand alone is read. -/
theorem parseWithin_variable_iff (hname : (Operand.var name).Plain) :
    (∃ a, parseWithin maxDepth (Operand.var name).text = .ok a) ↔ 3 ≤ maxDepth := by
  refine ⟨fun ⟨a, h⟩ => three_le_of_variable hname h, fun h => ?_⟩
  obtain ⟨a, x, hparse, -⟩ := @parse_chain_tree name [] (.operand (.var name)) hname
    nofun (by decide) rfl trivial
  rw [chainText, List.map_nil, String.join_nil, String.append_empty] at hparse
  exact ⟨a, parseWithin_mono h hparse⟩

/-- Operands with operators between them are read as one expression. Its operands and operators are
those of the text, in the same order, grouped by precedence in the only way there is. The arena is
the same within all limits of depth that are enough for an operand alone. -/
theorem parse_chain (hname : (Operand.var name).Plain)
    (hlinks : ∀ l ∈ links, l.Spelled ∧ l.operand.Plain)
    (hroom : 2 * links.length + 5 < Arena.idLimit) :
    ∃ (e : Term) (a : Arena) (x : Tree NodeId),
      e.inOrder = (.var name, links.map Link.pair) ∧ e.Graded ∧
      (∀ e' : Term, e'.inOrder = e.inOrder → e'.Graded → e' = e) ∧
      a.root? = some x.label ∧ a.Holds x ∧ x.shape = loneShape (expressionShape e.shape) ∧
      ∀ maxDepth, (∃ b, parseWithin maxDepth (Operand.var name).text = .ok b) →
        parseWithin maxDepth (chainText (.var name) links) = .ok a := by
  obtain ⟨e, horder, hgraded⟩ := Term.exists_graded (.var name) (links.map Link.pair)
  obtain ⟨a, x, hparse, hroot, hholds, hshape⟩ :=
    parse_chain_tree hname hlinks hroom horder hgraded
  refine ⟨e, a, x, horder, hgraded, fun e' horder' hgraded' => hgraded'.unique hgraded horder',
    hroot, hholds, hshape, fun maxDepth hadmits => ?_⟩
  exact parseWithin_mono ((parseWithin_variable_iff hname).mp hadmits) hparse

/-- Sums and products are grouped before they are compared, and words may be capitalized. -/
theorem parse_chain_compared :
    ∃ a x, parse "$a + 1 -EQ $b * 2" = .ok a ∧ a.root? = some x.label ∧ a.Holds x ∧
      x.shape = loneShape (expressionShape (Term.shape (.binary .equal
        (.binary .add (.operand (.var "a")) (.operand (.number "1")))
        (.binary .multiply (.operand (.var "b")) (.operand (.number "2")))))) := by
  obtain ⟨e, a, x, horder, -, hunique, hroot, hholds, hshape, hparse⟩ :=
    @parse_chain "a" [⟨.add, "+", .number "1"⟩, ⟨.equal, "-EQ", .var "b"⟩,
      ⟨.multiply, "*", .number "2"⟩] (by decide +kernel) (by decide +kernel) (by decide)
  have he := hunique (.binary .equal
    (.binary .add (.operand (.var "a")) (.operand (.number "1")))
    (.binary .multiply (.operand (.var "b")) (.operand (.number "2")))) (by rw [horder]; rfl)
    (by simp [Term.Graded, Term.BindsFrom, BinaryOperator.precedence])
  rw [← he] at hshape
  have hadmits := (@parseWithin_variable_iff "a" defaultMaxDepth (by decide +kernel)).mpr
    (by decide)
  exact ⟨a, x, hparse _ hadmits, hroot, hholds, hshape⟩

end Script

end ScriptInject
