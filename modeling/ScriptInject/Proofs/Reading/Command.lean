import ScriptInject.Proofs.Reading.Attribute
/-! The commands and pipelines that are read. -/
namespace ScriptInject.Grammar
open Grammar.Parser ScriptInject.Tree

variable {i : Input} {s t u : State} {ts us : List (Tree NodeId)} {x : Tree NodeId}
  {token : Token} {p q : Place} {g : Nested} {value : String} {start : Nat}

theorem lead_mk (l : NodeId) (n : Node (Tree NodeId)) :
    (Tree.mk l n).lead = leadOf (n.map lead) := by
  rw [lead, fold_mk]

theorem ending_mk (l : NodeId) (n : Node (Tree NodeId)) :
    (Tree.mk l n).ending = endingOf (n.map fun x => (x, x.ending)) := by
  rw [ending, para_mk]

theorem lead_of_isArray (h : x.isArray = true) : x.lead = .paren := by
  obtain ⟨l, n⟩ := x
  rw [isArray, node_mk] at h
  rw [lead_mk]
  split at h
  · rfl
  · exact absurd h nofun

theorem bareWord_first {a b : Token} {value : String} (h : IsBareWord a value)
    (k : IsBareWord b value) : a = b := by
  obtain ⟨v, vs, hv, htext, ha, -⟩ := h
  obtain ⟨w, ws, hw, htext', hb, -⟩ := k
  have := Chunk.clean_unique hv hw (String.ofList_injective (htext.trans htext'.symm))
  obtain ⟨rfl, -⟩ := List.cons.inj this
  exact Token.Piece.token.inj (ha.symm.trans hb)

theorem dashWord_toList {w : String} (h : (Token.dashWord w).Occurs) :
    ∃ cs, w.toList = '-' :: cs := by
  obtain ⟨c, rest, n, hp⟩ := h
  obtain ⟨rfl, rfl⟩ := Token.found_piece hp
  obtain ⟨hpos, -⟩ := Token.piece_le hp (Token.isRead_token _)
  obtain ⟨m, rfl⟩ : ∃ m, n = m + 1 := ⟨n - 1, by omega⟩
  exact ⟨rest.take m, by simp⟩

/-- A bare word that has been read, from its first token to the place behind it. -/
structure BareWordAt (p : Place) (value : String) (q : Place) : Prop where
  first : ∃ token, p.current? = some token ∧ IsBareWord token value
  single : (Token.word value).Occurs → q = p.advance ∧ p.current? = some (.word value)

theorem Outcome.slice {E : Failure → State → Prop} {Q : String → State → Prop} {a b : Nat}
    {cs : List Char} (h : Text.slice? i.text a b = some cs) (hq : Q (String.ofList cs) s) :
    Outcome (Parser.slice a b) i s E Q := by
  unfold Parser.slice
  refine Outcome.bind (P := fun j u => j = i ∧ u = s) ⟨rfl, rfl⟩ ?_
  rintro _ _ ⟨rfl, rfl⟩
  rw [h]
  exact hq

theorem bareWordText_finds (h : Made i s t ts) (ht : t.place.current? = some token) :
    Outcome bareWordText i t (Lost s)
      fun value u => Made i s u ts ∧ BareWordAt t.place value u.place := by
  rw [bareWordText, Outcome.place_bind]
  cases hr : t.place.rest with
  | nil => simp [Place.current?, hr] at ht
  | cons l ls =>
    obtain ⟨cs, hslice, hword, -, hsingle⟩ := h.scanned.bareWord hr
    have hl : t.place.current? = some l.token := by simp [Place.current?, hr]
    simp only [Outcome.advanceBy_bind]
    refine .slice hslice ⟨h.advanceBy _, ⟨l.token, hl, hword⟩, fun hocc => ?_⟩
    obtain ⟨htoken, hzero⟩ := hsingle _ hocc rfl
    refine ⟨?_, by rw [hl, htoken]⟩
    simp [hzero, Place.advanceBy]

theorem bareWord_yields (h : Made i s t ts) (ht : t.place.current? = some token) :
    Outcome bareWord i t (Lost s) (Yields i s ts fun x q => x.All (Placed isArray) ∧
      ∃ value, x.node = .stringConstant value .bareWord ∧ BareWordAt t.place value q) := by
  rw [bareWord, Outcome.start_bind]
  refine (bareWordText_finds h ht).bind fun value u ⟨hu, hvalue⟩ => ?_
  exact hu.addLeaf (n := .stringConstant value .bareWord) rfl rfl fun id => ⟨all_mk.mpr ⟨trivial, nofun⟩, value, rfl, hvalue⟩

theorem lead_of_node (h : x.node = .stringConstant value .bareWord) : x.lead = .word :=
  lead_of_isWord (by simp [isWord, h])

/-- Operands with commas between them, from the first token to the place behind them. -/
structure OperandsAt (p : Place) (x : Tree NodeId) (q : Place) : Prop where
  parsed : Parsed (.level 7) x
  leads : x.isArray = true ∨ LeadsAt p x.lead
  type : x.ending.type = true → ∀ token, q.current? = some token → startsOperand token = false
  word : x.isWord = true → q = p.advance

/-- An argument of a command, from its first token to the place behind it. -/
structure ArgumentAt (p : Place) (x : Tree NodeId) (q : Place) : Prop where
  parsed : Parsed .argument x
  word : x.lead = .word → ∃ token value, p.current? = some token ∧
    x.node = .stringConstant value .bareWord ∧ IsBareWord token value
  other : x.lead ≠ .word → x.isArray = true ∨ LeadsAt p x.lead
  type : x.ending.type = true → ∀ token, q.current? = some token → startsOperand token = false

/-- An argument or a parameter of a command, from its first token to the place behind it. -/
structure ItemAt (p : Place) (x : Tree NodeId) (q : Place) : Prop where
  parsed : Parsed .item x
  alone : x.wordAlone = true
  dash : x.lead ≠ .dash
  leads : x.lead ≠ .word → x.lead ≠ .other → x.isArray = true ∨ LeadsAt p x.lead
  first : ∃ token, p.current? = some token ∧
    ∀ v, x.node = .stringConstant v .bareWord → IsBareWord token v
  type : x.ending.type = true → ∀ token, q.current? = some token → startsOperand token = false

theorem ArgumentAt.alone (h : ArgumentAt p x q) : x.wordAlone = true := by
  by_cases hw : x.lead = .word
  · obtain ⟨_, value, -, hnode, -⟩ := h.word hw
    simp [wordAlone, isWord, hnode]
  · simp [wordAlone, hw]

variable (hg : Sound g)
include hg

theorem operands_yields (h : Made i s t ts) :
    Outcome (operands g start) i t (Lost s) (Yields i s ts (OperandsAt t.place)) := by
  rw [operands]
  refine (hg.unary h).bind ?_
  rintro _ u ⟨first, hu, rfl, hfirst⟩
  rw [Outcome.peek_bind]
  split
  · refine (hu.afterCommas (R := fun id xs => ∃ x, xs = [x] ∧ x.label = id ∧
      Parsed (.level 7) x) fun hv => ?_).bind ?_
    · rw [Outcome.skipNewlines_bind]
      exact Yields.adds (hg.unary (hv.past _)) fun _ _ hx => hx.parsed
    · rintro ids v ⟨xs, hv, hxs⟩
      obtain ⟨rfl, hall⟩ := hxs.labels
      replace hv : Made i s v (ts ++ (first :: xs)) := by simpa using hv
      refine hv.add (n := .arrayLiteral (first :: xs)) (.refl _) rfl fun id => ⟨.mk' (.levelTarget (.targetSimple (.array nofun ?_))) trivial ?_,
          .inl rfl, ?_, nofun⟩
      · intro x hx
        rcases List.mem_cons.mp hx with rfl | hx
        · exact hfirst.parsed.fits
        · exact (hall x hx).fits
      · intro x hx
        rcases List.mem_cons.mp hx with rfl | hx
        · exact hfirst.parsed.placed
        · exact (hall x hx).placed
      · rw [ending_mk]
        exact nofun
  · exact ⟨first, hu, rfl, hfirst.parsed, .inr hfirst.leads, hfirst.met.type, hfirst.word⟩

theorem commandArgument_yields (h : Made i s t ts) :
    Outcome (commandArgument g) i t (Lost s) (Yields i s ts (ArgumentAt t.place)) := by
  have hbare {token : Token} (ht : t.place.current? = some token) (hstart : startsArgument token = true) :
      Outcome bareWord i t (Lost s) (Yields i s ts (ArgumentAt t.place)) := by
    refine (bareWord_yields h ht).imp fun id u hu => hu.imp ?_
    rintro x ⟨hplaced, value, hnode, hword⟩
    obtain ⟨token', ht', hvalue⟩ := hword.first
    obtain rfl := Option.some.inj (ht.symm.trans ht')
    have hlead := lead_of_node hnode
    refine ⟨⟨?_, hplaced⟩, fun _ => ⟨_, value, ht, hnode, hvalue⟩, fun hne => absurd hlead hne, ?_⟩
    · obtain ⟨l, n⟩ := x
      rw [node_mk] at hnode
      subst hnode
      exact .bareArgument hvalue hstart
    · obtain ⟨l, n⟩ := x
      rw [node_mk] at hnode
      subst hnode
      rw [ending_mk]
      exact nofun
  rw [commandArgument, Outcome.start_bind, Outcome.peek_bind]
  split
  · exact hbare ‹_› rfl
  · exact hbare ‹_› rfl
  · exact hbare ‹_› rfl
  · exact hbare ‹_› rfl
  · exact hbare ‹_› rfl
  · rename_i hword _ _ _ _
    refine (operands_yields hg h).imp fun id u hu => hu.imp fun x hx => ?_
    refine ⟨hx.parsed.lift .argumentOperand, fun hlead => ?_, fun _ => hx.leads, hx.type⟩
    rcases hx.leads with harray | ⟨token, ht, hl⟩
    · rw [lead_of_isArray harray] at hlead
      exact absurd hlead nofun
    · obtain ⟨w, rfl⟩ := word_of_lead (hl.symm.trans hlead)
      exact absurd ht (hword w)

theorem commandParameter_yields {w : String} (h : Made i s t ts)
    (ht : t.place.current? = some (.dashWord w)) :
    Outcome (commandParameter g w) i t (Lost s) (Yields i s ts (ItemAt t.place)) := by
  obtain ⟨cs, hcs⟩ := dashWord_toList (h.occurs ht)
  have hw : w = "-" ++ String.ofList cs := by
    rw [← String.toList_inj, hcs]
    simp
  have hocc := h.occurs ht
  have hitem {name : String} {argument : Option (Tree NodeId)} {l : NodeId} {q : Place}
      (hp : Parsed .item (.mk l (.commandParameter name argument)))
      (htype : ∀ x, argument = some x → x.ending.type = true →
        ∀ token, q.current? = some token → startsOperand token = false) :
      ItemAt t.place (.mk l (.commandParameter name argument)) q := by
    refine ⟨hp, rfl, by rw [lead_mk]; nofun, fun _ hne => ?_, ⟨_, ht, nofun⟩, ?_⟩
    · rw [lead_mk] at hne
      exact absurd rfl hne
    · rw [ending_mk]
      cases argument with
      | none => exact nofun
      | some x => exact htype x rfl
  rw [commandParameter, Outcome.start_bind, Outcome.advance_bind]
  by_cases hcolon : w.toList.getLast? = some ':'
  · rw [if_pos hcolon]
    refine (commandArgument_yields hg h.advance).bind ?_
    rintro _ u ⟨x, hu, rfl, hx⟩
    have hname : w = "-" ++ String.ofList (w.toList.dropLast.drop 1) ++ ":" := by
      obtain ⟨ds, hds⟩ := List.getLast?_eq_some_iff.mp hcolon
      cases ds with
      | nil => simp [hcs] at hds
      | cons d ds =>
        obtain ⟨rfl, -⟩ := List.cons.inj (hcs.symm.trans hds)
        rw [← String.toList_inj, hds, List.dropLast_concat]
        simp
    refine hu.add (n := .commandParameter _ (some x)) (.refl _) rfl fun id => hitem ?_ ?_
    · refine .mk' (.commandArgument (by rwa [← hname]) hx.parsed.fits) ?_ ?_
      · intro y hy
        rw [← Option.some.inj hy]
        exact hx.alone
      · intro c hc
        obtain rfl := List.mem_singleton.mp hc
        exact hx.parsed.placed
    · intro y hy
      rw [← Option.some.inj hy]
      exact hx.type
  · rw [if_neg hcolon]
    refine h.advance.addLeaf (n := .commandParameter (String.ofList (w.toList.drop 1)) none)
      rfl rfl fun id => hitem (.mk' (.commandParameter ?_ ?_) nofun
        nofun) nofun
    · rw [hcs, List.drop_succ_cons, List.drop_zero, ← hw]
      exact hocc
    · rw [hcs] at hcolon ⊢
      intro hlast
      rw [List.drop_succ_cons, List.drop_zero, String.toList_ofList] at hlast
      rw [List.getLast?_cons, hlast] at hcolon
      exact hcolon rfl

theorem commandElement_adds (h : Made i s t ts) :
    Outcome (commandElement g) i t (Lost s) (Adds i s ts fun o xs q => (o = none → xs = []) ∧
      ∀ id, o = some id → ∃ x, xs = [x] ∧ x.label = id ∧ ItemAt t.place x q) := by
  have hnone : Outcome (pure none) i t (Lost s) (Adds i s ts fun o xs q => (o = none → xs = []) ∧
      ∀ id, o = some id → ∃ x, xs = [x] ∧ x.label = id ∧ ItemAt t.place x q) :=
    ⟨[], by simpa using h, fun _ => rfl, nofun⟩
  rw [commandElement, Outcome.peek_bind]
  split
  · exact hnone
  · exact hnone
  · exact hnone
  · exact hnone
  · exact hnone
  · exact hnone
  · rename_i w hw
    refine (commandParameter_yields hg h hw).bind ?_
    rintro _ u ⟨x, hu, rfl, hx⟩
    exact ⟨[x], hu, nofun, fun id hid => ⟨x, rfl, Option.some.inj hid, hx⟩⟩
  · rename_i token _ _ _ _ _ hdash ht
    refine (commandArgument_yields hg h).bind ?_
    rintro _ u ⟨x, hu, rfl, hx⟩
    refine ⟨[x], hu, nofun, fun id hid => ⟨x, rfl, Option.some.inj hid, ?_⟩⟩
    refine ⟨hx.parsed.lift .itemArgument, hx.alone, fun hlead => ?_, fun hne _ => hx.other hne,
      ⟨token, ht, fun v hv => ?_⟩, hx.type⟩
    · rcases hx.other (by rw [hlead]; nofun) with harray | ⟨token', ht', hl⟩
      · rw [lead_of_isArray harray] at hlead
        exact absurd hlead nofun
      · rw [hlead] at hl
        cases token' with
        | dashWord w => exact hdash w (Option.some.inj (ht.symm.trans ht'))
        | mark m => cases m <;> exact absurd hl (by decide)
        | _ => exact absurd hl nofun
    · obtain ⟨token', value, ht', hnode, hvalue⟩ := hx.word (lead_of_node hv)
      rw [hv] at hnode
      obtain ⟨rfl, -⟩ := Node.stringConstant.inj hnode
      obtain rfl := Option.some.inj (ht.symm.trans ht')
      exact hvalue

omit hg in
theorem invocation?_finds (h : Made i s t ts) :
    Outcome invocation? i t (Lost s) fun o u => Made i s u ts ∧
      (o = none → u.place = t.place ∧ t.place.current? ≠ some (.mark .ampersand)) := by
  rw [invocation?, Outcome.peek_bind]
  split
  · rw [Outcome.advance_bind]
    exact ⟨h.advance, nofun⟩
  · rename_i hdot
    rw [Outcome.place_bind]
    split
    · refine ⟨h, fun _ => ⟨rfl, ?_⟩⟩
      rw [hdot]
      exact nofun
    · rw [Outcome.advance_bind]
      exact ⟨h.advance, nofun⟩
  · rename_i hamp _
    exact ⟨h, fun _ => ⟨rfl, hamp⟩⟩

/-- The tokens of a call by its name, up to the first argument. -/
def OpensCommand (p : Place) (x : Tree NodeId) : Prop :=
  ∀ name others, x.node = .command none (name :: others) → ∃ token value,
    p.current? = some token ∧ name.node = .stringConstant value .bareWord ∧
    IsBareWord token value ∧ ∀ y, others.head? = some y → (Token.word value).Occurs →
      ∃ next, p.next? = some next ∧
        (y.lead = .paren → next.lead = .paren ∨ y.isArray = true) ∧
        (y.lead = .brace → next.lead = .brace) ∧
        ∀ v, y.node = .stringConstant v .bareWord → IsBareWord next v

/-- A command may start at the place. -/
def CommandStart (later : Bool) (p : Place) : Prop :=
  ∃ token, p.current? = some token ∧ (startsName later token = true ∨ token = .mark .ampersand)

/-- The name of a command, from the place behind it. -/
structure NameAt (p : Place) (invocation : Option Invocation) (x : Tree NodeId) (q : Place) :
    Prop where
  placed : x.All (Placed isArray)
  alone : x.wordAlone = true
  type : x.ending.type = true → ∀ token, q.current? = some token → startsOperand token = false
  argument : invocation.isSome = true → x.Fits .argument
  word : invocation = none →
    ∃ value, x.node = .stringConstant value .bareWord ∧ BareWordAt p value q

/-- The elements of a command behind its name. -/
theorem commandElements_adds {invocation : Option Invocation} {name : Tree NodeId}
    (h : Made i s t (ts ++ [name])) (hname : NameAt p invocation name t.place) :
    Outcome (many (commandElement g)) i t (Lost s) fun ids u => ∃ xs,
      Made i s u (ts ++ name :: xs) ∧ ids = xs.map label ∧
      (∀ x ∈ xs, Parsed .item x ∧ x.wordAlone = true ∧ x.lead ≠ .dash) ∧
      Apart isArray (name :: xs) ∧ ∀ y, xs.head? = some y → ∃ q, ItemAt t.place y q := by
  -- The last element so far does not take in what comes next.
  let I (ids : List NodeId) (u : State) : Prop := ∃ xs,
    Made i s u (ts ++ name :: xs) ∧ ids = xs.map label ∧
    (∀ x ∈ xs, Parsed .item x ∧ x.wordAlone = true ∧ x.lead ≠ .dash) ∧
    Apart isArray (name :: xs) ∧ (∀ y, xs.head? = some y → ∃ q, ItemAt t.place y q) ∧
    (xs = [] → u.place = t.place) ∧
    ∃ zs z, name :: xs = zs ++ [z] ∧ (z.ending.type = true →
      ∀ token, u.place.current? = some token → startsOperand token = false)
  refine Outcome.many (I := I) ⟨[], h, rfl, nofun, trivial, nofun, fun _ => rfl, [], name, rfl,
    hname.type⟩ ?_ ?_
  · rintro ids u ⟨xs, hu, -⟩
    exact hu.toKept
  · rintro ids u ⟨xs, hu, rfl, hxs, hapart, hhead, hplace, zs, z, hlast, hz⟩
    refine (commandElement_adds hg hu).imp fun o v ⟨ys, hv, hnone, hsome⟩ => ⟨fun ho => ?_, ?_⟩
    · rw [hnone ho, List.append_nil] at hv
      exact ⟨xs, hv, rfl, hxs, hapart, hhead⟩
    · intro id ho
      obtain ⟨y, rfl, rfl, hy⟩ := hsome id ho
      refine ⟨xs ++ [y], by simpa using hv, by simp, ?_, ?_, ?_, by simp, zs ++ [z], y, ?_,
        hy.type⟩
      · intro x hx
        rcases List.mem_append.mp hx with hx | hx
        · exact hxs x hx
        · obtain rfl := List.mem_singleton.mp hx
          exact ⟨hy.parsed, hy.alone, hy.dash⟩
      · rw [← List.cons_append, hlast]
        refine Apart.append (hlast ▸ hapart) fun htype hoperand => ?_
        have hne (l : Lead) (hl : l.isOperand = false) : y.lead ≠ l := by
          rintro rfl
          rw [hl] at hoperand
          exact absurd hoperand nofun
        rcases hy.leads (hne _ rfl) (hne _ rfl) with harray | ⟨token, ht, hl⟩
        · exact harray
        · rw [hl, Token.lead_isOperand, hz htype token ht] at hoperand
          exact absurd hoperand nofun
      · intro x hx
        cases xs with
        | nil =>
          obtain rfl := Option.some.inj hx
          rw [← hplace rfl]
          exact ⟨_, hy⟩
        | cons w ws => exact hhead x hx
      · rw [← List.cons_append, hlast]

theorem command_yields {later : Bool} (h : Made i s t ts) (hstart : CommandStart later t.place) :
    Outcome (command g) i t (Lost s) (Yields i s ts fun x _ =>
      Parsed (.element later) x ∧ OpensCommand t.place x) := by
  obtain ⟨token, htoken, hname⟩ := hstart
  rw [command, Outcome.start_bind]
  refine (invocation?_finds h).bind ?_
  rintro invocation u ⟨hu, hnone⟩
  cases invocation with
  | some mark =>
    simp only [Option.isSome_some, if_true]
    refine (commandArgument_yields hg hu).bind ?_
    rintro _ v ⟨name, hv, rfl, hn⟩
    have hname : NameAt t.place (some mark) name v.place :=
      ⟨hn.parsed.placed, hn.alone, hn.type, fun _ => hn.parsed.fits, by simp⟩
    refine (commandElements_adds hg hv hname).bind ?_
    rintro _ w ⟨xs, hw, rfl, hxs, hapart, -⟩
    refine hw.add (n := .command (some mark) (name :: xs)) (.refl _) rfl fun id => ⟨.mk'
      (.invocation hn.parsed.fits fun x hx => (hxs x hx).1.fits) ⟨?_, ?_, hapart⟩ ?_,
        fun _ _ hnode => by cases hnode⟩
    · intro x hx
      rcases List.mem_cons.mp hx with rfl | hx
      · exact hn.alone
      · exact (hxs x hx).2.1
    · exact fun x hx => (hxs x hx).2.2
    · intro x hx
      rcases List.mem_cons.mp hx with rfl | hx
      · exact hn.parsed.placed
      · exact (hxs x hx).1.placed
  | none =>
    obtain ⟨hplace, hamp⟩ := hnone rfl
    simp only [Option.isSome_none, Bool.false_eq_true, if_false]
    refine (bareWord_yields hu (by rwa [hplace])).bind ?_
    rintro _ v ⟨name, hv, rfl, hplaced, value, hnode, hword⟩
    rw [hplace] at hword
    have hlead := lead_of_node hnode
    have halone : name.wordAlone = true := by simp [wordAlone, isWord, hnode]
    have htype : name.ending.type = false := by
      obtain ⟨l, n⟩ := name
      rw [node_mk] at hnode
      subst hnode
      rw [ending_mk]
      rfl
    have hfirst : NameAt t.place none name v.place :=
      ⟨hplaced, halone, by simp [htype], by simp, fun _ => ⟨value, hnode, hword⟩⟩
    refine (commandElements_adds hg hv hfirst).bind ?_
    rintro _ w ⟨xs, hw, rfl, hxs, hapart, hhead⟩
    obtain ⟨token', ht', hvalue⟩ := hword.first
    obtain rfl := Option.some.inj (htoken.symm.trans ht')
    refine hw.add (n := .command none (name :: xs)) (.refl _) rfl fun id => ⟨.mk' ?_
      ⟨?_, ?_, hapart⟩ ?_, ?_⟩
    · obtain ⟨l, n⟩ := name
      rw [node_mk] at hnode
      subst hnode
      refine .namedCommand hvalue (hname.resolve_right ?_) fun x hx => (hxs x hx).1.fits
      rintro rfl
      exact hamp htoken
    · intro x hx
      rcases List.mem_cons.mp hx with rfl | hx
      · exact halone
      · exact (hxs x hx).2.1
    · intro x hx
      rcases List.mem_cons.mp hx with rfl | hx
      · rw [hlead]
        simp
      · exact (hxs x hx).2.2
    · intro x hx
      rcases List.mem_cons.mp hx with rfl | hx
      · exact hplaced
      · exact (hxs x hx).1.placed
    · intro name' others hnode'
      obtain ⟨-, hcons⟩ := Node.command.inj hnode'
      obtain ⟨rfl, rfl⟩ := List.cons.inj hcons
      refine ⟨_, value, htoken, hnode, hvalue, fun y hy hocc => ?_⟩
      obtain ⟨q, hitem⟩ := hhead y hy
      obtain ⟨hq, hcur⟩ := hword.single hocc
      obtain ⟨next, hnext, hbare⟩ := hitem.first
      rw [hq] at hitem hnext
      refine ⟨next, by rwa [Place.next?_eq hcur], ?_, ?_, hbare⟩
      · intro hparen
        rcases hitem.leads (by simp [hparen]) (by simp [hparen]) with ha | ⟨token, ht, hl⟩
        · exact .inr ha
        · obtain rfl := Option.some.inj (hnext.symm.trans ht)
          exact .inl (hl.symm.trans hparen)
      · intro hbrace
        rcases hitem.leads (by simp [hbrace]) (by simp [hbrace]) with ha | ⟨token, ht, hl⟩
        · rw [lead_of_isArray ha] at hbrace
          cases hbrace
        · obtain rfl := Option.some.inj (hnext.symm.trans ht)
          exact hl.symm.trans hbrace

omit hg in
theorem atCommand_ite {α : Type} {later : Bool} {E : Failure → State → Prop} {Q : α → State → Prop}
    {r r' : Parser α} (h : CommandStart later s.place → Outcome r i s E Q)
    (h' : (∀ token, s.place.current? = some token → startsName later token = false) →
      Outcome r' i s E Q) :
    Outcome (atCommand later >>= fun b => if b = true then r else r') i s E Q := by
  simp only [atCommand, Outcome.assoc, Outcome.peek_bind]
  have hno : s.place.current? = none → Outcome r' i s E Q := by
    intro hnone
    refine h' fun token ht => ?_
    rw [hnone] at ht
    cases ht
  cases ht : s.place.current? with
  | none => exact hno ht
  | some token =>
    have hyes (hs : startsName later token = true ∨ token = .mark .ampersand) :
        Outcome r i s E Q := h ⟨token, ht, hs⟩
    have hnot (hs : startsName later token = false) : Outcome r' i s E Q := by
      refine h' fun token' ht' => ?_
      rwa [← Option.some.inj (ht.symm.trans ht')]
    cases token with
    | word w => exact hyes (.inl rfl)
    | mark m =>
      cases m with
      | ampersand => exact hyes (.inr rfl)
      | dot | backslash => exact hyes (.inl rfl)
      | question | percent =>
        cases later with
        | true => exact hyes (.inl rfl)
        | false => exact hnot rfl
      | _ => exact hnot rfl
    | _ => exact hnot rfl

omit hg in
theorem expressionElement_yields {later : Bool} {x : Tree NodeId} (h : Made i s t (ts ++ [x]))
    (hx : Parsed .expression x) (hlead : x.lead ≠ .word) :
    Outcome (expressionElement x.label) i t (Lost s) (Yields i s ts fun y _ =>
      Parsed (.element later) y ∧ y.node = .commandExpression x) := by
  rw [expressionElement, Outcome.get_bind]
  refine h.addAt (n := .commandExpression x) (.refl _) rfl fun id =>
    ⟨.mk' (.commandExpression hx.fits) hlead ?_, rfl⟩
  intro c hc
  obtain rfl := List.mem_singleton.mp hc
  exact hx.placed

omit hg in
theorem ExpressionAt.lead_ne_word {later : Bool} (hx : ExpressionAt p x q)
    (hp : ∀ token, p.current? = some token → startsName later token = false) :
    x.lead ≠ .word := by
  intro hlead
  rcases hx.leads with hparen | ⟨token, ht, hl⟩
  · rw [hlead] at hparen
    exact absurd hparen nofun
  · obtain ⟨w, rfl⟩ := word_of_lead (hl.symm.trans hlead)
    exact absurd (hp _ ht) nofun

theorem laterElement_yields (h : Made i s t ts) :
    Outcome (laterElement g) i t (Lost s) (Yields i s ts fun x _ =>
      Parsed (.element true) x) := by
  rw [laterElement, Outcome.skipNewlines_bind]
  refine atCommand_ite (fun hstart => ?_) fun hno => ?_
  · exact (command_yields hg (h.past _) hstart).imp fun id u hu => hu.imp fun x hx => hx.1
  · refine (hg.expression true (h.past _)).bind ?_
    rintro _ u ⟨x, hu, rfl, hx⟩
    exact (expressionElement_yields hu hx.parsed (hx.lead_ne_word hno)).imp
      fun id v hv => hv.imp fun y hy => hy.1

/-- A pipeline, from its first token on. -/
structure PipelineAt (p : Place) (x : Tree NodeId) : Prop where
  parsed : Parsed .pipeline x
  opens : Opens p x

theorem pipelineFrom_yields {first : Tree NodeId} (h : Made i s t (ts ++ [first]))
    (hfirst : Parsed (.element false) first) (hopens : OpensCommand p first) :
    Outcome (pipelineFrom g start first.label) i t (Lost s) (Yields i s ts fun x _ =>
      PipelineAt p x ∧ ∃ others, x.node = .pipeline (first :: others)) := by
  rw [pipelineFrom]
  refine (h.many (R := fun id xs => ∃ x, xs = [x] ∧ x.label = id ∧ Parsed (.element true) x)
    fun hu => ?_).bind ?_
  · rw [Outcome.eat_ite]
    constructor
    · intro _
      refine (laterElement_yields hg hu.advance).bind ?_
      rintro _ v ⟨x, hv, rfl, hx⟩
      exact ⟨[x], hv, nofun, fun id hid => ⟨x, rfl, Option.some.inj hid, hx⟩⟩
    · intro _
      exact ⟨[], by simpa using hu, fun _ => rfl, nofun⟩
  · rintro _ u ⟨xs, hu, hxs⟩
    obtain ⟨rfl, hall⟩ := hxs.labels
    replace hu : Made i s u (ts ++ (first :: xs)) := by simpa using hu
    refine hu.add (n := .pipeline (first :: xs)) (.refl _) rfl fun id => ⟨⟨.mk' (.pipeline hfirst.fits fun x hx => (hall x hx).fits) trivial ?_, ?_⟩,
        xs, rfl⟩
    · intro x hx
      rcases List.mem_cons.mp hx with rfl | hx
      · exact hfirst.placed
      · exact (hall x hx).placed
    · intro name others hcall
      refine hopens name others ?_
      simp only [call?, node_mk] at hcall
      split at hcall
      · rename_i hnode
        obtain ⟨rfl, rfl⟩ := Prod.mk.inj (Option.some.inj hcall)
        exact hnode
      · exact absurd hcall nofun

theorem pipeline_yields (h : Made i s t ts) :
    Outcome (pipeline g) i t (Lost s) (Yields i s ts fun x _ => PipelineAt t.place x) := by
  rw [pipeline, Outcome.start_bind]
  refine atCommand_ite (fun hstart => ?_) fun hno => ?_
  · refine (command_yields hg h hstart).bind ?_
    rintro _ u ⟨x, hu, rfl, hx, hopens⟩
    exact (pipelineFrom_yields hg hu hx hopens).imp fun id v hv => hv.imp fun y hy => hy.1
  · refine (hg.expression true h).bind ?_
    rintro _ u ⟨x, hu, rfl, hx⟩
    have hlead := hx.lead_ne_word hno
    rw [Outcome.peek_bind]
    split
    · rename_i operator _
      rw [Outcome.advance_bind, Outcome.skipNewlines_bind]
      refine (hg.statement (hu.advance.past _)).bind ?_
      rintro _ v ⟨right, hv, rfl, hright⟩
      replace hv : Made i s v (ts ++ [x, right]) := by simpa using hv
      refine hv.add (n := .assignment x operator right) (.refl _) rfl fun id =>
        ⟨.mk' (.assignment hx.parsed.fits hright.parsed.fits) ⟨hlead, hright.begins⟩ ?_,
          fun _ _ hnode => by cases hnode⟩
      simp only [Node.children, List.mem_cons, List.not_mem_nil, or_false]
      rintro c (rfl | rfl)
      · exact hx.parsed.placed
      · exact hright.parsed.placed
    · refine (@expressionElement_yields _ _ _ _ false _ hu hx.parsed hlead).bind ?_
      rintro _ v ⟨y, hv, rfl, hy, hnode⟩
      refine (pipelineFrom_yields hg (p := t.place) hv hy fun name others hcommand => ?_).imp
        fun id w hw => hw.imp fun z hz => hz.1
      rw [hnode] at hcommand
      cases hcommand

end ScriptInject.Grammar
