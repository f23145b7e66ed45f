import ScriptInject.Survey
/-! What a survey finds: nodes of the kinds that their markers are for, and the statements that
declare them. -/
namespace ScriptInject

variable {α β : Type} {a : Arena} {r : Role} {c : Candidate} {d i j : NodeId}

/-- The statement declares the variable at the end of the chain. -/
def Arena.Declares (a : Arena) (statement chain : NodeId) : Prop :=
  a.isChain chain = true ∧
    ((∃ element, a.get? statement = some (.pipeline [element]) ∧
        a.get? element = some (.commandExpression chain)) ∨
      ∃ operator right, a.get? statement = some (.assignment chain operator right))

/-- A statement declares one chain at most. -/
theorem Arena.Declares.unique (hi : a.Declares d i) (hj : a.Declares d j) : i = j := by
  rcases hi.2 with ⟨e, he, hi⟩ | ⟨op, right, hi⟩
  · rcases hj.2 with ⟨f, hf, hj⟩ | ⟨op, right, hj⟩
    · rw [he] at hf
      obtain rfl := (List.cons.inj (Node.pipeline.inj (Option.some.inj hf))).1
      rw [hi] at hj
      exact Node.commandExpression.inj (Option.some.inj hj)
    · rw [he] at hj
      exact absurd (Option.some.inj hj) nofun
  · rcases hj.2 with ⟨f, hf, hj⟩ | ⟨op, right, hj⟩
    · rw [hi] at hf
      exact absurd (Option.some.inj hf) nofun
    · rw [hi] at hj
      exact (Node.assignment.inj (Option.some.inj hj)).1

/-- The candidate is a node of the kind that a site is, with what declares it. -/
def Arena.Carries (a : Arena) (c : Candidate) : Site → Prop
  | .function => ∃ name isFilter parameters body,
    a.get? c.node = some (.functionDefinition name isFilter parameters body)
  | .parameter => ∃ attributes name value, a.get? c.node = some (.parameter attributes name value)
  | .variableChain => a.isChain c.node = true ∧
    ∀ d, c.declaration? = some d → a.Declares d c.node
  | .scriptBlock => a.isChain c.node = true

/-- The marker of the candidate gives it its role at its site. -/
def Arena.Filed (a : Arena) (r : Role) (c : Candidate) : Prop :=
  ∃ (marker : Marker) (site : Site), a.marker? c.mark = some marker ∧ marker.role? site = some r ∧
    a.Carries c site

/-- Where the markers of a role stand. -/
def Role.site : Role → Site
  | .injectVariable | .injectSecret | .injectDatabase | .injectConstant => .variableChain
  | .injectParameter => .parameter
  | .injectionSite | .startup | .onError | .onLoaded | .beforeUnload => .function
  | .injectTemplate => .scriptBlock

theorem Marker.site_of_role? {marker : Marker} {site : Site} (h : marker.role? site = some r) :
    site = r.site := by
  cases marker <;> cases site <;> simp only [role?, Option.some.injEq, reduceCtorEq] at h <;>
    rw [← h] <;> rfl

theorem Arena.Filed.carries (h : a.Filed r c) : a.Carries c r.site := by
  obtain ⟨marker, site, -, hrole, hc⟩ := h
  rwa [← Marker.site_of_role? hrole]

namespace Survey

/-- All that has been found is what its markers are for. -/
structure Found (a : Arena) (s : Survey) : Prop where
  candidates : ∀ p ∈ s.candidates, a.Filed p.1 p.2 ∧ p.1 ≠ .injectParameter
  parameters : ∀ p ∈ s.parameters, a.Filed .injectParameter p.2

structure Walk.Sound (a : Arena) (w : Walk) : Prop extends Found a w.found where
  declarations : ∀ p ∈ w.declarations, a.Declares p.2 p.1

/-- The walk stays sound, and its results have some property. -/
def Keeps (a : Arena) (m : Walking α) (Q : α → Prop) : Prop :=
  ∀ w : Walk, w.Sound a → match m w with
    | .ok (x, w) => w.Sound a ∧ Q x
    | .error _ => True

namespace Keeps

variable {m : Walking α} {f : α → Walking β} {P P' : α → Prop} {Q : β → Prop}

theorem pure {x : α} (h : P x) : Keeps a (pure x) P := fun _ hw => ⟨hw, h⟩

theorem bind (h : Keeps a m P) (hf : ∀ x, P x → Keeps a (f x) Q) : Keeps a (m >>= f) Q := by
  intro w hw
  have hrun := h w hw
  change match (m w >>= fun q => f q.1 q.2) with
    | .ok (y, w) => _
    | .error _ => _
  cases hm : m w with
  | error e => trivial
  | ok q =>
    rw [hm] at hrun
    exact hf q.1 hrun.2 q.2 hrun.1

theorem modify {g : Walk → Walk} (h : ∀ w : Walk, w.Sound a → (g w).Sound a) :
    Keeps a (modify g) fun _ => True := fun w hw => ⟨h w hw, trivial⟩

theorem get_bind {f : Walk → Walking β} (h : ∀ w : Walk, w.Sound a → Keeps a (f w) Q) :
    Keeps a (get >>= f) Q := fun w hw => h w hw w hw

theorem lift {r : Except ScriptError α} (h : ∀ x, r = .ok x → P x) :
    Keeps a (liftM r) P := by
  intro w hw
  cases r with
  | error e => trivial
  | ok x => exact ⟨hw, h x rfl⟩

theorem forM {g : α → Walking Unit} {xs : List α} (h : ∀ x ∈ xs, Keeps a (g x) fun _ => True) :
    Keeps a (xs.forM g) fun _ => True := by
  induction xs with
  | nil => exact .pure trivial
  | cons x xs ih =>
    refine (h x (by simp)).bind fun _ _ => ih fun y hy => h y (by simp [hy])

end Keeps

theorem addCandidate_keeps (h : a.Filed r c) (hr : r ≠ .injectParameter) :
    Keeps a (addCandidate r c) fun _ => True := by
  refine .modify fun w hw => ⟨⟨?_, hw.parameters⟩, hw.declarations⟩
  intro p hp
  rcases List.mem_append.mp hp with hp | hp
  · exact hw.candidates p hp
  · obtain rfl := List.mem_singleton.mp hp
    exact ⟨h, hr⟩

theorem addParameter_keeps {owner : NodeId} (h : a.Filed .injectParameter c) :
    Keeps a (addParameter owner c) fun _ => True := by
  refine .modify fun w hw => ⟨⟨hw.candidates, ?_⟩, hw.declarations⟩
  intro p hp
  rcases List.mem_append.mp hp with hp | hp
  · exact hw.parameters p hp
  · obtain rfl := List.mem_singleton.mp hp
    exact h

theorem warn_keeps (w : Warning) : Keeps a (warn w) fun _ => True :=
  .modify fun _ hw => ⟨⟨hw.candidates, hw.parameters⟩, hw.declarations⟩

theorem markDone_keeps (ids : List NodeId) : Keeps a (markDone ids) fun _ => True :=
  .modify fun _ hw => ⟨⟨hw.candidates, hw.parameters⟩, hw.declarations⟩

theorem declare_keeps (h : a.Declares d i) : Keeps a (declare i d) fun _ => True := by
  refine .modify fun w hw => ⟨hw.toFound, ?_⟩
  intro p hp
  rcases List.mem_cons.mp hp with rfl | hp
  · exact h
  · exact hw.declarations p hp

theorem fileMarks_keeps {attributes : List NodeId} {site : Option Site} {node : NodeId}
    {declaration? : Option NodeId} (hparameter : site ≠ some .parameter)
    (h : ∀ s mark, site = some s → a.Carries ⟨node, mark, declaration?⟩ s) :
    Keeps a (fileMarks a attributes site node declaration?) fun _ => True := by
  refine .forM fun mark _ => ?_
  cases hmarker : a.marker? mark with
  | none => exact .pure trivial
  | some marker =>
    dsimp only
    split
    · rename_i role hrole
      obtain ⟨s, rfl, hs⟩ := Option.bind_eq_some_iff.mp hrole
      refine addCandidate_keeps ⟨marker, s, hmarker, hs, h s mark rfl⟩ ?_
      rintro rfl
      cases s with
      | parameter => exact hparameter rfl
      | _ => cases marker <;> exact absurd hs nofun
    · exact warn_keeps _

theorem chainSite_eq {head last : NodeId} {site : Option Site}
    (h : chainSite a head last = .ok site) :
    site = some .variableChain ∨ site = some .scriptBlock ∨ site = none := by
  unfold chainSite at h
  split at h
  · exact .inl (Except.ok.inj h).symm
  · cases hn : a.node last with
    | error e =>
      rw [hn] at h
      exact absurd h nofun
    | ok n =>
      rw [hn] at h
      cases n with
      | scriptBlockExpression body => exact .inr (.inl (Except.ok.inj h).symm)
      | _ => exact .inr (.inr (Except.ok.inj h).symm)

theorem mem_of_lookup {ps : List (NodeId × NodeId)} (h : ps.lookup i = some j) : (i, j) ∈ ps := by
  obtain ⟨pre, post, rfl, -⟩ := List.lookup_eq_some_iff.mp h
  simp

theorem visitChain_keeps (h : a.isChain i = true) :
    Keeps a (visitChain a i) fun _ => True := by
  refine (Keeps.lift fun _ _ => trivial).bind fun chain _ => ?_
  refine (markDone_keeps _).bind fun _ _ => ?_
  refine (Keeps.lift fun _ hsite => chainSite_eq hsite).bind fun site hsite => ?_
  refine .get_bind fun w hw => ?_
  rcases hsite with rfl | rfl | rfl
  · refine fileMarks_keeps nofun fun s mark hs => ?_
    obtain rfl := Option.some.inj hs
    refine ⟨h, fun d hd => ?_⟩
    exact hw.declarations (i, d) (mem_of_lookup (by simpa using hd))
  · refine fileMarks_keeps nofun fun s mark hs => ?_
    obtain rfl := Option.some.inj hs
    exact h
  · exact fileMarks_keeps nofun nofun

theorem node_keeps {f : Node NodeId → Walking β} {Q : β → Prop}
    (h : ∀ n, a.get? i = some n → Keeps a (f n) Q) : Keeps a (do f (← a.node i)) Q := by
  intro w hw
  cases hn : a.get? i with
  | none =>
    have hnode : a.node i = .error (.missingNode i) := by
      rw [Arena.node, hn]
    rw [hnode]
    trivial
  | some n =>
    have hnode : a.node i = .ok n := by
      rw [Arena.node, hn]
    rw [hnode]
    exact h n hn w hw

theorem visitFunction_keeps {name : String} {isFilter : Bool} {parameters : List NodeId}
    (h : a.get? i = some (.functionDefinition name isFilter parameters j)) :
    Keeps a (visitFunction a i j) fun _ => True := by
  refine node_keeps fun n _ => ?_
  split
  · refine (markDone_keeps _).bind fun _ _ => node_keeps fun m _ => ?_
    split
    · refine fileMarks_keeps nofun fun s mark hs => ?_
      obtain rfl := Option.some.inj hs
      exact ⟨_, _, _, _, h⟩
    · exact .pure trivial
  · exact .pure trivial

theorem visitParameter_keeps {owner name : NodeId} {attributes : List NodeId}
    {value : Option NodeId} (h : a.get? i = some (.parameter attributes name value)) :
    Keeps a (visitParameter a owner i attributes) fun _ => True := by
  refine .forM fun mark _ => ?_
  cases hmarker : a.marker? mark with
  | none => exact .pure trivial
  | some marker =>
    dsimp only
    split
    · rename_i role hrole
      obtain rfl : role = .injectParameter := by
        cases marker <;> cases hrole <;> rfl
      exact addParameter_keeps ⟨marker, .parameter, hmarker, hrole, _, _, _, h⟩
    · exact warn_keeps _

theorem unlessDone_keeps {m : Walking Unit} (h : Keeps a m fun _ => True) :
    Keeps a (do unless ← isDone i do m) fun _ => True := by
  have hdone : Keeps a (isDone i) fun _ => True := fun _ hw => ⟨hw, trivial⟩
  refine hdone.bind fun done _ => ?_
  cases done with
  | false => exact h
  | true => exact .pure trivial

theorem visitNode_keeps {owner : NodeId} {n : Node NodeId} (h : a.get? i = some n) :
    Keeps a (visitNode a owner i n) fun _ => True := by
  unfold visitNode
  split
  · exact .modify fun _ hw => ⟨⟨hw.candidates, hw.parameters⟩, hw.declarations⟩
  · exact visitFunction_keeps h
  · exact unlessDone_keeps (fileMarks_keeps nofun nofun)
  · exact visitParameter_keeps h
  · split
    · rename_i hexpression
      split
      · rename_i hchain
        exact declare_keeps ⟨hchain, .inl ⟨_, h, hexpression⟩⟩
      · exact .pure trivial
    · exact .pure trivial
  · split
    · rename_i hchain
      exact declare_keeps ⟨hchain, .inr ⟨_, _, h⟩⟩
    · exact .pure trivial
  · refine unlessDone_keeps (visitChain_keeps ?_)
    rw [Arena.isChain, h]
  · refine unlessDone_keeps (visitChain_keeps ?_)
    rw [Arena.isChain, h]
  · exact .pure trivial

theorem visitUpTo_keeps {depth : Nat} {owner : NodeId} :
    Keeps a (visitUpTo a depth owner i) fun _ => True := by
  induction depth generalizing owner i with
  | zero => exact fun _ _ => trivial
  | succ depth ih =>
    refine node_keeps fun n hn => ?_
    exact (visitNode_keeps hn).bind fun _ _ => .forM fun _ _ => ih

/-- A survey finds nothing but what its markers are for. -/
theorem found_of_ofArena? {s : Survey} (h : ofArena? a = .ok s) : Found a s := by
  unfold ofArena? at h
  cases hroot : a.root with
  | error e =>
    rw [hroot] at h
    cases h
  | ok root =>
    rw [hroot] at h
    have hrun := @visitUpTo_keeps a root a.depthBound root {}
      ⟨⟨by simp, by simp⟩, by simp⟩
    change (visitUpTo a a.depthBound root root {}).bind (fun x => .ok x.2.found) = .ok s at h
    cases hv : visitUpTo a a.depthBound root root {} with
    | error e =>
      rw [hv] at h
      cases h
    | ok q =>
      rw [hv] at h hrun
      obtain rfl := Except.ok.inj h
      exact hrun.1.toFound

end Survey

end ScriptInject
