/-! Pieces of a text, measured in UTF-8 bytes or found by what they hold. -/
namespace ScriptInject.Text

/-- The number of UTF-8 bytes of a text. -/
def size (cs : List Char) : Nat := cs.foldr (fun c n => c.utf8Size + n) 0

/-- The text after its first `n` bytes, unless that point lies inside a character or past the
end. -/
def dropBytes? : Nat → List Char → Option (List Char)
  | 0, cs => some cs
  | _ + 1, [] => none
  | n + 1, c :: cs => if c.utf8Size ≤ n + 1 then dropBytes? (n + 1 - c.utf8Size) cs else none

/-- The first `n` bytes of a text, unless that point lies inside a character or past the end. -/
def takeBytes? : Nat → List Char → Option (List Char)
  | 0, _ => some []
  | _ + 1, [] => none
  | n + 1, c :: cs =>
    if c.utf8Size ≤ n + 1 then (takeBytes? (n + 1 - c.utf8Size) cs).map (c :: ·) else none

/-- The bytes from `start` up to `stop`, if both fall between characters in this order. -/
def slice? (cs : List Char) (start stop : Nat) : Option (List Char) :=
  if start ≤ stop then (dropBytes? start cs).bind (takeBytes? (stop - start)) else none

/-- How many characters stand before the first occurrence of `pattern`. -/
def find? (pattern : List Char) : List Char → Option Nat
  | [] => if pattern.isEmpty then some 0 else none
  | c :: cs => if pattern.isPrefixOf (c :: cs) then some 0 else (find? pattern cs).map (· + 1)

/-- The part after the last `separator`, or the whole text without one. -/
def afterLast (separator : Char) (s : String) : String :=
  String.ofList (s.toList.reverse.takeWhile (· != separator)).reverse

@[simp] theorem size_nil : size [] = 0 := rfl

@[simp] theorem size_cons (c : Char) (cs : List Char) :
    size (c :: cs) = c.utf8Size + size cs := rfl

@[simp] theorem size_append (cs ds : List Char) : size (cs ++ ds) = size cs + size ds := by
  induction cs with
  | nil => simp
  | cons c cs ih => rw [List.cons_append, size_cons, size_cons, ih, Nat.add_assoc]

theorem dropBytes?_size_append (cs ds : List Char) : dropBytes? (size cs) (cs ++ ds) = some ds := by
  induction cs with
  | nil => cases ds <;> rfl
  | cons c cs ih =>
    obtain ⟨n, hn⟩ : ∃ n, c.utf8Size + size cs = n + 1 :=
      ⟨_, (Nat.succ_pred (by have := c.utf8Size_pos; omega)).symm⟩
    have hle : c.utf8Size ≤ n + 1 := by omega
    have hsub : n + 1 - c.utf8Size = size cs := by omega
    simp [hn, dropBytes?, hle, hsub, ih]

theorem takeBytes?_size_append (cs ds : List Char) : takeBytes? (size cs) (cs ++ ds) = some cs := by
  induction cs with
  | nil => cases ds <;> rfl
  | cons c cs ih =>
    obtain ⟨n, hn⟩ : ∃ n, c.utf8Size + size cs = n + 1 :=
      ⟨_, (Nat.succ_pred (by have := c.utf8Size_pos; omega)).symm⟩
    have hle : c.utf8Size ≤ n + 1 := by omega
    have hsub : n + 1 - c.utf8Size = size cs := by omega
    simp [hn, takeBytes?, hle, hsub, ih]

theorem takeBytes?_eq {n : Nat} {cs ds : List Char} (h : takeBytes? n cs = some ds) :
    size ds = n ∧ cs = ds ++ cs.drop ds.length := by
  induction cs generalizing n ds with
  | nil =>
    cases n with
    | zero => simp_all [takeBytes?]
    | succ n => simp [takeBytes?] at h
  | cons c cs ih =>
    cases n with
    | zero =>
      obtain rfl : [] = ds := by simpa [takeBytes?] using h
      exact ⟨rfl, rfl⟩
    | succ n =>
      rw [takeBytes?] at h
      split at h
      · obtain ⟨es, hes, rfl⟩ := Option.map_eq_some_iff.mp h
        obtain ⟨hsize, hcs⟩ := ih hes
        refine ⟨by rw [size_cons, hsize]; omega, ?_⟩
        simpa using hcs
      · exact absurd h nofun

theorem slice?_append (cs ds es : List Char) :
    slice? (cs ++ ds ++ es) (size cs) (size cs + size ds) = some ds := by
  have hsub : size cs + size ds - size cs = size ds := by omega
  simp [slice?, dropBytes?_size_append, hsub, takeBytes?_size_append]

end ScriptInject.Text
