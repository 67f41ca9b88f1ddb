/-
  Slices of a text at byte offsets.

  Offsets count the bytes of the UTF-8 form.  A text can be cut where a character
  ends; past the end of the text or inside of a character an offset has no place,
  and a slice there is undefined (`none`).
-/
namespace ConstRestore.Text

/-- The bytes that a text takes. -/
def byteLength : List Char → Nat
  | [] => 0
  | c :: s => c.utf8Size + byteLength s

/-- Cuts a text at an offset. -/
def cut? : List Char → Nat → Option (List Char × List Char)
  | s, 0 => some ([], s)
  | [], _ + 1 => none
  | c :: s, offset + 1 =>
    if c.utf8Size ≤ offset + 1 then
      (cut? s (offset + 1 - c.utf8Size)).map fun (before, after) => (c :: before, after)
    else none

/-- The text from an offset on. -/
def sliceFrom? (s : List Char) (start : Nat) : Option (List Char) := (cut? s start).map (·.2)

/-- The text up to an offset. -/
def sliceTo? (s : List Char) (stop : Nat) : Option (List Char) := (cut? s stop).map (·.1)

/-- The text between two offsets. -/
def slice? (s : List Char) (start stop : Nat) : Option (List Char) :=
  if start ≤ stop then (sliceFrom? s start).bind (sliceTo? · (stop - start)) else none

/-- The offset of the first place of a character. -/
def find? (c : Char) (s : List Char) : Option Nat :=
  if c ∈ s then some (byteLength (s.takeWhile (· ≠ c))) else none

/-- The difference of two lengths, undefined if it is negative. -/
def lengthDifference? (m n : Nat) : Option Nat := if n ≤ m then some (m - n) else none

@[simp] theorem byteLength_nil : byteLength [] = 0 := rfl

@[simp] theorem byteLength_cons (c : Char) (s : List Char) :
    byteLength (c :: s) = c.utf8Size + byteLength s := rfl

@[simp] theorem byteLength_append (s t : List Char) :
    byteLength (s ++ t) = byteLength s + byteLength t := by
  induction s with
  | nil => simp
  | cons c s ih => simp [ih, Nat.add_assoc]

theorem cut?_append (s t : List Char) : cut? (s ++ t) (byteLength s) = some (s, t) := by
  induction s with
  | nil => rw [byteLength_nil, List.nil_append, cut?]
  | cons c s ih =>
    obtain ⟨offset, hoffset⟩ := Nat.exists_eq_add_one_of_ne_zero
      (Nat.ne_of_gt (Nat.add_pos_left c.utf8Size_pos (byteLength s)))
    rw [byteLength_cons, hoffset, List.cons_append, cut?, ← hoffset, if_pos (Nat.le_add_right ..),
      Nat.add_sub_cancel_left, ih]
    rfl

/-- An offset has a place exactly where the characters before it take as many bytes. -/
theorem cut?_eq_some {s before after : List Char} {offset : Nat} :
    cut? s offset = some (before, after) ↔ s = before ++ after ∧ byteLength before = offset := by
  refine ⟨fun h => ?_, ?_⟩
  · fun_induction cut? s offset generalizing before after with
    | case1 s =>
      obtain ⟨rfl, rfl⟩ := Prod.mk.inj (Option.some.inj h)
      exact ⟨rfl, rfl⟩
    | case2 => cases h
    | case3 c s offset hle ih =>
      obtain ⟨⟨before', after'⟩, hcut, heq⟩ := Option.map_eq_some_iff.1 h
      obtain ⟨rfl, rfl⟩ := Prod.mk.inj heq
      obtain ⟨rfl, hlength⟩ := ih hcut
      exact ⟨rfl, by rw [byteLength_cons, hlength]; omega⟩
    | case4 => cases h
  · rintro ⟨rfl, rfl⟩
    exact cut?_append before after

theorem sliceFrom?_append (s t : List Char) : sliceFrom? (s ++ t) (byteLength s) = some t := by
  rw [sliceFrom?, cut?_append]
  rfl

theorem sliceTo?_append (s t : List Char) : sliceTo? (s ++ t) (byteLength s) = some s := by
  rw [sliceTo?, cut?_append]
  rfl

theorem slice?_append (s t u : List Char) :
    slice? (s ++ (t ++ u)) (byteLength s) (byteLength s + byteLength t) = some t := by
  rw [slice?, if_pos (Nat.le_add_right ..), sliceFrom?_append, Option.bind_some,
    Nat.add_sub_cancel_left, sliceTo?_append]

theorem lengthDifference?_append (s t : List Char) :
    lengthDifference? (byteLength (s ++ t)) (byteLength t) = some (byteLength s) := by
  rw [byteLength_append, lengthDifference?, if_pos (Nat.le_add_left ..), Nat.add_sub_cancel]

/-- What is left from a positive offset on is shorter. -/
theorem length_sliceFrom?_lt {s t : List Char} {start : Nat} (hstart : start ≠ 0)
    (h : sliceFrom? s start = some t) : t.length < s.length := by
  obtain ⟨⟨before, after⟩, hcut, rfl⟩ := Option.map_eq_some_iff.1 h
  obtain ⟨rfl, hlength⟩ := cut?_eq_some.1 hcut
  have hbefore : before ≠ [] := by
    rintro rfl
    exact hstart hlength.symm
  rw [List.length_append]
  exact Nat.lt_add_of_pos_left (List.length_pos_iff.2 hbefore)

end ConstRestore.Text
