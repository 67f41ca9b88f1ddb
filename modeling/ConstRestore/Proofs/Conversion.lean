/-
  Conversions between data types, on values and on the machine.

  * A conversion goes through the promoted type (`Value.cast_promote`): first
    the stack kind changes, then an int may be narrowed.
  * `run?_convert`: the instructions of `convert` turn the word of a value into
    the word of its conversion.
  * `word_eq_iff_not_flipsSign`: where a value converts exactly between types
    that are ints on the stack, its word stays the same unless the conversion
    reads a sign bit as a magnitude bit or the other way round
    (`Value.FlipsSign`).
-/
import ConstRestore.Proofs.Machine

namespace ConstRestore

open Ieee (Number single)

variable {r : Registry}

/-! ## Integers of different widths -/

theorem toUInt16_toUInt64 (i : Int64) : i.toUInt64.toUInt16 = i.toInt32.toUInt32.toUInt16 := by
  rw [← UInt64.toUInt16_toUInt32]
  congr 1
  apply UInt32.toBitVec_inj.1
  change BitVec.setWidth 32 i.toBitVec = BitVec.signExtend 32 i.toBitVec
  rw [BitVec.signExtend_eq_setWidth_of_le _ (by decide)]

theorem toInt32_toUInt64 (i : Int64) : i.toUInt64.toUInt32.toInt32 = i.toInt32 := by
  apply Int32.toBitVec_inj.1
  change BitVec.setWidth 32 i.toBitVec = BitVec.signExtend 32 i.toBitVec
  rw [BitVec.signExtend_eq_setWidth_of_le _ (by decide)]

theorem toInt_ofUnit (c : UInt16) : c.toUInt32.toInt32.toInt = c.toNat := by
  have : c.toNat < 2 ^ 16 := c.toNat_lt
  change (c.toBitVec.setWidth 32).toInt = c.toNat
  rw [BitVec.toInt_eq_toNat_bmod, BitVec.toNat_setWidth, UInt16.toNat_toBitVec,
    Int.bmod_eq_of_le] <;> omega

/-- A UTF-16 code unit is never negative, so zeros extend it at every width. -/
theorem toInt64_ofUnit (c : UInt16) : c.toUInt64.toInt64 = c.toUInt32.toInt32.toInt64 := by
  apply Int64.toInt_inj.1
  rw [Int32.toInt_toInt64, toInt_ofUnit]
  have : c.toNat < 2 ^ 16 := c.toNat_lt
  change (c.toBitVec.setWidth 64).toInt = c.toNat
  rw [BitVec.toInt_eq_toNat_bmod, BitVec.toNat_setWidth, UInt16.toNat_toBitVec,
    Int.bmod_eq_of_le] <;> omega

theorem toNat_toUnit (i : Int64) : (i.toUInt64.toUInt16.toNat : Int) = i.toInt % 2 ^ 16 := by
  have h : i.toInt = i.toBitVec.toInt := rfl
  have h' : i.toUInt64.toUInt16.toNat = i.toBitVec.toNat % 2 ^ 16 := rfl
  rw [h, h', BitVec.toInt_eq_toNat_bmod, Int.bmod]
  have := i.toBitVec.isLt
  split <;> omega

/-! ## Values -/

/-- The integer that a word holds. -/
def Word.toInt64? : Word → Option Int64
  | int v => some v.toInt64
  | long v => some v
  | _ => none

namespace Value

theorem cast_self (v : Value) : v.cast v.dataType = some v := by simp [cast]

theorem dataType_of_cast {v w : Value} {t : DataType} (h : v.cast t = some w) :
    w.dataType = t := by
  unfold cast at h
  split_ifs at h with h₁ h₂
  · cases h; exact h₁
  · split at h
    · cases t <;> cases h <;> rfl
    · obtain ⟨x, -, h⟩ := Option.bind_eq_some_iff.1 h
      cases t <;> cases h <;> rfl

theorem isPrimitive_of_cast {v w : Value} {t : DataType} (h : v.cast t = some w)
    (ht : t.isPrimitive) : v.dataType.isPrimitive := by
  unfold cast at h
  split_ifs at h with h₁ h₂
  · rw [h₁]; exact ht
  · simp only [Bool.or_eq_true, Bool.not_eq_true', not_or, Bool.not_eq_false] at h₂
    exact h₂.1

theorem exists_cast {v : Value} {t : DataType} (hv : v.dataType.isPrimitive) (ht : t.isPrimitive) :
    ∃ w, v.cast t = some w := by
  cases t with
  | string | class_ => exact absurd ht (by decide)
  | byte | short | char | int | long | float | double =>
    cases v with
    | string | class_ => exact absurd hv Bool.false_ne_true
    | byte | short | char | int | long | float | double => exact ⟨_, rfl⟩

theorem exists_int {v : Value} (h : v.dataType = .int) : ∃ n, v = .int n := by
  cases v <;> cases h
  exact ⟨_, rfl⟩

theorem exists_char {v : Value} (h : v.dataType = .char) : ∃ c, v = .char c := by
  cases v <;> cases h
  exact ⟨_, rfl⟩

theorem exists_toInt64 {v : Value} (h : v.dataType.isIntegral) : ∃ i, v.toInt64? = some i := by
  cases v <;> first | exact ⟨_, rfl⟩ | exact absurd h Bool.false_ne_true

/-- A conversion goes through the promoted type. -/
theorem cast_promote {v u : Value} {t : DataType} (h : v.cast t.promote = some u) :
    v.cast t = u.cast t := by
  have hu := dataType_of_cast h
  cases t with
  | int | long | float | double | string | class_ => exact h.trans (hu ▸ cast_self u).symm
  | byte | short | char =>
    cases v <;> cases h <;>
      simp [cast, ofInt64, ofDouble, toInt64?, toDouble?, dataType, DataType.isPrimitive,
        toUInt16_toUInt64, toInt64_ofUnit]

/-- A word holds the integer that the value is. -/
theorem toInt64?_word (v : Value) : v.word.toInt64? = v.toInt64? := by
  cases v <;> simp [word, Word.toInt64?, toInt64?, toInt64_ofUnit]

theorem word_of_toInt64 {v : Value} {i : Int64} (h : v.toInt64? = some i)
    (hk : v.dataType.stackKind = .int) : v.word = .int i.toInt32 := by
  cases v with
  | byte | short | char | int => cases h; simp [word, toInt64_ofUnit]
  | long | float | double | string | class_ =>
    exact absurd hk (by simp [dataType, DataType.stackKind])

end Value

/-! ## The machine -/

/-- The change of the stack kind converts to the promoted type. -/
theorem run?_kindConversion {v u : Value} {t : DataType} (st : List Word)
    (h : v.cast t.promote = some u) :
    run? r (kindConversion v.dataType t) (v.word :: st) = some (u.word :: st) := by
  cases v <;> cases t <;> cases h <;>
    simp only [kindConversion, Value.dataType, DataType.stackKind, StackKind.numKind?, reduceCtorEq,
      if_false, if_true] <;>
    simp [run?_cons, Instr.exec?, Opcode.exec?, Word.kind?, NumKind.convert?, Value.word,
      toInt64_ofUnit]

/-- Widening leaves an int as it is. -/
theorem word_cast_of_widensTo {v w : Value} {t : DataType} (hw : v.cast t = some w)
    (ht : t.stackKind = .int) (h : v.dataType.widensTo t) : w.word = v.word := by
  cases v <;> cases t <;>
    first
    | exact absurd h Bool.false_ne_true
    | exact absurd ht (by decide)
    | cases hw; first | rfl | simp [Value.word, toInt64_ofUnit]

theorem widensTo_int {s t : DataType} (h : s.widensTo t) (ht : t.stackKind = .int) :
    s.widensTo .int := by
  cases s <;> cases t <;>
    first
    | rfl
    | exact absurd h Bool.false_ne_true
    | exact absurd ht (by decide)

theorem run?_narrowing {n : Int32} {w : Value} {s t : DataType} (st : List Word)
    (hw : (Value.int n).cast t = some w) (ht : t.stackKind = .int)
    (h : s.widensTo t → w.word = .int n) :
    run? r (narrowing s t) (.int n :: st) = some (w.word :: st) := by
  unfold narrowing
  split_ifs with hs
  · rw [h hs, run?_nil]
  · cases t with
    | byte | short | char =>
      cases hw
      simp [run?_cons, Instr.exec?, Opcode.exec?, Narrow.apply, Value.word, toUInt16_toUInt64]
    | int => cases hw; rfl
    | long | float | double | string | class_ => exact absurd ht (by decide)

theorem narrowing_eq_nil {s t : DataType} (h : s.widensTo t ∨ t.promote = t) :
    narrowing s t = [] := by
  unfold narrowing
  split_ifs with hs
  · rfl
  · cases t with
    | byte | short | char => exact absurd (h.resolve_left hs) (by decide)
    | int | long | float | double | string | class_ => rfl

theorem isPrimitive_of_convert {s t : DataType} {code : List Instr} (hst : s ≠ t)
    (h : convert s t = .ok code) : s.isPrimitive ∧ t.isPrimitive := by
  unfold convert at h
  rw [if_neg hst] at h
  split_ifs at h with hp
  simpa using hp

theorem convert_of_ne {s t : DataType} (hst : s ≠ t) (hs : s.isPrimitive) (ht : t.isPrimitive) :
    convert s t = .ok (kindConversion s t ++ narrowing s t) := by
  simp [convert, hst, hs, ht]

/-- **The instructions of a conversion convert.** -/
theorem run?_convert {v w : Value} {t : DataType} {code : List Instr} (st : List Word)
    (hc : convert v.dataType t = .ok code) (hw : v.cast t = some w) :
    run? r code (v.word :: st) = some (w.word :: st) := by
  by_cases hvt : v.dataType = t
  · subst hvt
    obtain rfl : v = w := Option.some.inj (v.cast_self.symm.trans hw)
    obtain rfl : [] = code := by simpa [convert] using hc
    rfl
  · obtain ⟨hv, ht⟩ := isPrimitive_of_convert hvt hc
    obtain ⟨u, hu⟩ := Value.exists_cast (t := t.promote) hv (by cases t <;> trivial)
    obtain rfl := Except.ok.inj ((convert_of_ne hvt hv ht).symm.trans hc)
    rw [run?_append, run?_kindConversion st hu, Option.bind_some]
    have hut := Value.dataType_of_cast hu
    have hw' := (Value.cast_promote hu).symm.trans hw
    by_cases hp : t.promote = t
    · rw [narrowing_eq_nil (.inr hp), run?_nil]
      obtain rfl : u = w := Option.some.inj (u.cast_self.symm.trans ((hut.trans hp) ▸ hw'))
      rfl
    · obtain ⟨ht, hi⟩ : t.stackKind = .int ∧ t.promote = .int := by
        cases t <;> first | exact ⟨rfl, rfl⟩ | exact absurd rfl hp
      obtain ⟨n, rfl⟩ : ∃ n, u = .int n := Value.exists_int (hut.trans hi)
      refine run?_narrowing st hw' ht fun hs => ?_
      have hsp : v.dataType.widensTo t.promote := hi ▸ widensTo_int hs ht
      rw [word_cast_of_widensTo hw ht hs, ← word_cast_of_widensTo hu (by rw [hi]; rfl) hsp]
      rfl

/-! ## Exact conversions -/

namespace Value

/-- Whether a conversion reads a sign bit as a bit of the magnitude, or the
    other way round. -/
def FlipsSign (v : Value) (t : DataType) : Prop :=
  match v, t with
  | byte n, .char => n < 0
  | short n, .char => n < 0
  | char c, .byte => 0xff80 ≤ c
  | char c, .short => 0x8000 ≤ c
  | _, _ => False

instance (v : Value) (t : DataType) : Decidable (v.FlipsSign t) := by
  unfold FlipsSign
  split <;> infer_instance

theorem stackKind_of_flipsSign {v : Value} {t : DataType} (h : v.FlipsSign t) :
    v.dataType.stackKind = .int ∧ t.stackKind = .int := by
  cases v <;> cases t <;> first | exact ⟨rfl, rfl⟩ | exact h.elim

theorem convertExact_eq_some {v w : Value} {t : DataType} :
    v.convertExact t = some w ↔ v.cast t = some w ∧ w.cast v.dataType = some v := by
  simp only [convertExact, Option.bind_eq_bind, Option.bind_eq_some_iff]
  constructor
  · rintro ⟨u, hu, b, hb, h⟩
    split_ifs at h with hbv
    cases h
    exact ⟨hu, hbv ▸ hb⟩
  · rintro ⟨hw, hv⟩
    exact ⟨w, hw, v, hv, if_pos rfl⟩

theorem dataType_of_convertExact {v w : Value} {t : DataType} (h : v.convertExact t = some w) :
    w.dataType = t :=
  dataType_of_cast (convertExact_eq_some.1 h).1

theorem convertExact_self (v : Value) : v.convertExact v.dataType = some v :=
  convertExact_eq_some.2 ⟨cast_self v, cast_self v⟩

theorem toInt_of_signed {v : Value} {i : Int64} {n : Nat} (hi : v.toInt64? = some i)
    (hn : v.dataType.width? = some n) (hc : v.dataType ≠ .char) :
    -2 ^ (n - 1) ≤ i.toInt ∧ i.toInt < 2 ^ (n - 1) := by
  cases v with
  | byte x => cases hi; cases hn; rw [Int8.toInt_toInt64]; exact ⟨x.le_toInt, x.toInt_lt⟩
  | short x => cases hi; cases hn; rw [Int16.toInt_toInt64]; exact ⟨x.le_toInt, x.toInt_lt⟩
  | int x => cases hi; cases hn; rw [Int32.toInt_toInt64]; exact ⟨x.le_toInt, x.toInt_lt⟩
  | long => cases hi; cases hn; exact ⟨i.le_toInt, i.toInt_lt⟩
  | char => exact absurd rfl hc
  | float | double | string | class_ => cases hi

theorem toInt_of_char {v : Value} {i : Int64} (hi : v.toInt64? = some i) (hc : v.dataType = .char) :
    0 ≤ i.toInt ∧ i.toInt < 2 ^ 16 := by
  obtain ⟨c, rfl⟩ := exists_char hc
  have := c.toNat_lt
  cases hi
  rw [toInt64_ofUnit, Int32.toInt_toInt64, toInt_ofUnit]
  omega

/-- The code unit that a signed value is cast to, against its sign. -/
theorem char_of_signed {v : Value} {i : Int64} {c : UInt16} (hi : v.toInt64? = some i)
    (hc : v.cast .char = some (char c)) (hv : v.dataType = .byte ∨ v.dataType = .short) :
    ((char c).word = v.word ↔ 0 ≤ i.toInt) ∧ ((char c).FlipsSign v.dataType ↔ ¬0 ≤ i.toInt) := by
  have hci : (c.toNat : Int) = i.toInt % 2 ^ 16 := by
    rcases hv with hv | hv <;> cases v <;> cases hv <;> cases hi <;> cases hc <;>
      exact toNat_toUnit _
  have hw : v.word = .int i.toInt32 :=
    word_of_toInt64 hi (by rcases hv with hv | hv <;> rw [hv] <;> rfl)
  have hr : -2 ^ 15 ≤ i.toInt ∧ i.toInt < 2 ^ 15 := by
    rcases hv with hv | hv
    · have := toInt_of_signed hi (n := 8) (by rw [hv]; rfl) (by rw [hv]; decide); omega
    · exact toInt_of_signed hi (n := 16) (by rw [hv]; rfl) (by rw [hv]; decide)
  constructor
  · rw [hw, word, Word.int.injEq, ← Int32.toInt_inj, toInt_ofUnit, Int64.toInt_toInt32,
      Int.bmod_eq_of_le (by omega) (by omega)]
    omega
  · rcases hv with hv | hv
    · have := toInt_of_signed hi (n := 8) (by rw [hv]; rfl) (by rw [hv]; decide)
      simp only [hv, FlipsSign, UInt16.le_iff_toNat_le, UInt16.reduceToNat]
      omega
    · simp only [hv, FlipsSign, UInt16.le_iff_toNat_le, UInt16.reduceToNat]
      omega

theorem flipsSign_char_iff {v : Value} {i : Int64} (hi : v.toInt64? = some i)
    (hv : v.dataType = .byte ∨ v.dataType = .short) : v.FlipsSign .char ↔ ¬0 ≤ i.toInt := by
  rcases hv with hv | hv <;> cases v <;> cases hv <;> cases hi <;>
    simp [FlipsSign, Int8.lt_iff_toInt_lt, Int16.lt_iff_toInt_lt]

/-- A conversion that flips the sign is exact. -/
theorem convertExact_of_flipsSign {v : Value} {t : DataType} (h : v.FlipsSign t) :
    ∃ w, v.convertExact t = some w := by
  cases v with
  | byte n =>
    cases t <;> first | exact h.elim | skip
    refine ⟨_, convertExact_eq_some.2 ⟨rfl, congrArg (some ∘ byte) (Int8.toInt_inj.1 ?_)⟩⟩
    have hc := toNat_toUnit n.toInt64
    have := n.toInt_lt
    have := n.le_toInt
    rw [Int8.toInt_toInt64] at hc
    rw [Int64.toInt_toInt8, toInt64_ofUnit, Int32.toInt_toInt64, toInt_ofUnit, hc, Int.bmod_def]
    omega
  | short n =>
    cases t <;> first | exact h.elim | skip
    refine ⟨_, convertExact_eq_some.2 ⟨rfl, congrArg (some ∘ short) (Int16.toInt_inj.1 ?_)⟩⟩
    have hc := toNat_toUnit n.toInt64
    have := n.toInt_lt
    have := n.le_toInt
    rw [Int16.toInt_toInt64] at hc
    rw [Int64.toInt_toInt16, toInt64_ofUnit, Int32.toInt_toInt64, toInt_ofUnit, hc, Int.bmod_def]
    omega
  | char c =>
    have := c.toNat_lt
    cases t <;> first | exact h.elim | skip
    · refine ⟨_, convertExact_eq_some.2 ⟨rfl, congrArg (some ∘ char) (UInt16.toNat_inj.1 ?_)⟩⟩
      have hc := toNat_toUnit c.toUInt64.toInt64.toInt8.toInt64
      rw [Int8.toInt_toInt64, Int64.toInt_toInt8, toInt64_ofUnit, Int32.toInt_toInt64, toInt_ofUnit,
        Int.bmod_def] at hc
      simp only [FlipsSign, UInt16.le_iff_toNat_le, UInt16.reduceToNat] at h
      rw [← toInt64_ofUnit] at hc
      omega
    · refine ⟨_, convertExact_eq_some.2 ⟨rfl, congrArg (some ∘ char) (UInt16.toNat_inj.1 ?_)⟩⟩
      have hc := toNat_toUnit c.toUInt64.toInt64.toInt16.toInt64
      rw [Int16.toInt_toInt64, Int64.toInt_toInt16, toInt64_ofUnit, Int32.toInt_toInt64,
        toInt_ofUnit, Int.bmod_def] at hc
      rw [← toInt64_ofUnit] at hc
      omega
  | int | long | float | double | string | class_ => exact h.elim

/-- **An exact conversion between types that are ints on the stack keeps the
    word unless it flips a sign.** -/
theorem word_eq_iff_not_flipsSign {v w : Value} {t : DataType} (h : v.convertExact t = some w)
    (hv : v.dataType.stackKind = .int) (ht : t.stackKind = .int) :
    w.word = v.word ↔ ¬v.FlipsSign t := by
  have ⟨hw, hback⟩ := convertExact_eq_some.1 h
  have hwt := dataType_of_cast hw
  by_cases h₁ : v.dataType.widensTo t
  · refine iff_of_true (word_cast_of_widensTo hw ht h₁) ?_
    cases v <;> cases t <;> first | exact id | exact absurd h₁ Bool.false_ne_true
  by_cases h₂ : t.widensTo v.dataType
  · refine iff_of_true (word_cast_of_widensTo hback hv (hwt ▸ h₂)).symm ?_
    cases v <;> cases t <;> first | exact id | exact absurd h₂ Bool.false_ne_true
  -- a signed type and `char` are left, in one order or the other
  have hchar : (v.dataType = .byte ∨ v.dataType = .short) ∧ t = .char ∨
      (t = .byte ∨ t = .short) ∧ v.dataType = .char := by
    revert hv ht h₁ h₂
    cases v.dataType <;> cases t <;> decide
  rcases hchar with ⟨hs, rfl⟩ | ⟨hs, hc⟩
  · obtain ⟨c, rfl⟩ := exists_char hwt
    obtain ⟨i, hi⟩ : ∃ i, v.toInt64? = some i :=
      exists_toInt64 (by rcases hs with h | h <;> rw [h] <;> rfl)
    rw [flipsSign_char_iff hi hs, not_not]
    exact (char_of_signed hi hw hs).1
  · obtain ⟨c, rfl⟩ := exists_char hc
    obtain ⟨i, hi⟩ : ∃ i, w.toInt64? = some i :=
      exists_toInt64 (by rcases hs with h | h <;> rw [hwt, h] <;> rfl)
    have ⟨hword, hsign⟩ := char_of_signed hi hback (hwt ▸ hs)
    rw [eq_comm, hword, ← hwt, hsign, not_not]

/-- A literal keeps its word under an exact conversion within its stack kind. -/
theorem word_of_convertExact {v w : Value} {t : DataType} (h : v.convertExact t = some w)
    (hv : v.dataType = .int ∨ v.dataType = .long) (ht : t.stackKind = v.dataType.stackKind) :
    w.word = v.word := by
  rcases hv with hv | hv
  · obtain ⟨n, rfl⟩ := exists_int hv
    exact (word_eq_iff_not_flipsSign h rfl ht).2 id
  · obtain rfl : t = v.dataType := by
      rw [hv] at ht ⊢
      cases t <;> first | rfl | cases ht
    rw [convertExact_self] at h
    rw [Option.some.inj h]

end Value

/-- Nothing is needed to leave a value of a stack kind as a literal of that kind. -/
theorem convert_eq_nil {t literal : DataType} (hl : literal = .int ∨ literal = .long)
    (ht : t.stackKind = literal.stackKind) : convert t literal = .ok [] := by
  rcases hl with rfl | rfl <;> cases t <;> first | rfl | cases ht

end ConstRestore
