/-
  Integral values and their bits.

  Every numeric value is like a long where it is converted to integral types
  (`Value.asLong`), and such a conversion looks at low bits only
  (`Value.ofInt64_congr`).  The bits above the width of a type are those of the
  sign (`bit_of_nonneg`, `bit_of_neg`).
-/
import ConstRestore.Proofs.Cover
import ConstRestore.Proofs.ExprTypes

namespace ConstRestore

/-! ## Integers and their bits -/

namespace Value

/-- The long that a numeric value is like when it is converted to an integral
    type of a stack kind. -/
def asLong (kind : StackKind) (v : Value) : Int64 :=
  match v.toInt64?, v.toDouble? with
  | some i, _ => i
  | none, some x => if kind = .long then saturateLong x else (saturateInt x).toInt64
  | none, none => 0

theorem asLong_of_toInt64 {v : Value} {i : Int64} (h : v.toInt64? = some i) (kind : StackKind) :
    v.asLong kind = i := by
  rw [asLong, h]

theorem cast_eq_ofInt64 {v : Value} {t : DataType} (hv : v.dataType.isPrimitive)
    (ht : t.isIntegral) : v.cast t = ofInt64 (v.asLong t.stackKind) t := by
  cases t with
  | float | double | string | class_ => exact absurd ht Bool.false_ne_true
  | byte | short | char | int | long =>
    cases v with
    | string | class_ => exact absurd hv Bool.false_ne_true
    | byte | short | char | int | long =>
      simp [cast, asLong, toInt64?, ofInt64, dataType, DataType.isPrimitive, toInt64_ofUnit,
        toUInt16_toUInt64]
    | float | double =>
      simp [cast, asLong, toInt64?, toDouble?, ofInt64, ofDouble, dataType, DataType.isPrimitive,
        DataType.stackKind, toUInt16_toUInt64]

/-- A conversion to an integral type looks at the low bits. -/
theorem ofInt64_congr {t : DataType} {n : Nat} (hn : t.width? = some n) {i i' : Int64}
    (h : ∀ j < n, bit i.toUInt64 j = bit i'.toUInt64 j) : ofInt64 i t = ofInt64 i' t := by
  have low (hn64 : n ≤ 64) : i.toBitVec.setWidth n = i'.toBitVec.setWidth n := by
    apply BitVec.eq_of_getLsbD_eq
    intro j hj
    rw [BitVec.getLsbD_setWidth, BitVec.getLsbD_setWidth]
    exact congrArg _ (h j hj)
  have signed (hn64 : n ≤ 64) : i.toBitVec.signExtend n = i'.toBitVec.signExtend n := by
    rw [BitVec.signExtend_eq_setWidth_of_le _ hn64, BitVec.signExtend_eq_setWidth_of_le _ hn64,
      low hn64]
  cases t with
  | byte => cases hn; exact congrArg (some ∘ byte) (Int8.toBitVec_inj.1 (signed (by decide)))
  | short => cases hn; exact congrArg (some ∘ short) (Int16.toBitVec_inj.1 (signed (by decide)))
  | int => cases hn; exact congrArg (some ∘ int) (Int32.toBitVec_inj.1 (signed (by decide)))
  | char => cases hn; exact congrArg (some ∘ char) (UInt16.toBitVec_inj.1 (low (by decide)))
  | long =>
    cases hn
    have := low (Nat.le_refl _)
    rw [BitVec.setWidth_eq, BitVec.setWidth_eq] at this
    exact congrArg (some ∘ long) (Int64.toBitVec_inj.1 this)
  | float | double | string | class_ => cases hn

/-- The low bits of a long stay where it becomes an integral value. -/
theorem bit_of_ofInt64 {t : DataType} {n : Nat} (hn : t.width? = some n) {i k : Int64} {v : Value}
    (hv : ofInt64 i t = some v) (hk : v.toInt64? = some k) {j : Nat} (hj : j < n) :
    bit k.toUInt64 j = bit i.toUInt64 j := by
  have signed {m : Nat} (hm : j < m) (hj64 : j < 64) :
      ((i.toBitVec.signExtend m).signExtend 64).getLsbD j = i.toBitVec.getLsbD j := by
    rw [BitVec.getLsbD_signExtend, BitVec.getLsbD_signExtend]
    simp [hm, hj64]
  cases t with
  | byte => cases hn; cases hv; cases hk; exact signed hj (by omega)
  | short => cases hn; cases hv; cases hk; exact signed hj (by omega)
  | int => cases hn; cases hv; cases hk; exact signed hj (by omega)
  | char =>
    cases hn; cases hv; cases hk
    change ((i.toBitVec.setWidth 16).setWidth 64).getLsbD j = i.toBitVec.getLsbD j
    rw [BitVec.getLsbD_setWidth, BitVec.getLsbD_setWidth]
    simp [hj, show j < 64 by omega]
  | long => cases hn; cases hv; cases hk; rfl
  | float | double | string | class_ => cases hn

theorem exists_bits {v : Value} {i : Int64} (hi : v.toInt64? = some i) :
    ∃ bits, v.bits? = some bits := by
  cases v <;> cases hi <;> exact ⟨_, rfl⟩

theorem bit_of_bits {v : Value} {n : Nat} (hn : v.dataType.width? = some n) {i : Int64}
    {bits : UInt64} (hi : v.toInt64? = some i) (hb : v.bits? = some bits) {j : Nat} (hj : j < 64) :
    bit bits j = (bit i.toUInt64 j && decide (j < n)) := by
  obtain ⟨i', hi', h⟩ := Option.bind_eq_some_iff.1 hb
  obtain ⟨mask, hm, h⟩ := Option.bind_eq_some_iff.1 h
  obtain rfl := Option.some.inj (hi.symm.trans hi')
  obtain rfl := Option.some.inj h
  rw [bit_and, bit_mask hn hm hj]

end Value

/-! ## High bits -/

theorem toNat_of_nonneg {i : Int64} (h : 0 ≤ i.toInt) : (i.toBitVec.toNat : Int) = i.toInt := by
  have h' : i.toInt = (i.toBitVec.toNat : Int).bmod (2 ^ 64) := BitVec.toInt_eq_toNat_bmod _
  have := i.toBitVec.isLt
  rw [Int.bmod_def] at h'
  omega

theorem bit_of_nonneg {i : Int64} {n j : Nat} (h : 0 ≤ i.toInt) (hn : i.toInt < 2 ^ n)
    (hj : n ≤ j) : bit i.toUInt64 j = false := by
  have hlt : i.toBitVec.toNat < 2 ^ j := by
    have := toNat_of_nonneg h
    have hle : 2 ^ n ≤ 2 ^ j := Nat.pow_le_pow_right (by decide) hj
    have hlt : i.toBitVec.toNat < 2 ^ n := by
      rw [← Int.ofNat_lt, this]
      simpa using hn
    exact Nat.lt_of_lt_of_le hlt hle
  exact Nat.testBit_lt_two_pow hlt

theorem bit_of_neg {i : Int64} {n j : Nat} (h : i.toInt < 0) (hn : -2 ^ n ≤ i.toInt) (hj : n ≤ j)
    (hj64 : j < 64) : bit i.toUInt64 j = true := by
  have := i.le_toInt
  have hnot : (~~~i).toInt = -i.toInt - 1 := by
    rw [Int64.toInt_not, Int.bmod_eq_of_le (by omega) (by omega)]
  have := bit_of_nonneg (i := ~~~i) (n := n) (by omega) (by omega) hj
  rw [Int64.toUInt64_not, bit_not _ hj64] at this
  simpa using this

theorem toInt_ofInt64 {k : Int64} {t : DataType} {v : Value} {i : Int64} {n : Nat}
    (hv : Value.ofInt64 k t = some v) (hi : v.toInt64? = some i) (hn : t.width? = some n)
    (hc : t ≠ .char) : i.toInt = k.toInt.bmod (2 ^ n) := by
  cases t with
  | byte => cases hv; cases hi; cases hn; rw [Int8.toInt_toInt64, Int64.toInt_toInt8]
  | short => cases hv; cases hi; cases hn; rw [Int16.toInt_toInt64, Int64.toInt_toInt16]
  | int => cases hv; cases hi; cases hn; rw [Int32.toInt_toInt64, Int64.toInt_toInt32]
  | long =>
    cases hv; cases hi; cases hn
    have := k.toInt_lt
    have := k.le_toInt
    rw [Int.bmod_eq_of_le (by omega) (by omega)]
  | char => exact absurd rfl hc
  | float | double | string | class_ => cases hn

theorem toInt_ofInt64_char {k i : Int64} {v : Value} (hv : Value.ofInt64 k .char = some v)
    (hi : v.toInt64? = some i) : i.toInt = k.toInt % 2 ^ 16 := by
  cases hv
  cases hi
  rw [toInt64_ofUnit, Int32.toInt_toInt64, toInt_ofUnit, toNat_toUnit]

/-- The long that an exact conversion to a narrow type starts from is in the range
    of that type, up to the sign of a code unit. -/
theorem toInt_of_convertExact {v key : Value} {t : DataType} {i : Int64} {n : Nat}
    (hx : v.convertExact t = some key) (hi : v.toInt64? = some i) (hn : t.width? = some n)
    (hn16 : n ≤ 16) :
    -2 ^ (n - 1) ≤ i.toInt ∧ i.toInt < 2 ^ (n - 1) ∨
      2 ^ 16 - 2 ^ (n - 1) ≤ i.toInt ∧ i.toInt < 2 ^ 16 := by
  have hint : t.isIntegral := by rw [DataType.isIntegral, hn]; rfl
  have hkt := Value.dataType_of_convertExact hx
  obtain ⟨k, hk⟩ := Value.exists_toInt64 (hkt ▸ hint)
  have hback := (Value.convertExact_eq_some.1 hx).2
  rw [Value.cast_eq_ofInt64 (isPrimitive_of_isIntegral (hkt ▸ hint)) (isIntegral_of_toInt64 hi),
    Value.asLong_of_toInt64 hk] at hback
  have hkrange : t ≠ .char ∧ -2 ^ (n - 1) ≤ k.toInt ∧ k.toInt < 2 ^ (n - 1) ∨
      n = 16 ∧ 0 ≤ k.toInt ∧ k.toInt < 2 ^ 16 := by
    by_cases hc : t = .char
    · subst hc
      exact .inr ⟨by cases hn; rfl, Value.toInt_of_char hk hkt⟩
    · exact .inl ⟨hc, Value.toInt_of_signed hk (hkt ▸ hn) (hkt ▸ hc)⟩
  have hn816 : n = 8 ∨ n = 16 := by
    cases t <;> cases hn <;> simp at hn16 ⊢
  cases hv : v.dataType with
  | byte =>
    have := Value.toInt_of_signed hi (n := 8) (by rw [hv]; rfl) (by rw [hv]; decide)
    rcases hn816 with rfl | rfl <;> omega
  | short =>
    have h := Value.toInt_of_signed hi (n := 16) (by rw [hv]; rfl) (by rw [hv]; decide)
    rw [hv] at hback
    have h' := toInt_ofInt64 hback hi (n := 16) rfl (by decide)
    rw [Int.bmod_def] at h'
    rcases hn816 with rfl | rfl <;> omega
  | char =>
    rw [hv] at hback
    have h' := toInt_ofInt64_char hback hi
    rcases hn816 with rfl | rfl <;> omega
  | int =>
    rw [hv] at hback
    have h' := toInt_ofInt64 hback hi (n := 32) rfl (by decide)
    rw [Int.bmod_def] at h'
    rcases hn816 with rfl | rfl <;> omega
  | long =>
    rw [hv] at hback
    have h' := toInt_ofInt64 hback hi (n := 64) rfl (by decide)
    rw [Int.bmod_def] at h'
    rcases hn816 with rfl | rfl <;> omega
  | float | double | string | class_ =>
    have := isIntegral_of_toInt64 hi
    rw [hv] at this
    cases this

/-- The bits of a long that an exact conversion to a narrow type of width `n`
    starts from: from the sign bit of that type on they are all clear, all set, or
    set up to those of a code unit. -/
theorem bits_of_convertExact {v key : Value} {t : DataType} {i : Int64} {n : Nat}
    (hx : v.convertExact t = some key) (hi : v.toInt64? = some i) (hn : t.width? = some n)
    (hn16 : n ≤ 16) :
    ∃ h, (h = n - 1 ∨ h = 16 ∨ h = 64) ∧
      ∀ j, n - 1 ≤ j → j < 64 → bit i.toUInt64 j = decide (j < h) := by
  rcases toInt_of_convertExact hx hi hn hn16 with ⟨hlo, hhi⟩ | ⟨hlo, hhi⟩
  · rcases Int.lt_or_le i.toInt 0 with hneg | hpos
    · exact ⟨64, .inr (.inr rfl), fun j hj hj64 => by simp [bit_of_neg hneg hlo hj hj64, hj64]⟩
    · exact ⟨n - 1, .inl rfl, fun j hj hj64 => by
        simp [bit_of_nonneg hpos hhi hj, Nat.not_lt.2 hj]⟩
  · refine ⟨16, .inr (.inl rfl), ?_⟩
    intro j hj hj64
    have hpow : (2 : Int) ^ (n - 1) ≤ 2 ^ 15 := by
      have := Nat.pow_le_pow_right (n := 2) (by decide) (show n - 1 ≤ 15 by omega)
      exact_mod_cast this
    have hnat := toNat_of_nonneg (i := i) (by omega)
    have hd : 65535 - i.toBitVec.toNat < 2 ^ j := by
      have := Nat.pow_le_pow_right (n := 2) (by decide) hj
      have : ((65535 - i.toBitVec.toNat : Nat) : Int) < 2 ^ (n - 1) := by omega
      have : 65535 - i.toBitVec.toNat < 2 ^ (n - 1) := by exact_mod_cast this
      omega
    have hsub : i.toBitVec.toNat = 2 ^ 16 - ((65535 - i.toBitVec.toNat) + 1) := by omega
    change i.toBitVec.toNat.testBit j = decide (j < 16)
    rw [hsub, Nat.testBit_two_pow_sub_succ (by omega), Nat.testBit_lt_two_pow hd]
    simp

/-- The bits of a converted value are low bits of what it was. -/
theorem bit_of_cast {v key : Value} {t : DataType} {n : Nat} (hn : t.width? = some n)
    (hc : v.cast t = some key) {bits : UInt64} (hb : key.bits? = some bits) {j : Nat}
    (hj : j < 64) :
    bit bits j = (bit (v.asLong t.stackKind).toUInt64 j && decide (j < n)) := by
  have hint : t.isIntegral := by rw [DataType.isIntegral, hn]; rfl
  have hp := Value.isPrimitive_of_cast hc (isPrimitive_of_isIntegral hint)
  have hkt := Value.dataType_of_cast hc
  obtain ⟨k, hk⟩ := Value.exists_toInt64 (hkt ▸ hint)
  rw [Value.bit_of_bits (hkt ▸ hn) hk hb hj]
  by_cases hjn : j < n
  · rw [Value.bit_of_ofInt64 hn ((Value.cast_eq_ofInt64 hp hint).symm.trans hc) hk hjn]
  · simp [hjn]

/-- The low bits of a literal for the bits that flags leave. -/
theorem residualLiteral_spec {t : DataType} {m : Nat} (hm : t.width? = some m) (bits : UInt64) :
    ∃ l i, residualLiteral bits t = .literal l ∧ l.value.toInt64? = some i ∧
      ∀ j < m, bit i.toUInt64 j = bit bits j := by
  unfold residualLiteral
  split_ifs with ht
  · exact ⟨_, _, rfl, rfl, fun j _ => rfl⟩
  · refine ⟨_, _, rfl, rfl, ?_⟩
    intro j hj
    have h32 : j < 32 := by
      cases t <;> cases hm <;> first | omega | exact absurd rfl ht
    change ((bits.toBitVec.setWidth 32).signExtend 64).getLsbD j = bits.toBitVec.getLsbD j
    rw [BitVec.getLsbD_signExtend, BitVec.getLsbD_setWidth]
    simp [h32, show j < 64 by omega]

end ConstRestore
