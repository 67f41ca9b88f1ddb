/-
  Covers of bit patterns by flags.

  Patterns are compared bit by bit (`bit`).  The flags of a cover are among those
  offered, what they cover lies within the target, and is the OR of their
  patterns (`cover_spec`).  `decompose_eq_some` says what a combination of
  flags is built from.
-/
import ConstRestore.Proofs.Patterns

namespace ConstRestore

/-! ## Bits -/

/-- Bit `j` of a pattern. -/
def bit (u : UInt64) (j : Nat) : Bool := u.toBitVec.getLsbD j

@[simp] theorem bit_zero (j : Nat) : bit 0 j = false := by simp [bit]

@[simp] theorem bit_and (u v : UInt64) (j : Nat) : bit (u &&& v) j = (bit u j && bit v j) := by
  simp [bit]

@[simp] theorem bit_or (u v : UInt64) (j : Nat) : bit (u ||| v) j = (bit u j || bit v j) := by
  simp [bit]

theorem bit_not (u : UInt64) {j : Nat} (hj : j < 64) : bit (~~~u) j = !bit u j := by
  simp [bit, hj]

theorem bit_of_le (u : UInt64) {j : Nat} (hj : 64 ≤ j) : bit u j = false :=
  BitVec.getLsbD_of_ge _ _ hj

theorem ext_bit {u v : UInt64} (h : ∀ j < 64, bit u j = bit v j) : u = v :=
  UInt64.toBitVec_inj.1 (BitVec.eq_of_getLsbD_eq h)

theorem eq_zero_iff_bit {u : UInt64} : u = 0 ↔ ∀ j < 64, bit u j = false := by
  constructor
  · rintro rfl j -
    exact bit_zero j
  · exact fun h => ext_bit fun j hj => (h j hj).trans (bit_zero j).symm

/-- Every bit of a pattern is one of the target. -/
def Inside (p target : UInt64) : Prop := p &&& ~~~target = 0

instance (p target : UInt64) : Decidable (Inside p target) :=
  inferInstanceAs (Decidable (p &&& ~~~target = 0))

theorem inside_iff {p target : UInt64} : Inside p target ↔ ∀ j, bit p j → bit target j := by
  rw [Inside, eq_zero_iff_bit]
  constructor
  · intro h j hp
    by_cases hj : j < 64
    · simpa [hp, bit_not _ hj] using h j hj
    · rw [bit_of_le _ (Nat.not_lt.1 hj)] at hp
      cases hp
  · intro h j hj
    rw [bit_and, bit_not _ hj]
    cases hp : bit p j with
    | true => simp [h j hp]
    | false => rfl

/-- A mask has the bits below the width of its type. -/
theorem bit_mask {t : DataType} {n : Nat} {mask : UInt64} (hn : t.width? = some n)
    (hm : t.mask? = some mask) {j : Nat} (hj : j < 64) : bit mask j = decide (j < n) := by
  rw [DataType.mask?, hn] at hm
  obtain rfl := Option.some.inj hm
  change (BitVec.ofNat 64 ((1 <<< n) - 1)).getLsbD j = decide (j < n)
  rw [Nat.one_shiftLeft, BitVec.getLsbD_ofNat, Nat.testBit_two_pow_sub_one]
  simp [hj]

/-! ## Covers -/

/-- What holds of a cover of a target: it takes flags that were offered, what is
    covered is the OR of their patterns and within the target. -/
structure Cover.Covers (c : Cover) (target : UInt64) (flags : List Flag) : Prop where
  sublist : c.flags.Sublist flags
  bit_covered : ∀ j, bit c.covered j = c.flags.any (bit ·.bits j)
  within : ∀ j, bit c.covered j → bit target j

theorem Cover.Covers.mem {c : Cover} {target : UInt64} {flags : List Flag}
    (h : c.Covers target flags) : ∀ f ∈ c.flags, f ∈ flags :=
  fun _ hf => h.sublist.subset hf

theorem cover_append_singleton (target : UInt64) (flags : List Flag) (f : Flag) :
    cover target (flags ++ [f]) =
      if Inside f.bits target ∧ ¬Inside f.bits (cover target flags).covered then
        ⟨(cover target flags).flags ++ [f], (cover target flags).covered ||| f.bits⟩
      else cover target flags := by
  rw [cover, List.foldl_append]
  rfl

theorem cover_spec (target : UInt64) (flags : List Flag) :
    (cover target flags).Covers target flags := by
  induction flags using List.reverseRecOn with
  | nil => exact ⟨.refl _, fun j => bit_zero j, fun j h => by simp [cover] at h⟩
  | append_singleton flags f ih =>
    rw [cover_append_singleton]
    split_ifs with h
    · refine ⟨ih.sublist.append (.refl _), fun j => by simp [ih.bit_covered j], ?_⟩
      intro j hj
      rw [bit_or, Bool.or_eq_true] at hj
      rcases hj with hj | hj
      · exact ih.within j hj
      · exact inside_iff.1 h.1 j hj
    · exact ⟨ih.sublist.trans (List.sublist_append_left ..), ih.bit_covered, ih.within⟩

theorem bit_residual (c : Cover) (target : UInt64) {j : Nat} (hj : j < 64) :
    bit (c.residual target) j = (bit target j && !bit c.covered j) := by
  rw [Cover.residual, bit_and, bit_not _ hj]

/-- A cover that leaves no bit has exactly the bits of the target. -/
theorem Cover.Covers.bit_target {c : Cover} {target : UInt64} {flags : List Flag}
    (h : c.Covers target flags) (hr : c.residual target = 0) {j : Nat} (hj : j < 64) :
    bit target j = bit c.covered j := by
  have := eq_zero_iff_bit.1 hr j hj
  rw [bit_residual c target hj] at this
  cases hb : bit c.covered j with
  | true => exact h.within j hb
  | false => simpa [hb] using this

/-! ## Combinations -/

/-- The OR of flags starts with a flag and takes one more at a time. -/
theorem Cover.expr?_induction {P : List Flag → Expr → Prop} (one : ∀ f, P [f] f.expr)
    (more : ∀ fs e f, P fs e → P (fs ++ [f]) (.binary .or e f.expr)) {c : Cover} {e : Expr}
    (he : c.expr? = some e) : P c.flags e := by
  obtain ⟨flags, covered⟩ := c
  cases flags with
  | nil => cases he
  | cons f fs =>
    obtain rfl := Option.some.inj he
    clear he
    induction fs using List.reverseRecOn with
    | nil => exact one f
    | append_singleton fs g ih =>
      rw [List.foldl_append]
      exact more _ _ g ih

/-- What a value in the width of a type is put together from: a cover and a
    literal for the bits that it leaves, or the complement of a whole cover. -/
theorem decompose_eq_some {tables : List Mappings} {value : Value} {narrow : DataType} {e : Expr}
    (h : decompose tables value narrow = some e) :
    ∃ mask bits, narrow.mask? = some mask ∧ value.bits? = some bits ∧
      ((∃ e', (cover (~~~(bits &&& mask) &&& mask) (flagsOf mask tables)).expr? = some e' ∧
          (cover (~~~(bits &&& mask) &&& mask) (flagsOf mask tables)).residual
            (~~~(bits &&& mask) &&& mask) = 0 ∧ e = .unary .complement e') ∨
        ∃ e', (cover (bits &&& mask) (flagsOf mask tables)).expr? = some e' ∧
          e = if (cover (bits &&& mask) (flagsOf mask tables)).residual (bits &&& mask) = 0 then e'
            else .binary .or e' (residualLiteral
              ((cover (bits &&& mask) (flagsOf mask tables)).residual (bits &&& mask))
              narrow)) := by
  obtain ⟨mask, hmask, h⟩ := Option.bind_eq_some_iff.1 h
  obtain ⟨bits, hbits, h⟩ := Option.bind_eq_some_iff.1 h
  refine ⟨mask, bits, hmask, hbits, ?_⟩
  simp only at h
  split at h
  · cases h
  split at h
  · rename_i hc
    obtain ⟨e', he', rfl⟩ := Option.map_eq_some_iff.1 h
    exact .inl ⟨e', he', hc.2.1, rfl⟩
  · obtain ⟨e', he', h⟩ := Option.bind_eq_some_iff.1 h
    refine .inr ⟨e', he', ?_⟩
    split_ifs at h ⊢ <;> exact (Option.some.inj h).symm

end ConstRestore
