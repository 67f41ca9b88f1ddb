/-
  Combinations of flags and the literals that they stand in for.

  The value of a combination is computed in the types of its flags, so above the
  width of the group's type its bits are whatever the flags have there.

  * `evaluate_cover`: the value of a cover has the bits of the chosen flags;
  * `combines_of_decompose`: so a decomposition has the literal's bits below both
    widths, and above the group's width those of the chosen flags.
-/
import ConstRestore.Proofs.FlagValues
import ConstRestore.Proofs.Growth

namespace ConstRestore

variable {r : Registry} {type : DataType} {tables : List Mappings} {narrow : DataType} {n m : Nat}
  {mask : UInt64}

/-! ## Flags of a group -/

/-- Every entry of some tables stands for the value that it is mapped under, which is of
    the type. -/
def SoundTables (r : Registry) (type : DataType) (tables : List Mappings) : Prop :=
  ∀ t ∈ tables, ∀ key entry, t.get? key = some entry →
    key.dataType = type ∧ entry.expr.StandsFor r key

/-- The pattern of a flag is that of its value, in the widths of the group and of
    the combination. -/
theorem flag_spec (htables : SoundTables r type tables)
    (hn : type.width? = some n) (hm : narrow.width? = some m)
    (hmask : narrow.mask? = some mask) {f : Flag} (hf : f ∈ flagsOf mask tables) :
    ∃ v key, f.expr.evaluate r = .ok v ∧ v.convertExact type = some key ∧
      (∃ t ∈ tables, (t.get? key).isSome) ∧
      ∀ j < 64, bit f.bits j =
        (bit (f.expr.asLong r type.stackKind).toUInt64 j && decide (j < n) &&
          decide (j < m)) := by
  obtain ⟨-, entry, hentry, hexpr⟩ := mem_flagsOf hf
  obtain ⟨t, ht, key, hget, hp⟩ := hentry.exists_names
  obtain ⟨bits, hbits, hp⟩ := Option.map_eq_some_iff.1 hp
  obtain ⟨hk, v, hv, hx⟩ := htables t ht key entry hget
  rw [hk] at hx
  rw [hexpr] at hv
  refine ⟨v, key, hv, hx, ⟨t, ht, by simp [hget]⟩, ?_⟩
  intro j hj
  rw [← hp, bit_and, bit_mask hm hmask hj,
    bit_of_cast hn (Value.convertExact_eq_some.1 hx).1 hbits hj, asLong_of_evaluate hv]

/-- What a combination has to do with the literal `l` that it stands in for, in a
    group of width `n` and a combination of width `m`. -/
structure Combines (r : Registry) (kind : StackKind) (flags : List Flag) (l : Int64) (n m : Nat)
    (e : Expr) (v : Value) : Prop where
  evaluate : e.evaluate r = .ok v
  isPrimitive : v.dataType.isPrimitive
  /-- The low bits are those of the literal. -/
  low : ∀ j < n, j < m → bit (v.asLong kind).toUInt64 j = bit l.toUInt64 j
  /-- A flag alone has all bits of the literal. -/
  alone : (∃ f ∈ flags, e = f.expr ∧
      ∀ j < 64, bit f.bits j = (bit l.toUInt64 j && decide (j < n) && decide (j < m))) ∨
    v.dataType = .int ∨ v.dataType = .long
  /-- Bits above the width of the group come from flags within the literal. -/
  high : n < m → ∃ fs : List Flag, (∀ f ∈ fs, f ∈ flags ∧
      (v.dataType.isIntegral → f.expr.HasIntegral r) ∧
      ∀ j < n, bit (f.expr.asLong r kind).toUInt64 j → bit l.toUInt64 j) ∧
    ∀ j, n ≤ j → j < m →
      bit (v.asLong kind).toUInt64 j = fs.any fun f => bit (f.expr.asLong r kind).toUInt64 j

/-- Below the widths the chosen flags have the bits that are covered. -/
theorem any_chosen_eq_covered (htables : SoundTables r type tables) (hn : type.width? = some n)
    (hm : narrow.width? = some m) (hmask : narrow.mask? = some mask) (target : UInt64) {j : Nat}
    (hjn : j < n) (hjm : j < m) (hj : j < 64) :
    ((cover target (flagsOf mask tables)).flags.any fun f =>
      bit (f.expr.asLong r type.stackKind).toUInt64 j) =
      bit (cover target (flagsOf mask tables)).covered j := by
  have hcov := cover_spec target (flagsOf mask tables)
  rw [hcov.bit_covered j, Bool.eq_iff_iff, List.any_eq_true, List.any_eq_true]
  refine exists_congr fun f => and_congr_right ?_
  intro hf
  obtain ⟨-, -, -, -, -, hbit⟩ := flag_spec htables hn hm hmask (hcov.mem f hf)
  simp [hbit j hj, hjn, hjm]

/-- The value of a cover has the bits of the chosen flags, below the widths those
    that are covered. -/
theorem evaluate_cover (hr : r.WellTyped) (htables : SoundTables r type tables)
    (hn : type.width? = some n) (hm : narrow.width? = some m)
    (hmask : narrow.mask? = some mask) {target : UInt64} {e : Expr}
    (he : (cover target (flagsOf mask tables)).expr? = some e) {c : CodeContext}
    {expected : Option DataType} {p : List Instr × DataType}
    (hc : (e.compile r c).typed expected = .ok p) :
    ∃ v, e.evaluate r = .ok v ∧ v.dataType.isPrimitive ∧
      ((∃ f, (cover target (flagsOf mask tables)).flags = [f] ∧ e = f.expr) ∨
        v.dataType = .int ∨ v.dataType = .long) ∧
      (v.dataType.isIntegral → ∀ f ∈ (cover target (flagsOf mask tables)).flags,
        f.expr.HasIntegral r) ∧
      (∀ j, bit (v.asLong type.stackKind).toUInt64 j =
        (cover target (flagsOf mask tables)).flags.any fun f =>
          bit (f.expr.asLong r type.stackKind).toUInt64 j) ∧
      ∀ j < n, j < m → j < 64 → bit (v.asLong type.stackKind).toUInt64 j =
        bit (cover target (flagsOf mask tables)).covered j := by
  have hcov := cover_spec target (flagsOf mask tables)
  have hcovered {j : Nat} (hjn : j < n) (hjm : j < m) (hj : j < 64) :=
    any_chosen_eq_covered htables hn hm hmask target hjn hjm hj
  generalize cover target (flagsOf mask tables) = cov at *
  have hint : type.isIntegral := by rw [DataType.isIntegral, hn]; rfl
  obtain ⟨flags, covered⟩ := cov
  cases flags with
  | nil => cases he
  | cons f fs =>
    obtain rfl := Option.some.inj he
    have hflags : ∀ g' ∈ f :: fs, ∃ v, g'.expr.evaluate r = .ok v ∧ v.dataType.isPrimitive := by
      intro g' hg'
      obtain ⟨v, key, hv, hx, -⟩ := flag_spec htables hn hm hmask (hcov.mem g' hg')
      exact ⟨v, hv, Value.isPrimitive_of_cast (Value.convertExact_eq_some.1 hx).1
        (isPrimitive_of_isIntegral hint)⟩
    obtain ⟨v, hv, hp, htype, hintegral, hbits⟩ :=
      evaluate_flags hr hflags type.stackKind hc
    refine ⟨v, hv, hp, ?_, hintegral, hbits, fun j hjn hjm hj => ?_⟩
    · cases fs with
      | nil => exact .inl ⟨f, rfl, rfl⟩
      | cons => exact .inr (htype (List.cons_ne_nil _ _))
    · rw [hbits j, hcovered hjn hjm hj]

theorem width?_le {t : DataType} {n : Nat} (h : t.width? = some n) : n ≤ 64 := by
  cases t <;> cases h <;> decide

/-- A pattern that has the bits of a literal below both widths. -/
def IsTarget (l : Int64) (n m : Nat) (target : UInt64) : Prop :=
  ∀ j < 64, bit target j = (bit l.toUInt64 j && decide (j < n) && decide (j < m))

section Decompose

variable (hr : r.WellTyped)
  (htables : SoundTables r type tables)
  (hn : type.width? = some n) (hm : narrow.width? = some m) (hmask : narrow.mask? = some mask)
  {target : UInt64} {l : Int64} (htarget : IsTarget l n m target) {e : Expr} {c : CodeContext}
  {expected : Option DataType} {p : List Instr × DataType}

include htables hn hm hmask htarget

/-- The flags of a cover lie within the literal. -/
theorem bit_of_chosen {f : Flag} (hf : f ∈ (cover target (flagsOf mask tables)).flags)
    (hnm : n < m) {j : Nat} (hjn : j < n)
    (hj : bit (f.expr.asLong r type.stackKind).toUInt64 j) : bit l.toUInt64 j := by
  have hcov := cover_spec target (flagsOf mask tables)
  have hm64 := width?_le hm
  obtain ⟨-, -, -, -, -, hfbit⟩ := flag_spec htables hn hm hmask (hcov.mem f hf)
  have hcovered : bit (cover target (flagsOf mask tables)).covered j := by
    rw [hcov.bit_covered j]
    refine List.any_eq_true.2 ⟨f, hf, ?_⟩
    rw [hfbit j (by omega), hj]
    simp [hjn, show j < m by omega]
  have hbit := hcov.within j hcovered
  rw [htarget j (by omega), Bool.and_eq_true, Bool.and_eq_true] at hbit
  exact hbit.1.1

include hr

/-- The complement of a cover of all other bits. -/
theorem combines_complement
    (he : (cover (~~~target &&& mask) (flagsOf mask tables)).expr? = some e)
    (hres : (cover (~~~target &&& mask) (flagsOf mask tables)).residual (~~~target &&& mask) = 0)
    (hc : ((Expr.unary .complement e).compile r c).typed expected = .ok p) :
    ∃ v, Combines r type.stackKind (flagsOf mask tables) l n m (.unary .complement e) v := by
  have hn64 := width?_le hn
  have hm64 := width?_le hm
  obtain ⟨s, hs, hsint, t, q, hq⟩ := typed_complement hc
  obtain ⟨a, ha, -, -, -, -, hlow⟩ := evaluate_cover hr htables hn hm hmask he hq
  obtain rfl := Except.ok.inj ((typeOf_eq_of_evaluate hr ha).symm.trans hs)
  obtain ⟨i, hi⟩ := Value.exists_toInt64 hsint
  obtain ⟨v, hv, htype, hvi⟩ := evaluate_complement ha hi
  have hcov := cover_spec (~~~target &&& mask) (flagsOf mask tables)
  have hopposite (j : Nat) (hjm : j < m) : bit (~~~target &&& mask) j = !bit target j := by
    rw [bit_and, bit_not _ (by omega), bit_mask hm hmask (by omega)]
    simp [hjm]
  refine ⟨v, hv, isPrimitive_of_isIntegral (isIntegral_of_toInt64 hvi), ?_, .inr htype, ?_⟩
  · intro j hjn hjm
    have hj := hlow j hjn hjm (by omega)
    rw [Value.asLong_of_toInt64 hi, ← hcov.bit_target hres (by omega), hopposite j hjm,
      htarget j (by omega)] at hj
    rw [Value.asLong_of_toInt64 hvi, Int64.toUInt64_not, bit_not _ (by omega), hj]
    simp [hjn, hjm]
  · intro hnm
    -- no flag has the bit `n`, which the complement would have to cover
    have hbit := hcov.bit_target hres (j := n) (by omega)
    rw [hopposite n hnm, htarget n (by omega), hcov.bit_covered n] at hbit
    obtain ⟨f, hf, hfn⟩ := List.any_eq_true.1 (hbit.symm.trans (by simp))
    obtain ⟨-, -, -, -, -, hfbit⟩ := flag_spec htables hn hm hmask (hcov.mem f hf)
    rw [hfbit n (by omega)] at hfn
    simp at hfn

/-- A cover that leaves no bit. -/
theorem combines_cover (he : (cover target (flagsOf mask tables)).expr? = some e)
    (hres : (cover target (flagsOf mask tables)).residual target = 0)
    (hc : (e.compile r c).typed expected = .ok p) :
    ∃ v, Combines r type.stackKind (flagsOf mask tables) l n m e v := by
  have hm64 := width?_le hm
  have hcov := cover_spec target (flagsOf mask tables)
  obtain ⟨v, hv, hp, halone, hintegral, hany, hlow⟩ := evaluate_cover hr htables hn hm hmask he hc
  refine ⟨v, hv, hp, ?_, ?_, fun hnm => ⟨_, fun f hf => ⟨hcov.mem f hf,
    fun hi => hintegral hi f hf, ?_⟩, fun j _ _ => hany j⟩⟩
  · intro j hjn hjm
    rw [hlow j hjn hjm (by omega), ← hcov.bit_target hres (by omega), htarget j (by omega)]
    simp [hjn, hjm]
  · rcases halone with ⟨f, hf, hef⟩ | h
    · refine .inl ⟨f, hcov.mem f (by simp [hf]), hef, ?_⟩
      intro j hj
      rw [← htarget j hj, hcov.bit_target hres hj, hcov.bit_covered j, hf]
      simp
    · exact .inr h
  · intro j hjn hj
    exact bit_of_chosen htables hn hm hmask htarget hf hnm hjn hj

/-- A cover with a literal for the bits that it leaves. -/
theorem combines_residual (he : (cover target (flagsOf mask tables)).expr? = some e)
    (hc : ((Expr.binary .or e (residualLiteral
      ((cover target (flagsOf mask tables)).residual target) narrow)).compile r c).typed expected =
        .ok p) :
    ∃ v, Combines r type.stackKind (flagsOf mask tables) l n m (.binary .or e
      (residualLiteral ((cover target (flagsOf mask tables)).residual target) narrow)) v := by
  have hm64 := width?_le hm
  have hcov := cover_spec target (flagsOf mask tables)
  obtain ⟨lit, i', hlit, hi', hres⟩ :=
    residualLiteral_spec hm ((cover target (flagsOf mask tables)).residual target)
  rw [hlit] at hc ⊢
  obtain ⟨s, s', t, hs, hs', ht, htl, q, hq⟩ := typed_or hc
  obtain ⟨a, ha, -, -, hintegral, hany, hlow⟩ := evaluate_cover hr htables hn hm hmask he hq
  obtain rfl := Except.ok.inj ((typeOf_eq_of_evaluate hr ha).symm.trans hs)
  obtain rfl := Except.ok.inj hs'
  have hint := (isIntegral_of_promoteBinary ht htl).1
  obtain ⟨i, hi⟩ := Value.exists_toInt64 hint
  have heval : (Expr.literal lit).evaluate r = .ok lit.value := rfl
  obtain ⟨v, hv, hvt, hvi⟩ := evaluate_or ha heval ht htl hi hi'
  rw [Value.asLong_of_toInt64 hi] at hlow hany
  refine ⟨v, hv, isPrimitive_of_isIntegral (isIntegral_of_toInt64 hvi), ?_,
    .inr (hvt ▸ htl), fun hnm => ⟨_, fun f hf => ⟨hcov.mem f hf, fun _ => hintegral hint f hf,
      ?_⟩, ?_⟩⟩
  · intro j hjn hjm
    rw [Value.asLong_of_toInt64 hvi, Int64.toUInt64_or, bit_or, hlow j hjn hjm (by omega),
      hres j hjm, bit_residual _ _ (by omega)]
    have htj := htarget j (by omega)
    simp only [hjn, hjm, decide_true, Bool.and_true] at htj
    rw [← htj]
    cases hcb : bit (cover target (flagsOf mask tables)).covered j with
    | true => rw [hcov.within j hcb]; rfl
    | false => simp
  · intro j hjn hj
    exact bit_of_chosen htables hn hm hmask htarget hf hnm hjn hj
  · intro j hjn hjm
    -- the literal has no bit above the width of the group
    rw [Value.asLong_of_toInt64 hvi, Int64.toUInt64_or, bit_or, hany j, hres j hjm,
      bit_residual _ _ (by omega), htarget j (by omega)]
    simp [show ¬j < n by omega]

end Decompose

theorem combines_of_decompose (hr : r.WellTyped)
    (htables : SoundTables r type tables)
    (hn : type.width? = some n) (hm : narrow.width? = some m)
    (hmask : narrow.mask? = some mask) {value key : Value} (hkey : value.cast type = some key)
    {e : Expr} (h : decompose tables key narrow = some e) {c : CodeContext}
    {expected : Option DataType} {p : List Instr × DataType}
    (hc : (e.compile r c).typed expected = .ok p) :
    ∃ v, Combines r type.stackKind (flagsOf mask tables) (value.asLong type.stackKind)
      n m e v := by
  obtain ⟨mask', bits, hmask', hbits, hcases⟩ := decompose_eq_some h
  obtain rfl := Option.some.inj (hmask.symm.trans hmask')
  have htarget : IsTarget (value.asLong type.stackKind) n m (bits &&& mask) := by
    intro j hj
    rw [bit_and, bit_of_cast hn hkey hbits hj, bit_mask hm hmask hj]
  rcases hcases with ⟨e', he', hres, rfl⟩ | ⟨e', he', rfl⟩
  · exact combines_complement hr htables hn hm hmask htarget he' hres hc
  · split_ifs at hc ⊢ with hres
    · exact combines_cover hr htables hn hm hmask htarget he' hres hc
    · exact combines_residual hr htables hn hm hmask htarget he' hc

end ConstRestore
