/-
  What a decomposition denotes.

  Flags are masked patterns, but a combination holds the constants themselves:
  sign-extended bytes, unsigned code units, ints in a group of longs.  No bit
  below the width of the group's type depends on this: `|` and `~` act on each
  bit alone, and promotions and the cast keep the low ones.  So within that
  width a decomposition is exact (`decompose_denotes`), whatever the types of
  the flags are.
-/
import ConstRestore.Proofs.Combination

namespace ConstRestore

variable {r : Registry} {type narrow : DataType} {tables : List Mappings} {n m : Nat}
  {mask target : UInt64}

/-- Every entry of some tables has an integral value, which converts exactly to the value
    of the type that it is mapped under. -/
def IntegralTables (r : Registry) (type : DataType) (tables : List Mappings) : Prop :=
  ∀ t ∈ tables, ∀ key entry, t.get? key = some entry →
    ∃ v, entry.expr.evaluate r = .ok v ∧ v.dataType.isIntegral ∧ v.convertExact type = some key

theorem IntegralTables.sound (h : IntegralTables r type tables) : SoundTables r type tables := by
  intro t ht key entry hentry
  obtain ⟨v, hv, -, hx⟩ := h t ht key entry hentry
  have hkey := Value.dataType_of_convertExact hx
  exact ⟨hkey, v, hv, hkey.symm ▸ hx⟩

theorem IntegralTables.hasIntegral (h : IntegralTables r type tables) {f : Flag}
    (hf : f ∈ flagsOf mask tables) : f.expr.HasIntegral r := by
  obtain ⟨-, entry, hentry, hexpr⟩ := mem_flagsOf hf
  obtain ⟨t, ht, key, hget, -⟩ := hentry.exists_names
  obtain ⟨v, hv, hint, -⟩ := h t ht key entry hget
  exact ⟨v, hexpr ▸ hv, hint⟩

/-! ## Values -/

theorem exists_promoteBinary {s t : DataType} (hs : s.isIntegral) (ht : t.isIntegral) :
    ∃ u, DataType.promoteBinary s t = some u ∧ (u = .int ∨ u = .long) := by
  revert hs ht
  cases s <;> cases t <;> decide

/-- The OR of two integral expressions has the bits of both. -/
theorem hasIntegral_or {e e' : Expr} (h : e.HasIntegral r) (h' : e'.HasIntegral r)
    (kind : StackKind) :
    (Expr.binary .or e e').HasIntegral r ∧
      (Expr.binary .or e e').asLong r kind = e.asLong r kind ||| e'.asLong r kind := by
  obtain ⟨a, ha, hai⟩ := h
  obtain ⟨b, hb, hbi⟩ := h'
  obtain ⟨i, hi⟩ := Value.exists_toInt64 hai
  obtain ⟨j, hj⟩ := Value.exists_toInt64 hbi
  obtain ⟨u, hu, hul⟩ := exists_promoteBinary hai hbi
  obtain ⟨v, hv, -, hvi⟩ := evaluate_or ha hb hu hul hi hj
  refine ⟨⟨v, hv, isIntegral_of_toInt64 hvi⟩, ?_⟩
  rw [asLong_of_evaluate hv, asLong_of_evaluate ha, asLong_of_evaluate hb,
    Value.asLong_of_toInt64 hvi, Value.asLong_of_toInt64 hi, Value.asLong_of_toInt64 hj]

theorem hasIntegral_complement {e : Expr} (h : e.HasIntegral r) (kind : StackKind) :
    (Expr.unary .complement e).HasIntegral r ∧
      (Expr.unary .complement e).asLong r kind = ~~~e.asLong r kind := by
  obtain ⟨a, ha, hai⟩ := h
  obtain ⟨i, hi⟩ := Value.exists_toInt64 hai
  obtain ⟨v, hv, -, hvi⟩ := evaluate_complement ha hi
  refine ⟨⟨v, hv, isIntegral_of_toInt64 hvi⟩, ?_⟩
  rw [asLong_of_evaluate hv, asLong_of_evaluate ha, Value.asLong_of_toInt64 hvi,
    Value.asLong_of_toInt64 hi]

/-- The OR of integral flags has the bits of all of them. -/
theorem hasIntegral_flags {c : Cover} {e : Expr} (he : c.expr? = some e)
    (hflags : ∀ f ∈ c.flags, f.expr.HasIntegral r) (kind : StackKind) :
    e.HasIntegral r ∧ ∀ j, bit (e.asLong r kind).toUInt64 j =
      c.flags.any fun f => bit (f.expr.asLong r kind).toUInt64 j := by
  revert hflags
  refine Cover.expr?_induction (P := fun fs e => (∀ f ∈ fs, f.expr.HasIntegral r) →
    e.HasIntegral r ∧ ∀ j, bit (e.asLong r kind).toUInt64 j =
      fs.any fun f => bit (f.expr.asLong r kind).toUInt64 j) ?_ ?_ he
  · exact fun f hf => ⟨hf f List.mem_cons_self, fun j => by simp⟩
  · intro fs e g ih hflags
    obtain ⟨hint, hbits⟩ := ih fun f hf => hflags f (List.mem_append_left _ hf)
    have ⟨hor, hlong⟩ := hasIntegral_or hint (hflags g (by simp)) kind
    refine ⟨hor, fun j => ?_⟩
    rw [hlong, Int64.toUInt64_or, bit_or, hbits j]
    simp

/-! ## Shapes -/

/-- An integral expression with the low bits of a target. -/
def HasBits (r : Registry) (kind : StackKind) (m : Nat) (target : UInt64) (e : Expr) : Prop :=
  e.HasIntegral r ∧ ∀ j < m, bit (e.asLong r kind).toUInt64 j = bit target j

section Shapes

variable (htables : IntegralTables r type tables) (hn : type.width? = some n)
  (hm : narrow.width? = some m) (hmask : narrow.mask? = some mask) (hmn : m ≤ n)

include htables hn hm hmask hmn

/-- The flags of a cover have the bits that it covers. -/
theorem hasBits_cover {e : Expr} (he : (cover target (flagsOf mask tables)).expr? = some e) :
    HasBits r type.stackKind m (cover target (flagsOf mask tables)).covered e := by
  have hcov := cover_spec target (flagsOf mask tables)
  have hm64 := width?_le hm
  obtain ⟨hint, hbits⟩ :=
    hasIntegral_flags he (fun f hf => htables.hasIntegral (hcov.mem f hf)) type.stackKind
  refine ⟨hint, fun j hj => ?_⟩
  rw [hbits j, any_chosen_eq_covered htables.sound hn hm hmask target (by omega) hj (by omega)]

theorem hasBits_whole {e : Expr} (he : (cover target (flagsOf mask tables)).expr? = some e)
    (hres : (cover target (flagsOf mask tables)).residual target = 0) :
    HasBits r type.stackKind m target e := by
  obtain ⟨hint, hbits⟩ := hasBits_cover htables hn hm hmask hmn he
  have hm64 := width?_le hm
  refine ⟨hint, fun j hj => ?_⟩
  rw [hbits j hj, (cover_spec target (flagsOf mask tables)).bit_target hres (by omega)]

theorem hasBits_complement {e : Expr}
    (he : (cover (~~~target &&& mask) (flagsOf mask tables)).expr? = some e)
    (hres : (cover (~~~target &&& mask) (flagsOf mask tables)).residual (~~~target &&& mask) = 0) :
    HasBits r type.stackKind m target (.unary .complement e) := by
  obtain ⟨hint, hbits⟩ := hasBits_whole htables hn hm hmask hmn he hres
  have ⟨hnot, hlong⟩ := hasIntegral_complement hint type.stackKind
  have hm64 := width?_le hm
  refine ⟨hnot, fun j hj => ?_⟩
  have hj64 : j < 64 := by omega
  rw [hlong, Int64.toUInt64_not, bit_not _ hj64, hbits j hj, bit_and, bit_not _ hj64,
    bit_mask hm hmask hj64]
  simp [hj]

theorem hasBits_residual {e : Expr} (he : (cover target (flagsOf mask tables)).expr? = some e) :
    HasBits r type.stackKind m target (.binary .or e (residualLiteral
      ((cover target (flagsOf mask tables)).residual target) narrow)) := by
  obtain ⟨hint, hbits⟩ := hasBits_cover htables hn hm hmask hmn he
  obtain ⟨l, i, hl, hi, hres⟩ :=
    residualLiteral_spec hm ((cover target (flagsOf mask tables)).residual target)
  have hlit : (Expr.literal l).evaluate r = .ok l.value := rfl
  have ⟨hor, hlong⟩ :=
    hasIntegral_or hint ⟨l.value, hlit, isIntegral_of_toInt64 hi⟩ type.stackKind
  have hcov := cover_spec target (flagsOf mask tables)
  have hm64 := width?_le hm
  rw [hl]
  refine ⟨hor, fun j hj => ?_⟩
  rw [hlong, Int64.toUInt64_or, bit_or, hbits j hj, asLong_of_evaluate hlit,
    Value.asLong_of_toInt64 hi, hres j hj, bit_residual _ _ (by omega)]
  cases hc : bit (cover target (flagsOf mask tables)).covered j with
  | true => rw [hcov.within j hc]; rfl
  | false => simp

theorem hasBits_of_decompose {value : Value} {e : Expr} (h : decompose tables value narrow = some e) :
    ∃ target, value.pattern? mask = some target ∧ HasBits r type.stackKind m target e := by
  obtain ⟨mask', bits, hmask', hbits, hshape⟩ := decompose_eq_some h
  obtain rfl := Option.some.inj (hmask.symm.trans hmask')
  refine ⟨bits &&& mask, by rw [Value.pattern?, hbits, Option.map_some], ?_⟩
  rcases hshape with ⟨e', he', hres, rfl⟩ | ⟨e', he', rfl⟩
  · exact hasBits_complement htables hn hm hmask hmn he' hres
  · split_ifs with hres
    · exact hasBits_whole htables hn hm hmask hmn he' hres
    · exact hasBits_residual htables hn hm hmask hmn he'

end Shapes

/-- **A decomposition denotes its target exactly.**  Over tables of an integral type
    whose entries have integral values, what a value is put together from in a type
    that is not wider has a value, and cast to that type it has the low bits given. -/
theorem decompose_denotes (htables : IntegralTables r type tables) (hn : type.width? = some n)
    (hm : narrow.width? = some m) (hmn : m ≤ n) {value : Value} {e : Expr}
    (h : decompose tables value narrow = some e) :
    ∃ v x bits mask, e.evaluate r = .ok v ∧ v.cast narrow = some x ∧
      value.bits? = some bits ∧ narrow.mask? = some mask ∧ x.bits? = some (bits &&& mask) := by
  obtain ⟨mask, hmask⟩ : ∃ mask, narrow.mask? = some mask := by
    rw [DataType.mask?, hm]
    exact ⟨_, rfl⟩
  obtain ⟨target, htarget, ⟨v, hv, hvi⟩, hlow⟩ :=
    hasBits_of_decompose htables hn hm hmask hmn h
  obtain ⟨bits, hbits, rfl⟩ := Option.map_eq_some_iff.1 htarget
  have hnarrow : narrow.isIntegral := by rw [DataType.isIntegral, hm]; rfl
  obtain ⟨x, hx⟩ := Value.exists_cast (isPrimitive_of_isIntegral hvi)
    (isPrimitive_of_isIntegral hnarrow)
  obtain ⟨i, hi⟩ := Value.exists_toInt64 hvi
  obtain ⟨k, hk⟩ := Value.exists_toInt64 (Value.dataType_of_cast hx ▸ hnarrow)
  obtain ⟨low, hxbits⟩ := Value.exists_bits hk
  refine ⟨v, x, bits, mask, hv, hx, hbits, hmask, hxbits.trans (congrArg some ?_)⟩
  refine ext_bit fun j hj => ?_
  rw [bit_of_cast hm hx hxbits hj, Value.asLong_of_toInt64 hi]
  by_cases hjm : j < m
  · have hlow := hlow j hjm
    rw [asLong_of_evaluate hv, Value.asLong_of_toInt64 hi] at hlow
    simp [hlow, hjm]
  · simp [bit_mask hm hmask hj, hjm]

/-! ## Flags of other types -/

/-- `p.G.SIGN = -128` of type `byte`, `p.G.MODE = 3` of type `char` and `p.G.OPEN = 16` of
    type `long`. -/
def mixedRegistry : Registry :=
  ((ClassRegistry.empty.addConstant "p/G" "SIGN" ⟨.byte, .byte (-128), true⟩).addConstant
    "p/G" "MODE" ⟨.char, .char 3, true⟩).addConstant "p/G" "OPEN" ⟨.long, .long 16, true⟩

def mixedField (name : String) : Expr := .field ⟨"p/G", some name, none, true⟩

/-- A table of `int` flags, none of which is an `int`. -/
def mixedTable : Mappings :=
  (((∅ : Mappings).set (.int (-128)) ⟨false, mixedField "SIGN"⟩).set (.int 3)
    ⟨false, mixedField "MODE"⟩).set (.int 16) ⟨false, mixedField "OPEN"⟩

theorem integralTables_mixedTable : IntegralTables mixedRegistry .int [mixedTable] := by
  intro t ht key entry h
  obtain rfl := List.mem_singleton.1 ht
  simp only [mixedTable, Table.get?_set] at h
  split_ifs at h with hopen hmode hsign
  · subst hopen
    obtain rfl := Option.some.inj h
    exact ⟨.long 16, by cbv, rfl, by decide⟩
  · subst hmode
    obtain rfl := Option.some.inj h
    exact ⟨.char 3, by cbv, rfl, by decide⟩
  · subst hsign
    obtain rfl := Option.some.inj h
    exact ⟨.byte (-128), by cbv, rfl, by decide⟩
  · cases h

/-- `p.G.MODE | p.G.OPEN | p.G.SIGN | 8` is a long with the byte 0x9b. -/
theorem decompose_denotes_mixed :
    ∃ e, decompose [mixedTable] (.int (-101)) .byte = some e ∧
      ∃ v x bits mask, e.evaluate mixedRegistry = .ok v ∧ v.cast .byte = some x ∧
        (Value.int (-101)).bits? = some bits ∧ DataType.byte.mask? = some mask ∧
        x.bits? = some (bits &&& mask) := by
  have h : decompose [mixedTable] (.int (-101)) .byte = some (.binary .or (.binary .or
      (.binary .or (mixedField "MODE") (mixedField "OPEN")) (mixedField "SIGN"))
      (.literal (.int 8))) := by cbv
  exact ⟨_, h, decompose_denotes integralTables_mixedTable rfl rfl (by decide) h⟩

end ConstRestore
