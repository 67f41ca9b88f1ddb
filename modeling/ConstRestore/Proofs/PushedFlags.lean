/-
  When a combination of flags pushes the literal that it stands in for.

  * `Combines.bits`: where its sign is that of the literal, all bits of a
    combination agree with those of the literal;
  * `flags_push_iff`: when the code pushes the literal.
    `flags_push_another_value` is a literal -2 that becomes 254.
-/
import ConstRestore.Proofs.Combination
import ConstRestore.Proofs.Verbatim

namespace ConstRestore

variable {r : Registry} {type : DataType} {tables : List Mappings} {narrow : DataType} {n m : Nat}
  {mask : UInt64}

/-! ## Literals and combinations -/

/-- No flag has the low bits of a literal that no table maps. -/
theorem not_bits_of_unmapped (htables : SoundTables r type tables)
    (hn : type.width? = some n) (hm : narrow.width? = some m)
    (hmask : narrow.mask? = some mask) {value key : Value}
    (hkey : value.cast type = some key) (hunmapped : ∀ t ∈ tables, t.get? key = none)
    {f : Flag} (hf : f ∈ flagsOf mask tables) :
    ¬∀ j < n, bit (f.expr.asLong r type.stackKind).toUInt64 j =
      bit (value.asLong type.stackKind).toUInt64 j := by
  intro hbits
  obtain ⟨v, key', hv, hx, ⟨t, ht, hget⟩, -⟩ := flag_spec htables hn hm hmask hf
  have hint : type.isIntegral := by rw [DataType.isIntegral, hn]; rfl
  have hp := isPrimitive_of_isIntegral hint
  have hcast := (Value.convertExact_eq_some.1 hx).1
  rw [Value.cast_eq_ofInt64 (Value.isPrimitive_of_cast hcast hp) hint, ← asLong_of_evaluate hv,
    Value.ofInt64_congr hn hbits, ← Value.cast_eq_ofInt64 (Value.isPrimitive_of_cast hkey hp) hint,
    hkey] at hcast
  rw [← Option.some.inj hcast, hunmapped t ht] at hget
  cases hget

/-- The range of a literal that converts exactly. -/
theorem toInt_of_literal {value key : Value} {t : DataType} {l : Int64} {k : Nat}
    (hx : value.convertExact t = some key) (hl : value.toInt64? = some l)
    (hvalue : value.dataType = .int ∨ value.dataType = .long) (hk : t.width? = some k)
    (hkl : t.stackKind = value.dataType.stackKind) :
    (t ≠ .char → -2 ^ (k - 1) ≤ l.toInt ∧ l.toInt < 2 ^ (k - 1)) ∧
      (t = .char → 0 ≤ l.toInt ∧ l.toInt < 2 ^ 16) := by
  have hint : t.isIntegral := by rw [DataType.isIntegral, hk]; rfl
  have hkt := Value.dataType_of_convertExact hx
  have hi : key.toInt64? = some l := by
    rw [← Value.toInt64?_word, Value.word_of_convertExact hx hvalue hkl, Value.toInt64?_word, hl]
  exact ⟨fun hc => Value.toInt_of_signed hi (hkt ▸ hk) (hkt ▸ hc),
    fun hc => Value.toInt_of_char hi (hkt.trans hc)⟩

theorem toInt_lt_of_literal {value key : Value} {t : DataType} {l : Int64} {k : Nat}
    (hx : value.convertExact t = some key) (hl : value.toInt64? = some l)
    (hvalue : value.dataType = .int ∨ value.dataType = .long) (hk : t.width? = some k)
    (hkl : t.stackKind = value.dataType.stackKind) : l.toInt < 2 ^ k := by
  obtain ⟨hsigned, hchar⟩ := toInt_of_literal hx hl hvalue hk hkl
  by_cases hc : t = .char
  · have hlt := (hchar hc).2
    rw [hc] at hk
    cases hk
    exact hlt
  · exact (hsigned hc).2.trans_le (pow_le_pow_right₀ (by decide) (Nat.sub_le k 1))

def Value.isNegative (v : Value) : Bool := v.toInt64?.any (·.toInt < 0)

/-- The flags that a value has its bits above the width of the group from.  From
    the sign of the group's type on, each of them has all bits below some place. -/
structure Extends (r : Registry) (kind : StackKind) (fs : List Flag) (l : Int64) (n m : Nat)
    (v : Value) : Prop where
  within : ∀ f ∈ fs, ∀ j < n, bit (f.expr.asLong r kind).toUInt64 j → bit l.toUInt64 j
  steps : ∀ f ∈ fs, ∃ h, (h = n - 1 ∨ h = 16 ∨ h = 64) ∧
    ∀ j, n - 1 ≤ j → j < 64 → bit (f.expr.asLong r kind).toUInt64 j = decide (j < h)
  high : ∀ j, n ≤ j → j < m →
    bit (v.asLong kind).toUInt64 j = fs.any fun f => bit (f.expr.asLong r kind).toUInt64 j

section Extends

variable {kind : StackKind} {fs : List Flag} {l : Int64} {v : Value} (h : Extends r kind fs l n m v)
  (hm64 : m ≤ 64) {j : Nat} (hnj : n ≤ j)

include h hm64 hnj

/-- A bit above the width comes from a flag with all bits below it. -/
theorem Extends.exists_flag (hjm : j < m) (hj : bit (v.asLong kind).toUInt64 j) :
    ∃ f ∈ fs, ∃ h, (h = n - 1 ∨ h = 16 ∨ h = 64) ∧ j < h ∧
      ∀ i, n - 1 ≤ i → i < 64 → bit (f.expr.asLong r kind).toUInt64 i = decide (i < h) := by
  rw [h.high j hnj hjm] at hj
  obtain ⟨f, hf, hfj⟩ := List.any_eq_true.1 hj
  obtain ⟨k, hk, hbits⟩ := h.steps f hf
  rw [hbits j (by omega) (by omega), decide_eq_true_eq] at hfj
  exact ⟨f, hf, k, hk, hfj, hbits⟩

theorem Extends.bit_of_top {k : Nat} (hjk : j ≤ k) (hkm : k < m)
    (hk : bit (v.asLong kind).toUInt64 k) : bit (v.asLong kind).toUInt64 j := by
  obtain ⟨f, hf, i, -, hki, hbits⟩ := h.exists_flag hm64 (by omega) hkm hk
  rw [h.high j hnj (by omega)]
  refine List.any_eq_true.2 ⟨f, hf, ?_⟩
  rw [hbits j (by omega) (by omega), decide_eq_true_eq]
  omega

/-- In a group of sixteen bits a flag with a bit above them is negative. -/
theorem Extends.top_of_bit (hn : n = 16) {k : Nat} (hjk : j ≤ k) (hkm : k < m)
    (hj : bit (v.asLong kind).toUInt64 j) : bit (v.asLong kind).toUInt64 k := by
  obtain ⟨f, hf, i, hi, hji, hbits⟩ := h.exists_flag hm64 hnj (by omega) hj
  rw [h.high k (by omega) hkm]
  refine List.any_eq_true.2 ⟨f, hf, ?_⟩
  rw [hbits k (by omega) (by omega), decide_eq_true_eq]
  omega

/-- A flag with a bit above the width has the sign bit of the group's type, and so
    has the literal. -/
theorem Extends.literal_sign (hn : 0 < n) (hjm : j < m) (hj : bit (v.asLong kind).toUInt64 j) :
    bit l.toUInt64 (n - 1) := by
  obtain ⟨f, hf, i, -, hji, hbits⟩ := h.exists_flag hm64 hnj hjm hj
  refine h.within f hf (n - 1) (by omega) ?_
  rw [hbits (n - 1) (Nat.le_refl _) (by omega), decide_eq_true_eq]
  omega

end Extends

/-- Integral values with one word convert exactly to each other. -/
theorem convertExact_of_word {v x : Value} (hx : x.dataType.isIntegral) (h : x.word = v.word) :
    v.convertExact x.dataType = some x := by
  obtain ⟨i, hi⟩ := Value.exists_toInt64 hx
  have hv : v.toInt64? = some i := by
    rw [← Value.toInt64?_word, ← h, Value.toInt64?_word, hi]
  have hcast {u w : Value} (hu : u.toInt64? = some i) (hw : w.toInt64? = some i) :
      u.cast w.dataType = some w := by
    have hw' := isIntegral_of_toInt64 hw
    rw [Value.cast_eq_ofInt64 (isPrimitive_of_isIntegral (isIntegral_of_toInt64 hu)) hw',
      Value.asLong_of_toInt64 hu, ← Value.asLong_of_toInt64 hw,
      ← Value.cast_eq_ofInt64 (isPrimitive_of_isIntegral hw') hw', Value.cast_self]
  exact Value.convertExact_eq_some.2 ⟨hcast hv hi, hcast hi hv⟩

section Bits

variable (htables : SoundTables r type tables)
  (hn : type.width? = some n) (hm : narrow.width? = some m)
  (hmask : narrow.mask? = some mask) {value key : Value}
  (hkey : value.convertExact type = some key) (hunmapped : ∀ t ∈ tables, t.get? key = none)
  {e : Expr} {v : Value} (hC : Combines r type.stackKind (flagsOf mask tables)
    (value.asLong type.stackKind) n m e v)

include htables hn hm hmask hkey hunmapped hC

/-- A flag alone has the bits of the literal, which would be mapped. -/
theorem Combines.isIntegral (hnm : n < m) : v.dataType.isIntegral := by
  have hm64 := width?_le hm
  rcases hC.alone with ⟨f, hf, -, hbits⟩ | h
  · obtain ⟨-, -, -, -, -, hfbit⟩ := flag_spec htables hn hm hmask hf
    refine absurd ?_ (not_bits_of_unmapped htables hn hm hmask
      (Value.convertExact_eq_some.1 hkey).1 hunmapped hf)
    intro j hj
    have hj := (hfbit j (by omega)).symm.trans (hbits j (by omega))
    simpa [*, show j < m by omega] using hj
  · rcases h with h | h <;> rw [h] <;> rfl

theorem Combines.exists_extends (hnm : n < m) (hn16 : n ≤ 16) :
    ∃ fs, Extends r type.stackKind fs (value.asLong type.stackKind) n m v := by
  have hint := hC.isIntegral htables hn hm hmask hkey hunmapped hnm
  obtain ⟨fs, hfs, hany⟩ := hC.high hnm
  refine ⟨fs, fun f hf => (hfs f hf).2.2, ?_, hany⟩
  intro f hf
  obtain ⟨u, hu, hui⟩ := (hfs f hf).2.1 hint
  obtain ⟨u', key', hu', hx', -⟩ := flag_spec htables hn hm hmask (hfs f hf).1
  obtain rfl := Except.ok.inj (hu.symm.trans hu')
  obtain ⟨i, hi⟩ := Value.exists_toInt64 hui
  rw [asLong_of_evaluate hu, Value.asLong_of_toInt64 hi]
  exact bits_of_convertExact hx' hi hn hn16

/-- Where signs agree, the value of a combination has all bits of the literal. -/
theorem Combines.bits (hkind : narrow.stackKind = type.stackKind)
    (hvalue : value.dataType = .int ∨ value.dataType = .long)
    (hkg : type.stackKind = value.dataType.stackKind) {x y : Value}
    (hx : v.cast narrow = some x) (hy : value.convertExact narrow = some y)
    (hsign : x.isNegative = value.isNegative) :
    ∀ j < m, bit (v.asLong type.stackKind).toUInt64 j =
      bit (value.asLong type.stackKind).toUInt64 j := by
  intro j hjm
  by_cases hjn : j < n
  · exact hC.low j hjn hjm
  have hnm : n < m := by omega
  have hn16 : n ≤ 16 ∧ 8 ≤ n ∧ m ≤ 32 := by
    revert hn hm hkind hnm
    cases type <;> cases narrow <;> simp [DataType.width?, DataType.stackKind] <;> omega
  obtain ⟨fs, hext⟩ := hC.exists_extends htables hn hm hmask hkey hunmapped hnm hn16.1
  obtain ⟨l, hl⟩ : ∃ l, value.toInt64? = some l :=
    Value.exists_toInt64 (by rcases hvalue with h | h <;> rw [h] <;> rfl)
  have hxt := Value.dataType_of_cast hx
  have hmint : narrow.isIntegral := by rw [DataType.isIntegral, hm]; rfl
  obtain ⟨q, hq⟩ := Value.exists_toInt64 (hxt ▸ hmint)
  -- the sign of the converted value is its highest bit, unless it is a `char`
  have hqbit (i : Nat) (hi : i < m) : bit q.toUInt64 i =
      bit (v.asLong type.stackKind).toUInt64 i := by
    rw [Value.cast_eq_ofInt64 hC.isPrimitive hmint, hkind] at hx
    exact Value.bit_of_ofInt64 hm hx hq hi
  have hlg := toInt_of_literal hkey hl hvalue hn hkg
  have hlm := toInt_of_literal hy hl hvalue hm (hkind.trans hkg)
  rw [Value.asLong_of_toInt64 hl] at hext ⊢
  simp only [Value.isNegative, hq, hl, Option.any_some, decide_eq_decide] at hsign
  rcases Int.lt_or_le l.toInt 0 with hneg | hpos
  · have hgc : type ≠ .char := fun h => by have := hlg.2 h; omega
    have hmc : narrow ≠ .char := fun h => by have := hlm.2 h; omega
    have hqrange := Value.toInt_of_signed hq (hxt ▸ hm) (hxt ▸ hmc)
    have htop := hqbit (m - 1) (by omega)
    rw [bit_of_neg (hsign.2 hneg) hqrange.1 (Nat.le_refl _) (by omega)] at htop
    rw [bit_of_neg hneg (hlg.1 hgc).1 (by omega) (by omega)]
    exact hext.bit_of_top (by omega) (by omega) (k := m - 1) (by omega) (by omega) htop.symm
  · rw [bit_of_nonneg hpos (toInt_lt_of_literal hkey hl hvalue hn hkg) (by omega)]
    refine Bool.eq_false_iff.2 ?_
    intro hbit
    by_cases hgc : type = .char
    · -- the flag is negative, and so is the combination
      rw [hgc] at hn hkind
      cases hn
      have hm32 : m = 32 ∧ narrow ≠ .char := by
        revert hm hkind hnm
        cases narrow <;> simp [DataType.width?, DataType.stackKind] <;> omega
      obtain ⟨rfl, hmc⟩ := hm32
      have hqrange := Value.toInt_of_signed hq (hxt ▸ hm) (hxt ▸ hmc)
      have htop := hext.top_of_bit (by omega) (by omega) rfl (k := 31) (by omega) (by omega) hbit
      rw [← hqbit 31 (by omega), bit_of_nonneg (by omega) hqrange.2 (by omega)] at htop
      cases htop
    · have hbit := hext.literal_sign (by omega) (by omega) (by omega) hjm hbit
      rw [bit_of_nonneg hpos (hlg.1 hgc).2 (Nat.le_refl _)] at hbit
      cases hbit

/-- A combination that flips its sign is a flag alone, and one with the literal's
    word would map it. -/
theorem Combines.word_ne_of_flipsSign (hvalue : value.dataType = .int ∨ value.dataType = .long)
    {t : DataType} (hflip : v.FlipsSign t) : v.word ≠ value.word := by
  intro hword
  rcases hC.alone with ⟨f, hf, he, -⟩ | h
  · refine not_bits_of_unmapped htables hn hm hmask (Value.convertExact_eq_some.1 hkey).1
      hunmapped hf ?_
    intro j _
    obtain ⟨l, hl⟩ : ∃ l, value.toInt64? = some l :=
      Value.exists_toInt64 (by rcases hvalue with h | h <;> rw [h] <;> rfl)
    have hvl : v.toInt64? = some l := by
      rw [← Value.toInt64?_word, hword, Value.toInt64?_word, hl]
    rw [asLong_of_evaluate (he ▸ hC.evaluate), Value.asLong_of_toInt64 hvl,
      Value.asLong_of_toInt64 hl]
  · rcases h with h | h <;> cases v <;> first | exact hflip | cases h

/-- The converted value has the literal's word exactly if its type holds the literal and
    the signs agree. -/
theorem Combines.word_eq_iff (hkind : narrow.stackKind = type.stackKind)
    (hvalue : value.dataType = .int ∨ value.dataType = .long)
    (hkg : type.stackKind = value.dataType.stackKind) {x : Value}
    (hx : v.cast narrow = some x) :
    x.word = value.word ↔
      (value.convertExact narrow).isSome ∧ x.isNegative = value.isNegative := by
  have hxt := Value.dataType_of_cast hx
  have hmint : narrow.isIntegral := by rw [DataType.isIntegral, hm]; rfl
  constructor
  · intro hword
    constructor
    · rw [← hxt, convertExact_of_word (hxt ▸ hmint) hword]
      rfl
    · rw [Value.isNegative, ← Value.toInt64?_word, hword, Value.toInt64?_word]
      rfl
  · rintro ⟨hy, hsign⟩
    obtain ⟨y, hy⟩ := Option.isSome_iff_exists.1 hy
    have hbits := hC.bits htables hn hm hmask hkey hunmapped hkind hvalue hkg hx hy hsign
    have hvp : value.dataType.isPrimitive := by rcases hvalue with h | h <;> rw [h] <;> rfl
    have hxy : x = y := by
      rw [Value.cast_eq_ofInt64 hC.isPrimitive hmint, hkind, Value.ofInt64_congr hm hbits,
        ← hkind, ← Value.cast_eq_ofInt64 hvp hmint, (Value.convertExact_eq_some.1 hy).1] at hx
      exact (Option.some.inj hx).symm
    rw [hxy, Value.word_of_convertExact hy hvalue (hkind.trans hkg)]

end Bits

/-- **When a combination of flags pushes the literal that it stands in for.**  The code
    pushes the literal's value exactly if the type that the consumers imply holds
    the literal, the combination has its sign, and no narrowing is left out that
    flips the sign. -/
theorem flags_push_iff {s : Subject} (hr : s.registry.StaticIntegral) {key : GroupKey}
    {g : Group} (hg : s.store.group? key = some g) (hfilled : g.Filled s.registry)
    {value : Value} (hvalue : value.dataType = .int ∨ value.dataType = .long) {f : Facts}
    {w : StandIn} (hw : s.standIn? key value f = some w)
    (hnone : g.mapping? (s.tables g) value = none) {a : Solution} {index : Nat}
    {sub : Substitution} (hsub : s.substitution a index value.dataType w = .ok sub) :
    ∃ v x p, w.expr.evaluate s.registry = .ok v ∧ v.cast w.type = some x ∧
      Pushes s.registry sub.code p ∧
      (p = value.word ↔ (value.convertExact w.type).isSome ∧ x.isNegative = value.isNegative ∧
        (w.expr.isLiteral ∨ ¬v.FlipsSign w.type)) := by
  obtain ⟨hkind, k, hkey, hdecompose⟩ := Group.standIn?_eq_some (Subject.standIn?_eq_some hg hw)
  rw [hnone] at hdecompose
  obtain ⟨hdec, htype⟩ := hdecompose
  have hkg := hkind.symm.trans (stackKind_narrowType f value.dataType)
  have hkw : (g.width (f.narrowType value.dataType)).stackKind = g.dataType.stackKind := by
    rw [Group.width]
    split_ifs
    · exact hkind
    · rfl
  rw [← htype] at hdec hkw
  obtain ⟨mask, bits, hmask, hbits, -⟩ := decompose_eq_some hdec
  obtain ⟨m, hm, -⟩ := Option.map_eq_some_iff.1 hmask
  obtain ⟨n, hn⟩ : ∃ n, g.dataType.width? = some n := by
    obtain ⟨i, -, hbits⟩ := Option.bind_eq_some_iff.1 hbits
    obtain ⟨kmask, hkmask, -⟩ := Option.bind_eq_some_iff.1 hbits
    rw [Value.dataType_of_convertExact hkey] at hkmask
    obtain ⟨n, hn, -⟩ := Option.map_eq_some_iff.1 hkmask
    exact ⟨n, hn⟩
  have hmint : w.type.isIntegral := by rw [DataType.isIntegral, hm]; rfl
  have htables : SoundTables s.registry g.dataType (s.tables g) :=
    fun t ht key entry h => (Group.sound_of_filled hfilled).tablesFor ht h
  have hunmapped : ∀ t ∈ s.tables g, t.get? k = none := by
    rw [Group.mapping?, hkey, Option.bind_some] at hnone
    exact List.findSome?_eq_none_iff.1 hnone
  obtain ⟨code, last, hcode, hlast, rfl⟩ := substitution_eq_ok hr hsub
  obtain rfl := Except.ok.inj ((convert_eq_nil hvalue (hkw.trans hkg)).symm.trans hlast)
  obtain ⟨typed, htyped, -⟩ := bind_eq_ok.1 hcode
  obtain ⟨v, hC⟩ := combines_of_decompose hr.wellTyped htables hn hm hmask
    (Value.convertExact_eq_some.1 hkey).1 hdec htyped
  obtain ⟨x, hx, hpush⟩ := codeFor_pushes hr.wellTyped rfl (allStatic_of_evaluate hr hC.evaluate)
    hC.evaluate hC.isPrimitive (isPrimitive_of_isIntegral hmint) hcode
  refine ⟨v, x, _, hC.evaluate, hx, by rwa [List.append_nil], ?_⟩
  split_ifs with hf
  · refine iff_of_false ?_ fun h => h.2.2.elim hf.1 (absurd hf.2)
    exact hC.word_ne_of_flipsSign htables hn hm hmask hkey hunmapped hvalue hf.2
  · rw [hC.word_eq_iff htables hn hm hmask hkey hunmapped hkw hvalue hkg hx]
    tauto

/-! ## Bits that are lost -/

/-- A registry with one constant, `p.G.WRITE = 2` of type `byte`. -/
def writeRegistry : Registry :=
  ClassRegistry.empty.addConstant "p/G" "WRITE" ⟨.byte, .byte 2, true⟩

theorem staticIntegral_writeRegistry : writeRegistry.StaticIntegral :=
  Registry.staticIntegral_empty.addConstant rfl rfl rfl

def writeField : Expr := .field ⟨"p/G", some "WRITE", none, true⟩

/-- A group of `byte` flags. -/
def writeGroup : Group :=
  ((Group.empty (.named "g") .byte true).insertExpr writeRegistry .global false writeField).1

theorem filled_writeGroup : writeGroup.Filled writeRegistry := .insertExpr (.empty ..) ..

/-- A method that passes an int as one of the flags. -/
def writeSubject (literal : Int32) : Subject := passing writeRegistry writeGroup .int literal

/-- `p.G.WRITE` with a literal for other bits. -/
def writeOr (bits : Int32) : StandIn := ⟨.binary .or writeField (.literal (.int bits)), .int⟩

/-- The literal 6 becomes `p.G.WRITE | 4`. -/
theorem flags_push_iff_six :
    ∃ a sub, solve writeRegistry defaultStepLimit "p/C" (writeSubject 6).method = .ok a ∧
      (writeSubject 6).substitution a 0 .int (writeOr 4) = .ok sub ∧
      ∃ v x p, (writeOr 4).expr.evaluate writeRegistry = .ok v ∧ v.cast .int = some x ∧
        Pushes writeRegistry sub.code p ∧
        (p = (Value.int 6).word ↔ ((Value.int 6).convertExact .int).isSome ∧
          x.isNegative = (Value.int 6).isNegative ∧
          ((writeOr 4).expr.isLiteral ∨ ¬v.FlipsSign .int)) := by
  have h : (solve writeRegistry defaultStepLimit "p/C" (writeSubject 6).method).map
      (fun a => (writeSubject 6).substitution a 0 .int (writeOr 4)) =
        .ok (.ok ⟨none, [.field .getstatic ⟨"p/G", "WRITE", "B"⟩, .simple (.iconst 5),
          .simple (.bit .or false)]⟩) := by cbv
  have hg : (writeSubject 6).store.group? (.named "g") = some writeGroup := by cbv
  have hw : (writeSubject 6).standIn? (.named "g") (.int 6) (passedFacts .int) =
      some (writeOr 4) := by cbv
  have hnone : writeGroup.mapping? ((writeSubject 6).tables writeGroup) (.int 6) = none := by cbv
  obtain ⟨a, ha, hsub⟩ := map_eq_ok.1 h
  exact ⟨a, _, ha, hsub, flags_push_iff staticIntegral_writeRegistry hg filled_writeGroup (.inl rfl)
    hw hnone hsub⟩

/-- The literal -2 becomes `p.G.WRITE | 252`, which is 254 on the stack. -/
theorem flags_push_another_value :
    writeRegistry.StaticIntegral ∧ writeGroup.Filled writeRegistry ∧
    (writeSubject (-2)).store.group? (.named "g") = some writeGroup ∧
    writeGroup.mapping? ((writeSubject (-2)).tables writeGroup) (.int (-2)) = none ∧
    ∃ a f w sub, solve writeRegistry defaultStepLimit "p/C" (writeSubject (-2)).method = .ok a ∧
      a.facts? 0 = some f ∧
      (writeSubject (-2)).standIn? (.named "g") (.int (-2)) f = some w ∧
      (writeSubject (-2)).substitution a 0 .int w = .ok sub ∧
      run? writeRegistry sub.code [] = some [.int 254] ∧
      ¬Pushes writeRegistry sub.code (Value.int (-2)).word := by
  have h : (solve writeRegistry defaultStepLimit "p/C" (writeSubject (-2)).method).map
      (fun a => (a.facts? 0, (writeSubject (-2)).substitution a 0 .int (writeOr 252))) =
        .ok (some (passedFacts .int), .ok ⟨none, [.field .getstatic ⟨"p/G", "WRITE", "B"⟩,
          .int .sipush 252, .simple (.bit .or false)]⟩) := by cbv
  have hrun : run? writeRegistry [.field .getstatic ⟨"p/G", "WRITE", "B"⟩, .int .sipush 252,
      .simple (.bit .or false)] [] = some [.int 254] := by cbv
  obtain ⟨a, ha, hsub⟩ := map_eq_ok.1 h
  refine ⟨staticIntegral_writeRegistry, filled_writeGroup, by cbv, by cbv, a, passedFacts .int,
    writeOr 252, _, ha, congrArg Prod.fst hsub, by cbv, congrArg Prod.snd hsub, hrun, ?_⟩
  intro hpush
  have hword : some [Word.int 254] = some [(Value.int (-2)).word] := hrun.symm.trans (hpush [])
  exact absurd hword (by decide)

end ConstRestore
