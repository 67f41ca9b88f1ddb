/-
  Values of combinations.

  A combination is made of ORs and complements.  Code for one exists only for
  ints and longs (`typed_or`, `typed_complement`), so that a combination that
  has code has a value, with the bits of its operands (`evaluate_or`,
  `evaluate_complement`).  `evaluate_flags` says it of any number of flags.
-/
import ConstRestore.Proofs.Folding
import ConstRestore.Proofs.ValueBits

namespace ConstRestore

variable {r : Registry}

/-! ## Values of combinations -/

/-- The operands of an operator that has code have code. -/
theorem as_typed {x : Compiled} {t : DataType} {code : List Instr} (h : x.as t = .ok code) :
    ∃ p, x.typed (some t) = .ok p := by
  obtain ⟨p, hp, -⟩ := bind_eq_ok.1 h
  exact ⟨p, hp⟩

theorem isIntegral_of_promoteBinary {s t u : DataType} (h : DataType.promoteBinary s t = some u)
    (hu : u = .int ∨ u = .long) : s.isIntegral ∧ t.isIntegral := by
  rcases hu with rfl | rfl <;> revert h <;> cases s <;> cases t <;> decide

theorem typeOf_or {e e' : Expr} {t : DataType} (h : (Expr.binary .or e e').typeOf r = .ok t) :
    ∃ s s', e.typeOf r = .ok s ∧ e'.typeOf r = .ok s' ∧ DataType.promoteBinary s s' = some t := by
  obtain ⟨s, hs, h⟩ := bind_eq_ok.1 h
  obtain ⟨s', hs', h⟩ := bind_eq_ok.1 h
  simp only [reduceCtorEq, false_and, if_false, BinaryOp.isShift, Bool.false_eq_true] at h
  exact ⟨s, s', hs, hs', elim_eq_ok.1 h⟩

/-- An OR that has code is one of ints or longs, and its operands have code. -/
theorem typed_or {c : CodeContext} {e e' : Expr} {expected : Option DataType}
    {p : List Instr × DataType} (h : ((Expr.binary .or e e').compile r c).typed expected = .ok p) :
    ∃ s s' t, e.typeOf r = .ok s ∧ e'.typeOf r = .ok s' ∧
      DataType.promoteBinary s s' = some t ∧ (t = .int ∨ t = .long) ∧
      ∃ p, (e.compile r c).typed (some t) = .ok p := by
  simp only [Expr.compile] at h
  cases htype : (Expr.binary .or e e').typeOf r with
  | error err =>
    rw [htype] at h
    cases h
  | ok t =>
    obtain ⟨s, s', hs, hs', ht⟩ := typeOf_or htype
    have hns : t ≠ .string := by
      rintro rfl
      exact absurd (isPrimitive_of_promoteBinary ht).2.2 Bool.false_ne_true
    rw [htype, typed_compileBinary hns] at h
    obtain ⟨code, h, -⟩ := map_eq_ok.1 h
    obtain ⟨left, hl, h⟩ := bind_eq_ok.1 h
    obtain ⟨right, -, h⟩ := bind_eq_ok.1 h
    obtain ⟨opcode, hop, -⟩ := bind_eq_ok.1 h
    refine ⟨s, s', t, hs, hs', ht, ?_, as_typed hl⟩
    have hp := promote_of_promoteBinary ht
    cases t with
    | int => exact .inl rfl
    | long => exact .inr rfl
    | byte | short | char => cases hp
    | float | double | string | class_ => cases hop

theorem toInt32_toInt64_of_ne_long {v : Value} {i : Int64} (hi : v.toInt64? = some i)
    (hv : v.dataType ≠ .long) : i.toInt32.toInt64 = i := by
  cases v <;> cases hi <;> first | exact absurd rfl hv | simp [toInt64_ofUnit]

/-- The value of an OR has the bits of both operands. -/
theorem evaluate_or {e e' : Expr} {a b : Value} {i j : Int64} {t : DataType}
    (ha : e.evaluate r = .ok a) (hb : e'.evaluate r = .ok b)
    (ht : DataType.promoteBinary a.dataType b.dataType = some t) (htl : t = .int ∨ t = .long)
    (hi : a.toInt64? = some i) (hj : b.toInt64? = some j) :
    ∃ v, (Expr.binary .or e e').evaluate r = .ok v ∧ v.dataType = t ∧
      v.toInt64? = some (i ||| j) := by
  have hp := isPrimitive_of_promoteBinary ht
  have hcast {u : DataType} (hu : u.isIntegral) :
      a.cast u = Value.ofInt64 i u ∧ b.cast u = Value.ofInt64 j u :=
    ⟨Value.asLong_of_toInt64 hi u.stackKind ▸ Value.cast_eq_ofInt64 hp.1 hu,
      Value.asLong_of_toInt64 hj u.stackKind ▸ Value.cast_eq_ofInt64 hp.2.1 hu⟩
  rcases htl with rfl | rfl
  · obtain ⟨hca, hcb⟩ := hcast (u := .int) rfl
    have hne : a.dataType ≠ .long ∧ b.dataType ≠ .long := by
      revert ht
      cases a.dataType <;> cases b.dataType <;> decide
    refine ⟨.int (i ||| j).toInt32, ?_, rfl, ?_⟩
    · simp [Expr.evaluate, ha, hb, bind, Except.bind, BinaryOp.apply, BinaryOp.isShift,
        BinaryOp.isBitwise, ht, hca, hcb, Value.ofInt64, Value.toInt64?, bitwise, Value.ofBits?,
        toInt32_toUInt64]
    · rw [Value.toInt64?, Int64.toInt32_or, Int32.toInt64_or, toInt32_toInt64_of_ne_long hi hne.1,
        toInt32_toInt64_of_ne_long hj hne.2]
  · obtain ⟨hca, hcb⟩ := hcast (u := .long) rfl
    refine ⟨.long (i ||| j), ?_, rfl, rfl⟩
    simp [Expr.evaluate, ha, hb, bind, Except.bind, BinaryOp.apply, BinaryOp.isShift,
      BinaryOp.isBitwise, ht, hca, hcb, Value.ofInt64, Value.toInt64?, bitwise, Value.ofBits?]

/-- A complement that has code is one of an int or a long, and its operand has
    code. -/
theorem typed_complement {c : CodeContext} {e : Expr} {expected : Option DataType}
    {p : List Instr × DataType}
    (h : ((Expr.unary .complement e).compile r c).typed expected = .ok p) :
    ∃ s, e.typeOf r = .ok s ∧ s.isIntegral ∧ ∃ t p, (e.compile r c).typed (some t) = .ok p := by
  simp only [Expr.compile, compileUnary, Compiled.single] at h
  obtain ⟨t, ht, h⟩ := bind_eq_ok.1 h
  obtain ⟨operand, hoperand, h⟩ := bind_eq_ok.1 h
  obtain ⟨operation, hop, -⟩ := bind_eq_ok.1 h
  obtain ⟨s, hs, ht⟩ := bind_eq_ok.1 ht
  refine ⟨s, hs, ?_, t, as_typed hoperand⟩
  split at ht
  · obtain rfl := Except.ok.inj ht
    revert hop
    cases s with
    | byte | short | char | int | long => exact fun _ => rfl
    | float | double | string | class_ =>
      intro h
      cases h
  · cases ht

theorem evaluate_complement {e : Expr} {a : Value} {i : Int64} (ha : e.evaluate r = .ok a)
    (hi : a.toInt64? = some i) :
    ∃ v, (Expr.unary .complement e).evaluate r = .ok v ∧
      (v.dataType = .int ∨ v.dataType = .long) ∧ v.toInt64? = some (~~~i) := by
  have hp := isPrimitive_of_isIntegral (isIntegral_of_toInt64 hi)
  have hint : a.dataType.promote.isIntegral := isIntegral_promote (isIntegral_of_toInt64 hi)
  have hcast := Value.cast_eq_ofInt64 hp hint
  rw [Value.asLong_of_toInt64 hi] at hcast
  by_cases hl : a.dataType = .long
  · rw [hl] at hcast
    change a.cast .long = some (.long i) at hcast
    refine ⟨.long (~~~i), ?_, .inr rfl, rfl⟩
    simp [Expr.evaluate, ha, bind, Except.bind, UnaryOp.value?, hl, hcast, DataType.promote]
  · have ht : a.dataType.promote = .int := by
      revert hint hl
      cases a.dataType <;> decide
    rw [ht] at hcast
    refine ⟨.int (~~~i.toInt32), ?_, .inl rfl, ?_⟩
    · simp [Expr.evaluate, ha, bind, Except.bind, UnaryOp.value?, ht, hcast, Value.ofInt64]
    · have hnot : (~~~i.toInt32).toInt64 = ~~~i.toInt32.toInt64 :=
        Int64.toBitVec_inj.1 (BitVec.signExtend_not (by decide))
      rw [Value.toInt64?, hnot, toInt32_toInt64_of_ne_long hi hl]

/-- The long that an expression with a numeric value is like. -/
def Expr.asLong (r : Registry) (kind : StackKind) (e : Expr) : Int64 :=
  match e.evaluate r with
  | .ok v => v.asLong kind
  | .error _ => 0

/-- The expression has an integral value. -/
def Expr.HasIntegral (r : Registry) (e : Expr) : Prop :=
  ∃ v, e.evaluate r = .ok v ∧ v.dataType.isIntegral

theorem asLong_of_evaluate {e : Expr} {v : Value} (h : e.evaluate r = .ok v) (kind : StackKind) :
    e.asLong r kind = v.asLong kind := by
  rw [Expr.asLong, h]

/-- The OR of flags that has code has a value, with the bits of the flags. -/
theorem evaluate_flags (hr : r.WellTyped) {c : CodeContext} {f : Flag} {fs : List Flag}
    (hflags : ∀ g ∈ f :: fs, ∃ v, g.expr.evaluate r = .ok v ∧ v.dataType.isPrimitive)
    (kind : StackKind) {expected : Option DataType} {p : List Instr × DataType}
    (h : ((fs.foldl (fun e g => .binary .or e g.expr) f.expr).compile r c).typed expected = .ok p) :
    ∃ v, (fs.foldl (fun e g => .binary .or e g.expr) f.expr).evaluate r = .ok v ∧
      v.dataType.isPrimitive ∧ (fs ≠ [] → v.dataType = .int ∨ v.dataType = .long) ∧
      (v.dataType.isIntegral → ∀ g ∈ f :: fs, g.expr.HasIntegral r) ∧
      ∀ j, bit (v.asLong kind).toUInt64 j =
        (f :: fs).any fun g => bit (g.expr.asLong r kind).toUInt64 j := by
  induction fs using List.reverseRecOn generalizing expected p with
  | nil =>
    obtain ⟨v, hv, hp⟩ := hflags f List.mem_cons_self
    refine ⟨v, hv, hp, fun h => absurd rfl h, fun hi g hg => ?_, fun j => by
      simp [asLong_of_evaluate hv]⟩
    rw [List.mem_singleton.1 hg]
    exact ⟨v, hv, hi⟩
  | append_singleton fs g ih =>
    rw [List.foldl_append] at h ⊢
    obtain ⟨s, s', t, hs, hs', ht, htl, q, hq⟩ := typed_or h
    obtain ⟨a, ha, -, -, hintegral, hbits⟩ :=
      ih (fun g hg => hflags g (by simp at hg ⊢; tauto)) hq
    obtain ⟨b, hb, -⟩ := hflags g (by simp)
    obtain rfl := Except.ok.inj ((typeOf_eq_of_evaluate hr ha).symm.trans hs)
    obtain rfl := Except.ok.inj ((typeOf_eq_of_evaluate hr hb).symm.trans hs')
    have ⟨hia, hib⟩ := isIntegral_of_promoteBinary ht htl
    obtain ⟨i, hi⟩ := Value.exists_toInt64 hia
    obtain ⟨k, hk⟩ := Value.exists_toInt64 hib
    obtain ⟨v, hv, hvt, hvi⟩ := evaluate_or ha hb ht htl hi hk
    refine ⟨v, hv, isPrimitive_of_isIntegral (isIntegral_of_toInt64 hvi), fun _ => hvt ▸ htl,
      fun _ g' hg' => ?_, fun j => ?_⟩
    · rw [← List.cons_append] at hg'
      rcases List.mem_append.1 hg' with hg' | hg'
      · exact hintegral hia g' hg'
      · rw [List.mem_singleton.1 hg']
        exact ⟨b, hb, hib⟩
    have hj := hbits j
    rw [Value.asLong_of_toInt64 hi] at hj
    rw [Value.asLong_of_toInt64 hvi, Int64.toUInt64_or, bit_or, hj, ← List.cons_append,
      List.any_append]
    simp [asLong_of_evaluate hb, Value.asLong_of_toInt64 hk]

end ConstRestore
