/-
  What folding rejects is rejected when code is made.

  If folding fails because an operator or a cast is not defined for its
  operands, there is no code for the expression in any context
  (`codeFor_of_invalid`), but for one case: a shift of an integral operand by a
  float or a double has code, which truncates the distance
  (`codeFor_fractionalShift`).

  Operands with a value have code of a known type (`dataType_of_typed`), so an
  operator is rejected for the types of its operands; `Compiled.Refused` carries
  the failure outward.
-/
import ConstRestore.Proofs.Emission

namespace ConstRestore

variable {r : Registry} {c : CodeContext}

/-! ## Errors -/

namespace EvalError

/-- An operator or a cast is not defined for its operands. -/
def IsInvalid : EvalError → Prop
  | invalidUnary .. | invalidBinary .. | invalidCast .. => True
  | _ => False

/-- A shift of an integral operand by a fractional distance. -/
def IsFractionalShift : EvalError → Prop
  | invalidBinary op a b =>
    op.isShift ∧ a.dataType.isIntegral ∧ (b.dataType = .float ∨ b.dataType = .double)
  | _ => False

end EvalError

theorem Registry.not_isInvalid_of_fieldConstant {f : FieldRef} {err : EvalError}
    (h : r.fieldConstant f = .error err) : ¬err.IsInvalid := by
  unfold fieldConstant at h
  split at h
  · cases h
    exact id
  · split at h
    · cases h
      exact id
    · split_ifs at h <;> cases h <;> exact id

/-! ## Operators -/

/-- The type of a binary operator by the types of its operands. -/
def BinaryOp.typeOf (op : BinaryOp) (s t : DataType) : Except CodeError DataType :=
  if op = .add ∧ (s = .string ∨ t = .string) then .ok .string
  else if op.isShift ∧ s.isPrimitive ∧ t.isPrimitive then .ok s.promote
  else (DataType.promoteBinary s t).elim (.error (.undefinedFor op s t)) .ok

theorem isPrimitive_promote (t : DataType) : t.promote.isPrimitive = t.isPrimitive := by
  cases t <;> rfl

/-- A unary operator that has code for an operand has a value. -/
theorem value?_of_unaryCode {op : UnaryOp} {a : Value} (ha : a.dataType.isPrimitive)
    {code : List Instr} (h : unaryCode op a.dataType.promote = .ok code) : op.value? a ≠ none := by
  cases a with
  | string | class_ => cases ha
  | byte | short | char | int | long => cases op <;> exact Option.some_ne_none _
  | float | double =>
    cases op with
    | negate => exact Option.some_ne_none _
    | complement => cases h

theorem isIntegral_of_shiftOpcode {op : BinaryOp} (hop : op.isShift) {t : DataType} {opcode : Opcode}
    (ht : t.isPrimitive) (h : binaryOpcode op t.promote = .ok opcode) : t.isIntegral := by
  cases t with
  | byte | short | char | int | long => rfl
  | float | double => cases op <;> cases hop <;> cases h
  | string | class_ => cases ht

theorem exists_shift {op : BinaryOp} {a b : Value} (ha : a.dataType.isIntegral)
    (hb : b.dataType.isIntegral) : ∃ v, shift? op a b = some v := by
  obtain ⟨d, hd⟩ := Value.exists_toInt64 hb
  simp only [shift?, hd]
  cases a with
  | byte | short | char | int | long => exact ⟨_, rfl⟩
  | float | double | string | class_ => cases ha

theorem arith?_ne_none {op : BinaryOp} (hs : ¬op.isShift) (hb : ¬op.isBitwise) :
    op.arith? ≠ none := by
  cases op <;> first | exact Option.some_ne_none _ | exact absurd rfl hs | exact absurd rfl hb

theorem arithInt_eq_error {op : BinaryOp} (ha : op.arith? ≠ none) {i j : Int32} {err : EvalError}
    (h : arithInt op i j = .error err) : err = .divisionByZero := by
  cases op with
  | add | sub | mul => cases h
  | div | rem =>
    simp only [arithInt] at h
    split_ifs at h
    exact (Except.error.inj h).symm
  | and | or | xor | shl | shr | ushr => exact absurd rfl ha

theorem arithLong_eq_error {op : BinaryOp} (ha : op.arith? ≠ none) {i j : Int64} {err : EvalError}
    (h : arithLong op i j = .error err) : err = .divisionByZero := by
  cases op with
  | add | sub | mul => cases h
  | div | rem =>
    simp only [arithLong] at h
    split_ifs at h
    exact (Except.error.inj h).symm
  | and | or | xor | shl | shr | ushr => exact absurd rfl ha

theorem exists_arithNumber {f : Ieee.Format} {op : BinaryOp} (ha : op.arith? ≠ none)
    (x y : Ieee.Number f) : ∃ z, arithNumber? op x y = some z := by
  cases op <;> first | exact ⟨_, rfl⟩ | exact absurd rfl ha

/-- An operator on promoted operands that has an opcode has a value, or it divides by zero. -/
theorem apply_promoted {op : BinaryOp} {a b p q : Value} {t : DataType} {opcode : Opcode}
    (hconcat : ¬(op = .add ∧ (a.dataType = .string ∨ b.dataType = .string)))
    (hop : ¬op.isShift) (ht : DataType.promoteBinary a.dataType b.dataType = some t)
    (hp : a.cast t = some p) (hq : b.cast t = some q) (h : binaryOpcode op t = .ok opcode)
    {err : EvalError} (herr : op.apply a b = .error err) : err = .divisionByZero := by
  simp only [BinaryOp.apply, if_neg hconcat, if_neg hop, ht, hp, hq] at herr
  have htp := Value.dataType_of_cast hp
  have htq := Value.dataType_of_cast hq
  split_ifs at herr with hb
  · -- there are opcodes for ints and longs, and these have bits
    cases p with
    | int i | long i =>
      subst htp
      cases q <;> cases htq
      cases herr
    | float | double => subst htp; cases op <;> cases hb <;> cases h
    | byte | short | char => subst htp; cases promote_of_promoteBinary ht
    | string | class_ => subst htp; cases (isPrimitive_of_promoteBinary ht).2.2
  · have ha := arith?_ne_none hop hb
    cases p with
    | int i =>
      obtain ⟨j, rfl⟩ := Value.exists_int (htq.trans htp.symm)
      exact arithInt_eq_error ha (map_eq_error.1 herr)
    | long i =>
      subst htp
      cases q <;> cases htq
      exact arithLong_eq_error ha (map_eq_error.1 herr)
    | float x | double x =>
      subst htp
      cases q <;> cases htq
      rename_i y
      obtain ⟨z, hz⟩ := exists_arithNumber ha x y
      simp only [hz, Option.map_some] at herr
      cases herr
    | byte | short | char => subst htp; cases promote_of_promoteBinary ht
    | string | class_ => subst htp; cases (isPrimitive_of_promoteBinary ht).2.2

/-- An operator that is not defined for its operands has no type or no opcode, unless it shifts an
    integral operand by a fractional distance. -/
theorem not_binaryOpcode_of_invalid {op : BinaryOp} {a b : Value} {err : EvalError}
    (herr : op.apply a b = .error err) (hinvalid : err.IsInvalid)
    (hfractional : ¬err.IsFractionalShift) {t : DataType}
    (ht : op.typeOf a.dataType b.dataType = .ok t) :
    t ≠ .string ∧ ∀ opcode, binaryOpcode op t ≠ .ok opcode := by
  unfold BinaryOp.typeOf at ht
  split_ifs at ht with hconcat hshift
  · -- a concatenation always has a value
    simp only [BinaryOp.apply, if_pos hconcat] at herr
    cases herr
  · obtain rfl := Except.ok.inj ht
    obtain ⟨hop, ha, hb⟩ := hshift
    refine ⟨fun hs => ?_, fun opcode hopcode => ?_⟩
    · rw [← isPrimitive_promote, hs] at ha
      cases ha
    · have hia := isIntegral_of_shiftOpcode hop ha hopcode
      simp only [BinaryOp.apply, if_neg hconcat, if_pos hop] at herr
      by_cases hib : b.dataType.isIntegral
      · obtain ⟨v, hv⟩ : ∃ v, shift? op a b = some v := exists_shift hia hib
        rw [hv] at herr
        cases herr
      · have hbf : b.dataType = .float ∨ b.dataType = .double := by
          revert hb hib
          cases b.dataType <;> decide
        cases hv : shift? op a b with
        | some v =>
          rw [hv] at herr
          cases herr
        | none =>
          rw [hv] at herr
          obtain rfl := Except.error.inj herr
          exact hfractional ⟨hop, hia, hbf⟩
  · have ht := elim_eq_ok.1 ht
    obtain ⟨ha, hb, htp⟩ := isPrimitive_of_promoteBinary ht
    refine ⟨fun hs => ?_, fun opcode hopcode => ?_⟩
    · rw [hs] at htp
      cases htp
    · obtain ⟨p, hp⟩ := Value.exists_cast ha htp
      obtain ⟨q, hq⟩ := Value.exists_cast hb htp
      have hop : ¬op.isShift := fun hop => hshift ⟨hop, ha, hb⟩
      obtain rfl := apply_promoted hconcat hop ht hp hq hopcode herr
      exact hinvalid

/-! ## Expressions -/

/-- There is no code, neither for the expression nor for it as a part of a concatenation. -/
structure Compiled.Refused (x : Compiled) : Prop where
  typed : ∀ expected code, x.typed expected ≠ .ok code
  parts : ∀ parts, x.parts ≠ .ok parts

namespace Compiled

variable {x y : Compiled} {literal? : Option String}
  {typed : Option DataType → Except CodeError (List Instr × DataType)}

theorem refused_single (h : ∀ expected code, typed expected ≠ .ok code) :
    (single literal? typed).Refused := by
  refine ⟨h, fun parts hparts => ?_⟩
  obtain ⟨p, hp, -⟩ := map_eq_ok.1 hparts
  obtain ⟨code, hcode, -⟩ := bind_eq_ok.1 hp
  exact h none code hcode

theorem Refused.as (h : x.Refused) (t : DataType) (code : List Instr) : x.as t ≠ .ok code := by
  intro hcode
  obtain ⟨code', hcode', -⟩ := bind_eq_ok.1 hcode
  exact h.typed _ _ hcode'

theorem refused_error (c : CodeContext) (op : BinaryOp) (e : CodeError) :
    (compileBinary c op (.error e) literal? x y).Refused := by
  rw [compileBinary_error]
  refine refused_single fun _ code h => ?_
  cases h

/-- No operator has code if one of its operands has none. -/
theorem refused_binary (c : CodeContext) (op : BinaryOp) (type : Except CodeError DataType)
    (h : x.Refused ∨ y.Refused) : (compileBinary c op type literal? x y).Refused := by
  have harithmetic (t : DataType) (code : List Instr) : arithmeticCode op t x y ≠ .ok code := by
    intro hcode
    obtain ⟨left, hleft, hcode⟩ := bind_eq_ok.1 hcode
    obtain ⟨right, hright, -⟩ := bind_eq_ok.1 hcode
    exact h.elim (fun hx => hx.as _ _ hleft) fun hy => hy.as _ _ hright
  have hjoined (parts : List ConcatPart) : joined literal? x y ≠ .ok parts := by
    intro hparts
    obtain ⟨left, hleft, hparts⟩ := bind_eq_ok.1 hparts
    obtain ⟨right, hright, -⟩ := bind_eq_ok.1 hparts
    obtain ⟨code, hcode, -⟩ := bind_eq_ok.1 hright
    exact h.elim (fun hx => hx.parts _ hleft) fun hy => hy.typed _ _ hcode
  cases type with
  | error e => exact refused_error c op e
  | ok t =>
    by_cases ht : t = .string
    · subst ht
      rw [compileBinary_string]
      refine ⟨fun _ code hcode => ?_, hjoined⟩
      obtain ⟨concat, hconcat, -⟩ := map_eq_ok.1 hcode
      obtain ⟨parts, hparts, -⟩ := map_eq_ok.1 hconcat
      exact hjoined parts hparts
    · rw [compileBinary_arithmetic ht]
      refine refused_single fun _ code hcode => ?_
      obtain ⟨code', hcode', -⟩ := map_eq_ok.1 hcode
      exact harithmetic t code' hcode'

end Compiled

/-- An expression whose folding fails because an operator or a cast is not defined has no code. -/
theorem refused_compile (hr : r.WellTyped) {e : Expr} {err : EvalError}
    (herr : e.evaluate r = .error err) (hinvalid : err.IsInvalid)
    (hfractional : ¬err.IsFractionalShift) : (e.compile r c).Refused := by
  induction e with
  | literal l => cases herr
  | field f => exact absurd hinvalid (Registry.not_isInvalid_of_fieldConstant (map_eq_error.1 herr))
  | cast target e ih =>
    refine Compiled.refused_single fun expected code hcode => ?_
    obtain ⟨operand, hoperand, -⟩ := bind_eq_ok.1 hcode
    rcases bind_eq_error.1 herr with herr | ⟨a, ha, herr⟩
    · exact (ih herr).as _ _ hoperand
    · obtain ⟨⟨code', actual⟩, hcode', hoperand⟩ := bind_eq_ok.1 hoperand
      obtain ⟨conversion, hconversion, -⟩ := bind_eq_ok.1 hoperand
      obtain rfl := dataType_of_typed hr ha hcode'
      obtain ⟨w, hw⟩ := exists_convert_iff.1 ⟨conversion, hconversion⟩
      rw [cast_pushed] at hw
      rw [hw] at herr
      cases herr
  | unary op e ih =>
    refine Compiled.refused_single fun expected code hcode => ?_
    obtain ⟨t, ht, hcode⟩ := bind_eq_ok.1 hcode
    obtain ⟨operand, hoperand, hcode⟩ := bind_eq_ok.1 hcode
    obtain ⟨operation, hoperation, -⟩ := bind_eq_ok.1 hcode
    rcases bind_eq_error.1 herr with herr | ⟨a, ha, herr⟩
    · exact (ih herr).as _ _ hoperand
    · obtain ⟨s, hs, ht⟩ := bind_eq_ok.1 ht
      obtain rfl := Except.ok.inj ((typeOf_eq_of_evaluate hr ha).symm.trans hs)
      split_ifs at ht with hprimitive
      obtain rfl := Except.ok.inj ht
      cases hvalue : op.value? a with
      | none => exact value?_of_unaryCode hprimitive hoperation hvalue
      | some v =>
        rw [hvalue] at herr
        cases herr
  | binary op l r' ihl ihr =>
    rcases bind_eq_error.1 herr with herr | ⟨a, ha, herr⟩
    · exact Compiled.refused_binary c op _ (.inl (ihl herr))
    rcases bind_eq_error.1 herr with herr | ⟨b, hb, herr⟩
    · exact Compiled.refused_binary c op _ (.inr (ihr herr))
    have htype : (Expr.binary op l r').typeOf r = op.typeOf a.dataType b.dataType := by
      rw [Expr.typeOf, typeOf_eq_of_evaluate hr ha, typeOf_eq_of_evaluate hr hb]
      rfl
    rw [Expr.compile, htype]
    cases ht : op.typeOf a.dataType b.dataType with
    | error e => exact Compiled.refused_error c op e
    | ok t =>
      obtain ⟨hs, hopcode⟩ := not_binaryOpcode_of_invalid herr hinvalid hfractional ht
      rw [compileBinary_arithmetic hs]
      refine Compiled.refused_single fun _ code hcode => ?_
      obtain ⟨code', hcode', -⟩ := map_eq_ok.1 hcode
      obtain ⟨left, -, hcode'⟩ := bind_eq_ok.1 hcode'
      obtain ⟨right, -, hcode'⟩ := bind_eq_ok.1 hcode'
      obtain ⟨opcode, h, -⟩ := bind_eq_ok.1 hcode'
      exact hopcode opcode h

/-! ## Code in a context -/

/-- **The generator rejects what folding rejects.**  If folding an expression fails because an
    operator or a cast is not defined for its operands, then there is no code for it, in any
    context and for any target.  The operator must not be a shift of an integral operand by a
    float or a double. -/
theorem codeFor_of_invalid (hr : r.WellTyped) {e : Expr} {err : EvalError}
    (herr : e.evaluate r = .error err) (hinvalid : err.IsInvalid)
    (hfractional : ¬err.IsFractionalShift) (c : CodeContext) (target : DataType) :
    ∃ failure, codeFor r c e target = .error failure := by
  have hnone (code : List Instr) : codeFor r c e target ≠ .ok code := by
    intro h
    obtain ⟨before, actual, conversion, hbefore, -, -⟩ := codeFor_parts h
    split_ifs at hbefore
    · obtain ⟨f, load, rfl, -⟩ := loadOnReceiver_eq_ok hbefore
      exact Registry.not_isInvalid_of_fieldConstant (map_eq_error.1 herr) hinvalid
    · exact (refused_compile hr herr hinvalid hfractional).typed _ _ hbefore
  cases h : codeFor r c e target with
  | error failure => exact ⟨failure, rfl⟩
  | ok code => exact absurd h (hnone code)

/-- The expression `"m" + ~(float) p.K.MASK`. -/
def brokenMask : Expr :=
  .binary .add (.literal (.string "m"))
    (.unary .complement (.cast .float (.field ⟨"p/K", some "MASK", none, true⟩)))

theorem codeFor_of_invalid_brokenMask :
    (∃ err, brokenMask.evaluate maskRegistry = .error err ∧ err.IsInvalid) ∧
    ∃ failure, codeFor maskRegistry ⟨"p/C", true, 52, false, .auto⟩ brokenMask .string =
      .error failure := by
  have hr : maskRegistry.WellTyped := Registry.wellTyped_empty.addConstant rfl
  have herr : brokenMask.evaluate maskRegistry =
      .error (.invalidUnary .complement (.float (Ieee.Number.ofInt Ieee.single (-2)))) := by cbv
  exact ⟨⟨_, herr, trivial⟩, codeFor_of_invalid hr herr trivial id _ _⟩

theorem exists_shiftOpcode {op : BinaryOp} (hop : op.isShift) {t : DataType} (ht : t.isIntegral) :
    ∃ opcode, binaryOpcode op t.promote = .ok opcode := by
  cases t with
  | byte | short | char | int | long => cases op <;> cases hop <;> exact ⟨_, rfl⟩
  | float | double | string | class_ => cases ht

/-- A shift of an integral operand by a fractional distance has no value, but it has code for
    every primitive type. -/
theorem codeFor_fractionalShift (hr : r.WellTyped) (hc : c.receiverOnStack = false) {op : BinaryOp}
    (hop : op.isShift) {l e : Expr} (hl : l.AllStatic) (he : e.AllStatic) {a b : Value}
    (ha : l.evaluate r = .ok a) (hb : e.evaluate r = .ok b) (hia : a.dataType.isIntegral)
    (hfb : b.dataType = .float ∨ b.dataType = .double) {target : DataType}
    (htarget : target.isPrimitive) :
    (Expr.binary op l e).evaluate r = .error (.invalidBinary op a b) ∧
      ∃ code, codeFor r c (.binary op l e) target = .ok code := by
  have hpa := isPrimitive_of_isIntegral hia
  have hpb : b.dataType.isPrimitive := by rcases hfb with h | h <;> rw [h] <;> rfl
  have hadd : ¬(op = .add ∧ (a.dataType = .string ∨ b.dataType = .string)) := by
    rintro ⟨rfl, -⟩
    cases hop
  have hvalue : (Expr.binary op l e).evaluate r = .error (.invalidBinary op a b) := by
    have hnone : shift? op a b = none := by
      cases b with
      | float | double => rfl
      | byte | short | char | int | long | string | class_ => rcases hfb with h | h <;> cases h
    rw [Expr.evaluate, ha, hb]
    change op.apply a b = _
    simp only [BinaryOp.apply, if_neg hadd, if_pos hop, hnone, Option.elim_none]
  refine ⟨hvalue, ?_⟩
  have htype : (Expr.binary op l e).typeOf r = .ok a.dataType.promote := by
    rw [Expr.typeOf, typeOf_eq_of_evaluate hr ha, typeOf_eq_of_evaluate hr hb]
    exact (if_neg hadd).trans (if_pos ⟨hop, hpa, hpb⟩)
  have hs : a.dataType.promote ≠ .string := by
    intro h
    rw [← isPrimitive_promote, h] at hpa
    cases hpa
  -- the distance is converted to an int like any other operand
  obtain ⟨p, hp⟩ := Value.exists_cast hpa ((isPrimitive_promote a.dataType).trans hpa)
  obtain ⟨q, hq⟩ := Value.exists_cast (t := .int) hpb rfl
  obtain ⟨left, hleft⟩ := (defined_compile hr c hl ha).as hp
  obtain ⟨right, hright⟩ := (defined_compile hr c he hb).as hq
  obtain ⟨opcode, hopcode⟩ := exists_shiftOpcode hop hia
  have hcode : arithmeticCode op a.dataType.promote (l.compile r c) (e.compile r c) =
      .ok (left ++ right ++ [.simple opcode]) := by
    refine bind_eq_ok.2 ⟨left, hleft, bind_eq_ok.2 ⟨right, ?_, bind_eq_ok.2 ⟨opcode, hopcode, rfl⟩⟩⟩
    rw [if_pos hop]
    exact hright
  have htyped : ((Expr.binary op l e).compile r c).typed (some target) =
      .ok (left ++ right ++ [.simple opcode], p.dataType) := by
    rw [Expr.compile, htype, compileBinary_arithmetic hs]
    refine map_eq_ok.2 ⟨_, hcode, ?_⟩
    rw [Value.dataType_of_cast hp]
  have hpp : p.dataType.isPrimitive := by
    rw [Value.dataType_of_cast hp, isPrimitive_promote]
    exact hpa
  obtain ⟨conversion, hconversion⟩ := exists_convert_iff.2 (Value.exists_cast hpp htarget)
  refine ⟨left ++ right ++ [.simple opcode] ++ conversion, ?_⟩
  simp only [codeFor, hc, hvalue]
  refine bind_eq_ok.2 ⟨_, htyped, bind_eq_ok.2 ⟨conversion, ?_, rfl⟩⟩
  rw [convertValue, if_neg (by simp [Except.toOption])]
  exact hconversion

/-- The expression `1 << 1.5F`. -/
def fractionalShift : Expr :=
  .binary .shl (.literal (.int 1)) (.literal (.float ⟨0x3fc00000⟩))

/-- There is code for `1 << 1.5F`, which gives 2, although the operator is not defined for an
    int and a float. -/
theorem fractionalShift_has_code :
    (∃ err, fractionalShift.evaluate Registry.empty = .error err ∧ err.IsInvalid) ∧
    codeFor Registry.empty ⟨"p/A", true, 52, false, .auto⟩ fractionalShift .int =
      .ok [.simple (.iconst 2), .ldc (.float ⟨0x3fc00000⟩), .simple (.convert .float .int),
        .simple (.bit .shl false)] ∧
    run? Registry.empty [.simple (.iconst 2), .ldc (.float ⟨0x3fc00000⟩),
      .simple (.convert .float .int), .simple (.bit .shl false)] [] = some [.int 2] := by
  exact ⟨⟨.invalidBinary .shl (.int 1) (.float ⟨0x3fc00000⟩), by cbv, trivial⟩, rfl,
    by decide +kernel⟩

end ConstRestore
