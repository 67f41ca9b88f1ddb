/-
  What can be folded can be emitted.

  Types are computed twice, on values by `Expr.evaluate` and on expressions by
  `Expr.typeOf` and `Expr.compile`.  Where folding gives a value, both agree,
  and there is code for every type that the value can be cast to, and for no
  other (`codeFor_of_evaluate`).

  `Compiled.Defined` is what the induction over the expression carries: code for
  whatever type the context expects, and operands should the expression be part
  of a concatenation.
-/
import ConstRestore.Proofs.Folding
import ConstRestore.Proofs.StackEffect

namespace ConstRestore

open ValueType (ofDataType)

variable {r : Registry} {c : CodeContext}

/-! ## Conversions -/

/-- A conversion of types has code where a conversion of values is defined. -/
theorem exists_convert_iff {v : Value} {t : DataType} :
    (∃ code, convert v.dataType t = .ok code) ↔ ∃ w, v.cast t = some w := by
  by_cases hvt : v.dataType = t
  · subst hvt
    exact iff_of_true ⟨[], by simp [convert]⟩ ⟨v, v.cast_self⟩
  by_cases hp : v.dataType.isPrimitive ∧ t.isPrimitive
  · exact iff_of_true ⟨_, convert_of_ne hvt hp.1 hp.2⟩ (Value.exists_cast hp.1 hp.2)
  refine iff_of_false ?_ ?_
  · rintro ⟨code, h⟩
    exact hp (isPrimitive_of_convert hvt h)
  · rintro ⟨w, h⟩
    unfold Value.cast at h
    split_ifs at h with hnot
    exact hp (by simpa using hnot)

/-- To leave out a narrowing does not change where there is code. -/
theorem exists_convertValue_iff {v u : Value} {t : DataType} (hu : u.cast t = v.cast t) :
    (∃ code, convertValue u.dataType t (some v) = .ok code) ↔ ∃ w, v.cast t = some w := by
  unfold convertValue
  split_ifs with hskip
  · obtain ⟨w, hw⟩ := Option.isSome_iff_exists.1 hskip.2.2
    exact iff_of_true ⟨[], rfl⟩ ⟨w, (Value.convertExact_eq_some.1 hw).1⟩
  · rw [exists_convert_iff, hu]

/-! ## Operators -/

theorem exists_unaryCode {op : UnaryOp} {a v : Value} (h : op.value? a = some v) :
    ∃ code, unaryCode op v.dataType = .ok code := by
  obtain ⟨p, -, h⟩ := Option.bind_eq_some_iff.1 h
  split at h <;> cases h <;> exact ⟨_, rfl⟩

theorem exists_binaryOpcode {op : BinaryOp} {a b v : Value} (hap : op.apply a b = .ok v)
    (hv : v.dataType ≠ .string) : ∃ opcode, binaryOpcode op v.dataType = .ok opcode := by
  cases gives_of_apply hap with
  | concat s hs => exact absurd rfl hv
  | shift hop h =>
    obtain ⟨d, -, ⟨x, -, rfl⟩ | ⟨x, -, rfl⟩⟩ := shift_eq_some h
    all_goals cases op <;> cases hop <;> exact ⟨_, rfl⟩
  | promoted hop ht hp hq h =>
    cases h with
    | bitwise hb hi hj h =>
      have hintegral := isIntegral_of_toInt64 hi
      rw [dataType_of_ofBits h]
      revert hintegral
      cases op <;> cases hb <;> cases Value.dataType _ <;>
        first | exact fun _ => ⟨_, rfl⟩ | exact fun h => absurd h Bool.false_ne_true
    | int h =>
      obtain ⟨a, ha, -⟩ := int?_of_arithInt h
      exact ⟨_, binaryOpcode_of_arith ha rfl⟩
    | long h =>
      obtain ⟨a, ha, -⟩ := long?_of_arithLong h
      exact ⟨_, binaryOpcode_of_arith ha rfl⟩
    | float h | double h => cases op <;> cases h <;> exact ⟨_, rfl⟩

/-! ## Expressions -/

theorem pushed_none (e : Expr) (v : Value) : e.pushed v none = v := by
  cases e <;> rfl

/-- The type of the code for an expression with a value. -/
theorem dataType_of_typed (hr : r.WellTyped) {e : Expr} {v : Value} (hv : e.evaluate r = .ok v)
    {expected : Option DataType} {code : List Instr} {t : DataType}
    (h : (e.compile r c).typed expected = .ok (code, t)) : (e.pushed v expected).dataType = t := by
  cases e with
  | literal l =>
    cases hv
    cases h
    rfl
  | field f =>
    obtain ⟨k, hk, rfl⟩ := map_eq_ok.1 hv
    obtain ⟨object, load, -, hload, rfl⟩ := typed_compileField expected h
    obtain ⟨k', hk', hload⟩ := bind_eq_ok.1 hload
    obtain rfl := Except.ok.inj (hk.symm.trans (mapError_eq_ok.1 hk'))
    cases hload
    exact hr.fieldConstant hk
  | cast target e =>
    obtain ⟨a, -, hv⟩ := bind_eq_ok.1 hv
    obtain ⟨code', -, h⟩ := bind_eq_ok.1 h
    cases h
    exact Value.dataType_of_cast (elim_eq_ok.1 hv)
  | unary op e =>
    simp only [Expr.compile, typeOf_eq_of_evaluate hr hv] at h
    obtain ⟨t', ht', h⟩ := bind_eq_ok.1 h
    obtain ⟨operand, -, h⟩ := bind_eq_ok.1 h
    obtain ⟨operation, -, h⟩ := bind_eq_ok.1 h
    cases ht'
    cases h
    rfl
  | binary op l r' =>
    simp only [Expr.compile, typeOf_eq_of_evaluate hr hv] at h
    by_cases hs : v.dataType = .string
    · rw [hs, compileBinary_string] at h
      obtain ⟨code', -, h⟩ := map_eq_ok.1 h
      cases h
      exact hs
    · rw [compileBinary_arithmetic hs] at h
      obtain ⟨code', -, h⟩ := map_eq_ok.1 h
      cases h
      rfl

/-- There is code for an expression with a value, whatever its context expects. -/
structure Compiled.Defined (x : Compiled) (e : Expr) (v : Value) : Prop where
  typed : ∀ expected, ∃ code, x.typed expected = .ok (code, (e.pushed v expected).dataType)
  parts : ∃ parts, x.parts = .ok parts

namespace Compiled

variable {x y : Compiled} {e e' : Expr} {v v' : Value}

theorem exists_part (literal? : Option String)
    {typed : Option DataType → Except CodeError (List Instr × DataType)}
    (h : ∃ code, typed none = .ok (code, v.dataType)) : ∃ p, part literal? typed = .ok p := by
  obtain ⟨code, hcode⟩ := h
  exact ⟨_, bind_eq_ok.2 ⟨_, hcode, rfl⟩⟩

theorem defined_single {literal? : Option String}
    {typed : Option DataType → Except CodeError (List Instr × DataType)}
    (h : ∀ expected, ∃ code, typed expected = .ok (code, (e.pushed v expected).dataType)) :
    (single literal? typed).Defined e v := by
  refine ⟨h, ?_⟩
  have hnone := h none
  rw [pushed_none] at hnone
  obtain ⟨p, hp⟩ := exists_part literal? hnone
  exact ⟨[p], map_eq_ok.2 ⟨p, hp, rfl⟩⟩

theorem Defined.as (h : x.Defined e v) {t : DataType} {w : Value} (hw : v.cast t = some w) :
    ∃ code, x.as t = .ok code := by
  obtain ⟨code, hcode⟩ := h.typed (some t)
  obtain ⟨conversion, hconversion⟩ := exists_convert_iff.2 ⟨w, (cast_pushed e v t).trans hw⟩
  exact ⟨_, bind_eq_ok.2 ⟨_, hcode, bind_eq_ok.2 ⟨conversion, hconversion, rfl⟩⟩⟩

theorem Defined.joined (hx : x.Defined e v) (hy : y.Defined e' v') (literal? : Option String) :
    ∃ parts, joined literal? x y = .ok parts := by
  obtain ⟨left, hleft⟩ := hx.parts
  have hnone := hy.typed none
  rw [pushed_none] at hnone
  obtain ⟨right, hright⟩ := exists_part literal? hnone
  exact ⟨_, bind_eq_ok.2 ⟨left, hleft, bind_eq_ok.2 ⟨right, hright, rfl⟩⟩⟩

end Compiled

theorem exists_arithmeticCode {op : BinaryOp} {a b v : Value} (h : op.apply a b = .ok v)
    (hv : v.dataType ≠ .string) {x y : Compiled} {e e' : Expr} (hx : x.Defined e a)
    (hy : y.Defined e' b) : ∃ code, arithmeticCode op v.dataType x y = .ok code := by
  obtain ⟨p, q, hp, hq, -⟩ := exec?_binaryOpcode h hv
  obtain ⟨left, hleft⟩ := hx.as hp
  obtain ⟨right, hright⟩ := hy.as hq
  obtain ⟨opcode, hopcode⟩ := exists_binaryOpcode h hv
  exact ⟨_, bind_eq_ok.2 ⟨left, hleft, bind_eq_ok.2 ⟨right, hright,
    bind_eq_ok.2 ⟨opcode, hopcode, rfl⟩⟩⟩⟩

/-- **What has a value has code**, of the type of the value. -/
theorem defined_compile (hr : r.WellTyped) (c : CodeContext) {e : Expr} (he : e.AllStatic)
    {v : Value} (hv : e.evaluate r = .ok v) : (e.compile r c).Defined e v := by
  induction e generalizing v with
  | literal l =>
    obtain rfl := Except.ok.inj hv
    exact Compiled.defined_single fun expected => ⟨_, rfl⟩
  | field f =>
    have hstatic : f.isStatic = true := he
    obtain ⟨k, hk, rfl⟩ := map_eq_ok.1 hv
    obtain ⟨load, hload⟩ : ∃ load, fieldAccess r f = .ok (load, k.dataType) :=
      ⟨_, bind_eq_ok.2 ⟨k, mapError_eq_ok.2 hk, rfl⟩⟩
    refine Compiled.defined_single fun expected => ⟨[load], ?_⟩
    simp only [hstatic, if_true]
    rw [pushed_of_not_isLiteral rfl, hr.fieldConstant hk]
    exact bind_eq_ok.2 ⟨[], rfl, bind_eq_ok.2 ⟨_, hload, rfl⟩⟩
  | cast target e ih =>
    obtain ⟨a, ha, hv⟩ := bind_eq_ok.1 hv
    replace hv := elim_eq_ok.1 hv
    obtain ⟨code, hcode⟩ := (ih he ha).as hv
    refine Compiled.defined_single fun expected => ⟨code, bind_eq_ok.2 ⟨code, hcode, ?_⟩⟩
    rw [pushed_of_not_isLiteral rfl, Value.dataType_of_cast hv]
  | unary op e ih =>
    have htype := typeOf_eq_of_evaluate hr hv
    obtain ⟨a, ha, hv⟩ := bind_eq_ok.1 hv
    replace hv := elim_eq_ok.1 hv
    obtain ⟨p, hp, -⟩ := run?_unaryCode (r := r) hv
    obtain ⟨code, hcode⟩ := (ih he ha).as hp
    obtain ⟨operation, hoperation⟩ := exists_unaryCode hv
    simp only [Expr.compile, htype]
    refine Compiled.defined_single fun expected => ⟨code ++ operation, ?_⟩
    rw [pushed_of_not_isLiteral rfl]
    exact bind_eq_ok.2 ⟨_, rfl, bind_eq_ok.2 ⟨code, hcode, bind_eq_ok.2 ⟨_, hoperation, rfl⟩⟩⟩
  | binary op l r' ihl ihr =>
    have htype := typeOf_eq_of_evaluate hr hv
    obtain ⟨a, ha, hv⟩ := bind_eq_ok.1 hv
    obtain ⟨b, hb, hv⟩ := bind_eq_ok.1 hv
    have hl := ihl he.1 ha
    have hr' := ihr he.2 hb
    simp only [Expr.compile, htype]
    by_cases hs : v.dataType = .string
    · rw [hs, compileBinary_string]
      obtain ⟨parts, hparts⟩ := hl.joined hr' r'.literalText?
      refine ⟨fun expected => ⟨concatCode c parts, ?_⟩, parts, hparts⟩
      rw [pushed_of_not_isLiteral rfl, hs]
      exact map_eq_ok.2 ⟨_, map_eq_ok.2 ⟨parts, hparts, rfl⟩, rfl⟩
    · rw [compileBinary_arithmetic hs]
      obtain ⟨code, hcode⟩ := exists_arithmeticCode hv hs hl hr'
      refine Compiled.defined_single fun expected => ⟨code, ?_⟩
      rw [pushed_of_not_isLiteral rfl]
      exact map_eq_ok.2 ⟨code, hcode, rfl⟩

/-- Without instance constants it does not matter whether there is a `this`. -/
theorem compile_withoutThis (r : Registry) (c : CodeContext) {e : Expr} (he : e.AllStatic) :
    e.compile r { c with isStatic := true } = e.compile r c := by
  induction e with
  | literal l => rfl
  | field f =>
    have hstatic : f.isStatic = true := he
    simp only [Expr.compile, compileField, hstatic, if_true]
  | cast target e ih => rw [Expr.compile, Expr.compile, ih he]
  | unary op e ih => rw [Expr.compile, Expr.compile, ih he]
  | binary op l r' ihl ihr =>
    rw [Expr.compile, Expr.compile, ihl he.1, ihr he.2]
    rfl

theorem hasEffect_of_typed {e : Expr} (he : e.AllStatic) {expected : Option DataType} {code : List Instr}
    {t : DataType} (h : (e.compile r c).typed expected = .ok (code, t)) :
    HasEffect 0 code [] [ofDataType t] := by
  rw [← compile_withoutThis r c he] at h
  refine hasEffect_emitted (fun owner code h => ?_) (emitted_of_typed h)
  cases h

/-- **Folding and code agree on types, and what can be folded can be emitted.**  If an expression
    without instance constants has a value, then its type is that of the value; its code leaves
    a value of this type where nothing else is expected; and there is code for a target just if
    the value can be cast to it. -/
theorem codeFor_of_evaluate (hr : r.WellTyped) (hc : c.receiverOnStack = false) {e : Expr}
    (he : e.AllStatic) {v : Value} (hv : e.evaluate r = .ok v) :
    e.typeOf r = .ok v.dataType ∧
    (∃ code, (e.compile r c).typed none = .ok (code, v.dataType) ∧
      HasEffect 0 code [] [ofDataType v.dataType]) ∧
    ∀ target, (∃ code, codeFor r c e target = .ok code) ↔ ∃ w, v.cast target = some w := by
  have hdefined := defined_compile hr c he hv
  refine ⟨typeOf_eq_of_evaluate hr hv, ?_, fun target => ?_⟩
  · obtain ⟨code, hcode⟩ := hdefined.typed none
    rw [pushed_none] at hcode
    exact ⟨code, hcode, hasEffect_of_typed he hcode⟩
  · rw [← exists_convertValue_iff (cast_pushed e v target)]
    obtain ⟨code, hcode⟩ := hdefined.typed (some target)
    constructor
    · rintro ⟨whole, h⟩
      obtain ⟨code', actual, conversion, hcode', hconversion, -⟩ := codeFor_eq_ok hc hv h
      obtain ⟨rfl, rfl⟩ := Prod.mk.inj (Except.ok.inj (hcode.symm.trans hcode'))
      exact ⟨conversion, hconversion⟩
    · rintro ⟨conversion, hconversion⟩
      simp only [codeFor, hc, hv]
      exact ⟨_, bind_eq_ok.2 ⟨_, hcode, bind_eq_ok.2 ⟨conversion, hconversion, rfl⟩⟩⟩

/-- The expression `"m" + p.K.MASK`. -/
def labelledMask : Expr :=
  .binary .add (.literal (.string "m")) (.field ⟨"p/K", some "MASK", none, true⟩)

theorem codeFor_of_evaluate_labelledMask :
    labelledMask.evaluate maskRegistry = .ok (.string "m-2") ∧
    labelledMask.typeOf maskRegistry = .ok .string ∧
    (∃ code, codeFor maskRegistry ⟨"p/C", true, 52, false, .auto⟩ labelledMask .string = .ok code) ∧
    ¬∃ code, codeFor maskRegistry ⟨"p/C", true, 52, false, .auto⟩ labelledMask .int = .ok code := by
  have hr : maskRegistry.WellTyped := Registry.wellTyped_empty.addConstant rfl
  have hv : labelledMask.evaluate maskRegistry = .ok (.string "m-2") := by cbv
  have he : labelledMask.AllStatic := ⟨trivial, rfl⟩
  obtain ⟨htype, -, htarget⟩ :=
    codeFor_of_evaluate (c := ⟨"p/C", true, 52, false, .auto⟩) hr rfl he hv
  refine ⟨hv, htype, (htarget .string).2 ⟨_, rfl⟩, ?_⟩
  rw [htarget .int]
  rintro ⟨w, hw⟩
  cases hw

end ConstRestore
