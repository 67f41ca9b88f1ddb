/-
  Code computes what folding computes.

  `Expr.evaluate` and `Expr.compile` implement the operators independently:
  one on values, the other on the operand stack.  They agree on every
  expression over static constants.

  * `typed_pushes`: by induction on the expression, its code pushes its value,
    or what a literal is when its context expects another type;
  * `codeFor_pushes_cast`: the code for an integral expression pushes its
    value, converted to `int` or `long`.
-/
import ConstRestore.Proofs.Emitted
import ConstRestore.Proofs.ExprTypes

namespace ConstRestore

open Ieee (Number single)

variable {r : Registry}

/-! ## Operators on the machine -/

theorem run?_fieldAccess {f : FieldRef} {i : Instr} {t : DataType} (hf : f.isStatic)
    (h : fieldAccess r f = .ok (i, t)) :
    ∃ c, r.fieldConstant f = .ok c ∧ t = c.dataType ∧ Pushes r [i] c.value.word := by
  obtain ⟨c, hc, h⟩ := bind_eq_ok.1 h
  rw [mapError_eq_ok] at hc
  obtain ⟨name, hname, hfind, hs⟩ := Registry.fieldConstant_eq_ok hc
  simp only [hf, hname, if_true, Option.getD_some, Except.ok.injEq, Prod.mk.injEq] at h
  obtain ⟨rfl, rfl⟩ := h
  refine ⟨c, hc, rfl, ?_⟩
  intro st
  simp [run?_cons, Instr.exec?, Registry.staticWord?, hfind, ← hs, hf]

theorem run?_unaryCode {op : UnaryOp} {a v : Value} (h : op.value? a = some v) :
    ∃ p, a.cast v.dataType = some p ∧ ∀ code, unaryCode op v.dataType = .ok code →
      ∀ st, run? r code (p.word :: st) = some (v.word :: st) := by
  rw [dataType_of_unary h]
  obtain ⟨p, hp, h⟩ := Option.bind_eq_some_iff.1 h
  refine ⟨p, hp, ?_⟩
  intro code hc st
  rw [← Value.dataType_of_cast hp] at hc
  split at h <;> cases h <;> cases hc
  case h_5 | h_6 =>
    -- the complement of `i` is `i` exclusive or the pushed ones
    rw [run?_push_cons, run?_simple]
    simp [exec?_bit_int, exec?_bit_long, BitOp.int, BitOp.long?, Value.word]
  all_goals rfl

/-- The low six bits of a distance, as an int and as a long. -/
theorem distance_long (d : Int64) : d.toInt32.toInt64 &&& 63 = d &&& 63 := by
  apply Int64.toBitVec_inj.1
  rw [Int64.toBitVec_and, Int32.toBitVec_toInt64, Int64.toBitVec_toInt32, Int64.toBitVec_and]
  apply BitVec.eq_of_getLsbD_eq
  intro i hi
  have h63 : (63 : Int64).toBitVec = BitVec.ofNat 64 (2 ^ 6 - 1) := rfl
  rw [BitVec.getLsbD_and, BitVec.getLsbD_and, h63, BitVec.getLsbD_ofNat,
    Nat.testBit_two_pow_sub_one]
  by_cases h6 : i < 6
  · rw [BitVec.getLsbD_signExtend, BitVec.getLsbD_signExtend]
    simp [hi, show i < 32 by omega]
  · simp [h6]

/-- The operands of a shift on the machine are the promoted left one and an int. -/
theorem exec?_shift {op : BinaryOp} {a b v : Value} (hop : op.isShift)
    (h : shift? op a b = some v) :
    ∃ p q, a.cast v.dataType = some p ∧ b.cast .int = some q ∧
      ∀ opcode, binaryOpcode op v.dataType = .ok opcode →
        ∀ st, opcode.exec? (q.word :: p.word :: st) = some (v.word :: st) := by
  rw [(dataType_of_shift h).1]
  obtain ⟨d, hd, h⟩ := shift_eq_some h
  obtain ⟨q, hq⟩ :=
    Value.exists_cast (t := .int) (isPrimitive_of_isIntegral (isIntegral_of_toInt64 hd)) rfl
  have hqd : q = .int d.toInt32 := by
    cases b <;> cases hd <;> cases hq <;> simp
  subst hqd
  rcases h with ⟨x, hx, rfl⟩ | ⟨x, hx, rfl⟩
  all_goals
    refine ⟨_, _, hx, hq, ?_⟩
    intro opcode hc st
    rw [← Value.dataType_of_cast hx] at hc
    cases op <;> cases hop <;> cases hc
    all_goals
      simp [exec?_bit_int, exec?_bit_long, BitOp.int, BitOp.long?, Value.word, shiftInt, shiftLong,
        distance_long]

theorem int?_of_arithInt {op : BinaryOp} {i j k : Int32} (h : arithInt op i j = .ok k) :
    ∃ a, op.arith? = some a ∧ a.int? i j = some k := by
  cases op with
  | add | sub | mul => cases h; exact ⟨_, rfl, rfl⟩
  | div | rem =>
    simp only [arithInt] at h
    split_ifs at h with h0
    cases h
    exact ⟨_, rfl, if_neg h0⟩
  | and | or | xor | shl | shr | ushr => cases h

theorem long?_of_arithLong {op : BinaryOp} {i j k : Int64} (h : arithLong op i j = .ok k) :
    ∃ a, op.arith? = some a ∧ a.long? i j = some k := by
  cases op with
  | add | sub | mul => cases h; exact ⟨_, rfl, rfl⟩
  | div | rem =>
    simp only [arithLong] at h
    split_ifs at h with h0
    cases h
    exact ⟨_, rfl, if_neg h0⟩
  | and | or | xor | shl | shr | ushr => cases h

theorem binaryOpcode_of_arith {op : BinaryOp} {a : ArithOp} {t : DataType} {k : NumKind}
    (ha : op.arith? = some a) (hk : t.stackKind.numKind? = some k) :
    binaryOpcode op t = .ok (.arith a k) := by
  simp [binaryOpcode, ha, hk]

/-- An operator on promoted operands is one instruction. -/
theorem exec?_onPromoted {op : BinaryOp} {p q v : Value} {opcode : Opcode}
    (h : op.OnPromoted p q v) (hp : p.dataType.promote = p.dataType)
    (hq : q.dataType = p.dataType) (hc : binaryOpcode op p.dataType = .ok opcode) (st : List Word) :
    opcode.exec? (q.word :: p.word :: st) = some (v.word :: st) := by
  cases h with
  | bitwise hb hi hj h =>
    cases p <;> cases hi <;> cases hp <;> cases q <;> cases hq <;> cases hj <;> cases h
    all_goals
      cases op <;> cases hb <;> cases hc <;>
        simp [exec?_bit_int, exec?_bit_long, BitOp.int, BitOp.long?, Value.word, bitwise,
          toInt32_toUInt64]
  | int h =>
    obtain ⟨a, ha, hk⟩ := int?_of_arithInt h
    obtain rfl := Except.ok.inj ((binaryOpcode_of_arith ha rfl).symm.trans hc)
    simp [Value.word, exec?_arith_int, hk]
  | long h =>
    obtain ⟨a, ha, hk⟩ := long?_of_arithLong h
    obtain rfl := Except.ok.inj ((binaryOpcode_of_arith ha rfl).symm.trans hc)
    simp [Value.word, exec?_arith_long, hk]
  | float h => cases op <;> cases h <;> cases hc <;> rfl
  | double h => cases op <;> cases h <;> cases hc <;> rfl

theorem promote_of_promoteBinary {s t u : DataType} (h : DataType.promoteBinary s t = some u) :
    u.promote = u := by
  cases s <;> cases t <;>
    simp_all [DataType.promoteBinary, DataType.isPrimitive, DataType.promote] <;>
    subst h <;> rfl

/-- The operands of a binary operator on the machine, and its instruction. -/
theorem exec?_binaryOpcode {op : BinaryOp} {a b v : Value} (h : op.apply a b = .ok v)
    (hv : v.dataType ≠ .string) :
    ∃ p q, a.cast v.dataType = some p ∧ b.cast (if op.isShift then .int else v.dataType) = some q ∧
      ∀ opcode, binaryOpcode op v.dataType = .ok opcode →
        ∀ st, opcode.exec? (q.word :: p.word :: st) = some (v.word :: st) := by
  cases gives_of_apply h with
  | concat s hs => exact absurd rfl hv
  | shift hop h => rw [if_pos hop]; exact exec?_shift hop h
  | promoted hop ht hp hq h =>
    have htp := Value.dataType_of_cast hp
    rw [if_neg hop, h.dataType, htp]
    exact ⟨_, _, hp, hq, fun opcode hc => exec?_onPromoted h
      (htp ▸ promote_of_promoteBinary ht) ((Value.dataType_of_cast hq).trans htp.symm) (htp ▸ hc)⟩

/-! ## Expressions -/

/-- All constants that an expression refers to are static. -/
def Expr.AllStatic : Expr → Prop
  | literal _ => True
  | field f => f.isStatic
  | unary _ e | cast _ e => e.AllStatic
  | binary _ l r => l.AllStatic ∧ r.AllStatic

/-- The value that the code of an expression pushes: a literal is retyped as its
    context expects if that is exact. -/
def Expr.pushed (e : Expr) (v : Value) (expected : Option DataType) : Value :=
  match e with
  | literal _ => (expected.bind v.convertExact).getD v
  | _ => v

theorem cast_pushed (e : Expr) (v : Value) (t : DataType) :
    (e.pushed v (some t)).cast t = v.cast t := by
  cases e with
  | literal l =>
    simp only [Expr.pushed, Option.bind_some]
    cases h : v.convertExact t with
    | none => rfl
    | some w =>
      rw [Option.getD_some, (Value.convertExact_eq_some.1 h).1]
      exact Value.dataType_of_convertExact h ▸ w.cast_self
  | field | unary | binary | cast => rfl

/-- The code of an operand, converted to the type that its operator needs. -/
theorem as_pushes {x : Compiled} {code : List Instr} {t : DataType} {w u : Value}
    (hx : ∀ code actual, x.typed (some t) = .ok (code, actual) →
      w.dataType = actual ∧ Pushes r code w.word)
    (hc : x.as t = .ok code) (hu : w.cast t = some u) : Pushes r code u.word := by
  obtain ⟨⟨code', actual⟩, hx', hc⟩ := bind_eq_ok.1 hc
  obtain ⟨conversion, hconv, hc⟩ := bind_eq_ok.1 hc
  obtain rfl := Except.ok.inj hc
  obtain ⟨rfl, hpush⟩ := hx code' actual hx'
  exact hpush.append fun st => run?_convert st hconv hu

theorem typed_compileBinary {c : CodeContext} {op : BinaryOp} {t : DataType} {lit : Option String}
    {x y : Compiled} {expected : Option DataType} (ht : t ≠ .string) :
    (compileBinary c op (.ok t) lit x y).typed expected =
      (arithmeticCode op t x y).map (·, t) := by
  rw [compileBinary_arithmetic ht]
  rfl

/-- **The code of an expression pushes its value.** -/
theorem typed_pushes (hr : r.WellTyped) {c : CodeContext} {e : Expr} (he : e.AllStatic) {v : Value}
    (hv : e.evaluate r = .ok v) (hp : v.dataType.isPrimitive) {expected : Option DataType}
    {code : List Instr} {t : DataType} (hc : (e.compile r c).typed expected = .ok (code, t)) :
    (e.pushed v expected).dataType = t ∧ Pushes r code (e.pushed v expected).word := by
  induction e generalizing v expected code t with
  | literal l =>
    cases hv
    cases hc
    exact ⟨rfl, pushes_push _⟩
  | field f =>
    have hs : f.isStatic = true := he
    simp only [Expr.compile, compileField, Compiled.single, hs, if_true] at hc
    obtain ⟨object, hobject, hc⟩ := bind_eq_ok.1 hc
    obtain ⟨⟨load, actual⟩, hload, hc⟩ := bind_eq_ok.1 hc
    cases hobject
    cases hc
    obtain ⟨k, hk, rfl, hpush⟩ := run?_fieldAccess he hload
    obtain ⟨k', hk', rfl⟩ := map_eq_ok.1 hv
    obtain rfl := Except.ok.inj (hk.symm.trans hk')
    exact ⟨hr.fieldConstant hk, hpush⟩
  | cast target e ih =>
    obtain ⟨a, ha, hv⟩ := bind_eq_ok.1 hv
    replace hv := elim_eq_ok.1 hv
    obtain ⟨operand, hop, hc⟩ := bind_eq_ok.1 hc
    cases hc
    have hvt := Value.dataType_of_cast hv
    have hpa := Value.isPrimitive_of_cast hv (hvt ▸ hp)
    exact ⟨hvt, as_pushes (fun _ _ => ih he ha hpa) hop ((cast_pushed e a target).trans hv)⟩
  | unary op e ih =>
    have htype := typeOf_eq_of_evaluate hr hv
    obtain ⟨a, ha, hv⟩ := bind_eq_ok.1 hv
    replace hv := elim_eq_ok.1 hv
    simp only [Expr.compile, compileUnary, Compiled.single, htype] at hc
    obtain ⟨t', ht', hc⟩ := bind_eq_ok.1 hc
    obtain ⟨operand, hop, hc⟩ := bind_eq_ok.1 hc
    obtain ⟨operation, hopn, hc⟩ := bind_eq_ok.1 hc
    cases ht'
    cases hc
    obtain ⟨p, hap, hrun⟩ := run?_unaryCode hv
    have hpush := as_pushes (fun _ _ => ih he ha (isPrimitive_of_unary hv)) hop
      ((cast_pushed e a _).trans hap)
    exact ⟨rfl, hpush.append (hrun operation hopn)⟩
  | binary op e e' ih ih' =>
    have htype := typeOf_eq_of_evaluate hr hv
    obtain ⟨a, ha, hv⟩ := bind_eq_ok.1 hv
    obtain ⟨b, hb, hv⟩ := bind_eq_ok.1 hv
    have hns : v.dataType ≠ .string := fun h => by rw [h] at hp; cases hp
    simp only [Expr.compile, htype, typed_compileBinary hns] at hc
    obtain ⟨code', harith, hc⟩ := map_eq_ok.1 hc
    cases hc
    obtain ⟨left, hl, harith⟩ := bind_eq_ok.1 harith
    obtain ⟨right, hr', harith⟩ := bind_eq_ok.1 harith
    obtain ⟨opcode, hop, harith⟩ := bind_eq_ok.1 harith
    obtain rfl := Except.ok.inj harith
    obtain ⟨p, q, hap, hbq, hexec⟩ := exec?_binaryOpcode hv hns
    have hpa := Value.isPrimitive_of_cast hap hp
    have hpb := Value.isPrimitive_of_cast hbq (by split; exacts [rfl, hp])
    have hleft := as_pushes (fun _ _ => ih he.1 ha hpa) hl ((cast_pushed e a _).trans hap)
    have hright := as_pushes (fun _ _ => ih' he.2 hb hpb) hr' ((cast_pushed e' b _).trans hbq)
    refine ⟨rfl, ?_⟩
    intro st
    rw [run?_append, run?_append, hleft st, Option.bind_some, hright, Option.bind_some, run?_simple]
    exact hexec opcode hop st

/-! ## Code in a context -/

def Expr.isLiteral : Expr → Bool
  | literal _ => true
  | _ => false

theorem pushed_of_isLiteral {e : Expr} {v w : Value} {t : DataType} (he : e.isLiteral = true)
    (h : v.convertExact t = some w) : e.pushed v (some t) = w := by
  cases e <;> cases he
  simp [Expr.pushed, h]

theorem pushed_of_not_isLiteral {e : Expr} {v : Value} {t : Option DataType}
    (he : e.isLiteral = false) : e.pushed v t = v := by
  cases e <;> first | rfl | cases he

theorem codeFor_eq_ok {c : CodeContext} {e : Expr} {target : DataType} {code : List Instr}
    {v : Value} (hs : c.receiverOnStack = false) (hv : e.evaluate r = .ok v)
    (hc : codeFor r c e target = .ok code) :
    ∃ code' actual conversion, (e.compile r c).typed (some target) = .ok (code', actual) ∧
      convertValue actual target (some v) = .ok conversion ∧ code = code' ++ conversion := by
  obtain ⟨code', actual, conversion, hcode, hconv, hcode'⟩ := codeFor_parts hc
  rw [hs, if_neg Bool.false_ne_true] at hcode
  rw [hv] at hconv
  exact ⟨code', actual, conversion, hcode, hconv, hcode'⟩

/-- The code of an expression pushes its converted value, or its value as it is
    where it leaves out a narrowing that flips the sign. -/
theorem codeFor_pushes (hr : r.WellTyped) {c : CodeContext} (hs : c.receiverOnStack = false)
    {e : Expr} (he : e.AllStatic) {target : DataType} {v : Value} {code : List Instr}
    (hv : e.evaluate r = .ok v) (hp : v.dataType.isPrimitive) (ht : target.isPrimitive)
    (hc : codeFor r c e target = .ok code) :
    ∃ w, v.cast target = some w ∧
      Pushes r code (if ¬e.isLiteral ∧ v.FlipsSign target then v else w).word := by
  obtain ⟨code', actual, conversion, hcode, hconv, rfl⟩ := codeFor_eq_ok hs hv hc
  obtain ⟨rfl, hpush⟩ := typed_pushes hr he hv hp hcode
  obtain ⟨w, hw⟩ := Value.exists_cast hp ht
  refine ⟨w, hw, ?_⟩
  unfold convertValue at hconv
  split at hconv
  · rename_i hskip
    obtain ⟨hk, hkt, hx⟩ := hskip
    obtain ⟨w', hx⟩ := Option.isSome_iff_exists.1 hx
    obtain rfl : w' = w := Option.some.inj ((Value.convertExact_eq_some.1 hx).1.symm.trans hw)
    cases hconv
    rw [List.append_nil]
    cases hl : e.isLiteral with
    | true =>
      rw [if_neg (by simp)]
      exact pushed_of_isLiteral hl hx ▸ hpush
    | false =>
      rw [pushed_of_not_isLiteral hl] at hpush hk
      by_cases hf : v.FlipsSign target
      · rw [if_pos ⟨Bool.false_ne_true, hf⟩]
        exact hpush
      · rw [if_neg fun h => hf h.2, (Value.word_eq_iff_not_flipsSign hx hk hkt).2 hf]
        exact hpush
  · rename_i hskip
    rw [if_neg]
    · have hrun (st : List Word) :=
        run?_convert (r := r) st hconv ((cast_pushed e v target).trans hw)
      exact hpush.append hrun
    · rintro ⟨hl, hf⟩
      obtain ⟨w', hx⟩ := Value.convertExact_of_flipsSign hf
      have ⟨hk, hkt⟩ := Value.stackKind_of_flipsSign hf
      refine hskip ⟨?_, hkt, by simp [hx]⟩
      rwa [pushed_of_not_isLiteral (by simpa using hl)]

/-! ## Integral expressions -/

/-- An expression over integral literals and static integral constants. -/
def Expr.Integral (r : Registry) : Expr → Prop
  | literal l => l.dataType.isIntegral
  | field f => f.isStatic ∧ ∀ c, r.fieldConstant f = .ok c → c.dataType.isIntegral
  | unary _ e => e.Integral r
  | binary _ e e' => e.Integral r ∧ e'.Integral r
  | cast target e => target.isIntegral ∧ e.Integral r

theorem Expr.Integral.allStatic {e : Expr} (he : e.Integral r) : e.AllStatic := by
  induction e with
  | literal l => trivial
  | field f => exact he.1
  | unary op e ih => exact ih he
  | cast target e ih => exact ih he.2
  | binary op e e' ih ih' => exact ⟨ih he.1, ih' he.2⟩

theorem isIntegral_promote {t : DataType} (h : t.isIntegral) : t.promote.isIntegral := by
  cases t <;> first | rfl | exact absurd h Bool.false_ne_true

theorem isIntegral_promoteBinary {s t u : DataType} (hs : s.isIntegral) (ht : t.isIntegral)
    (h : DataType.promoteBinary s t = some u) : u.isIntegral := by
  cases s <;> cases t <;>
    first | exact absurd hs Bool.false_ne_true | exact absurd ht Bool.false_ne_true | cases h; rfl

/-- An integral expression has an integral value. -/
theorem isIntegral_of_evaluate (hr : r.WellTyped) {e : Expr} (he : e.Integral r) {v : Value}
    (hv : e.evaluate r = .ok v) : v.dataType.isIntegral := by
  induction e generalizing v with
  | literal l => cases hv; exact he
  | field f =>
    obtain ⟨c, hc, rfl⟩ := map_eq_ok.1 hv
    rw [hr.fieldConstant hc]
    exact he.2 c hc
  | cast target e ih =>
    obtain ⟨a, -, hv⟩ := bind_eq_ok.1 hv
    rw [Value.dataType_of_cast (elim_eq_ok.1 hv)]
    exact he.1
  | unary op e ih =>
    obtain ⟨a, ha, hv⟩ := bind_eq_ok.1 hv
    rw [dataType_of_unary (elim_eq_ok.1 hv)]
    exact isIntegral_promote (ih he ha)
  | binary op e e' ih ih' =>
    obtain ⟨a, ha, hv⟩ := bind_eq_ok.1 hv
    obtain ⟨b, hb, hv⟩ := bind_eq_ok.1 hv
    have hia := ih he.1 ha
    have hib := ih' he.2 hb
    cases gives_of_apply hv with
    | concat s h =>
      rcases h.2 with h | h
      · rw [h] at hia; cases hia
      · rw [h] at hib; cases hib
    | shift hop h => rw [(dataType_of_shift h).1]; exact isIntegral_promote hia
    | promoted hop ht hp hq h =>
      rw [h.dataType, Value.dataType_of_cast hp]
      exact isIntegral_promoteBinary hia hib ht

/-- **Code computes what folding computes.**  The code of an integral expression for
    `int` or `long` runs from every stack without a trap, and adds the value of
    the expression, converted to the target. -/
theorem codeFor_pushes_cast (hr : r.WellTyped) {c : CodeContext} (hs : c.receiverOnStack = false)
    {e : Expr} (he : e.Integral r) {target : DataType} (ht : target = .int ∨ target = .long)
    {v : Value} {code : List Instr} (hv : e.evaluate r = .ok v)
    (hc : codeFor r c e target = .ok code) :
    ∃ w, v.cast target = some w ∧ ∀ st, run? r code st = some (w.word :: st) := by
  have hp := isPrimitive_of_isIntegral (isIntegral_of_evaluate hr he hv)
  obtain ⟨w, hw, hpush⟩ :=
    codeFor_pushes hr hs he.allStatic hv hp (by rcases ht with rfl | rfl <;> rfl) hc
  have hflip : ¬v.FlipsSign target := by
    rcases ht with rfl | rfl <;> cases v <;> exact id
  rw [if_neg fun h => hflip h.2] at hpush
  exact ⟨w, hw, hpush⟩

/-- A registry with one constant, `p.K.MASK = -2` of type `short`. -/
def maskRegistry : Registry :=
  ClassRegistry.empty.addConstant "p/K" "MASK" ⟨.short, .short (-2), true⟩

/-- The expression `~(byte) (p.K.MASK >>> '\u0003')`. -/
def maskShift : Expr :=
  .unary .complement (.cast .byte
    (.binary .ushr (.field ⟨"p/K", some "MASK", none, true⟩) (.literal (.char 3))))

theorem codeFor_pushes_cast_maskShift :
    ∃ code w, codeFor maskRegistry ⟨"p/C", true, 52, false, .auto⟩ maskShift .long = .ok code ∧
      (Value.int 0).cast .long = some w ∧
      ∀ st, run? maskRegistry code st = some (w.word :: st) := by
  have hr : maskRegistry.WellTyped := Registry.wellTyped_empty.addConstant rfl
  have hc : codeFor maskRegistry ⟨"p/C", true, 52, false, .auto⟩ maskShift .long =
      .ok [.field .getstatic ⟨"p/K", "MASK", "S"⟩, .simple (.iconst 4), .simple (.bit .ushr false),
        .simple (.narrow .byte), .simple (.iconst 0), .simple (.bit .xor false),
        .simple (.convert .int .long)] := by cbv
  have hv : maskShift.evaluate maskRegistry = .ok (.int 0) := by cbv
  have he : maskShift.Integral maskRegistry :=
    ⟨rfl, ⟨rfl, fun c h => by cases h.symm.trans (by cbv : _ = Except.ok _); rfl⟩, rfl⟩
  obtain ⟨w, hw, hrun⟩ := codeFor_pushes_cast hr rfl he (.inr rfl) hv hc
  exact ⟨_, w, hc, hw, hrun⟩

end ConstRestore
