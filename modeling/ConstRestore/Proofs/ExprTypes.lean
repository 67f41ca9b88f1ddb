/-
  The types of expressions.

  The type of an expression is worked out from those of its parts, its value
  from their values.  Where constants have values of their declared types
  (`Registry.WellTyped`), the type of an expression is that of its value
  (`typeOf_eq_of_evaluate`).
-/
import ConstRestore.Proofs.Conversion
import ConstRestore.Proofs.Hierarchy
import ConstRestore.Proofs.Result
import ConstRestore.Registry.Tables

namespace ConstRestore

open Ieee (Number single)

variable {r : Registry}

/-! ## Constants -/

/-- Every constant has a value of its declared type. -/
def Registry.WellTyped (r : Registry) : Prop :=
  ∀ owner name c, r.constant? owner name = some c → c.value.dataType = c.dataType

theorem Registry.wellTyped_empty : ClassRegistry.empty.registry.WellTyped := by
  intro owner name c h
  cases h

theorem Registry.WellTyped.addConstant {t : ClassRegistry} (hr : t.registry.WellTyped)
    {owner name : String} {c : Constant} (hc : c.value.dataType = c.dataType) :
    (t.addConstant owner name c).registry.WellTyped := by
  intro owner' name' c' h
  rw [ClassRegistry.constant?_addConstant] at h
  split_ifs at h
  · cases h; exact hc
  · exact hr owner' name' c' h

theorem Registry.fieldConstant_eq_ok {f : FieldRef} {c : Constant} (h : r.fieldConstant f = .ok c) :
    ∃ name, f.name = some name ∧ r.findConstant? f.owner name = some c ∧
      f.isStatic = c.isStatic := by
  unfold fieldConstant at h
  split at h
  · cases h
  · rename_i name hname
    split at h
    · cases h
    · rename_i c' hc
      split_ifs at h with h₁ h₂
      cases h
      exact ⟨name, hname, hc, not_not.1 h₂⟩

theorem Registry.WellTyped.fieldConstant (hr : r.WellTyped) {f : FieldRef} {c : Constant}
    (h : r.fieldConstant f = .ok c) : c.value.dataType = c.dataType := by
  obtain ⟨name, -, hc, -⟩ := fieldConstant_eq_ok h
  obtain ⟨owner, hc⟩ := exists_constant?_of_findConstant? hc
  exact hr owner name c hc

/-! ## Types -/

theorem isPrimitive_of_promoteBinary {s t u : DataType} (h : DataType.promoteBinary s t = some u) :
    s.isPrimitive ∧ t.isPrimitive ∧ u.isPrimitive := by
  cases s <;> cases t <;>
    simp_all [DataType.promoteBinary, DataType.isPrimitive, DataType.promote] <;>
    subst h <;> rfl

theorem dataType_of_unary {op : UnaryOp} {a v : Value} (h : op.value? a = some v) :
    v.dataType = a.dataType.promote := by
  obtain ⟨p, hp, h⟩ := Option.bind_eq_some_iff.1 h
  rw [← Value.dataType_of_cast hp]
  split at h <;> cases h <;> simp only [Value.dataType]

theorem isPrimitive_of_unary {op : UnaryOp} {a v : Value} (h : op.value? a = some v) :
    a.dataType.isPrimitive := by
  have ht := dataType_of_unary h
  obtain ⟨p, -, h⟩ := Option.bind_eq_some_iff.1 h
  cases a with
  | string | class_ => cases op <;> cases p <;> cases h <;> cases ht
  | byte | short | char | int | long | float | double => rfl

/-- The operands of a shift, and what they give. -/
theorem shift_eq_some {op : BinaryOp} {a b v : Value} (h : shift? op a b = some v) :
    ∃ d, b.toInt64? = some d ∧
      ((∃ x, a.cast a.dataType.promote = some (.int x) ∧ v = .int (shiftInt op x d)) ∨
        ∃ x, a.cast a.dataType.promote = some (.long x) ∧ v = .long (shiftLong op x d)) := by
  obtain ⟨d, hd, h⟩ := Option.bind_eq_some_iff.1 h
  obtain ⟨p, hp, h⟩ := Option.bind_eq_some_iff.1 h
  refine ⟨d, hd, ?_⟩
  cases p <;> cases h
  · exact .inl ⟨_, hp, rfl⟩
  · exact .inr ⟨_, hp, rfl⟩

theorem isIntegral_of_toInt64 {v : Value} {i : Int64} (h : v.toInt64? = some i) :
    v.dataType.isIntegral := by
  cases v <;> cases h <;> rfl

theorem isPrimitive_of_isIntegral {t : DataType} (h : t.isIntegral) : t.isPrimitive := by
  cases t <;> first | rfl | exact absurd h Bool.false_ne_true

/-- The operators on two operands of one type. -/
inductive BinaryOp.OnPromoted (op : BinaryOp) : Value → Value → Value → Prop
  | bitwise {p q v : Value} {i j : Int64} (hop : op.isBitwise) (hi : p.toInt64? = some i)
    (hj : q.toInt64? = some j)
    (h : Value.ofBits? (ConstRestore.bitwise op i j).toUInt64 p.dataType = some v) :
    OnPromoted op p q v
  | int {i j k : Int32} (h : arithInt op i j = .ok k) : OnPromoted op (.int i) (.int j) (.int k)
  | long {i j k : Int64} (h : arithLong op i j = .ok k) :
    OnPromoted op (.long i) (.long j) (.long k)
  | float {x y z : Number single} (h : arithNumber? op x y = some z) :
    OnPromoted op (.float x) (.float y) (.float z)
  | double {x y z : Number Ieee.double} (h : arithNumber? op x y = some z) :
    OnPromoted op (.double x) (.double y) (.double z)

/-- How a binary operator comes to a value: as a concatenation, as a shift, or on
    operands converted to one type. -/
inductive BinaryOp.Gives (op : BinaryOp) (a b : Value) : Value → Prop
  | concat (s : String) (h : op = .add ∧ (a.dataType = .string ∨ b.dataType = .string)) :
    Gives op a b (.string s)
  | shift {v : Value} (hop : op.isShift) (h : shift? op a b = some v) : Gives op a b v
  | promoted {p q v : Value} {t : DataType} (hop : ¬op.isShift)
    (ht : DataType.promoteBinary a.dataType b.dataType = some t)
    (hp : a.cast t = some p) (hq : b.cast t = some q) (h : op.OnPromoted p q v) : Gives op a b v

theorem gives_of_apply {op : BinaryOp} {a b v : Value} (h : op.apply a b = .ok v) :
    op.Gives a b v := by
  unfold BinaryOp.apply at h
  split at h
  · cases h
    exact .concat _ ‹_›
  split at h
  · exact .shift ‹_› (elim_eq_ok.1 h)
  split at h
  · cases h
  rename_i hop _ t ht
  split at h
  swap
  · cases h
  rename_i p q hp hq
  refine .promoted hop ht hp hq ?_
  split at h
  · split at h
    · rename_i i j hi hj
      exact .bitwise ‹_› hi hj (Value.dataType_of_cast hp ▸ elim_eq_ok.1 h)
    · cases h
  split at h
  · obtain ⟨k, hk, rfl⟩ := map_eq_ok.1 h
    exact .int hk
  · obtain ⟨k, hk, rfl⟩ := map_eq_ok.1 h
    exact .long hk
  · obtain ⟨z, hz, rfl⟩ := Option.map_eq_some_iff.1 (elim_eq_ok.1 h)
    exact .float hz
  · obtain ⟨z, hz, rfl⟩ := Option.map_eq_some_iff.1 (elim_eq_ok.1 h)
    exact .double hz
  · cases h

theorem dataType_of_ofBits {bits : UInt64} {t : DataType} {v : Value}
    (h : Value.ofBits? bits t = some v) : v.dataType = t := by
  cases t <;> cases h <;> simp only [Value.dataType]

theorem BinaryOp.OnPromoted.dataType {op : BinaryOp} {p q v : Value} (h : op.OnPromoted p q v) :
    v.dataType = p.dataType := by
  cases h with
  | bitwise hop hi hj h => exact dataType_of_ofBits h
  | int | long | float | double => simp only [Value.dataType]

theorem dataType_of_shift {op : BinaryOp} {a b v : Value} (h : shift? op a b = some v) :
    v.dataType = a.dataType.promote ∧ a.dataType.isPrimitive ∧ b.dataType.isPrimitive := by
  obtain ⟨d, hd, h⟩ := shift_eq_some h
  have hb := isPrimitive_of_isIntegral (isIntegral_of_toInt64 hd)
  rcases h with ⟨x, hx, rfl⟩ | ⟨x, hx, rfl⟩
  all_goals
    have ht := Value.dataType_of_cast hx
    refine ⟨ht ▸ by simp only [Value.dataType], ?_, hb⟩
    cases a <;> first | rfl | cases ht

/-- **The type of an expression is that of its value.** -/
theorem typeOf_eq_of_evaluate (hr : r.WellTyped) {e : Expr} {v : Value}
    (h : e.evaluate r = .ok v) : e.typeOf r = .ok v.dataType := by
  induction e generalizing v with
  | literal l => cases h; rfl
  | field f =>
    obtain ⟨c, hc, rfl⟩ := map_eq_ok.1 h
    exact map_eq_ok.2 ⟨c, mapError_eq_ok.2 hc, (hr.fieldConstant hc).symm⟩
  | cast target e ih =>
    obtain ⟨a, -, h⟩ := bind_eq_ok.1 h
    rw [Value.dataType_of_cast (elim_eq_ok.1 h)]
    rfl
  | unary op e ih =>
    obtain ⟨a, ha, h⟩ := bind_eq_ok.1 h
    replace h := elim_eq_ok.1 h
    refine bind_eq_ok.2 ⟨_, ih ha, ?_⟩
    rw [if_pos (isPrimitive_of_unary h), dataType_of_unary h]
  | binary op e e' ih ih' =>
    obtain ⟨a, ha, h⟩ := bind_eq_ok.1 h
    obtain ⟨b, hb, h⟩ := bind_eq_ok.1 h
    refine bind_eq_ok.2 ⟨_, ih ha, bind_eq_ok.2 ⟨_, ih' hb, ?_⟩⟩
    cases gives_of_apply h with
    | concat s hs => rw [if_pos hs]; rfl
    | shift hop h =>
      have ⟨ht, hpa, hpb⟩ := dataType_of_shift h
      have hne : ¬op = .add := by rintro rfl; cases hop
      rw [if_neg fun hs => hne hs.1, if_pos ⟨hop, hpa, hpb⟩, ht]
    | promoted hop ht hp hq h =>
      have ⟨hpa, hpb, _⟩ := isPrimitive_of_promoteBinary ht
      have hns : ¬(a.dataType = .string ∨ b.dataType = .string) := by
        rintro (hs | hs)
        · rw [hs] at hpa; cases hpa
        · rw [hs] at hpb; cases hpb
      rw [if_neg fun hs => hns hs.2, if_neg fun hs => hop hs.1, ht, h.dataType,
        Value.dataType_of_cast hp]
      rfl

end ConstRestore
