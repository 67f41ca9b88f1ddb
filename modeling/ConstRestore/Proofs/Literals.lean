/-
  Pushes and the literals that they are read as.

  `Value.promoted` is a value as it lies on the operand stack.

  * The shortest push of a value is read as the promoted value, whichever form the value gets
    (`literal?_push`), and its operand fits the instruction (`holdsOperand_push`).
  * A literal that has a form without an operand is pushed by that form, so no value has two of
    them (`push_of_simple`).
  * What an instruction is read as is of a type that promotion leaves alone
    (`promote_dataType_of_literal?`), so reading after pushing gives it back.

  `push_literal_inverse` puts these together.
-/
import ConstRestore.Proofs.Conversion

namespace ConstRestore

namespace Value

/-- The value on the operand stack: types narrower than `int` become the int of the same
    number. -/
def promoted : Value → Value
  | byte v => int v.toInt32
  | short v => int v.toInt32
  | char v => int v.toUInt32.toInt32
  | v => v

theorem dataType_promoted (v : Value) : v.promoted.dataType = v.dataType.promote := by
  cases v <;> rfl

theorem toInt64?_promoted (v : Value) : v.promoted.toInt64? = v.toInt64? := by
  cases v with
  | byte v => simp [promoted, toInt64?]
  | short v => simp [promoted, toInt64?]
  | char v => simp [promoted, toInt64?, toInt64_ofUnit]
  | int | long | float | double | string | class_ => rfl

theorem promoted_eq_self {v : Value} (h : v.dataType.promote = v.dataType) : v.promoted = v := by
  cases v with
  | byte | short | char => cases h
  | int | long | float | double | string | class_ => rfl

end Value

namespace Instr

/-- Whether the operand of a push is one that the instruction can hold: a byte for `bipush`, a
    short for `sipush`. -/
def HoldsOperand : Instr → Prop
  | int .bipush v => v.toInt8.toInt32 = v
  | int .sipush v => v.toInt16.toInt32 = v
  | _ => True

/-! ## Ints -/

theorem literal?_iconst {v : Int32} (h : -1 ≤ v.toInt) (hn : (v.toInt + 1).toNat < 7) :
    (simple (.iconst ⟨(v.toInt + 1).toNat, hn⟩)).literal? = some (.int v) := by
  have hv : ((v.toInt + 1).toNat : Int) - 1 = v.toInt := by omega
  simp only [literal?, hv, Int32.ofInt_toInt]

/-- The forms of an int push are read alike. -/
theorem literal?_pushInt (v : Int32) : (pushInt v).literal? = some (.int v) := by
  unfold pushInt
  dsimp only
  split_ifs with h₁ h₂ h₃
  · exact literal?_iconst h₁.1 _
  · rfl
  · rfl
  · rfl

theorem holdsOperand_pushInt (v : Int32) : (pushInt v).HoldsOperand := by
  unfold pushInt
  dsimp only
  split_ifs with h₁ h₂ h₃
  · trivial
  · apply Int32.toInt_inj.1
    rw [Int8.toInt_toInt32, Int32.toInt_toInt8, Int.bmod_eq_of_le] <;> omega
  · apply Int32.toInt_inj.1
    rw [Int16.toInt_toInt32, Int32.toInt_toInt16, Int.bmod_eq_of_le] <;> omega
  · trivial

theorem pushInt_iconst (n : Fin 7) :
    pushInt (Int32.ofInt (n.val - 1)) = simple (.iconst n) := by
  revert n
  decide

/-! ## Values -/

theorem literal?_push (v : Value) : (push v).literal? = some v.promoted := by
  cases v with
  | byte | short | char | int => exact literal?_pushInt _
  | long v =>
    simp only [push]
    split_ifs with h₀ h₁
    · subst h₀; rfl
    · subst h₁; rfl
    · rfl
  | float v =>
    simp only [push]
    split_ifs with h₀ h₁ h₂
    · subst h₀; rfl
    · subst h₁; rfl
    · subst h₂; rfl
    · rfl
  | double v =>
    simp only [push]
    split_ifs with h₀ h₁
    · subst h₀; rfl
    · subst h₁; rfl
    · rfl
  | string | class_ => rfl

theorem holdsOperand_push (v : Value) : (push v).HoldsOperand := by
  cases v with
  | byte | short | char | int => exact holdsOperand_pushInt _
  | long | float | double =>
    simp only [push]
    split_ifs <;> trivial
  | string | class_ => trivial

/-- A literal is of a type that numeric promotion leaves alone. -/
theorem promote_dataType_of_literal? {i : Instr} {v : Value} (h : i.literal? = some v) :
    v.dataType.promote = v.dataType := by
  unfold literal? at h
  split at h
  case h_7 c =>
    cases c <;> cases h <;> rfl
  all_goals cases h <;> rfl

/-- A literal that an instruction without an operand pushes is pushed by no other. -/
theorem push_of_simple {op : Opcode} {v : Value} (h : (simple op).literal? = some v) :
    push v = simple op := by
  cases op with
  | iconst n => cases h; exact pushInt_iconst n
  | lconst n => cases h; revert n; decide
  | fconst n => cases h; revert n; decide
  | dconst n => cases h; revert n; decide
  | _ => cases h

/-- **Pushing and reading literals are inverse.**  A push is read as the value itself if numeric
    promotion leaves its type alone, otherwise as the int of the same number, and its operand is
    one that its instruction holds.  What any instruction is read as is pushed again as a form
    that reads the same, and as the form without an operand if there is one. -/
theorem push_literal_inverse :
    (∀ v : Value, ∃ w, (push v).literal? = some w ∧ (push v).HoldsOperand ∧
      w.dataType = v.dataType.promote ∧ w.toInt64? = v.toInt64? ∧
      (v.dataType.promote = v.dataType → w = v)) ∧
    (∀ (i : Instr) (v : Value), i.literal? = some v → (push v).literal? = some v) ∧
    ∀ (op : Opcode) (v : Value), (simple op).literal? = some v → push v = simple op := by
  refine ⟨fun v => ?_, fun i v hi => ?_, fun op v hop => push_of_simple hop⟩
  · exact ⟨v.promoted, literal?_push v, holdsOperand_push v, v.dataType_promoted,
      v.toInt64?_promoted, Value.promoted_eq_self⟩
  · rw [literal?_push, Value.promoted_eq_self (promote_dataType_of_literal? hi)]

end Instr

end ConstRestore
