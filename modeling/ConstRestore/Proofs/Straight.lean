/-
  Generated code is straight-line code.

  What takes the place of a literal is at least one instruction, and has no
  labels, branches or line numbers (`straight_substitution`): it can stand
  anywhere without a change of the control flow around it.
-/
import ConstRestore.Proofs.Emitted
import ConstRestore.Proofs.Plan

namespace ConstRestore

/-- The instruction is executed and goes on with the next one. -/
def Instr.IsStraight (i : Instr) : Prop := i.isPseudo = false ∧ i.targets = []

def Straight (code : List Instr) : Prop := ∀ i ∈ code, i.IsStraight

theorem straight_nil : Straight [] := List.forall_mem_nil _

theorem straight_append {code code' : List Instr} :
    Straight (code ++ code') ↔ Straight code ∧ Straight code' := List.forall_mem_append

theorem straight_cons {i : Instr} {code : List Instr} :
    Straight (i :: code) ↔ i.IsStraight ∧ Straight code := List.forall_mem_cons

theorem straight_flatMap {α : Type} {l : List α} {f : α → List Instr}
    (h : ∀ a ∈ l, Straight (f a)) : Straight (l.flatMap f) := by
  intro i hi
  obtain ⟨a, ha, hi⟩ := List.mem_flatMap.1 hi
  exact h a ha i hi

/-! ## Pieces of code -/

theorem isStraight_simple (op : Opcode) : (Instr.simple op).IsStraight := ⟨rfl, rfl⟩

theorem isStraight_push (v : Value) : (Instr.push v).IsStraight := by
  have hint (n : Int32) : (Instr.pushInt n).IsStraight := by
    simp only [Instr.pushInt]
    split_ifs <;> exact ⟨rfl, rfl⟩
  cases v with
  | byte v | short v | char v | int v => exact hint _
  | long v | float v | double v =>
    simp only [Instr.push]
    split_ifs <;> exact ⟨rfl, rfl⟩
  | string s | class_ name => exact ⟨rfl, rfl⟩

theorem straight_kindConversion (s t : DataType) : Straight (kindConversion s t) := by
  unfold kindConversion
  split
  · split_ifs
    · exact straight_nil
    · exact straight_cons.2 ⟨isStraight_simple _, straight_nil⟩
  · exact straight_nil

theorem straight_narrowing (s t : DataType) : Straight (narrowing s t) := by
  unfold narrowing
  split_ifs
  · exact straight_nil
  · split
    · exact straight_cons.2 ⟨isStraight_simple _, straight_nil⟩
    · exact straight_cons.2 ⟨isStraight_simple _, straight_nil⟩
    · exact straight_cons.2 ⟨isStraight_simple _, straight_nil⟩
    · exact straight_nil

theorem straight_convert {s t : DataType} {code : List Instr} (h : convert s t = .ok code) :
    Straight code := by
  unfold convert at h
  split_ifs at h
  · obtain rfl := Except.ok.inj h
    exact straight_nil
  · obtain rfl := Except.ok.inj h
    exact straight_append.2 ⟨straight_kindConversion s t, straight_narrowing s t⟩

theorem straight_convertValue {s t : DataType} {value : Option Value} {code : List Instr}
    (h : convertValue s t value = .ok code) : Straight code := by
  unfold convertValue at h
  split_ifs at h
  · obtain rfl := Except.ok.inj h
    exact straight_nil
  · exact straight_convert h

theorem straight_receiver {r : Registry} {c : CodeContext} {owner : String} {code : List Instr}
    (h : receiver r c owner = .ok code) : Straight code := by
  simp only [receiver] at h
  split_ifs at h
  obtain rfl := Except.ok.inj h
  refine straight_cons.2 ⟨⟨rfl, rfl⟩, straight_flatMap fun o _ i hi => ?_⟩
  obtain ⟨link, -, rfl⟩ := List.mem_map.1 hi
  exact ⟨rfl, rfl⟩

theorem isStraight_fieldAccess {r : Registry} {f : FieldRef} {load : Instr} {t : DataType}
    (h : fieldAccess r f = .ok (load, t)) : load.IsStraight := by
  obtain ⟨c, -, h⟩ := bind_eq_ok.1 h
  obtain ⟨rfl, -⟩ := Prod.mk.inj (Except.ok.inj h)
  exact ⟨rfl, rfl⟩

theorem straight_unaryCode {op : UnaryOp} {t : DataType} {code : List Instr}
    (h : unaryCode op t = .ok code) : Straight code := by
  cases op with
  | negate =>
    obtain ⟨opcode, -, rfl⟩ := map_eq_ok.1 h
    exact straight_cons.2 ⟨isStraight_simple _, straight_nil⟩
  | complement =>
    cases t <;> cases h <;>
      exact straight_cons.2 ⟨isStraight_push _, straight_cons.2 ⟨isStraight_simple _, straight_nil⟩⟩

theorem straight_concatCode (c : CodeContext) {parts : List ConcatPart}
    (h : ∀ p ∈ parts, Straight p.code) :
    concatCode c parts ≠ [] ∧ Straight (concatCode c parts) := by
  have hcall {op : Opcode} {site : MethodSite} : Straight [.method op site] :=
    straight_cons.2 ⟨⟨rfl, rfl⟩, straight_nil⟩
  have hdynamic : dynamicCode parts ≠ [] ∧ Straight (dynamicCode parts) := by
    refine ⟨by simp [dynamicCode], straight_append.2 ⟨straight_flatMap fun p hp => ?_, ?_⟩⟩
    · exact h p (List.mem_filter.1 hp).1
    · exact straight_cons.2 ⟨⟨rfl, rfl⟩, straight_nil⟩
  have hbuilder : builderCode parts ≠ [] ∧ Straight (builderCode parts) := by
    refine ⟨by simp [builderCode], straight_append.2 ⟨straight_append.2 ⟨?_, ?_⟩, hcall⟩⟩
    · exact straight_cons.2 ⟨⟨rfl, rfl⟩, straight_cons.2 ⟨isStraight_simple _, hcall⟩⟩
    · exact straight_flatMap fun p hp => straight_append.2 ⟨h p hp, hcall⟩
  simp only [concatCode]
  split_ifs
  · exact hdynamic
  · exact hbuilder

/-! ## Expressions -/

theorem straight_emitted {r : Registry} {c : CodeContext} {code : List Instr} {t : DataType}
    (h : Emitted r c code t) : code ≠ [] ∧ Straight code := by
  induction h with
  | literal v => exact ⟨by simp, straight_cons.2 ⟨isStraight_push v, straight_nil⟩⟩
  | field hobject hload =>
    refine ⟨by simp, straight_append.2 ⟨?_, straight_cons.2
      ⟨isStraight_fieldAccess hload, straight_nil⟩⟩⟩
    unfold fieldObject at hobject
    split_ifs at hobject
    · obtain rfl := Except.ok.inj hobject
      exact straight_nil
    · exact straight_receiver hobject
  | converted _ hconversion ih =>
    exact ⟨List.append_ne_nil_of_left_ne_nil ih.1 _,
      straight_append.2 ⟨ih.2, straight_convert hconversion⟩⟩
  | unary _ hoperation ih =>
    exact ⟨List.append_ne_nil_of_left_ne_nil ih.1 _,
      straight_append.2 ⟨ih.2, straight_unaryCode hoperation⟩⟩
  | binary _ _ _ ihl ihr =>
    exact ⟨by simp, straight_append.2 ⟨straight_append.2 ⟨ihl.2, ihr.2⟩,
      straight_cons.2 ⟨isStraight_simple _, straight_nil⟩⟩⟩
  | concat _ ih => exact straight_concatCode c fun p hp => (ih p hp).2

theorem straight_codeFor {r : Registry} {c : CodeContext} {e : Expr} {target : DataType}
    {code : List Instr} (h : codeFor r c e target = .ok code) : code ≠ [] ∧ Straight code := by
  obtain ⟨before, actual, conversion, hbefore, hconversion, rfl⟩ := codeFor_parts h
  have hstraight : before ≠ [] ∧ Straight before := by
    split_ifs at hbefore
    · obtain ⟨f, load, -, -, hload, rfl⟩ := loadOnReceiver_eq_ok hbefore
      exact ⟨by simp, straight_cons.2 ⟨isStraight_fieldAccess hload, straight_nil⟩⟩
    · exact straight_emitted (emitted_of_typed hbefore)
  exact ⟨List.append_ne_nil_of_left_ne_nil hstraight.1 _,
    straight_append.2 ⟨hstraight.2, straight_convertValue hconversion⟩⟩

/-- What stands in for a literal is straight-line code, and there is some. -/
theorem straight_substitution {s : Subject} {a : Solution} {index : Nat} {literal : DataType}
    {w : StandIn} {sub : Substitution} (h : s.substitution a index literal w = .ok sub) :
    sub.code ≠ [] ∧ Straight sub.code := by
  obtain ⟨-, code, last, hcode, hlast, hsub⟩ := Subject.substitution_parts h
  obtain ⟨hne, hstraight⟩ := straight_codeFor hcode
  rw [hsub]
  exact ⟨List.append_ne_nil_of_left_ne_nil hne _,
    straight_append.2 ⟨hstraight, straight_convert hlast⟩⟩

end ConstRestore
