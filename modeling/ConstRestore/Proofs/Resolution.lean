/-
  Searches of the hierarchy are complete.

  What is above a class does not depend on the order in which its supertypes are
  looked at (`leads_fieldSupertypes`), so a search for a constant and one for a
  supertype see the same classes.  They differ in which of them comes first.

  * `findConstant?_eq_none_iff`, `exists_of_findConstant?`: a constant is found
    exactly if some class above declares it, and it is the one of the first
    class in the order of the walk that does;
  * `fieldConstant_judges`: what is found is what a reference is checked against;
  * `searches_complete`: so for every registry, cyclic hierarchies included.
-/
import ConstRestore.Proofs.Inheritance
import ConstRestore.Proofs.Answers

namespace ConstRestore

/-- What a reference to a constant of some name gets once the constant is found. -/
inductive FieldRef.Judges (f : FieldRef) (name : String) (c : Constant) :
    Except EvalError Constant → Prop
  | agrees (htype : ∀ t ∈ f.declaredType, t = c.dataType) (hstatic : f.isStatic = c.isStatic) :
      Judges f name c (.ok c)
  | otherType {t : DataType} (ht : f.declaredType = some t) (hne : t ≠ c.dataType) :
      Judges f name c (.error (.mismatch f.owner name (.dataType t c.dataType)))
  | otherStaticness (htype : ∀ t ∈ f.declaredType, t = c.dataType) (hne : f.isStatic ≠ c.isStatic) :
      Judges f name c (.error (.mismatch f.owner name (.staticness c.isStatic)))

namespace Registry

variable {r : Registry} {owner name : String} {c : Constant}

/-! ## Classes above -/

/-- The order of the supertypes makes no difference to what is above a class. -/
theorem leads_fieldSupertypes (r : Registry) :
    r.Leads ClassInfo.fieldSupertypes = r.Leads ClassInfo.supertypes := by
  funext x y
  simp only [Leads, ClassInfo.fieldSupertypes, ClassInfo.supertypes, List.mem_append, or_comm]

theorem mem_fieldOwners_iff {x : String} : x ∈ r.fieldOwners owner ↔ r.Extends owner x := by
  rw [fieldOwners, mem_preorder_iff, Direction.next, leads_fieldSupertypes, Extends]

/-! ## Constants -/

theorem findConstant?_eq_none_iff : r.findConstant? owner name = none ↔
    ∀ x, r.Extends owner x → r.constant? x name = none := by
  simp only [findConstant?_eq, List.findSome?_eq_none_iff, mem_fieldOwners_iff]

/-- The constant that is found is that of the first class that declares one. -/
theorem exists_of_findConstant? (h : r.findConstant? owner name = some c) :
    ∃ before x after, r.fieldOwners owner = before ++ x :: after ∧
      (∀ earlier ∈ before, r.constant? earlier name = none) ∧ r.constant? x name = some c := by
  rw [findConstant?_eq] at h
  obtain ⟨before, x, after, horder, hfound, hbefore⟩ := List.findSome?_eq_some_iff.1 h
  exact ⟨before, x, after, horder, hbefore, hfound⟩

variable {f : FieldRef}

theorem fieldConstant_of_none (hname : f.name = some name)
    (h : r.findConstant? f.owner name = none) :
    r.fieldConstant f = .error (.notResolvable f.owner name) := by
  simp only [fieldConstant, hname, h]

/-- A reference is checked against the constant that is found, its type first. -/
theorem fieldConstant_judges (hname : f.name = some name)
    (h : r.findConstant? f.owner name = some c) : f.Judges name c (r.fieldConstant f) := by
  simp only [fieldConstant, hname, h]
  -- a reference of the right type, or of none, is checked for its staticness only
  have hstaticness (htype : ∀ t ∈ f.declaredType, t = c.dataType) : f.Judges name c
      (if f.isStatic ≠ c.isStatic then
        .error (.mismatch f.owner name (.staticness c.isStatic)) else .ok c) := by
    split_ifs with hstatic
    · exact .otherStaticness htype hstatic
    · exact .agrees htype (not_not.1 hstatic)
  cases ht : f.declaredType with
  | none =>
    rw [if_neg (by simp)]
    exact hstaticness (by simp [ht])
  | some t =>
    rcases eq_or_ne t c.dataType with rfl | hne
    · rw [if_neg (by simp)]
      exact hstaticness (by simp [ht])
    · rw [if_pos (by simpa using hne), Option.getD_some]
      exact .otherType ht hne

/-- A constant is reported as missing exactly if no class above declares it. -/
theorem fieldConstant_eq_notResolvable_iff (hname : f.name = some name) :
    r.fieldConstant f = .error (.notResolvable f.owner name) ↔
      ∀ x, r.Extends f.owner x → r.constant? x name = none := by
  rw [← findConstant?_eq_none_iff]
  constructor
  · intro h
    cases hfound : r.findConstant? f.owner name with
    | none => rfl
    | some c =>
      have hjudges := fieldConstant_judges hname hfound
      rw [h] at hjudges
      cases hjudges
  · exact fieldConstant_of_none hname

/-- **Searches end and are complete**, for every registry.  A class is assignable to itself, to the
    root class and to all that can be reached from it along supertypes, and a search that asks for
    one class after the other ends with this answer.  A reference to a constant is decided by the
    first class that declares one in the order of a walk from its owner, interfaces before the
    superclass and each class once; the constant is missing exactly if no class that can be reached
    declares one. -/
theorem searches_complete (r : Registry) :
    (∀ target source, r.isAssignable target source ↔
      target = source ∨ target = objectClass ∨ r.Extends source target) ∧
    (∀ target source answer, r.Answers (.assignable target source) answer ↔
      answer = r.isAssignable target source) ∧
    ∀ (f : FieldRef) (name : String), f.name = some name →
      ∃ order, r.Walk ClassInfo.fieldSupertypes ∅ [f.owner] order ∧ order.Nodup ∧
        (∀ x, x ∈ order ↔ r.Extends f.owner x) ∧
        (r.fieldConstant f = .error (.notResolvable f.owner name) ↔
          ∀ x, r.Extends f.owner x → r.constant? x name = none) ∧
        ((∃ x, r.Extends f.owner x ∧ r.constant? x name ≠ none) →
          ∃ before x after c, order = before ++ x :: after ∧
            (∀ earlier ∈ before, r.constant? earlier name = none) ∧
            r.constant? x name = some c ∧ f.Judges name c (r.fieldConstant f)) := by
  refine ⟨fun target source => ?_, fun target source answer => answers_iff, fun f name hname => ?_⟩
  · rw [isAssignable_iff]
    constructor
    · exact .inr
    · rintro (rfl | h)
      · exact .inr .refl
      · exact h
  · have hwalk : r.Walk ClassInfo.fieldSupertypes ∅ [f.owner] (r.fieldOwners f.owner) :=
      walk_iff (d := .fields) |>.2 rfl
    refine ⟨_, hwalk, hwalk.nodup, fun _ => mem_fieldOwners_iff,
      fieldConstant_eq_notResolvable_iff hname, ?_⟩
    rintro ⟨y, hy, hdeclared⟩
    obtain ⟨c, hc⟩ : ∃ c, r.findConstant? f.owner name = some c := by
      refine Option.ne_none_iff_exists'.1 fun hnone => hdeclared ?_
      exact findConstant?_eq_none_iff.1 hnone y hy
    obtain ⟨before, x, after, horder, hbefore, hx⟩ := exists_of_findConstant? hc
    exact ⟨before, x, after, c, horder, hbefore, hx, fieldConstant_judges hname hc⟩

/-- Two classes that extend each other, the first of which implements an interface; the other one
    and the interface declare a constant of one name. -/
def mutualRegistry : Registry :=
  (((ClassRegistry.empty.addInfo ⟨"p/A", some "p/B", ["p/I"], false, none⟩).addInfo
    ⟨"p/B", some "p/A", [], false, none⟩).addConstant "p/B" "K" ⟨.int, .int 1, true⟩).addConstant
      "p/I" "K" ⟨.int, .int 2, true⟩

/-- From the second class the interface is reached through the first one, and its constant comes
    before the one that the second class declares. -/
theorem searches_complete_mutual : mutualRegistry.isAssignable "p/I" "p/B" ∧
    mutualRegistry.fieldConstant ⟨"p/A", some "K", none, true⟩ = .ok ⟨.int, .int 2, true⟩ ∧
    ∃ before x after c, mutualRegistry.Walk ClassInfo.fieldSupertypes ∅ ["p/A"]
        (before ++ x :: after) ∧ mutualRegistry.constant? x "K" = some c ∧
      FieldRef.Judges ⟨"p/A", some "K", none, true⟩ "K" c
        (mutualRegistry.fieldConstant ⟨"p/A", some "K", none, true⟩) := by
  have hupper : mutualRegistry.Leads ClassInfo.supertypes "p/A" "p/I" :=
    ⟨⟨"p/A", some "p/B", ["p/I"], false, none⟩, by cbv, by decide⟩
  have hlower : mutualRegistry.Leads ClassInfo.supertypes "p/B" "p/A" :=
    ⟨⟨"p/B", some "p/A", [], false, none⟩, by cbv, by decide⟩
  obtain ⟨hassignable, -, hsearch⟩ := searches_complete mutualRegistry
  obtain ⟨order, hwalk, -, -, -, hfirst⟩ := hsearch ⟨"p/A", some "K", none, true⟩ "K" rfl
  have hdeclared : mutualRegistry.constant? "p/I" "K" ≠ none := by
    have h : mutualRegistry.constant? "p/I" "K" = some ⟨.int, .int 2, true⟩ := by cbv
    simp [h]
  obtain ⟨before, x, after, c, rfl, -, hx, hjudges⟩ := hfirst ⟨"p/I", .single hupper, hdeclared⟩
  refine ⟨(hassignable "p/I" "p/B").2 (.inr (.inr (.head hlower (.single hupper)))), by cbv, ?_⟩
  exact ⟨before, x, after, c, hwalk, hx, hjudges⟩

end Registry

end ConstRestore
