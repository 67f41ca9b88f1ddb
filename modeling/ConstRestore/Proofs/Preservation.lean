/-
  What stands in for a literal has its type.

  A substitution is executed from the frame at the instructions it replaces:
  the literal, or the null check before it.  Like these it leaves the local
  variables and everything below its operands as they are, and one value on
  top, of the kind of the literal (`Subject.substitution_preserves`).

  * `hasEffect_codeFor` and `hasEffect_codeFor_onReceiver` type the code of an
    expression, `hasEffect_substitution` the whole of it;
  * `Guards.executes` executes what is replaced, line numbers in between
    included.
-/
import ConstRestore.Proofs.Locals
import ConstRestore.Proofs.Plan
import ConstRestore.Proofs.StackEffect

namespace ConstRestore

open ValueType (ofDataType)

/-! ## The code of an expression -/

section

variable {r : Registry} {c : CodeContext} {e : Expr} {target : DataType} {code : List Instr}

theorem hasEffect_codeFor {n : Nat}
    (hreceiver : ∀ owner code, receiver r c owner = .ok code → HasEffect n code [] [.top])
    (hc : c.receiverOnStack = false) (h : codeFor r c e target = .ok code) :
    HasEffect n code [] [ofDataType target] := by
  obtain ⟨before, actual, conversion, hbefore, hconversion, rfl⟩ := codeFor_parts h
  rw [hc, if_neg Bool.false_ne_true] at hbefore
  exact (hasEffect_emitted hreceiver (emitted_of_typed hbefore)).append
    (hasEffect_of_convertValue hconversion n)

/-- The load of an instance constant takes the object that is there. -/
theorem hasEffect_codeFor_onReceiver (hc : c.receiverOnStack = true)
    (h : codeFor r c e target = .ok code) (n : Nat) (s : ValueType) :
    HasEffect n code [s] [ofDataType target] := by
  obtain ⟨before, actual, conversion, hbefore, hconversion, rfl⟩ := codeFor_parts h
  rw [hc, if_pos rfl] at hbefore
  obtain ⟨f, load, -, hstatic, hload, rfl⟩ := loadOnReceiver_eq_ok hbefore
  have heffect := hasEffect_fieldAccess hload n s
  rw [if_neg hstatic] at heffect
  exact heffect.append (hasEffect_of_convertValue hconversion n)

end

namespace Subject

variable {s : Subject} {a : Solution} {index : Nat} {literal : DataType} {w : StandIn}
  {sub : Substitution}

/-- Local variables that the code of a method may use: `this`, if there is one. -/
def usedLocals (s : Subject) : Nat := if s.method.isStatic then 0 else 1

theorem hasEffect_receiver (hr : s.registry.WellNamed) (onStack : Bool) {owner : String}
    {code : List Instr} (h : receiver s.registry (s.codeContext onStack) owner = .ok code) :
    HasEffect s.usedLocals code [] [.top] := by
  have hstatic : s.method.isStatic = false := by
    unfold receiver at h
    split_ifs at h with hstatic
    · simpa [codeContext] using hstatic
  have heffect := ConstRestore.hasEffect_receiver hr h
  rwa [usedLocals, hstatic]

/-- What a substitution takes from the stack and leaves there: where it removes a null check, it
    takes the checked object. -/
theorem hasEffect_substitution (hr : s.registry.WellNamed)
    (h : s.substitution a index literal w = .ok sub) (object : ValueType) :
    HasEffect s.usedLocals sub.code (if sub.nullCheck.isSome then [object] else [])
      [ofDataType literal] := by
  obtain ⟨-, code, last, hcode, hlast, hsub⟩ := substitution_parts h
  rw [hsub]
  refine HasEffect.append ?_ (hasEffect_of_convert hlast _)
  split_ifs with hcheck
  · exact hasEffect_codeFor_onReceiver hcheck hcode _ object
  · refine hasEffect_codeFor (fun _ _ => hasEffect_receiver hr _) ?_ hcode
    exact Bool.eq_false_iff.2 hcheck

end Subject

/-! ## The instructions that are replaced -/

/-- The instructions from one index to another, each with its index. -/
def Method.between (m : Method) (first last : Nat) : List (Instr × Nat) :=
  (m.code.zipIdx.take (last + 1)).drop first

namespace Method

variable {m : Method} {first last : Nat}

theorem between_eq_cons {i : Instr} (hi : m.code[first]? = some i) (h : first ≤ last) :
    m.between first last = (i, first) :: m.between (first + 1) last := by
  obtain ⟨hlt, rfl⟩ := List.getElem?_eq_some_iff.1 hi
  unfold between
  rw [List.drop_eq_getElem_cons (by simp; omega)]
  simp

theorem between_eq_nil (h : last < first) : m.between first last = [] := by
  simp only [between, List.drop_eq_nil_iff, List.length_take]
  omega

/-- Line numbers have no effect. -/
theorem executeAll_lines {stop : Nat} (ret? : Option DataType) (f : Frame) (hle : first ≤ last)
    (hstop : last ≤ stop)
    (hlines : ∀ j, first ≤ j → j < last → ∃ i, m.code[j]? = some i ∧ i.isLine) :
    executeAll ret? (m.between first stop) f = executeAll ret? (m.between last stop) f := by
  induction last, hle using Nat.le_induction with
  | base => rfl
  | succ last hle ih =>
    obtain ⟨i, hi, hline⟩ := hlines last hle (Nat.lt_succ_self last)
    have hlast : last ≤ stop := Nat.le_of_succ_le hstop
    rw [ih hlast fun j hj hlt => hlines j hj (hlt.trans (Nat.lt_succ_self last)),
      between_eq_cons hi hlast]
    cases i <;> cases hline
    rfl

end Method

/-- A typed instruction at the start of a sequence. -/
theorem HasEffect.executeAll_cons {n : Nat} {i : Instr} {before after : List ValueType}
    (h : HasEffect n [i] before after) (ret? : Option DataType) (index : Nat) {locals : List Slot}
    (hn : n ≤ locals.length) {taken : List Slot} (htaken : Typed taken before)
    (rest : List Slot) (code : List (Instr × Nat)) :
    ∃ put, executeAll ret? ((i, index) :: code) ⟨locals, taken ++ rest⟩ =
      executeAll ret? code ⟨locals, put ++ rest⟩ ∧ Typed put after := by
  obtain ⟨put, hput, hafter⟩ := h ret? index locals taken rest hn htaken
  refine ⟨put, ?_, hafter⟩
  rw [List.zipIdx_singleton] at hput
  rw [← List.singleton_append, executeAll_append, hput]
  rfl

theorem executeAll_literal {i : Instr} {v : Value} (hv : i.literal? = some v)
    (ret? : Option DataType) (index : Nat) (f : Frame) :
    executeAll ret? [(i, index)] f =
      .ok (f.push (.ofSource (ofDataType v.dataType) (.instruction index))) := by
  rw [executeAll_cons]
  simp only [Instr.execute, hv]
  rfl

/-- A null check takes an object and leaves a reference, which is popped then. -/
theorem hasEffect_nullCheck {i : Instr} (h : i.isNullCheck) (n : Nat) (s : ValueType) :
    ∃ name, HasEffect n [i] [s] [.ref name] := by
  unfold Instr.isNullCheck at h
  split at h
  · simp only [Bool.and_eq_true, beq_iff_eq] at h
    refine ⟨"java/lang/Object", hasEffect_method
      ⟨[.object "java/lang/Object"], .object "java/lang/Object"⟩ ?_ rfl rfl n⟩
    rw [h.2]
    cbv
  · simp only [Bool.and_eq_true, beq_iff_eq] at h
    refine ⟨"java/lang/Class", hasEffect_method ⟨[], .object "java/lang/Class"⟩ ?_ rfl rfl n⟩
    rw [h.2]
    cbv
  · cases h

/-- A null check and the literal behind it put the literal in the place of the checked object. -/
theorem Guards.executes {m : Method} {index check pop : Nat} (h : Guards m.code index check pop)
    {i : Instr} {v : Value} (hi : m.code[index]? = some i) (hv : i.literal? = some v)
    (ret? : Option DataType) (locals : List Slot) (object : Slot) (rest : List Slot) :
    executeAll ret? (m.between check index) ⟨locals, object :: rest⟩ =
      .ok ⟨locals, .ofSource (ofDataType v.dataType) (.instruction index) :: rest⟩ := by
  have hindex := (List.getElem?_eq_some_iff.1 hi).1
  obtain ⟨call, hcall, hisCheck⟩ := h.isCheck
  obtain ⟨name, hcheck⟩ := hasEffect_nullCheck hisCheck 0 object.type
  -- the call leaves a reference
  obtain ⟨put, hput, hname⟩ := hcheck.executeAll_cons ret? check (Nat.zero_le locals.length)
    (.cons (.refl _) .nil) rest (m.between (check + 1) index)
  -- which the `pop` takes
  obtain ⟨none, hnone, hnil⟩ := (hasEffect_pop name 0).executeAll_cons ret? pop
    (Nat.zero_le locals.length) hname rest (m.between (pop + 1) index)
  obtain rfl := List.forall₂_nil_right_iff.1 hnil
  rw [Method.between_eq_cons hcall (h.check_lt.trans h.pop_lt).le]
  refine hput.trans ?_
  rw [Method.executeAll_lines ret? _ h.check_lt h.pop_lt.le fun j hj hlt =>
      h.exists_line hindex hj hlt.ne (hlt.trans h.pop_lt),
    Method.between_eq_cons h.isPop h.pop_lt.le]
  refine hnone.trans ?_
  rw [Method.executeAll_lines ret? _ h.pop_lt le_rfl fun j hj hlt =>
      h.exists_line hindex (h.check_lt.trans hj) (Nat.ne_of_gt hj) hlt,
    Method.between_eq_cons hi le_rfl, Method.between_eq_nil (Nat.lt_succ_self index)]
  exact executeAll_literal hv ret? index ⟨locals, rest⟩

/-! ## Substitutions -/

/-- The first instruction that a substitution replaces: the null check or the literal. -/
def Substitution.first (sub : Substitution) (index : Nat) : Nat := sub.nullCheck.elim index (·.1)

namespace Subject

variable {s : Subject} {a : Solution} {limit : Nat}

theorem usedLocals_le (ha : solve s.registry limit s.owner s.method = .ok a) {j : Nat} {f : Frame}
    (hf : a.frame? j = some f) : s.usedLocals ≤ f.locals.length := by
  obtain ⟨d, -, hlocals⟩ := solve_locals ha hf
  rw [hlocals, Method.receivedLocals, usedLocals]
  omega

/-- **A substitution is type preserving.**  Let an analysis accept a method and reach a literal of
    it.  Then the instructions that a substitution for it replaces are executed from their frame
    in the analysis: they take the object of the null check, if there is one, and leave the
    literal.  The new code is executed from the same frame, wherever it stands: it leaves the
    local variables, the entries below and the height of the stack just so, and on top a value
    of the kind of the literal. -/
theorem substitution_preserves (hr : s.registry.WellNamed)
    (ha : solve s.registry limit s.owner s.method = .ok a) {index : Nat} {i : Instr} {v : Value}
    (hi : s.method.code[index]? = some i) (hv : i.literal? = some v)
    (hreachable : a.isReachable index) {w : StandIn} {sub : Substitution}
    (hsub : s.substitution a index v.dataType w = .ok sub) :
    ∃ f taken rest, a.frame? (sub.first index) = some f ∧ f.stack = taken ++ rest ∧
      taken.length = (if sub.nullCheck.isSome then 1 else 0) ∧ ∀ ret? start,
        executeAll ret? (s.method.between (sub.first index) index) f =
          .ok ⟨f.locals, .ofSource (.ofDataType v.dataType) (.instruction index) :: rest⟩ ∧
        ∃ x, executeAll ret? (sub.code.zipIdx start) f = .ok ⟨f.locals, x :: rest⟩ ∧
          x.type.SameKind (.ofDataType v.dataType) := by
  obtain ⟨f, taken, rest, hf, hstack, htaken, hbefore⟩ : ∃ f taken rest,
      a.frame? (sub.first index) = some f ∧ f.stack = taken ++ rest ∧
      taken.length = (if sub.nullCheck.isSome then 1 else 0) ∧
      ∀ ret?, executeAll ret? (s.method.between (sub.first index) index) f =
        .ok ⟨f.locals, .ofSource (.ofDataType v.dataType) (.instruction index) :: rest⟩ := by
    unfold Substitution.first
    cases hguarded : sub.nullCheck with
    | none =>
      obtain ⟨f, hf⟩ := Option.isSome_iff_exists.1 hreachable
      refine ⟨f, [], f.stack, hf, rfl, rfl, fun ret? => ?_⟩
      simp only [Option.elim_none]
      rw [Method.between_eq_cons hi le_rfl, Method.between_eq_nil (Nat.lt_succ_self index)]
      exact executeAll_literal hv ret? index f
    | some guarded =>
      obtain ⟨check, pop⟩ := guarded
      obtain ⟨f, object, rest, hf, hstack⟩ :=
        object_of_nullCheck? ((substitution_parts hsub).1 _ hguarded)
      have hguards := guards_of_nullCheckBefore? (nullCheckBefore?_of_substitution hsub hguarded)
      refine ⟨f, [object], rest, hf, hstack, rfl, fun ret? => ?_⟩
      have hrun := hguards.executes hi hv ret? f.locals object rest
      rwa [← hstack] at hrun
  refine ⟨f, taken, rest, hf, hstack, htaken, fun ret? start => ⟨hbefore ret?, ?_⟩⟩
  have htyped : Typed taken (if sub.nullCheck.isSome then [.top] else []) := by
    split_ifs at htaken ⊢
    · obtain ⟨object, rfl⟩ := List.length_eq_one_iff.1 htaken
      exact .cons (ValueType.fits_top _) .nil
    · obtain rfl := List.eq_nil_of_length_eq_zero htaken
      exact .nil
  obtain ⟨put, hput, hliteral⟩ := hasEffect_substitution hr hsub .top ret? start f.locals taken rest
    (usedLocals_le ha hf) htyped
  obtain ⟨x, none, hx, hnone, rfl⟩ := List.forall₂_cons_right_iff.1 hliteral
  obtain rfl := List.forall₂_nil_right_iff.1 hnone
  refine ⟨x, ?_, hx.sameKind (ValueType.ofDataType_ne_top _)⟩
  rwa [← hstack] at hput

/-- An inner class `p.K` with the instance constant `SEVEN` of type `byte`. -/
def innerRegistry : Registry :=
  (ClassRegistry.empty.addInfo ⟨"p/K", none, [], false, some ⟨"this$0", "p/Outer"⟩⟩).addConstant
    "p/K" "SEVEN" ⟨.byte, .byte 7, false⟩

/-- A method that checks an object of class `p.K` and goes on with the long 7. -/
def checking : Subject where
  registry := innerRegistry
  store := .empty
  config := {}
  owner := "p/A"
  majorVersion := 52
  method := {
    access := Access.static
    name := "f"
    descriptor := "(Lp/K;)J"
    code := [.var (.load .ref) 0,
      .method .invokestatic ⟨"java/lang/Objects", "requireNonNull",
        "(Ljava/lang/Object;)Ljava/lang/Object;", false⟩,
      .simple .pop, .line 3 0, .ldc (.long 7), .simple (.return_ (some .long))]
    tryBlocks := []
    maxLocals := 1
    maxStack := 2 }

theorem substitution_preserves_checking : ∃ a sub f taken rest,
    checking.registry.WellNamed ∧
    solve checking.registry defaultStepLimit checking.owner checking.method = .ok a ∧
    a.isReachable 4 ∧
    checking.substitution a 4 .long ⟨.field ⟨"p/K", some "SEVEN", none, false⟩, .byte⟩ = .ok sub ∧
    sub = ⟨some (1, 2), [.field .getfield ⟨"p/K", "SEVEN", "B"⟩, .simple (.convert .int .long)]⟩ ∧
    a.frame? 1 = some f ∧ f.stack = taken ++ rest ∧ taken.length = 1 ∧ ∀ ret? start,
      executeAll ret? (checking.method.between 1 4) f =
        .ok ⟨f.locals, .ofSource .long (.instruction 4) :: rest⟩ ∧
      ∃ x, executeAll ret? (sub.code.zipIdx start) f = .ok ⟨f.locals, x :: rest⟩ ∧
        x.type.SameKind .long := by
  have hr : checking.registry.WellNamed := by
    refine (Registry.wellNamed_empty.addInfo ?_).addConstant _ _ _
    rintro o ⟨⟩
    exact ⟨by decide, by decide⟩
  have h : (solve checking.registry defaultStepLimit checking.owner checking.method).map
      (fun a => (a.isReachable 4, (checking.substitution a 4 .long
        ⟨.field ⟨"p/K", some "SEVEN", none, false⟩, .byte⟩).toOption)) =
      .ok (true, some ⟨some (1, 2),
        [.field .getfield ⟨"p/K", "SEVEN", "B"⟩, .simple (.convert .int .long)]⟩) := by cbv
  obtain ⟨a, ha, h⟩ := map_eq_ok.1 h
  obtain ⟨hreachable, hsub⟩ := Prod.mk.inj h
  replace hsub := toOption_eq_some.1 hsub
  have hi : checking.method.code[4]? = some (.ldc (.long 7)) := rfl
  obtain ⟨f, taken, rest, hf, hstack, htaken, hrun⟩ :=
    substitution_preserves hr ha hi rfl hreachable hsub
  exact ⟨a, _, f, taken, rest, hr, ha, hreachable, hsub, rfl, hf, hstack, htaken, hrun⟩

end Subject

end ConstRestore
