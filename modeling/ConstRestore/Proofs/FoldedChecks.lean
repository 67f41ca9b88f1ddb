/-
  A null check that goes is made by the load that comes for it.

  The call of a null check raises an exception on null, and so does the load
  of an instance constant that takes the place of the check and its literal.
  Both go where the handlers around them lead, which are the same, with the
  same local variables.  On any other object the check and the literal leave a
  value in its place, and the load and its conversion leave another one of the
  same kind (`Subject.restore_folds`).
-/
import ConstRestore.Proofs.Emitted
import ConstRestore.Proofs.Positions
import ConstRestore.Proofs.Preservation

namespace ConstRestore

variable {Object : Type} {r : Registry} {heap : Heap Object} {object : Entry Object}
  {locals rest st st' : List (Entry Object)}

/-! ## A null check and its literal -/

namespace Guards

variable {m : Method} {index check pop : Nat}

theorem raises (h : Guards m.code index check pop) :
    m.Raises r heap ⟨check, locals, .null :: rest⟩ nullPointerException
      ⟨check, locals, .null :: rest⟩ := by
  obtain ⟨call, hcall, hcheck⟩ := h.isCheck
  exact Method.raises_of_effect? hcall (Instr.effect?_nullCheck_null hcheck)

/-- The literal takes the place of the object. -/
theorem runs (h : Guards m.code index check pop) {i : Instr} {v : Value}
    (hi : m.code[index]? = some i) (hv : i.literal? = some v) (hkind : object.kind = .reference)
    (hnull : object ≠ .null) :
    ∃ e : Entry Object, e.kind = v.dataType.stackKind ∧
      m.Runs r heap ⟨check, locals, object :: rest⟩ ⟨index + 1, locals, e :: rest⟩ := by
  have hindex := (List.getElem?_eq_some_iff.1 hi).1
  obtain ⟨call, hcall, hcheck⟩ := h.isCheck
  obtain ⟨result, hresult, hcall'⟩ := Instr.effect?_nullCheck hcheck hkind hnull
  obtain ⟨e, he, hliteral⟩ := Instr.effect?_literal hv r heap
  have hcalled : m.Runs r heap ⟨check, locals, object :: rest⟩ ⟨check + 1, locals, result :: rest⟩ :=
    Method.runs_of_effect? hcall hcall'
  have hbefore : m.Runs r heap ⟨check + 1, locals, result :: rest⟩ ⟨pop, locals, result :: rest⟩ :=
    Method.runs_lines h.check_lt
      (fun j hj hlt => h.exists_line hindex hj hlt.ne (hlt.trans h.pop_lt)) ..
  have hpopped : m.Runs r heap ⟨pop, locals, result :: rest⟩ ⟨pop + 1, locals, rest⟩ :=
    Method.runs_of_effect? h.isPop (Instr.effect?_pop hresult)
  have hbehind : m.Runs r heap ⟨pop + 1, locals, rest⟩ ⟨index, locals, rest⟩ :=
    Method.runs_lines h.pop_lt
      (fun j hj hlt => h.exists_line hindex (h.check_lt.trans hj) (Nat.ne_of_gt hj) hlt) ..
  have hpushed : m.Runs r heap ⟨index, locals, rest⟩ ⟨index + 1, locals, e :: rest⟩ :=
    Method.runs_of_effect? hi (hliteral rest)
  exact ⟨e, he, hcalled.trans (hbefore.trans (hpopped.trans (hbehind.trans hpushed)))⟩

/-- There is no label from the check to its literal. -/
theorem label_outside (h : Guards m.code index check pop) (hliteral : IsLiteralAt m.code index)
    {l : Label} {j : Nat} (hj : m.code[j]? = some (.label l)) : j < check ∨ index < j := by
  by_contra hinside
  obtain ⟨hcheck, hindex⟩ := not_or.1 hinside
  have hne : j ≠ check := by
    rintro rfl
    obtain ⟨call, hcall, hisCheck⟩ := h.isCheck
    obtain rfl := Option.some.inj (hj.symm.trans hcall)
    cases hisCheck
  have hpop : j ≠ pop := by
    rintro rfl
    cases hj.symm.trans h.isPop
  have hne' : j ≠ index := by
    rintro rfl
    obtain ⟨i, hi, hliteral⟩ := hliteral
    obtain rfl := Option.some.inj (hj.symm.trans hi)
    cases hliteral
  cases h.lines j _ (by omega) hpop (by omega) hj

end Guards

/-! ## The load in their place -/

theorem DataType.ofDescriptor?_descriptor (t : DataType) : ofDescriptor? t.descriptor = some t := by
  cases t <;> decide

theorem Instr.isPseudo_of_isLine {i : Instr} (h : i.isLine) : i.isPseudo := by
  cases i with
  | line => rfl
  | _ => cases h

namespace Subject

variable {s : Subject} {a : Solution} {w : Rewrite} {check pop : Nat}

/-- The code in place of a null check and its literal loads the constant from the object. -/
theorem getfield_of_substitution {index : Nat} {literal : DataType} {standIn : StandIn}
    {sub : Substitution} (h : s.substitution a index literal standIn = .ok sub)
    (hguarded : sub.nullCheck.isSome) : ∃ site conversion,
      sub.code = .field .getfield site :: conversion ∧
      ∀ {Object : Type} (heap : Heap Object) (object : Entry Object),
        Converts s.registry heap conversion (heap.field object site) literal.stackKind := by
  obtain ⟨-, code, last, hcode, hlast, hsub⟩ := substitution_parts h
  obtain ⟨before, actual, conversion, hbefore, hconversion, rfl⟩ := codeFor_parts hcode
  obtain ⟨f, load, -, hstatic, hload, rfl⟩ :=
    loadOnReceiver_eq_ok ((if_pos hguarded).symm.trans hbefore)
  obtain ⟨c, -, hload⟩ := bind_eq_ok.1 hload
  obtain ⟨rfl, rfl⟩ := Prod.mk.inj (Except.ok.inj hload)
  rw [if_neg hstatic] at hsub
  refine ⟨_, conversion ++ last, by simpa using hsub, fun heap object => ?_⟩
  have hkind := heap.kind_field object ⟨f.owner, f.name.getD "", c.dataType.descriptor⟩ _
    (DataType.ofDescriptor?_descriptor _)
  exact (converts_convertValue hconversion hkind).append fun e he => converts_convert hlast he

/-- What stands for an instruction is executed in its place. -/
theorem runs_instead {i : Instr} {j : Nat} (hi : s.method.code[j]? = some i)
    (h : runStack? r heap (Rewrite.instead (s.rewrites a) j i) st = some st')
    (locals : List (Entry Object)) :
    (s.rewritten a).Runs r heap ⟨s.image a j, locals, st⟩ ⟨s.image a (j + 1), locals, st'⟩ := by
  have hrun := Method.runs_of_runStack? (m := s.rewritten a) (Rewrite.instead_prefix hi) h locals
  rwa [← Rewrite.image_succ hi] at hrun

theorem runs_lines_instead {first last : Nat} (hle : first ≤ last)
    (hlines : ∀ j, first ≤ j → j < last → ∃ i, s.method.code[j]? = some i ∧
      ∀ c ∈ Rewrite.instead (s.rewrites a) j i, c.isLine)
    (locals st : List (Entry Object)) :
    (s.rewritten a).Runs r heap ⟨s.image a first, locals, st⟩ ⟨s.image a last, locals, st⟩ := by
  induction last, hle using Nat.le_induction with
  | base => exact .refl
  | succ last hle ih =>
    obtain ⟨i, hi, hline⟩ := hlines last hle (Nat.lt_succ_self last)
    have hbefore := ih fun j hj hlt => hlines j hj (hlt.trans (Nat.lt_succ_self last))
    exact hbefore.trans (runs_instead hi (runStack?_lines hline st) locals)

/-- Only line numbers stay of a null check that goes and what is behind it. -/
theorem runs_removed (hw : w ∈ s.rewrites a) (hguarded : w.sub.nullCheck = some (check, pop))
    (locals st : List (Entry Object)) :
    (s.rewritten a).Runs r heap ⟨s.image a check, locals, st⟩ ⟨s.image a w.index, locals, st⟩ := by
  have hsound := sound_of_mem_rewrites hw
  have hguards := hsound.guards check pop hguarded
  refine runs_lines_instead (hguards.check_lt.trans hguards.pop_lt).le (fun j hcheck hj => ?_) ..
  obtain ⟨literal, hliteral, -⟩ := hsound.isLiteral
  have hi := List.getElem?_eq_getElem (hj.trans (List.getElem?_eq_some_iff.1 hliteral).1)
  refine ⟨_, hi, ?_⟩
  -- the call and the `pop` leave nothing, a line number stays
  by_cases hremoved : j = check ∨ j = pop
  · rw [instead_removed hw (Rewrite.removes_iff.2 ⟨check, pop, hguarded, hremoved⟩)]
    exact List.forall_mem_nil _
  · obtain ⟨hne, hpop⟩ := not_or.1 hremoved
    have hline := hguards.lines j _ (Nat.lt_of_le_of_ne hcheck (Ne.symm hne)) hpop hj hi
    rw [instead_isPseudo hi (Instr.isPseudo_of_isLine hline)]
    exact List.forall_mem_singleton.2 hline

section Folded

variable {i : Instr} {site : FieldSite} {conversion : List Instr} (hw : w ∈ s.rewrites a)
  (hguarded : w.sub.nullCheck = some (check, pop)) (hi : s.method.code[w.index]? = some i)
  (hcode : w.sub.code = .field .getfield site :: conversion)

include hw hguarded hi hcode

/-- The load raises the exception of the check that goes. -/
theorem raises_folded : (s.rewritten a).Raises r heap ⟨s.image a check, locals, .null :: rest⟩
    nullPointerException ⟨s.image a w.index, locals, .null :: rest⟩ := by
  have hinstead := instead_of_rewriteAt? hi (rewriteAt?_of_mem_rewrites hw hi)
  have hload : (s.rewritten a).code[s.image a w.index]? = some (.field .getfield site) := by
    refine (Rewrite.getElem?_applyAll (k := 0) hi ?_).trans ?_
    · rw [hinstead, hcode]
      exact Nat.succ_pos _
    · rw [hinstead, hcode]
      rfl
  have hraises : (s.rewritten a).Raises r heap ⟨s.image a w.index, locals, .null :: rest⟩
      nullPointerException ⟨s.image a w.index, locals, .null :: rest⟩ :=
    Method.raises_of_effect? hload (Instr.effect?_getfield_null site)
  exact ⟨runs_removed hw hguarded .., hraises.2⟩

/-- The load and its conversion put a value in place of the object. -/
theorem runs_folded (hkind : object.kind = .reference) (hnull : object ≠ .null) {kind : StackKind}
    (hconverts : Converts r heap conversion (heap.field object site) kind) :
    ∃ e : Entry Object, e.kind = kind ∧ (s.rewritten a).Runs r heap
      ⟨s.image a check, locals, object :: rest⟩ ⟨s.image a (w.index + 1), locals, e :: rest⟩ := by
  obtain ⟨e, he, hconversion⟩ := hconverts
  have hload : runStack? r heap (Rewrite.instead (s.rewrites a) w.index i) (object :: rest) =
      some (e :: rest) := by
    rw [instead_of_rewriteAt? hi (rewriteAt?_of_mem_rewrites hw hi), hcode,
      runStack?_cons (Instr.effect?_getfield hkind hnull), hconversion]
  exact ⟨e, he, (runs_removed hw hguarded ..).trans (runs_instead hi hload locals)⟩

end Folded

/-! ## Restorations -/

/-- **A null check that is folded into a load is still made.**  Let a literal of a method that the
    analysis accepts be replaced together with a null check.  The check, the `pop` of its result
    and the literal follow each other with nothing but line numbers in between, so no label is
    there.  The method stays as it is around them: labels move to their images.  Consider an
    execution that is about to check a reference, and the execution of the restored method at the
    image of the check in the same state.  If the reference is null, both raise the same exception
    with the same local variables, and the same handlers are around it.  Otherwise both go on
    behind the literal with the same local variables and, on the same entries below, a value of
    the kind of the literal in place of the reference. -/
theorem restore_folds (ha : solve s.registry s.config.stepLimit s.owner s.method = .ok a)
    {index : Nat} {i : Instr} {value : Value} {root : Source} {facts : Facts}
    {standIn : StandIn} {sub : Substitution} (hi : s.method.code[index]? = some i)
    (hliteral : s.literalAt? a index i = some (value, root, facts))
    (hverdict : s.verdict a index value facts = .replaced standIn sub)
    (hguarded : sub.nullCheck = some (check, pop)) :
    nullCheckBefore? s.method.code index = some (check, pop) ∧ check < pop ∧ pop < index ∧
    (∀ j c, check < j → j < index → j ≠ pop → s.method.code[j]? = some c → c.isLine) ∧
    (∀ l j, s.method.code[j]? = some (.label l) → j < check ∨ index < j) ∧
    ∃ out, s.restore = .ok out ∧
      (∀ l, out.result.labelPositions.get? l = (s.method.labelPositions.get? l).map (s.image a)) ∧
      ∀ (Object : Type) (heap : Heap Object) (object : Entry Object)
        (locals rest : List (Entry Object)), object.kind = .reference →
        (object = .null →
          s.method.Raises s.registry heap ⟨check, locals, object :: rest⟩ nullPointerException
            ⟨check, locals, object :: rest⟩ ∧
          out.result.Raises s.registry heap ⟨s.image a check, locals, object :: rest⟩
            nullPointerException ⟨s.image a index, locals, object :: rest⟩ ∧
          out.result.handlersAt (s.image a index) = s.method.handlersAt check) ∧
        (object ≠ .null → ∃ old new : Entry Object,
          old.kind = value.dataType.stackKind ∧ new.kind = value.dataType.stackKind ∧
          s.method.Runs s.registry heap ⟨check, locals, object :: rest⟩
            ⟨index + 1, locals, old :: rest⟩ ∧
          out.result.Runs s.registry heap ⟨s.image a check, locals, object :: rest⟩
            ⟨s.image a (index + 1), locals, new :: rest⟩) := by
  obtain ⟨-, -, -, hsub⟩ := verdict_eq_replaced hverdict
  have hvalue := (literalAt?_eq_some hliteral).1
  have hbefore := nullCheckBefore?_of_substitution hsub hguarded
  have hguards := guards_of_nullCheckBefore? hbefore
  have hrewrite : s.rewriteAt? a index i = some ⟨index, sub⟩ := by
    rw [rewriteAt?_of_literalAt? hliteral, hverdict]
    rfl
  have hw := (mem_rewrites_of_rewriteAt? hi hrewrite).1
  obtain ⟨site, conversion, hcode, hconverts⟩ :=
    getfield_of_substitution hsub (by rw [hguarded]; rfl)
  have hlabels (l : Label) (j : Nat) : s.method.code[j]? = some (.label l) → j < check ∨ index < j :=
    hguards.label_outside ⟨i, hi, by rw [hvalue]; rfl⟩
  have hle : check ≤ index := (hguards.check_lt.trans hguards.pop_lt).le
  have hlt : s.image a index < s.image a (index + 1) := by
    rw [image, image, Rewrite.image_succ hi, instead_of_rewriteAt? hi hrewrite, hcode]
    exact Nat.lt_add_of_pos_right (Nat.succ_pos _)
  obtain ⟨out, hout, hresult, -⟩ := restore_of_ok ha
  change out.result = s.rewritten a at hresult
  refine ⟨hbefore, hguards.check_lt, hguards.pop_lt,
    fun j c hj hj' hpop => hguards.lines j c hj hpop hj', hlabels, out, hout, ?_, ?_⟩
  · rw [hresult]
    exact labelPositions_rewritten
  intro Object heap object locals rest hkind
  rw [hresult]
  constructor
  · rintro rfl
    exact ⟨hguards.raises, raises_folded hw hguarded hi hcode,
      handlersAt_rewritten hle hlabels (Rewrite.image_mono hle) hlt⟩
  · intro hnull
    obtain ⟨old, hold, hrun⟩ := hguards.runs hi hvalue hkind hnull
    obtain ⟨new, hnew, hrun'⟩ :=
      runs_folded hw hguarded hi hcode hkind hnull (hconverts heap object)
    exact ⟨old, new, hold, hnew, hrun, hrun'⟩

/-- A method that passes the long 7 of a checked object of class `p.K`, in a block with a handler. -/
def filling : Subject where
  registry := innerRegistry
  store := ⟨(∅ : Table GroupKey Group).set (.named "g") ((Group.empty (.named "g") .long false).insertExpr
      innerRegistry .global false (.field ⟨"p/K", some "SEVEN", none, false⟩)).1,
    Bindings.empty.declareParam ⟨"p/Api", "fill", "(J)V"⟩ 0 "g"⟩
  config := {}
  owner := "p/A"
  majorVersion := 52
  method := {
    access := Access.static
    name := "f"
    descriptor := "(Lp/K;)V"
    code := [.label 0, .var (.load .ref) 0,
      .method .invokestatic ⟨"java/lang/Objects", "requireNonNull",
        "(Ljava/lang/Object;)Ljava/lang/Object;", false⟩,
      .simple .pop, .line 3 0, .ldc (.long 7),
      .method .invokestatic ⟨"p/Api", "fill", "(J)V", false⟩, .label 1, .simple (.return_ none),
      .label 2, .simple .pop, .simple (.return_ none)]
    tryBlocks := [⟨0, 1, 2, some nullPointerException⟩]
    maxLocals := 1
    maxStack := 2 }

theorem restore_folds_filling : ∃ a root facts standIn sub out,
    solve filling.registry filling.config.stepLimit filling.owner filling.method = .ok a ∧
    filling.literalAt? a 5 (.ldc (.long 7)) = some (.long 7, root, facts) ∧
    filling.verdict a 5 (.long 7) facts = .replaced standIn sub ∧
    sub = ⟨some (2, 3), [.field .getfield ⟨"p/K", "SEVEN", "B"⟩, .simple (.convert .int .long)]⟩ ∧
    filling.restore = .ok out ∧
    out.result.Raises filling.registry (default : Heap Unit)
      ⟨filling.image a 2, [.null], [.null]⟩ nullPointerException
      ⟨filling.image a 5, [.null], [.null]⟩ ∧
    out.result.handlersAt (filling.image a 5) = filling.method.handlersAt 2 ∧
    ∃ new : Entry Unit, new.kind = .long ∧
      out.result.Runs filling.registry default
        ⟨filling.image a 2, [.object ()], [.object ()]⟩ ⟨filling.image a 6, [.object ()], [new]⟩ := by
  have h : (solve filling.registry filling.config.stepLimit filling.owner filling.method).map
      (fun a => (filling.literalAt? a 5 (.ldc (.long 7))).map fun l =>
        (l.1, filling.verdict a 5 l.1 l.2.2)) =
      .ok (some (.long 7, .replaced ⟨.field ⟨"p/K", some "SEVEN", none, false⟩, .long⟩ ⟨some (2, 3),
        [.field .getfield ⟨"p/K", "SEVEN", "B"⟩, .simple (.convert .int .long)]⟩)) := by cbv
  obtain ⟨a, ha, h⟩ := map_eq_ok.1 h
  obtain ⟨⟨value, root, facts⟩, hliteral, h⟩ := Option.map_eq_some_iff.1 h
  obtain ⟨rfl, hverdict⟩ := Prod.mk.inj h
  obtain ⟨-, -, -, -, -, out, hout, -, hruns⟩ := restore_folds ha rfl hliteral hverdict rfl
  obtain ⟨-, hraises, hhandlers⟩ := (hruns Unit default .null [.null] [] rfl).1 rfl
  have hnull : (Entry.object () : Entry Unit) ≠ .null := by
    intro h
    cases h
  obtain ⟨-, new, -, hnew, -, hrun⟩ :=
    (hruns Unit default (.object ()) [.object ()] [] rfl).2 hnull
  exact ⟨a, root, facts, _, _, out, ha, hliteral, hverdict, rfl, hout, hraises, hhandlers, new, hnew,
    hrun⟩

end Subject

end ConstRestore
