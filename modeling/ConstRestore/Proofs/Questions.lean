/-
  Asking makes no difference.

  Restoration question by question, answered by the lookups of a store, is
  restoration over that store (`answer_restoreClassAsking`).  A choice that was
  made before in a pass is the one for the class of its root
  (`Subject.ChoicesSound`).
-/
import ConstRestore.Restore.Asking
import ConstRestore.Proofs.Plan

namespace ConstRestore

variable {α β : Type} {f : Member → Option MethodBinding}

/-! ## Answers -/

namespace Asking

@[simp] theorem answer_pure (a : α) : (pure a : Asking α).answer f = a := rfl

@[simp] theorem answer_bind (p : Asking α) (k : α → Asking β) :
    (p >>= k).answer f = (k (p.answer f)).answer f := by
  induction p with
  | done a => rfl
  | ask m next ih => exact ih (f m)

theorem bind_done (p : Asking α) : p.bind .done = p := by
  induction p with
  | done a => rfl
  | ask m next ih => exact congrArg (ask m) (funext ih)

theorem bind_assoc {γ : Type} (p : Asking α) (k : α → Asking β) (l : β → Asking γ) :
    (p.bind k).bind l = p.bind fun a => (k a).bind l := by
  induction p with
  | done a => rfl
  | ask m next ih => exact congrArg (ask m) (funext ih)

instance : LawfulMonad Asking :=
  LawfulMonad.mk' Asking bind_done (fun _ _ => rfl) bind_assoc

@[simp] theorem answer_map (p : Asking α) (g : α → β) : (g <$> p).answer f = g (p.answer f) := by
  rw [map_eq_pure_bind, answer_bind, answer_pure]

end Asking

namespace Restoring

@[simp] theorem answer_pure (a : α) : (pure a : Restoring α).run.answer f = .ok a := rfl

@[simp] theorem answer_bind (p : Restoring α) (k : α → Restoring β) :
    (p >>= k).run.answer f = p.run.answer f >>= fun a => (k a).run.answer f := by
  rw [ExceptT.run_bind, Asking.answer_bind]
  cases p.run.answer f <;> rfl

@[simp] theorem answer_lift (p : Asking α) :
    (liftM p : Restoring α).run.answer f = .ok (p.answer f) := by
  rw [ExceptT.run_liftM, Asking.answer_map]

theorem answer_mapM (step : α → Restoring β) (l : List α) :
    (l.mapM step).run.answer f = l.mapM fun a => (step a).run.answer f := by
  induction l with
  | nil => rfl
  | cons a l ih =>
    simp only [List.mapM_cons, answer_bind, answer_pure, ih]
    rfl

end Restoring

/-! ## Choices -/

theorem Bindings.answer_ask (r : Registry) (t : Bindings) (m : Member) :
    (t.ask m).answer (t.lookup r) = t.lookup r m := by
  unfold ask
  split_ifs with h
  · simp [Asking.answer, lookup, h]
  · rfl

theorem Destination.answer_ask (r : Registry) (t : Bindings) (d : Destination) :
    (d.ask t).answer (t.lookup r) = d.group? r t := by
  cases d with
  | param m index => simp [ask, group?, Bindings.paramGroup, Bindings.answer_ask]
  | result m => simp [ask, group?, Bindings.returnGroup, Bindings.answer_ask]
  | field m => rfl

namespace GroupChoice

theorem answer_seekOther (r : Registry) (t : Bindings) (first : String) (ds : List Destination) :
    (seekOther t first ds).answer (t.lookup r) =
      ofCandidates (first :: ds.filterMap (·.group? r t)) := by
  induction ds with
  | nil => rfl
  | cons d ds ih =>
    simp only [seekOther, Asking.answer_bind, Destination.answer_ask]
    cases h : d.group? r t with
    | none => simpa [h] using ih
    | some other =>
      by_cases hother : other = first
      · simpa [h, hother, ofCandidates] using ih
      · simp [h, hother, ofCandidates]

theorem answer_seek (r : Registry) (t : Bindings) (ds : List Destination) :
    (seek t ds).answer (t.lookup r) = ofCandidates (ds.filterMap (·.group? r t)) := by
  induction ds with
  | nil => rfl
  | cons d ds ih =>
    simp only [seek, Asking.answer_bind, Destination.answer_ask]
    cases h : d.group? r t with
    | none => simpa [h] using ih
    | some first => simpa [h] using answer_seekOther r t first ds

end GroupChoice

/-! ## Passes -/

namespace Subject

variable {s : Subject} {a : Solution}

/-- The choices of a pass are those for the classes of values. -/
def ChoicesSound (s : Subject) (a : Solution) (choices : Table Source GroupChoice) : Prop :=
  ∀ root choice, choices.get? root = some choice → choice = s.groupChoice (a.facts.factsAt root)

theorem facts_of_literalAt? {index : Nat} {i : Instr} {value : Value} {root : Source}
    {facts : Facts} (h : s.literalAt? a index i = some (value, root, facts)) :
    facts = a.facts.factsAt root := by
  obtain ⟨-, hroot, hfacts⟩ := literalAt?_eq_some h
  rw [FactTable.facts?, hroot] at hfacts
  exact (Option.some.inj hfacts).symm

theorem answer_choiceAsking {choices : Table Source GroupChoice} (h : s.ChoicesSound a choices)
    (root : Source) : ∃ choices', s.ChoicesSound a choices' ∧
      (s.choiceAsking choices root (a.facts.factsAt root)).answer
        (s.store.bindings.lookup s.registry) =
          (s.groupChoice (a.facts.factsAt root), choices') := by
  unfold choiceAsking
  cases hroot : choices.get? root with
  | some choice => exact ⟨choices, h, by rw [h root choice hroot]; rfl⟩
  | none =>
    refine ⟨choices.set root (s.groupChoice (a.facts.factsAt root)), ?_, ?_⟩
    · intro root' choice' hchoice
      rw [Table.get?_set] at hchoice
      split_ifs at hchoice with heq
      · rw [heq, Option.some.inj hchoice]
      · exact h root' choice' hchoice
    · simp only [Asking.answer_bind, GroupChoice.answer_seek, Asking.answer_pure]
      rfl

/-- A step of a pass that asks is a step of the pass. -/
theorem answer_visitAsking {p : AskingPass} (h : s.ChoicesSound a p.choices) (index : Nat)
    (i : Instr) : ∃ choices, s.ChoicesSound a choices ∧
      (s.visitAsking a p index i).run.answer (s.store.bindings.lookup s.registry) =
        (s.visit a p.pass index i).map (⟨·, choices⟩) := by
  unfold visitAsking visit
  cases hliteral : s.literalAt? a index i with
  | none => exact ⟨p.choices, h, rfl⟩
  | some l =>
    obtain ⟨value, root, facts⟩ := l
    obtain rfl := facts_of_literalAt? hliteral
    obtain ⟨choices, hchoices, hanswer⟩ := answer_choiceAsking h root
    refine ⟨choices, hchoices, ?_⟩
    simp only [Restoring.answer_bind, Restoring.answer_lift, hanswer]
    rfl

theorem answer_foldlM_visitAsking (l : List (Instr × Nat)) :
    ∀ {p : AskingPass}, s.ChoicesSound a p.choices → ∃ choices,
      (l.foldlM (fun p (i, index) => s.visitAsking a p index i) p).run.answer
        (s.store.bindings.lookup s.registry) =
          (l.foldlM (fun p (i, index) => s.visit a p index i) p.pass).map (⟨·, choices⟩) := by
  induction l with
  | nil => exact fun {p} _ => ⟨p.choices, rfl⟩
  | cons c l ih =>
    obtain ⟨i, index⟩ := c
    intro p h
    obtain ⟨choices, hchoices, hvisit⟩ := answer_visitAsking h index i
    simp only [List.foldlM_cons, Restoring.answer_bind, hvisit]
    cases s.visit a p.pass index i with
    | error e => exact ⟨choices, rfl⟩
    | ok p' => exact ih (p := ⟨p', choices⟩) hchoices

theorem answer_planAsking (s : Subject) (a : Solution) :
    (s.planAsking a).run.answer (s.store.bindings.lookup s.registry) = s.plan a := by
  have hstart : s.ChoicesSound a ∅ := by
    intro root choice h
    cases h
  obtain ⟨choices, h⟩ := answer_foldlM_visitAsking s.method.code.zipIdx (p := ⟨.start, ∅⟩) hstart
  have hplan : (s.planAsking a).run.answer (s.store.bindings.lookup s.registry) =
      (s.plan a).map (⟨·, choices⟩ : Pass → AskingPass) >>= fun p => .ok p.pass := by
    unfold planAsking
    rw [Restoring.answer_bind, h]
    rfl
  rw [hplan]
  cases s.plan a <;> rfl

theorem answer_restoreAsking (s : Subject) :
    s.restoreAsking.run.answer (s.store.bindings.lookup s.registry) = s.restore := by
  unfold restoreAsking restore
  by_cases hcode : s.method.hasCode
  · simp only [hcode, if_true]
    cases solve s.registry s.config.stepLimit s.owner s.method with
    | error e => rfl
    | ok a =>
      simp only [Restoring.answer_bind, answer_planAsking]
      rfl
  · simp only [hcode]
    rfl

end Subject

/-- **Restoring a class question by question is restoring it.** -/
theorem answer_restoreClassAsking (r : Registry) (s : Store) (config : Config) (c : ClassFile) :
    (restoreClassAsking r s config c).run.answer (s.bindings.lookup r) =
      restoreClass r s config c := by
  have hmethod (m : Method) : (restoreMethodAsking r s config c m).run.answer
      (s.bindings.lookup r) = restoreMethod r s config c m :=
    Subject.answer_restoreAsking ⟨r, s, config, c.name, c.majorVersion, m⟩
  unfold restoreClassAsking restoreClass
  simp only [Restoring.answer_bind, Restoring.answer_mapM, hmethod]
  rfl

end ConstRestore
