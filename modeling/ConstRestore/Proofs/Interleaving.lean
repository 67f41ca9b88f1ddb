/-
  Schedules make no difference.

  What threads share is a memo whose answers are the ones that anybody would work
  out (`Answers.Sound`).  A step keeps that, and it brings a thread closer to the
  outcome that its computation has by itself (`Thread.Leads`).  So after any
  schedule every thread that is done has that outcome, and a schedule that gives
  all threads enough steps gets all of them done (`System.Sound`).

  `restoreScheduled_outcome` says it of classes: each ends as it would be
  restored alone with nothing remembered.
-/
import ConstRestore.Restore.Threads
import ConstRestore.Proofs.Hierarchy
import ConstRestore.Proofs.Questions
import ConstRestore.Proofs.Rewriting

namespace ConstRestore

variable {α : Type} {compute : Member → Option MethodBinding}

/-! ## Remembered answers -/

namespace Answers

/-- Every remembered answer is the one that would be worked out. -/
def Sound (compute : Member → Option MethodBinding) (memo : Answers) : Prop :=
  ∀ m answer, memo.get? m = some answer → answer = compute m

variable {memo : Answers}

theorem sound_empty (compute : Member → Option MethodBinding) : Sound compute ∅ := by
  intro m answer h
  cases h

theorem Sound.set (h : memo.Sound compute) (m : Member) :
    Sound compute (Table.set memo m (compute m)) := by
  intro m' answer hanswer
  rw [Table.get?_set] at hanswer
  split_ifs at hanswer with heq
  · rw [heq, Option.some.inj hanswer]
  · exact h m' answer hanswer

theorem Sound.setIfAbsent (h : memo.Sound compute) (m : Member) :
    Sound compute (Table.setIfAbsent memo m (compute m)) := by
  unfold Table.setIfAbsent
  split_ifs
  · exact h
  · exact h.set m

theorem Sound.getD (h : memo.Sound compute) (m : Member) :
    (memo.get? m).getD (compute m) = compute m := by
  cases hm : memo.get? m with
  | none => rfl
  | some answer => exact h m answer hm

end Answers

namespace Bindings

/-- Every remembered answer, a miss too, is what the declarations say. -/
def Sound (r : Registry) (t : Bindings) : Prop := Answers.Sound (t.declaredFor? r) t.inherited

theorem declaredFor?_eq (r : Registry) (t : Bindings) (m : Member) : t.declaredFor? r m =
    (r.preorder .supertypes m.owner).findSome? fun owner => t.methods.get? { m with owner } :=
  r.seek?_eq ..

theorem declaredFor?_of_isEmpty {t : Bindings} (r : Registry) (h : t.methods.isEmpty) (m : Member) :
    t.declaredFor? r m = none := by
  have hnone (m : Member) : t.methods.get? m = none := by
    rw [Table.get?, List.isEmpty_iff.1 h, List.lookup_nil]
  rw [declaredFor?_eq]
  exact List.findSome?_eq_none_iff.2 fun owner _ => hnone _

theorem Sound.lookup_eq {r : Registry} {t : Bindings} (h : t.Sound r) (m : Member) :
    t.lookup r m = t.declaredFor? r m := by
  unfold lookup
  split_ifs with hempty
  · exact (declaredFor?_of_isEmpty r hempty m).symm
  · exact Answers.Sound.getD h m

theorem sound_forget (r : Registry) (t : Bindings) : t.forget.Sound r := Answers.sound_empty _

theorem Sound.after {r : Registry} {t : Bindings} (h : t.Sound r) (step : BindingStep) :
    (t.after r step).Sound r := by
  cases step with
  | declareField m group => exact h
  | declareParam m index group => exact Answers.sound_empty _
  | declareReturn m group => exact Answers.sound_empty _
  | lookup m =>
    simp only [Bindings.after, remember]
    split_ifs
    · exact h
    · rw [h.lookup_eq]
      exact Answers.Sound.set h m

/-- Bindings over one registry only remember what their declarations say. -/
theorem sound_build (r : Registry) (steps : List BindingStep) : (build r steps).Sound r := by
  suffices h : ∀ t : Bindings, t.Sound r → (steps.foldl (after r) t).Sound r from
    h .empty (Answers.sound_empty _)
  induction steps with
  | nil => exact fun t h => h
  | cons step steps ih => exact fun t h => ih _ (h.after step)

end Bindings

/-! ## Threads -/

namespace Thread

/-- What a thread ends with if it works out all further answers. -/
def alone (compute : Member → Option MethodBinding) : Thread α → α
  | running p => p.answer compute
  | missed m next => (next (compute m)).answer compute
  | found _ answer next => (next answer).answer compute

/-- The steps that a thread takes at most. -/
def remaining (compute : Member → Option MethodBinding) : Thread α → Nat
  | running p => 3 * p.questions compute
  | missed m next => 3 * (next (compute m)).questions compute + 2
  | found _ answer next => 3 * (next answer).questions compute + 1

/-- A thread leads to an outcome in a number of steps.  The answer that it holds, if any,
    is the one that would be worked out. -/
structure Leads (compute : Member → Option MethodBinding) (out : α) (n : Nat) (t : Thread α) :
    Prop where
  alone_eq : t.alone compute = out
  remaining_le : t.remaining compute ≤ n
  answer_eq : ∀ m answer next, t = found m answer next → answer = compute m

variable {t : Thread α} {out : α} {n : Nat} {memo : Answers}

theorem leads_running (compute : Member → Option MethodBinding) (p : Asking α) :
    (running p).Leads compute (p.answer compute) (3 * p.questions compute) := by
  refine ⟨rfl, le_rfl, ?_⟩
  intro m answer next h
  cases h

/-- A step keeps the memo right. -/
theorem sound_step (h : t.Leads compute out n) (hmemo : memo.Sound compute) :
    (t.step compute memo).1.Sound compute := by
  cases t with
  | running p =>
    cases p with
    | done a => exact hmemo
    | ask m next =>
      simp only [step]
      cases memo.get? m <;> exact hmemo
  | missed m next => exact hmemo
  | found m answer next =>
    rw [h.answer_eq m answer next rfl]
    exact hmemo.setIfAbsent m

/-- A step brings a thread closer to its outcome. -/
theorem Leads.step (h : t.Leads compute out n) (hmemo : memo.Sound compute) :
    (t.step compute memo).2.Leads compute out (n - 1) := by
  obtain ⟨halone, hremaining, hanswer⟩ := h
  cases t with
  | running p =>
    cases p with
    | done a => exact ⟨halone, Nat.zero_le _, hanswer⟩
    | ask m next =>
      have hremaining : 3 * ((next (compute m)).questions compute + 1) ≤ n := hremaining
      simp only [Thread.step]
      cases hm : memo.get? m with
      | none =>
        refine ⟨halone, ?_, nofun⟩
        change 3 * (next (compute m)).questions compute + 2 ≤ n - 1
        omega
      | some answer =>
        obtain rfl := hmemo m answer hm
        refine ⟨halone, ?_, nofun⟩
        change 3 * (next (compute m)).questions compute ≤ n - 1
        omega
  | missed m next =>
    have hremaining : 3 * (next (compute m)).questions compute + 2 ≤ n := hremaining
    refine ⟨halone, ?_, ?_⟩
    · change 3 * (next (compute m)).questions compute + 1 ≤ n - 1
      omega
    · intro m' answer next' heq
      cases heq
      rfl
  | found m answer next =>
    obtain rfl := hanswer m answer next rfl
    have hremaining : 3 * (next (compute m)).questions compute + 1 ≤ n := hremaining
    have hentry : ((memo.setIfAbsent m (compute m)).get? m).getD (compute m) = compute m :=
      (hmemo.setIfAbsent m).getD m
    simp only [Thread.step, hentry]
    refine ⟨halone, ?_, nofun⟩
    change 3 * (next (compute m)).questions compute ≤ n - 1
    omega

theorem Leads.outcome_eq {out' : α} (h : t.Leads compute out n) (hout : t.outcome? = some out') :
    out' = out := by
  cases t with
  | running p =>
    cases p with
    | done a => exact (Option.some.inj hout).symm.trans h.alone_eq
    | ask m next => cases hout
  | _ => cases hout

theorem Leads.done (h : t.Leads compute out 0) : t.outcome? = some out := by
  obtain ⟨halone, hremaining, -⟩ := h
  cases t with
  | running p =>
    cases p with
    | done a => exact congrArg some halone
    | ask m next => simp [remaining, Asking.questions] at hremaining
  | missed m next => simp [remaining] at hremaining
  | found m answer next => simp [remaining] at hremaining

end Thread

/-! ## Systems -/

namespace System

variable {y : System α} {programs : List (Asking α)} {schedule : List Nat}

/-- After a schedule the memo is right, and every thread leads to the outcome of its computation,
    in fewer steps the more it had. -/
structure Sound (compute : Member → Option MethodBinding) (programs : List (Asking α))
    (schedule : List Nat) (y : System α) : Prop where
  memo : y.memo.Sound compute
  length_eq : y.threads.length = programs.length
  leads : ∀ i p (t : Thread α), programs[i]? = some p → y.threads[i]? = some t →
    t.Leads compute (p.answer compute) (3 * p.questions compute - schedule.count i)

theorem sound_start {memo : Answers} (h : memo.Sound compute) (programs : List (Asking α)) :
    (start memo programs).Sound compute programs [] := by
  refine ⟨h, List.length_map _, ?_⟩
  intro i p t hp ht
  rw [start, List.getElem?_map, hp] at ht
  obtain rfl := Option.some.inj ht
  exact Thread.leads_running compute p

theorem Sound.step (h : y.Sound compute programs schedule) (i : Nat) :
    (y.step compute i).Sound compute programs (schedule ++ [i]) := by
  obtain ⟨hmemo, hlength, hleads⟩ := h
  unfold System.step
  cases ht : y.threads[i]? with
  | none =>
    refine ⟨hmemo, hlength, ?_⟩
    intro j p t hp hj
    have hne : i ≠ j := by
      rintro rfl
      cases ht.symm.trans hj
    simpa [List.count_singleton, hne] using hleads j p t hp hj
  | some t =>
    obtain ⟨hi, -⟩ := List.getElem?_eq_some_iff.1 ht
    obtain ⟨p, hp⟩ : ∃ p, programs[i]? = some p :=
      ⟨_, List.getElem?_eq_getElem (hlength ▸ hi)⟩
    refine ⟨Thread.sound_step (hleads i p t hp ht) hmemo, by simpa using hlength, ?_⟩
    intro j q u hq hu
    by_cases hij : i = j
    · subst hij
      obtain rfl := Option.some.inj (hp.symm.trans hq)
      have hu : (t.step compute y.memo).2 = u := by simpa [hi] using hu
      have hstep := (hleads i p t hp ht).step hmemo
      rw [hu] at hstep
      simpa [Nat.sub_sub] using hstep
    · have hu : y.threads[j]? = some u := by simpa [hij] using hu
      simpa [List.count_singleton, hij] using hleads j q u hq hu

theorem sound_run {memo : Answers} (h : memo.Sound compute) (programs : List (Asking α))
    (schedule : List Nat) :
    ((start memo programs).run compute schedule).Sound compute programs schedule := by
  induction schedule using List.reverseRecOn with
  | nil => exact sound_start h programs
  | append_singleton schedule i ih =>
    rw [run, List.foldl_append]
    exact ih.step i

/-- A thread that is done has the outcome of its computation. -/
theorem Sound.outcome_eq (h : y.Sound compute programs schedule) {i : Nat} {out : α}
    (hout : y.outcome? i = some out) : (programs[i]?).map (·.answer compute) = some out := by
  obtain ⟨t, ht, hout⟩ := Option.bind_eq_some_iff.1 hout
  obtain ⟨hi, -⟩ := List.getElem?_eq_some_iff.1 ht
  obtain ⟨p, hp⟩ : ∃ p, programs[i]? = some p :=
    ⟨_, List.getElem?_eq_getElem (h.length_eq ▸ hi)⟩
  rw [hp, (h.leads i p t hp ht).outcome_eq hout]
  rfl

/-- A thread is done after enough steps. -/
theorem Sound.done (h : y.Sound compute programs schedule) {i : Nat} {p : Asking α}
    (hp : programs[i]? = some p) (hcount : 3 * p.questions compute ≤ schedule.count i) :
    y.outcome? i = some (p.answer compute) := by
  obtain ⟨hi, -⟩ := List.getElem?_eq_some_iff.1 hp
  obtain ⟨t, ht⟩ : ∃ t, y.threads[i]? = some t :=
    ⟨_, List.getElem?_eq_getElem (h.length_eq ▸ hi)⟩
  have hleads := h.leads i p t hp ht
  rw [Nat.sub_eq_zero_of_le hcount] at hleads
  rw [outcome?, ht, Option.bind_some, hleads.done]

end System

/-! ## Statistics -/

namespace Stats

/-- Statistics added up component by component. -/
def total (l : List Stats) : Stats :=
  ⟨(l.map (·.replaced)).sum, (l.map (·.conflicts)).sum, (l.map (·.skipped)).sum,
    (l.map (·.failedMethods)).sum⟩

theorem total_append (l l' : List Stats) : total (l ++ l') = total l + total l' := by
  simp only [total, List.map_append, List.sum_append]
  rfl

/-- However statistics are added up, each component becomes the sum. -/
theorem Reduces.eq_total {l : List Stats} {s : Stats} (h : Reduces l s) : s = total l := by
  induction h with
  | none => rfl
  | single s => simp [total]
  | pair _ _ ih ih' => rw [total_append, ← ih, ← ih']

theorem reduces_foldl (l : List Stats) : Reduces l (l.foldl (· + ·) .zero) := by
  induction l using List.reverseRecOn with
  | nil => exact .none
  | append_singleton l s ih =>
    rw [List.foldl_append]
    exact ih.pair (.single s)

end Stats

/-! ## Classes -/

theorem exists_restoreMethod (r : Registry) (s : Store) (config : Config) (c : ClassFile)
    (m : Method) : ∃ out, restoreMethod r s config c m = .ok out := by
  generalize hs : Subject.mk r s config c.name c.majorVersion m = subject
  have hrestore : restoreMethod r s config c m = subject.restore := by rw [← hs]; rfl
  rw [hrestore]
  cases h : solve subject.registry subject.config.stepLimit subject.owner subject.method with
  | error e =>
    obtain ⟨out, hout, -⟩ := Subject.restore_of_error h
    exact ⟨out, hout⟩
  | ok a =>
    obtain ⟨out, hout, -⟩ := Subject.restore_of_ok h
    exact ⟨out, hout⟩

theorem forall₂_map {β γ : Type} {R : β → γ → Prop} {f : β → γ} (h : ∀ b, R b (f b))
    (l : List β) : List.Forall₂ R l (l.map f) := by
  rw [List.forall₂_map_right_iff, List.forall₂_same]
  exact fun b _ => h b

/-- What restoring a class by itself comes to: all of its methods as they would be restored by
    themselves, everything else as it was. -/
structure RestoredAlone (r : Registry) (s : Store) (config : Config) (c : ClassFile)
    (out : Restored ClassFile) : Prop where
  restore : restoreClass r s config c = .ok out
  methods : ∃ outs, List.Forall₂ (fun m o => restoreMethod r s config c m = .ok o) c.methods outs ∧
    out.result = { c with methods := outs.map (·.result) } ∧
    out.stats = Stats.total (outs.map (·.stats))

theorem exists_restoredAlone (r : Registry) (s : Store) (config : Config) (c : ClassFile) :
    ∃ out, RestoredAlone r s config c out := by
  choose alone halone using exists_restoreMethod r s config c
  have hall := forall₂_map (R := fun m o => restoreMethod r s config c m = .ok o) halone c.methods
  let methods := Restored.collect (c.methods.map alone)
  have hclass : restoreClass r s config c =
      .ok ⟨{ c with methods := methods.result }, methods.stats, methods.log⟩ := by
    unfold restoreClass
    rw [mapM_eq_ok.2 hall]
    rfl
  exact ⟨_, hclass, _, hall, rfl, (Stats.reduces_foldl _).eq_total⟩

/-- **Schedules make no difference.** For every store that remembers nothing wrong and all classes
    there are outcomes, those of restoring each class alone over the store without its memory.
    After any schedule a class that is done has its outcome, and a schedule that gives every
    class enough steps gets all of them done.  The memory stays right for whoever uses
    the store next.  However the statistics are added up, each counter becomes the sum over the
    classes. -/
theorem restoreScheduled_outcome {r : Registry} {s : Store} (h : s.bindings.Sound r)
    (config : Config) (cs : List ClassFile) : ∃ outs : List (Restored ClassFile),
      List.Forall₂ (RestoredAlone r s.forget config) cs outs ∧
      (∀ schedule i out, (restoreScheduled r s config cs schedule).outcome? i = some out →
        outs[i]?.map .ok = some out) ∧
      (∃ turns, ∀ schedule, (∀ i < cs.length, turns ≤ schedule.count i) → ∀ i < cs.length,
        (restoreScheduled r s config cs schedule).outcome? i = outs[i]?.map .ok) ∧
      (∀ schedule, Answers.Sound (s.bindings.declaredFor? r)
        (restoreScheduled r s config cs schedule).memo) ∧
      restoreClasses r s.forget config cs = .ok (Restored.collect outs) ∧
      ∀ stats, Stats.Reduces (outs.map (·.stats)) stats →
        stats = Stats.total (outs.map (·.stats)) := by
  have hanswer (c : ClassFile) : (restoreClassAsking r s.forget config c).run.answer
      (s.bindings.declaredFor? r) = restoreClass r s.forget config c := by
    have hlookup : s.forget.bindings.lookup r = s.bindings.declaredFor? r :=
      funext (Bindings.sound_forget r s.bindings).lookup_eq
    rw [← hlookup, answer_restoreClassAsking]
  choose alone halone using exists_restoredAlone r s.forget config
  have hsound (schedule : List Nat) := System.sound_run h
    (cs.map fun c => (restoreClassAsking r s.forget config c).run) schedule
  have hprogram {i : Nat} {p : Asking (Except EditedTwice (Restored ClassFile))}
      (hp : (cs.map fun c => (restoreClassAsking r s.forget config c).run)[i]? = some p) :
      (cs.map alone)[i]?.map .ok = some (p.answer (s.bindings.declaredFor? r)) := by
    rw [List.getElem?_map] at hp ⊢
    obtain ⟨c, hc, rfl⟩ := Option.map_eq_some_iff.1 hp
    rw [hc, hanswer, (halone c).restore]
    rfl
  refine ⟨cs.map alone, forall₂_map halone cs, ?_, ?_, fun schedule => (hsound schedule).memo, ?_,
    fun stats hstats => hstats.eq_total⟩
  · intro schedule i out hout
    obtain ⟨p, hp, rfl⟩ := Option.map_eq_some_iff.1 ((hsound schedule).outcome_eq hout)
    exact hprogram hp
  · refine ⟨(cs.map fun c => 3 * (restoreClassAsking r s.forget config c).run.questions
      (s.bindings.declaredFor? r)).sum, ?_⟩
    intro schedule hturns i hi
    have hp : (cs.map fun c => (restoreClassAsking r s.forget config c).run)[i]? =
        some (restoreClassAsking r s.forget config cs[i]).run := by
      rw [List.getElem?_map, List.getElem?_eq_getElem hi]
      rfl
    rw [hprogram hp]
    refine (hsound schedule).done hp ((List.le_sum_of_mem ?_).trans (hturns i hi))
    exact List.mem_map.2 ⟨cs[i], List.getElem_mem hi, rfl⟩
  · have hall := (forall₂_map halone cs).imp fun _ _ hout => hout.restore
    unfold restoreClasses
    rw [mapM_eq_ok.2 hall]
    rfl

/-- A registry in which `p/Sub` extends `p/Base`. -/
def subOfBase : Registry := ClassRegistry.empty.addInfo ⟨"p/Sub", some "p/Base", [], false, none⟩

/-- An empty group for a parameter of a method of `p/Base`; another method was asked for in vain. -/
def modeStore : Store where
  groups := (Store.empty.build subOfBase [.declare "mode" .int false]).groups
  bindings := .build subOfBase [.declareParam ⟨"p/Base", "set", "(I)V"⟩ 0 "mode",
    .lookup ⟨"p/Sub", "get", "()I"⟩]

/-- A class that passes 2 to the method of `p/Sub`. -/
def setterClass (name : String) : ClassFile where
  majorVersion := 52
  access := 0
  name
  superclass := some objectClass
  interfaces := []
  fields := []
  methods := [{
    access := Access.static, name := "f", descriptor := "()V", tryBlocks := [], maxLocals := 0,
    maxStack := 1,
    code := [.push (.int 2), .method .invokestatic ⟨"p/Sub", "set", "(I)V", false⟩,
      .simple (.return_ none)] }]

/-- Two classes read the memo before either has an answer. -/
theorem restoreScheduled_outcome_race : modeStore.bindings.Sound subOfBase ∧
    (restoreScheduled subOfBase modeStore {} [setterClass "p/A", setterClass "p/B"] [0, 1]).memo.get?
      ⟨"p/Sub", "set", "(I)V"⟩ = none ∧
    ∃ outs, List.Forall₂ (RestoredAlone subOfBase modeStore.forget {})
        [setterClass "p/A", setterClass "p/B"] outs ∧
      (restoreScheduled subOfBase modeStore {} [setterClass "p/A", setterClass "p/B"]
        [0, 1, 0, 1, 0, 1]).outcome? 1 = outs[1]?.map .ok ∧
      outs[1]?.map (·.stats.skipped) = some 1 := by
  have hsound : modeStore.bindings.Sound subOfBase := by
    simp only [modeStore]
    exact Bindings.sound_build subOfBase _
  obtain ⟨outs, halone, hdone, -⟩ :=
    restoreScheduled_outcome hsound {} [setterClass "p/A", setterClass "p/B"]
  have hrun : ((restoreScheduled subOfBase modeStore {} [setterClass "p/A", setterClass "p/B"]
      [0, 1, 0, 1, 0, 1]).outcome? 1).map (·.toOption.map (·.stats.skipped)) = some (some 1) := by
    cbv
  obtain ⟨out, hout, hskipped⟩ := Option.map_eq_some_iff.1 hrun
  have heq := hdone _ 1 out hout
  refine ⟨hsound, by cbv, outs, halone, hout.trans heq.symm, ?_⟩
  obtain ⟨o, ho, rfl⟩ := Option.map_eq_some_iff.1 heq
  rw [ho]
  exact hskipped

end ConstRestore
