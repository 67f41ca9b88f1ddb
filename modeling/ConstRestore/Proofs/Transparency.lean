/-
  Memory is transparent.

  A memory is sound if it holds only what the backend answers by itself.  A
  caller that works an answer out keeps to the body of the question
  (`Caller.Sound`), through any number of further questions.  So a step keeps
  the memory sound, and it leaves open exactly the outcomes that were open
  before, one step closer (`Steps.ends`, `ends_of_steps`).

  * `Callers.run_transparent`: whatever callers ask, in whatever interleaving,
    each question is answered as by the backend alone, and what is remembered
    of single constants are the ones that were asked for.
-/
import ConstRestore.Registry.Callers
import ConstRestore.Registry.Tables
import ConstRestore.Proofs.Answers

namespace ConstRestore

variable {α : Type} {b : Backend}

theorem Table.mem_keys_iff_isSome_get? {κ β : Type} [BEq κ] [LawfulBEq κ] {t : Table κ β} {k : κ} :
    k ∈ t.keys ↔ (t.get? k).isSome := by
  rw [Option.isSome_iff_exists]
  constructor
  · intro h
    obtain ⟨⟨k, a⟩, hmem, rfl⟩ := List.mem_map.1 h
    exact ⟨a, mem_entries_iff.1 hmem⟩
  · rintro ⟨a, h⟩
    exact mem_keys_of_get? h

/-! ## Memory -/

namespace Memo

variable {m : Memo} {q : Query} {a : q.Answer}

/-- Every remembered answer is the one that the backend gives. -/
def Sound (b : Backend) (m : Memo) : Prop := ∀ q a, m.get? q = some a → b.Answers q a

theorem sound_empty (b : Backend) : empty.Sound b := by
  intro q a h
  cases q <;> cases h

/-- What is remembered was remembered before, or is what was just inserted. -/
theorem get?_insert_cases {q' : Query} {a' : q'.Answer} (h : (m.insert q a).get? q' = some a') :
    m.get? q' = some a' ∨ (⟨q', a'⟩ : Answered) = ⟨q, a⟩ := by
  cases q with
  | constant =>
    cases q' with
    | constant =>
      rcases Table.get?_setIfAbsent_cases h with h | ⟨hk, rfl⟩
      · exact .inl h
      · obtain ⟨rfl, rfl⟩ := Prod.mk.inj hk
        exact .inr rfl
    | _ => exact .inl h
  | constants =>
    cases q' with
    | constants =>
      rcases Table.get?_setIfAbsent_cases h with h | ⟨rfl, rfl⟩
      · exact .inl h
      · exact .inr rfl
    | _ => exact .inl h
  | info =>
    cases q' with
    | info =>
      rcases Table.get?_setIfAbsent_cases h with h | ⟨rfl, rfl⟩
      · exact .inl h
      · exact .inr rfl
    | _ => exact .inl h
  | assignable =>
    cases q' with
    | assignable =>
      rcases Table.get?_setIfAbsent_cases h with h | ⟨hk, rfl⟩
      · exact .inl h
      · obtain ⟨rfl, rfl⟩ := Prod.mk.inj hk
        exact .inr rfl
    | _ => exact .inl h
  | common | search | climb => exact .inl h

theorem Sound.insert (hm : m.Sound b) (ha : b.Answers q a) : (m.insert q a).Sound b := by
  intro q' a' h
  rcases get?_insert_cases h with h | h
  · exact hm q' a' h
  · cases h
    exact ha

/-- After an answer was inserted, the entry is the answer. -/
theorem Sound.getD (hm : m.Sound b) (ha : b.Answers q a) : ((m.insert q a).get? q).getD a = a := by
  cases h : (m.insert q a).get? q with
  | none => rfl
  | some a' => exact (hm.insert ha q a' h).unique ha

theorem isSome_get?_insert_constant (m : Memo) (q : Query) (a : q.Answer) (owner name : String) :
    ((m.insert q a).get? (.constant owner name)).isSome ↔
      (m.get? (.constant owner name)).isSome ∨ q = .constant owner name := by
  cases q with
  | constant owner' name' =>
    rw [Query.constant.injEq, eq_comm (a := owner'), eq_comm (a := name'), ← Prod.mk.injEq]
    exact Table.isSome_get?_setIfAbsent
  | _ => simp [get?, insert]

end Memo

/-! ## Callers -/

namespace Caller

/-- The steps of a caller. -/
inductive Steps (b : Backend) (memo : Memo) :
    {α : Type} → Caller α → Memo → Caller α → List Answered → Prop
  | done {α : Type} (a : α) : Steps b memo (running (.done a)) memo (running (.done a)) []
  | pause {α : Type} (next : Script α) : Steps b memo (running (.pause next)) memo (running next) []
  | hit {α : Type} {q : Query} {a : q.Answer} (next : q.Answer → Script α)
      (h : memo.get? q = some a) :
      Steps b memo (running (.ask q next)) memo (running (next a)) [⟨q, a⟩]
  | miss {α : Type} {q : Query} (next : q.Answer → Script α) (h : memo.get? q = none) :
      Steps b memo (running (.ask q next)) memo (computing q (running (q.body b)) next) []
  | remember {α : Type} {q : Query} (a : q.Answer) {a' : q.Answer} (next : q.Answer → Script α)
      (h : ((memo.insert q a).get? q).getD a = a') :
      Steps b memo (computing q (running (.done a)) next) (memo.insert q a) (running (next a'))
        [⟨q, a'⟩]
  | inner {α : Type} {q : Query} {inner inner' : Caller q.Answer} {memo' : Memo}
      {answered : List Answered} (next : q.Answer → Script α) (h : inner.outcome? = none)
      (hinner : Steps b memo inner memo' inner' answered) :
      Steps b memo (computing q inner next) memo' (computing q inner' next) answered

theorem steps (b : Backend) (memo : Memo) (t : Caller α) :
    Steps b memo t (t.step b memo).1 (t.step b memo).2.1 (t.step b memo).2.2 := by
  induction t with
  | running p =>
    cases p with
    | done a => exact .done a
    | pause next => exact .pause next
    | ask q next =>
      unfold step
      cases h : memo.get? q with
      | none => exact .miss next h
      | some a => exact .hit next h
  | computing q inner next ih =>
    unfold step
    cases h : inner.outcome? with
    | none => exact .inner next h ih
    | some a =>
      cases inner with
      | running p =>
        cases p with
        | done a' =>
          obtain rfl := Option.some.inj h
          exact .remember a' next rfl
        | pause | ask => cases h
      | computing => cases h

/-- A caller ends with an outcome in a number of steps at most, where everything that is still to be
    asked for is worked out. -/
inductive Ends (b : Backend) : {α : Type} → Caller α → α → Nat → Prop
  | running {α : Type} {p : Script α} {out : α} {n : Nat} (h : p.Ends b out n) :
      Ends b (running p) out n
  | computing {α : Type} {q : Query} {inner : Caller q.Answer} {next : q.Answer → Script α}
      {a : q.Answer} {out : α} {m n : Nat} (hinner : Ends b inner a m)
      (hnext : (next a).Ends b out n) : Ends b (computing q inner next) out (m + n + 1)

/-- What is being worked out is an answer to the question. -/
def Sound (b : Backend) {α : Type} : Caller α → Prop
  | running _ => True
  | computing q inner _ => inner.Sound b ∧ ∀ a n, inner.Ends b a n → b.Answers q a

variable {memo memo' : Memo} {t t' : Caller α} {answered : List Answered} {out : α} {n : Nat}

theorem ends_of_outcome?_eq (b : Backend) (h : t.outcome? = some out) : t.Ends b out 0 := by
  cases t with
  | running p =>
    cases p with
    | done a =>
      obtain rfl := Option.some.inj h
      exact .running (.done a 0)
    | pause | ask => cases h
  | computing => cases h

theorem Ends.outcome?_eq (h : t.Ends b out 0) : t.outcome? = some out := by
  cases h with
  | running h =>
    cases h
    rfl

/-- What a step leaves open was open before. -/
theorem ends_of_steps (h : Steps b memo t memo' t' answered) (ht : t.Sound b) (hmemo : memo.Sound b)
    (hout : t'.Ends b out n) : ∃ n, t.Ends b out n := by
  induction h generalizing n with
  | done a => exact ⟨n, hout⟩
  | pause next =>
    cases hout with
    | running hout => exact ⟨_, .running (.pause hout)⟩
  | hit next h =>
    cases hout with
    | running hout =>
      obtain ⟨m, hbody⟩ := hmemo _ _ h
      exact ⟨_, .running (.ask hbody hout)⟩
  | miss next h =>
    cases hout with
    | computing hinner hnext =>
      cases hinner with
      | running hbody => exact ⟨_, .running (.ask hbody hnext)⟩
  | @remember _ q a a' next h =>
    have ha : b.Answers q a := ht.2 a 0 (.running (.done a 0))
    obtain rfl := (hmemo.getD ha).symm.trans h
    cases hout with
    | running hout => exact ⟨_, .computing (.running (.done a 0)) hout⟩
  | inner next h hinner ih =>
    cases hout with
    | computing hout hnext =>
      obtain ⟨m, hout⟩ := ih ht.1 hout
      exact ⟨_, .computing hout hnext⟩

/-- A step keeps to the bodies of the questions. -/
theorem Steps.sound (h : Steps b memo t memo' t' answered) (ht : t.Sound b) (hmemo : memo.Sound b) :
    t'.Sound b := by
  induction h with
  | done | pause | hit | remember => trivial
  | miss next h =>
    refine ⟨trivial, fun a n hinner => ?_⟩
    cases hinner with
    | running hbody => exact ⟨n, hbody⟩
  | inner next h hinner ih =>
    refine ⟨ih ht.1, fun a n hout => ?_⟩
    obtain ⟨m, hout⟩ := ends_of_steps hinner ht.1 hmemo hout
    exact ht.2 a m hout

/-- A step keeps the memory right. -/
theorem Steps.sound_memo (h : Steps b memo t memo' t' answered) (ht : t.Sound b)
    (hmemo : memo.Sound b) : memo'.Sound b := by
  induction h with
  | done | pause | hit | miss => exact hmemo
  | remember a next h => exact hmemo.insert (ht.2 a 0 (.running (.done a 0)))
  | inner next h hinner ih => exact ih ht.1

/-- What a step answers is what the backend answers. -/
theorem Steps.answers (h : Steps b memo t memo' t' answered) (ht : t.Sound b)
    (hmemo : memo.Sound b) : ∀ e ∈ answered, b.Answers e.1 e.2 := by
  induction h with
  | done | pause | miss => simp
  | hit next h => simpa using hmemo _ _ h
  | remember a next h =>
    have ha := ht.2 a 0 (.running (.done a 0))
    rw [hmemo.getD ha] at h
    simpa [← h] using ha
  | inner next h hinner ih => exact ih ht.1

/-- A step brings a caller closer to its outcome. -/
theorem Steps.ends (h : Steps b memo t memo' t' answered) (ht : t.Sound b) (hmemo : memo.Sound b)
    (hout : t.Ends b out n) : t'.Ends b out (n - 1) := by
  induction h generalizing n with
  | done a =>
    cases hout with
    | running hout =>
      cases hout
      exact .running (.done a _)
  | pause next =>
    cases hout with
    | running hout =>
      cases hout with
      | pause hout => exact .running hout
  | hit next h =>
    cases hout with
    | running hout =>
      cases hout with
      | @ask _ _ _ a _ k l hbody hnext =>
        obtain rfl := (hmemo _ _ h).unique ⟨k, hbody⟩
        exact .running (hnext.mono (by omega))
  | miss next h =>
    cases hout with
    | running hout =>
      cases hout with
      | ask hbody hnext => exact .computing (.running hbody) hnext
  | remember a next h =>
    cases hout with
    | @computing _ _ _ _ a' _ k l hinner hnext =>
      cases hinner with
      | running hinner =>
        cases hinner
        rw [hmemo.getD (ht.2 a 0 (.running (.done a 0)))] at h
        exact .running (h ▸ hnext.mono (by omega))
  | inner next h hinner ih =>
    cases hout with
    | @computing _ _ _ _ a _ k l hout hnext =>
      have hk : k ≠ 0 := by
        rintro rfl
        cases h.symm.trans hout.outcome?_eq
      have h := Ends.computing (ih ht.1 hout) hnext
      rwa [show k - 1 + l + 1 = k + l + 1 - 1 by omega] at h

/-- A constant is remembered once it was answered. -/
theorem Steps.isSome_get?_constant (h : Steps b memo t memo' t' answered) (owner name : String) :
    (memo'.get? (.constant owner name)).isSome ↔ (memo.get? (.constant owner name)).isSome ∨
      ∃ a, ⟨.constant owner name, a⟩ ∈ answered := by
  induction h with
  | done | pause | miss => simp
  | hit next h =>
    refine ⟨.inl, fun hanswered => hanswered.elim id ?_⟩
    rintro ⟨a, ha⟩
    cases List.mem_singleton.1 ha
    rw [h]
    rfl
  | @remember _ q a a' next h =>
    rw [Memo.isSome_get?_insert_constant]
    refine or_congr_right ⟨?_, ?_⟩
    · rintro rfl
      exact ⟨a', List.mem_singleton_self _⟩
    · rintro ⟨a, ha⟩
      cases List.mem_singleton.1 ha
      rfl
  | inner next h hinner ih => exact ih

end Caller

/-! ## Interleavings -/

namespace Callers

variable {y : Callers α} {scripts : List (Script α)} {schedule : List Nat}

/-- What holds after a schedule.  Every caller is open to the outcomes of its script only, and comes
    to them in fewer steps the more it had. -/
structure Sound (b : Backend) (scripts : List (Script α)) (schedule : List Nat) (y : Callers α) :
    Prop where
  memo : y.memo.Sound b
  answered : ∀ e ∈ y.answered, b.Answers e.1 e.2
  constants : ∀ owner name, (y.memo.get? (.constant owner name)).isSome ↔
    ∃ a, ⟨.constant owner name, a⟩ ∈ y.answered
  length_eq : y.callers.length = scripts.length
  callers : ∀ (i : Nat) p t, scripts[i]? = some p → y.callers[i]? = some t → t.Sound b ∧
    (∀ out n, t.Ends b out n → ∃ n, p.Ends b out n) ∧
    ∀ out n, p.Ends b out n → t.Ends b out (n - schedule.count i)

theorem sound_start (b : Backend) (scripts : List (Script α)) :
    (start scripts).Sound b scripts [] := by
  refine ⟨Memo.sound_empty b, by simp [start], ?_, List.length_map _, ?_⟩
  · intro owner name
    simp [start, Memo.empty, Memo.get?]
    rfl
  · intro i p t hp ht
    rw [start, List.getElem?_map, hp] at ht
    obtain rfl := Option.some.inj ht
    refine ⟨trivial, fun out n h => ?_, fun out n h => .running h⟩
    cases h with
    | running h => exact ⟨n, h⟩

theorem Sound.step (h : y.Sound b scripts schedule) (i : Nat) :
    (y.step b i).Sound b scripts (schedule ++ [i]) := by
  obtain ⟨hmemo, hanswered, hconstants, hlength, hcallers⟩ := h
  unfold Callers.step
  cases ht : y.callers[i]? with
  | none =>
    refine ⟨hmemo, hanswered, hconstants, hlength, ?_⟩
    intro j p t hp hj
    have hne : i ≠ j := by
      rintro rfl
      cases ht.symm.trans hj
    simpa [List.count_singleton, hne] using hcallers j p t hp hj
  | some t =>
    obtain ⟨hi, -⟩ := List.getElem?_eq_some_iff.1 ht
    obtain ⟨p, hp⟩ : ∃ p, scripts[i]? = some p := ⟨_, List.getElem?_eq_getElem (hlength ▸ hi)⟩
    obtain ⟨hsound, hback, hends⟩ := hcallers i p t hp ht
    have hsteps := t.steps b y.memo
    refine ⟨hsteps.sound_memo hsound hmemo, ?_, ?_, by simpa using hlength, ?_⟩
    · intro e he
      rcases List.mem_append.1 he with he | he
      · exact hanswered e he
      · exact hsteps.answers hsound hmemo e he
    · intro owner name
      simp only [hsteps.isSome_get?_constant, hconstants, List.mem_append, exists_or]
    · intro j q u hq hu
      by_cases hij : i = j
      · subst hij
        obtain rfl := Option.some.inj (hp.symm.trans hq)
        have hu : (t.step b y.memo).2.1 = u := by simpa [hi] using hu
        rw [hu] at hsteps
        refine ⟨hsteps.sound hsound hmemo, fun out n hout => ?_, fun out n hout => ?_⟩
        · obtain ⟨n, hout⟩ := Caller.ends_of_steps hsteps hsound hmemo hout
          exact hback out n hout
        · simpa [Nat.sub_sub] using hsteps.ends hsound hmemo (hends out n hout)
      · have hu : y.callers[j]? = some u := by simpa [hij] using hu
        simpa [List.count_singleton, hij] using hcallers j q u hq hu

theorem sound_run (b : Backend) (scripts : List (Script α)) (schedule : List Nat) :
    ((start scripts).run b schedule).Sound b scripts schedule := by
  induction schedule using List.reverseRecOn with
  | nil => exact sound_start b scripts
  | append_singleton schedule i ih =>
    rw [run, List.foldl_append]
    exact ih.step i

/-- A caller that is done has an outcome of its script. -/
theorem Sound.ends (h : y.Sound b scripts schedule) {i : Nat} {out : α}
    (hout : y.outcome? i = some out) : ∃ p n, scripts[i]? = some p ∧ p.Ends b out n := by
  obtain ⟨t, ht, hout⟩ := Option.bind_eq_some_iff.1 hout
  obtain ⟨hi, -⟩ := List.getElem?_eq_some_iff.1 ht
  obtain ⟨p, hp⟩ : ∃ p, scripts[i]? = some p := ⟨_, List.getElem?_eq_getElem (h.length_eq ▸ hi)⟩
  obtain ⟨n, hends⟩ := (h.callers i p t hp ht).2.1 out 0 (Caller.ends_of_outcome?_eq b hout)
  exact ⟨p, n, hp, hends⟩

/-- A caller is done after enough steps. -/
theorem Sound.outcome?_eq (h : y.Sound b scripts schedule) {i : Nat} {p : Script α} {out : α}
    {n : Nat} (hp : scripts[i]? = some p) (hout : p.Ends b out n) (hn : n ≤ schedule.count i) :
    y.outcome? i = some out := by
  obtain ⟨hi, -⟩ := List.getElem?_eq_some_iff.1 hp
  obtain ⟨t, ht⟩ : ∃ t, y.callers[i]? = some t :=
    ⟨_, List.getElem?_eq_getElem (h.length_eq ▸ hi)⟩
  have hends := (h.callers i p t hp ht).2.2 out n hout
  rw [Nat.sub_eq_zero_of_le hn] at hends
  rw [outcome?, ht, Option.bind_some, hends.outcome?_eq]

theorem mem_resolved_iff {owner name : String} :
    (owner, name) ∈ y.resolved ↔ ∃ a, ⟨.constant owner name, a⟩ ∈ y.answered := by
  unfold resolved
  rw [List.mem_filterMap]
  constructor
  · rintro ⟨⟨q, a⟩, he, hq⟩
    cases q with
    | constant =>
      cases hq
      exact ⟨a, he⟩
    | _ => cases hq
  · rintro ⟨a, ha⟩
    exact ⟨_, ha, rfl⟩

/-- As many single constants are remembered as were asked for. -/
theorem Sound.size_eq (h : y.Sound b scripts schedule) :
    y.memo.constants.size = y.resolved.toFinset.card := by
  have hkeys : y.resolved.toFinset = y.memo.constants.single.keys.toFinset := by
    ext ⟨owner, name⟩
    rw [List.mem_toFinset, List.mem_toFinset, mem_resolved_iff, ← h.constants,
      Table.mem_keys_iff_isSome_get?]
    rfl
  have hnodup : y.memo.constants.single.keys.Nodup := y.memo.constants.single.distinct
  rw [hkeys, List.toFinset_card_of_nodup hnodup]
  exact (List.length_map _).symm

end Callers

namespace Callers

/-- **Memory is transparent.**  Whatever callers ask, and however their steps are interleaved, each
    question is answered as the backend by itself answers it, each caller that is done has the
    outcome that its script has by itself, and it gets there in as many steps as that takes, if it
    is given them.  The constants that are remembered one by one are as many as were asked for.  A
    registry answers by itself what its searches define, and evaluation that asks for its constants
    gives the value of the expression; any other backend answers as registries do that know enough
    of its classes. -/
theorem run_transparent (b : Backend) (scripts : List (Script α)) (schedule : List Nat) :
    (∀ q a, ⟨q, a⟩ ∈ ((start scripts).run b schedule).answered → b.Answers q a) ∧
    (∀ i out, ((start scripts).run b schedule).outcome? i = some out →
      ∃ p n, scripts[i]? = some p ∧ p.Ends b out n) ∧
    (∀ (i : Nat) p out n, scripts[i]? = some p → p.Ends b out n → n ≤ schedule.count i →
      ((start scripts).run b schedule).outcome? i = some out) ∧
    ((start scripts).run b schedule).memo.constants.size =
      ((start scripts).run b schedule).resolved.toFinset.card ∧
    (∀ q a a', b.Answers q a → b.Answers q a' → a = a') ∧
    (∀ (r : Registry) q a, r.Answers q a ↔ a = r.answer q) ∧
    (∀ (r : Registry) e, ∃ n, (Script.evaluate r e).Ends r.toBackend (e.evaluate r) n) ∧
    ∀ (hb : b.Declared) q a, b.Answers q a →
      ∃ l, ∀ l', l ⊆ l' → a = (b.within hb l').answer q := by
  have h := sound_run b scripts schedule
  exact ⟨fun q a => h.answered ⟨q, a⟩, fun i out => h.ends, fun i p out n => h.outcome?_eq,
    h.size_eq, fun q a a' h h' => h.unique h', fun r q a => Registry.answers_iff,
    Script.exists_ends_evaluate, fun hb q a h => h.within hb⟩

/-- Two callers that both find nothing remembered get one entry. -/
example :
    let y := (start [.ask (.constant "p/C" "A") .done, .ask (.constant "p/C" "A") .done]).run
      Registry.empty.toBackend [0, 1, 0, 1, 0, 1]
    y.outcome? 0 = some none ∧ y.outcome? 1 = some none ∧ y.memo.constants.size = 1 := by
  decide

end Callers

end ConstRestore
