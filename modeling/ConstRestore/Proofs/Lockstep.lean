/-
  Loads in place of literals.

  Where static fields are loaded instead of literals of the same types
  (`Instr.Becomes`), an analysis takes the same steps through the same frames
  (`solve_becomes`).  It learns the same but for one thing: a literal notes its
  type on its own value, a load notes itself (`FactUpdate.Becomes`).  So the
  classes of values stay, and what is known of them changes in nothing else
  (`FactTable.Becomes.same_iff`, `FactTable.Becomes.knows_iff`).
-/
import ConstRestore.Proofs.Descriptors
import ConstRestore.Proofs.Producer
import ConstRestore.Proofs.Partition

namespace ConstRestore

/-! ## Instructions -/

/-- An instruction stays, or it is a literal and the load of a field of its type takes
    its place. -/
inductive Instr.Becomes : Instr → Instr → Prop
  | same (i : Instr) : Becomes i i
  | load {i : Instr} {v : Value} {site : FieldSite} (hi : i.literal? = some v)
    (hsite : site.descriptor = v.dataType.descriptor) : Becomes i (.field .getstatic site)

/-- Code with loads in place of some literals. -/
abbrev CodeBecomes (code code' : List Instr) : Prop := List.Forall₂ Instr.Becomes code code'

namespace Instr

variable {i i' : Instr} {v : Value}

/-- A literal is executed for its value only. -/
structure Inert (i : Instr) : Prop where
  targets : i.targets = []
  touchesLocals : i.touchesLocals = false
  fallsThrough : Flow.fallsThrough i = true

theorem inert_of_literal? (h : i.literal? = some v) : i.Inert := by
  unfold literal? at h
  split at h
  case h_8 => cases h
  all_goals exact ⟨rfl, rfl, rfl⟩

theorem inert_load (site : FieldSite) : (field .getstatic site).Inert := ⟨rfl, rfl, rfl⟩

theorem Becomes.targets (h : i.Becomes i') : i'.targets = i.targets := by
  cases h with
  | same => rfl
  | load hi => rw [(inert_of_literal? hi).targets, (inert_load _).targets]

theorem Becomes.touchesLocals (h : i.Becomes i') : i'.touchesLocals = i.touchesLocals := by
  cases h with
  | same => rfl
  | load hi => rw [(inert_of_literal? hi).touchesLocals, (inert_load _).touchesLocals]

theorem Becomes.fallsThrough (h : i.Becomes i') :
    Flow.fallsThrough i' = Flow.fallsThrough i := by
  cases h with
  | same => rfl
  | load hi => rw [(inert_of_literal? hi).fallsThrough, (inert_load _).fallsThrough]

end Instr

theorem DataType.parse_descriptor (t : DataType) : ∃ d, Descriptor.parse t.descriptor = .ok d ∧
    ValueType.ofDescriptor? d = some (.ofDataType t) :=
  ⟨t.toDescriptor, t.parse_toDescriptor, by cases t <;> rfl⟩

/-- The load of a field pushes a value of its type, which the load is noted on. -/
theorem execute_load {site : FieldSite} {t : DataType} (h : site.descriptor = t.descriptor)
    (ret? : Option DataType) (j : Nat) (f : Frame) :
    (Instr.field .getstatic site).execute ret? j f =
      .ok (f.push (.ofSource (.ofDataType t) (.instruction j)),
        [.record (.instruction j) (.usage j)]) := by
  obtain ⟨d, hd, htype⟩ := t.parse_descriptor
  have hparse : (Descriptor.parse site.descriptor).mapError FlowError.descriptor = .ok d := by
    rw [h, hd]
    rfl
  refine bind_eq_ok.2 ⟨d, hparse, ?_⟩
  simp only [Frame.pushResult, htype]

/-! ## Updates -/

/-- The instruction at an index pushes a literal. -/
def PushesAt (code : List Instr) (k : Nat) (v : Value) : Prop :=
  ∃ i, code[k]? = some i ∧ i.literal? = some v

/-- The load of a field took the place of a literal. -/
structure LoadedAt (code code' : List Instr) (k : Nat) (v : Value) (site : FieldSite) : Prop where
  pushes : PushesAt code k v
  loads : code'[k]? = some (.field .getstatic site)

/-- An update stays, and notes no use at a literal; or the type of a literal is not noted, but the
    use of the load that took its place. -/
inductive FactUpdate.Becomes (code code' : List Instr) : FactUpdate → FactUpdate → Prop
  | same {up : FactUpdate} (h : ∀ y k v, up = .record y (.usage k) → ¬PushesAt code k v) :
    Becomes code code' up up
  | load {k : Nat} {v : Value} {site : FieldSite} (h : LoadedAt code code' k v site) :
    Becomes code code' (.record (.instruction k) (.narrowType v.dataType))
      (.record (.instruction k) (.usage k))

/-- The updates of an analysis with loads in place of literals. -/
abbrev UpdatesBecome (code code' : List Instr) (us us' : List FactUpdate) : Prop :=
  List.Forall₂ (FactUpdate.Becomes code code') us us'

section Updates

variable {code code' : List Instr}

theorem updatesBecome_self {us : List FactUpdate}
    (h : ∀ up ∈ us, ∀ y k v, up = .record y (.usage k) → ¬PushesAt code k v) :
    UpdatesBecome code code' us us :=
  List.forall₂_same.2 fun up hup => .same (h up hup)

theorem updatesBecome_of_unites {us : List FactUpdate} (h : ∀ up ∈ us, ¬up.IsRecord) :
    UpdatesBecome code code' us us := by
  refine updatesBecome_self fun up hup y k v heq => ?_
  subst heq
  exact absurd trivial (h _ hup)

/-- An instruction and what it becomes have the same effect on a frame. -/
theorem Instr.Becomes.execute {i i' : Instr} (h : i.Becomes i') {j : Nat}
    (hi : code[j]? = some i) (hi' : code'[j]? = some i') {ret? : Option DataType}
    {before after : Frame} {us : List FactUpdate}
    (hex : i.execute ret? j before = .ok (after, us)) :
    ∃ us', i'.execute ret? j before = .ok (after, us') ∧ UpdatesBecome code code' us us' := by
  cases h with
  | same =>
    refine ⟨us, hex, updatesBecome_self ?_⟩
    rintro up hup y k v rfl ⟨i', hk, hv⟩
    have hfrom : before.From fun _ => True := ⟨fun _ _ _ _ => trivial, fun _ _ _ _ => trivial⟩
    obtain ⟨-, hus⟩ := (execute_from hfrom ret? fun _ => trivial).of_ok hex
    obtain rfl : k = j := (hus _ hup).fact y _ rfl
    obtain rfl := Option.some.inj (hi.symm.trans hk)
    simp only [Instr.execute, hv, pushLiteral, Except.ok.injEq, Prod.mk.injEq] at hex
    obtain ⟨-, rfl⟩ := hex
    cases List.mem_singleton.1 hup
  | load hv hsite =>
    rename_i v site
    simp only [Instr.execute, hv, pushLiteral, Except.ok.injEq, Prod.mk.injEq] at hex
    obtain ⟨rfl, rfl⟩ := hex
    exact ⟨_, execute_load hsite ret? j before, .cons (.load ⟨⟨i, hi, hv⟩, hi'⟩) .nil⟩

end Updates

/-! ## States -/

/-- The facts of an analysis with loads in place of literals. -/
def FactTable.Becomes (code code' : List Instr) (t t' : FactTable) : Prop :=
  ∃ us us', t = empty.updateAll us ∧ t' = empty.updateAll us' ∧ UpdatesBecome code code' us us'

theorem FactTable.Becomes.updateAll {code code' : List Instr} {t t' : FactTable}
    (h : t.Becomes code code' t') {us us' : List FactUpdate} (hus : UpdatesBecome code code' us us') :
    (t.updateAll us).Becomes code code' (t'.updateAll us') := by
  obtain ⟨us₀, us₀', rfl, rfl, hus₀⟩ := h
  exact ⟨us₀ ++ us, us₀' ++ us', (List.foldl_append ..).symm, (List.foldl_append ..).symm,
    List.rel_append hus₀ hus⟩

namespace State

/-- The state of a run with loads in place of literals. -/
structure Becomes (code code' : List Instr) (s s' : State) : Prop where
  frames : s'.frames = s.frames
  queue : s'.queue = s.queue
  iterations : s'.iterations = s.iterations
  facts : s.facts.Becomes code code' s'.facts

variable {r : Registry} {code code' : List Instr} {s s' t : State} {j : Nat} {f : Frame}

theorem Becomes.frame? (h : s.Becomes code code' s') (j : Nat) : s'.frame? j = s.frame? j := by
  rw [State.frame?, State.frame?, h.frames]

theorem Becomes.learn (h : s.Becomes code code' s') {us us' : List FactUpdate}
    (hus : UpdatesBecome code code' us us') : (s.learn us).Becomes code code' (s'.learn us') :=
  ⟨h.frames, h.queue, h.iterations, h.facts.updateAll hus⟩

theorem Becomes.setFrame (h : s.Becomes code code' s') (j : Nat) (f : Frame) :
    (s.setFrame j f).Becomes code code' (s'.setFrame j f) :=
  ⟨congrArg (·.setIfInBounds j (some f)) h.frames, h.queue, h.iterations, h.facts⟩

theorem Becomes.enqueue (h : s.Becomes code code' s') (j : Nat) :
    (s.enqueue j).Becomes code code' (s'.enqueue j) := by
  unfold State.enqueue
  rw [h.queue]
  split_ifs
  · exact h
  · exact ⟨h.frames, rfl, h.iterations, h.facts⟩

theorem Becomes.flow (h : s.Becomes code code' s') (hflow : s.flow r j f = .ok t) :
    ∃ t', s'.flow r j f = .ok t' ∧ t.Becomes code code' t' := by
  unfold State.flow at hflow ⊢
  rw [h.frame?]
  split at hflow
  · obtain rfl := Except.ok.inj hflow
    exact ⟨_, rfl, (h.setFrame j f).enqueue j⟩
  next old hold =>
    obtain ⟨⟨merged, changed, us⟩, hmerge, hflow⟩ := bind_eq_ok.1 hflow
    have hlearn := (h.setFrame j merged).learn
      (updatesBecome_of_unites (Frame.unite_of_merge hmerge))
    refine ⟨_, bind_eq_ok.2 ⟨_, hmerge, rfl⟩, ?_⟩
    obtain rfl := Except.ok.inj hflow
    cases changed with
    | true => exact hlearn.enqueue j
    | false => exact hlearn

end State

/-- Steps that succeed on related states do so one after the other. -/
theorem foldlM_related {ε α β : Type} {R : β → β → Prop} {step step' : β → α → Except ε β}
    (hstep : ∀ s s' a t, R s s' → step s a = .ok t → ∃ t', step' s' a = .ok t' ∧ R t t')
    {l : List α} {s s' t : β} (h : R s s') (hl : l.foldlM step s = .ok t) :
    ∃ t', l.foldlM step' s' = .ok t' ∧ R t t' := by
  induction l generalizing s s' with
  | nil =>
    obtain rfl := Except.ok.inj hl
    exact ⟨s', rfl, h⟩
  | cons a l ih =>
    rw [List.foldlM_cons] at hl ⊢
    obtain ⟨u, hu, hl⟩ := bind_eq_ok.1 hl
    obtain ⟨u', hu', hR⟩ := hstep s s' a u h hu
    obtain ⟨t', ht', hR⟩ := ih hR hl
    exact ⟨t', bind_eq_ok.2 ⟨u', hu', ht'⟩, hR⟩

theorem State.Becomes.flowAll {r : Registry} {code code' : List Instr} {s s' t : State}
    (h : s.Becomes code code' s') {es : List (Nat × Frame)} (hflow : s.flowAll r es = .ok t) :
    ∃ t', s'.flowAll r es = .ok t' ∧ t.Becomes code code' t' :=
  foldlM_related (fun _ _ _ _ h hflow => h.flow hflow) h hflow

theorem State.Becomes.flowTargets {r : Registry} {p : Flow} {code code' : List Instr}
    {s s' t : State} (h : s.Becomes code code' s') {ls : List Label} {after : Frame}
    (hflow : ls.foldlM (fun (s : State) l => do s.flow r (← p.position l) after) s = .ok t) :
    ∃ t', ls.foldlM (fun (s : State) l => do s.flow r (← p.position l) after) s' = .ok t' ∧
      t.Becomes code code' t' := by
  refine foldlM_related (fun s s' l t h hflow => ?_) h hflow
  obtain ⟨k, hk, hflow⟩ := bind_eq_ok.1 hflow
  obtain ⟨t', ht', h'⟩ := h.flow hflow
  exact ⟨t', bind_eq_ok.2 ⟨k, hk, ht'⟩, h'⟩

theorem forall₂_zipIdx {α β : Type} {R : α → β → Prop} {l : List α} {l' : List β}
    (h : List.Forall₂ R l l') (n : Nat) :
    List.Forall₂ (fun c c' => R c.1 c'.1 ∧ c.2 = c'.2) (l.zipIdx n) (l'.zipIdx n) := by
  induction h generalizing n with
  | nil => exact .nil
  | cons hab _ ih => exact .cons ⟨hab, rfl⟩ (ih (n + 1))

/-! ## Runs -/

namespace Flow

variable {r : Registry} {code code' : List Instr} {p : Flow} {s s' t : State}

/-- The method with loads in place of literals. -/
def withCode (p : Flow) (code : List Instr) : Flow := { p with code := code.toArray }

theorem handlerEdges_withCode {i i' : Instr} (h : i.Becomes i') (j : Nat) (before after : Frame) :
    (p.withCode code').handlerEdges j i' before after = p.handlerEdges j i before after := by
  simp only [handlerEdges, h.touchesLocals, withCode]

variable (hcode : CodeBecomes code code') (hp : p.code = code.toArray)

include hcode hp

theorem size_withCode : (p.withCode code').code.size = p.code.size := by
  simp [withCode, hp, hcode.length_eq]

theorem nextEdges_withCode {i i' : Instr} (h : i.Becomes i') (j : Nat) (after : Frame) :
    (p.withCode code').nextEdges j i' after = p.nextEdges j i after := by
  rw [nextEdges, nextEdges, h.fallsThrough, size_withCode hcode hp]
  rfl

theorem becomes_execute {j : Nat} (h : s.Becomes code code' s') (hex : p.execute r s j = .ok t) :
    ∃ t', (p.withCode code').execute r s' j = .ok t' ∧ t.Becomes code code' t' := by
  unfold execute at hex ⊢
  rw [h.frame?]
  cases hbefore : s.frame? j with
  | none =>
    simp only [hbefore] at hex
    obtain rfl := Except.ok.inj hex
    exact ⟨s', rfl, h⟩
  | some before =>
  cases hi : p.code[j]? with
  | none =>
    simp only [hbefore, hi] at hex
    obtain rfl := Except.ok.inj hex
    have hi' : (p.withCode code').code[j]? = none := by
      rw [Array.getElem?_eq_none_iff, size_withCode hcode hp]
      exact Array.getElem?_eq_none_iff.1 hi
    rw [hi']
    exact ⟨s', rfl, h⟩
  | some i =>
  have hi₀ : code[j]? = some i := by simpa [hp] using hi
  obtain ⟨i', hi₀', hbecomes⟩ := forall₂_getElem? hcode hi₀
  have hi' : (p.withCode code').code[j]? = some i' := by simpa [withCode] using hi₀'
  simp only [hbefore, hi] at hex
  obtain ⟨⟨after, us⟩, hafter, hex⟩ := bind_eq_ok.1 hex
  obtain ⟨s₁, hs₁, hex⟩ := bind_eq_ok.1 hex
  obtain ⟨s₂, hs₂, hex⟩ := bind_eq_ok.1 hex
  obtain ⟨next, hnext, hex⟩ := bind_eq_ok.1 hex
  -- what is learnt, the handlers, the targets and the next instruction, one after the other
  obtain ⟨us', hafter', hus⟩ := hbecomes.execute hi₀ hi₀' hafter
  obtain ⟨s₁', hs₁', h₁⟩ := (h.learn hus).flowAll hs₁
  obtain ⟨s₂', hs₂', h₂⟩ := h₁.flowTargets hs₂
  obtain ⟨t', ht', h₃⟩ := h₂.flowAll hex
  refine ⟨t', ?_, h₃⟩
  rw [hi']
  refine bind_eq_ok.2 ⟨_, hafter', bind_eq_ok.2 ⟨s₁', ?_, bind_eq_ok.2 ⟨s₂', ?_,
    bind_eq_ok.2 ⟨next, ?_, ht'⟩⟩⟩⟩
  · rw [← hs₁', handlerEdges_withCode hbecomes]
  · rw [← hs₂', hbecomes.targets]
    rfl
  · rw [← hnext, nextEdges_withCode hcode hp hbecomes]

theorem becomes_step (h : s.Becomes code code' s') (hstep : p.step r s = .ok t) :
    ∃ t', (p.withCode code').step r s' = .ok t' ∧ t.Becomes code code' t' := by
  unfold step at hstep ⊢
  rw [h.queue]
  cases hqueue : s.queue with
  | nil =>
    simp only [hqueue] at hstep
    obtain rfl := Except.ok.inj hstep
    exact ⟨s', rfl, h⟩
  | cons j queue =>
    simp only [hqueue] at hstep
    refine becomes_execute hcode hp ?_ hstep
    exact ⟨h.frames, rfl, congrArg (· + 1) h.iterations, h.facts⟩

theorem becomes_run {limit fuel : Nat} (h : s.Becomes code code' s')
    (hrun : p.run r limit fuel s = .ok t) :
    ∃ t', (p.withCode code').run r limit fuel s' = .ok t' ∧ t.Becomes code code' t' := by
  induction fuel generalizing s s' with
  | zero =>
    obtain ⟨hqueue, rfl⟩ | ⟨_, _, _, _, -, hfuel, -⟩ := run_eq_ok hrun
    · exact ⟨s', run_of_settled (h.queue.trans hqueue) .., h⟩
    · cases hfuel
  | succ fuel ih =>
    obtain ⟨hqueue, rfl⟩ | ⟨j, queue, fuel', u, hqueue, hfuel, hu, hrun⟩ := run_eq_ok hrun
    · exact ⟨s', run_of_settled (h.queue.trans hqueue) .., h⟩
    · obtain rfl := Nat.succ.inj hfuel
      obtain ⟨u', hu', hstep⟩ := becomes_step hcode hp h hu
      obtain ⟨t', ht', h'⟩ := ih hstep hrun
      refine ⟨t', ?_, h'⟩
      rw [run_succ (by simp [h.queue, hqueue])]
      exact bind_eq_ok.2 ⟨u', hu', ht'⟩

end Flow

/-! ## Analyses -/

section Analyses

variable {m : Method} {code' : List Instr} (hcode : CodeBecomes m.code code')

include hcode

theorem Method.labelPositions_becomes :
    { m with code := code' }.labelPositions = m.labelPositions := by
  refine (List.rel_foldl (P := Eq) ?_ rfl (forall₂_zipIdx hcode 0)).symm
  rintro t _ rfl ⟨i, j⟩ ⟨i', _⟩ ⟨h, rfl⟩
  cases h with
  | same => rfl
  | load hi => cases i <;> first | rfl | cases hi

theorem Method.handlers_becomes : { m with code := code' }.handlers = m.handlers := by
  unfold handlers
  rw [labelPositions_becomes hcode]

theorem Method.flow_becomes {d : MethodDescriptor} {p : Flow} (h : m.flow d = .ok p) :
    { m with code := code' }.flow d = .ok (p.withCode code') := by
  unfold flow at h ⊢
  rw [handlers_becomes hcode, labelPositions_becomes hcode]
  obtain ⟨hs, hhs, h⟩ := bind_eq_ok.1 h
  obtain rfl := Except.ok.inj h
  exact bind_eq_ok.2 ⟨hs, hhs, rfl⟩

variable {r : Registry} {limit : Nat} {owner : String} {a : Solution}

/-- An analysis with loads in place of literals succeeds as well, with the same frames. -/
theorem solve_becomes (h : solve r limit owner m = .ok a) :
    ∃ a', solve r limit owner { m with code := code' } = .ok a' ∧ a'.frames = a.frames ∧
      a.facts.Becomes m.code code' a'.facts := by
  unfold solve at h ⊢
  have hlength := hcode.length_eq
  by_cases hempty : m.code = []
  · obtain rfl : code' = [] := List.eq_nil_of_length_eq_zero (by rw [← hlength, hempty]; rfl)
    rw [if_pos (List.isEmpty_iff.2 hempty)] at h
    obtain rfl := Except.ok.inj h
    exact ⟨_, rfl, rfl, [], [], rfl, rfl, .nil⟩
  · have hne : code' ≠ [] := by
      rintro rfl
      exact hempty (List.eq_nil_of_length_eq_zero hlength)
    rw [if_neg (mt List.isEmpty_iff.1 hempty)] at h
    rw [if_neg (mt List.isEmpty_iff.1 hne)]
    obtain ⟨d, hd, h⟩ := bind_eq_ok.1 h
    obtain ⟨p, hp, h⟩ := bind_eq_ok.1 h
    obtain ⟨⟨entry, us⟩, hentry, h⟩ := bind_eq_ok.1 h
    obtain ⟨s, hrun, h⟩ := bind_eq_ok.1 h
    obtain rfl := Except.ok.inj h
    have hus : UpdatesBecome m.code code' us us := by
      refine updatesBecome_self fun up hup y k v heq => ?_
      obtain ⟨-, hnotes⟩ := (Method.entryFrame_from (P := fun _ => True) (fun _ _ => trivial)
        owner).of_ok hentry
      obtain ⟨n, -, hn⟩ := hnotes up hup
      cases heq.symm.trans hn
    have hstart : (State.start m.code.length entry us).Becomes m.code code'
        (.start code'.length entry us) := by
      refine ⟨by rw [hlength], rfl, rfl, us, us, rfl, rfl, hus⟩
    have hpcode : p.code = m.code.toArray := by
      obtain ⟨hs, -, hp⟩ := bind_eq_ok.1 hp
      obtain rfl := Except.ok.inj hp
      rfl
    obtain ⟨s', hrun', hs'⟩ := Flow.becomes_run hcode hpcode hstart hrun
    exact ⟨_, bind_eq_ok.2 ⟨d, hd, bind_eq_ok.2 ⟨_, Method.flow_becomes hcode hp,
      bind_eq_ok.2 ⟨_, hentry, bind_eq_ok.2 ⟨s', hrun', rfl⟩⟩⟩⟩, hs'.frames, hs'.facts⟩

end Analyses

/-! ## What is learnt -/

section Learnt

variable {code code' : List Instr} {us us' : List FactUpdate} {up up' : FactUpdate}

theorem FactUpdate.Becomes.sources (h : up.Becomes code code' up') : up'.sources = up.sources := by
  cases h <;> rfl

theorem mentioned_becomes (h : UpdatesBecome code code' us us') (x : Source) :
    Mentioned us' x ↔ Mentioned us x := by
  unfold Mentioned
  induction h with
  | nil => rfl
  | cons hup _ ih =>
    simp only [List.exists_mem_cons_iff, hup.sources, ih]

/-- An update is there as before, unless it is about a literal that a load took the place of. -/
theorem mem_becomes (h : UpdatesBecome code code' us us')
    (hup : ∀ k v site, LoadedAt code code' k v site →
      up ≠ .record (.instruction k) (.narrowType v.dataType) ∧
        up ≠ .record (.instruction k) (.usage k)) : up ∈ us' ↔ up ∈ us := by
  induction h with
  | nil => rfl
  | cons hab _ ih =>
    rw [List.mem_cons, List.mem_cons, ih]
    cases hab with
    | same => rfl
    | load hload =>
      obtain ⟨htype, husage⟩ := hup _ _ _ hload
      simp [htype, husage]

theorem classes_becomes (h : UpdatesBecome code code' us us') : classes us' = classes us := by
  have hlinked : Linked us' = Linked us := by
    ext x y
    exact exists_congr fun l => and_congr_left' (mem_becomes h (by simp))
  rw [classes, classes, hlinked]

end Learnt

namespace FactTable

variable {code code' : List Instr} {t t' : FactTable} {x y : Source} {k : Nat} {v : Value}

theorem mentioned_of_knows {us : List FactUpdate} {fact : Fact}
    (h : (empty.updateAll us).Knows x fact) : Mentioned us x :=
  (isSome_root?_iff_mentioned us x).1 (same_self_iff.1 h.same_self)

/-- Values are in one class as before. -/
theorem Becomes.same_iff (h : t.Becomes code code' t') : t'.Same x y ↔ t.Same x y := by
  obtain ⟨us, us', rfl, rfl, hus⟩ := h
  have hmentioned {us : List FactUpdate} (h : (empty.updateAll us).Same x y) : Mentioned us x :=
    (isSome_root?_iff_mentioned us x).1 (same_self_iff.1 (h.trans h.symm))
  have hsame (hx : Mentioned us x) : (empty.updateAll us').Same x y ↔ (empty.updateAll us).Same x y := by
    rw [same_iff_classes hx, same_iff_classes ((mentioned_becomes hus x).2 hx), classes_becomes hus]
  exact ⟨fun h => (hsame ((mentioned_becomes hus x).1 (hmentioned h))).1 h,
    fun h => (hsame (hmentioned h)).2 h⟩

/-- A fact is known as before, unless it is about a literal that a load took the place of. -/
theorem Becomes.knows_iff (h : t.Becomes code code' t') {fact : Fact}
    (hfact : ∀ k v site, LoadedAt code code' k v site →
      fact ≠ .narrowType v.dataType ∧ fact ≠ .usage k) :
    t'.Knows x fact ↔ t.Knows x fact := by
  obtain ⟨us, us', rfl, rfl, hus⟩ := h
  have hknows (hx : Mentioned us x) :
      (empty.updateAll us').Knows x fact ↔ (empty.updateAll us).Knows x fact := by
    rw [knows_iff_recorded hx, knows_iff_recorded ((mentioned_becomes hus x).2 hx),
      classes_becomes hus]
    refine exists_congr fun y => and_congr_right' (mem_becomes hus fun k v site hload => ?_)
    obtain ⟨htype, husage⟩ := hfact k v site hload
    simp [htype, husage]
  exact ⟨fun h => (hknows ((mentioned_becomes hus x).1 (mentioned_of_knows h))).1 h,
    fun h => (hknows (mentioned_of_knows h)).2 h⟩

/-- A load in place of a literal is noted on its own class only. -/
theorem Becomes.same_of_knows (h : t.Becomes code code' t') (hv : PushesAt code k v)
    (hknows : t'.Knows x (.usage k)) : t'.Same x (.instruction k) := by
  obtain ⟨us, us', rfl, rfl, hus⟩ := h
  have hx := mentioned_of_knows hknows
  obtain ⟨y, hxy, hy⟩ := (knows_iff_recorded hx).1 hknows
  obtain ⟨up, -, hup⟩ := exists_of_mem_forall₂ hus.flip hy
  cases hup with
  | same h => exact absurd hv (h y k v rfl)
  | load => exact (same_iff_classes hx).2 hxy

end FactTable

/-- A load that is executed is noted on what it gives. -/
theorem solve_notes_load {r : Registry} {limit : Nat} {owner : String} {m : Method} {a : Solution}
    (h : solve r limit owner m = .ok a) {k : Nat} {site : FieldSite} {t : DataType}
    (hk : m.code[k]? = some (.field .getstatic site)) (hsite : site.descriptor = t.descriptor)
    (hreachable : a.isReachable k) : a.facts.Knows (.instruction k) (.usage k) := by
  have hcode : m.code ≠ [] := by
    intro hcode
    simp [hcode] at hk
  obtain ⟨d, p, entry, us, n, -, hp, -, -, hs⟩ := solve_settled h hcode
  obtain ⟨f, hf⟩ := Option.isSome_iff_exists.1 hreachable
  obtain ⟨i, after, learnt, es, hi, hex, -, hlearnt, -⟩ := hs.executed_of_settled rfl hf
  have hi : i = .field .getstatic site := by
    obtain ⟨hs, -, hp⟩ := bind_eq_ok.1 hp
    obtain rfl := Except.ok.inj hp
    have hi : m.code[k]? = some i := by simpa using hi
    exact Option.some.inj (hi.symm.trans hk)
  subst hi
  rw [execute_load hsite] at hex
  obtain ⟨-, rfl⟩ := Prod.mk.inj (Except.ok.inj hex)
  exact hlearnt _ (List.mem_singleton.2 rfl)

end ConstRestore
