/-
  How sources spread in an analysis.

  What holds of all sources in the frames and of all sources known holds after
  any step if it holds of the instruction executed and of the handlers: a state
  with the property (`State.From`) leads to one with it.  `Flow.execute_yields`
  is the general rule; it asks only what learning and arriving preserve.
-/
import ConstRestore.Proofs.Origin
import ConstRestore.Proofs.Worklist

namespace ConstRestore

variable {P : Source → Prop} {r : Registry}

/-! ## Merges -/

theorem Slot.From.merge {s a : Slot} (hs : s.From P) (ha : a.From P) :
    (s.merge r a).1.From P ∧ ∀ up ∈ (s.merge r a).2.2, ∀ x ∈ up.sources, P x := by
  have hunion : ∀ x ∈ s.sources.union a.sources, P x := fun x hx =>
    (OrderedSet.mem_union.1 hx).elim (hs x) (ha x)
  by_cases hne : s = a
  · rw [hne, merge_self]
    exact ⟨ha, List.forall_mem_nil _⟩
  · rw [merge_of_ne hne]
    refine ⟨hunion, ?_⟩
    split_ifs
    · exact List.forall_mem_nil _
    · exact fun up hup => List.mem_singleton.1 hup ▸ hunion

namespace Frame

theorem mergeSlots_from {ss as : List Slot} (hs : ∀ s ∈ ss, s.From P) (ha : ∀ a ∈ as, a.From P) :
    (∀ s ∈ (mergeSlots r ss as).1, s.From P) ∧
      ∀ up ∈ (mergeSlots r ss as).2.2, ∀ x ∈ up.sources, P x := by
  induction ss generalizing as with
  | nil => cases as <;> exact ⟨nofun, nofun⟩
  | cons s ss ih =>
    cases as with
    | nil => exact ⟨hs, nofun⟩
    | cons a as =>
      have ⟨hs, hss⟩ := List.forall_mem_cons.1 hs
      have ⟨ha, has⟩ := List.forall_mem_cons.1 ha
      obtain ⟨hmerged, hus⟩ := hs.merge (r := r) ha
      obtain ⟨hmergeds, huss⟩ := ih hss has
      exact ⟨List.forall_mem_cons.2 ⟨hmerged, hmergeds⟩, List.forall_mem_append.2 ⟨hus, huss⟩⟩

theorem From.merge {f g : Frame} (hf : f.From P) (hg : g.From P) :
    Yields (fun x => x.1.From P ∧ ∀ up ∈ x.2.2, ∀ x ∈ up.sources, P x) (f.merge r g) := by
  obtain ⟨hlocals, hlocalsUpdates⟩ := mergeSlots_from (r := r) hf.locals hg.locals
  obtain ⟨hstack, hstackUpdates⟩ := mergeSlots_from (r := r) hf.stack hg.stack
  unfold Frame.merge
  split_ifs
  · exact id
  · exact id
  · exact ⟨⟨hlocals, hstack⟩, List.forall_mem_append.2 ⟨hlocalsUpdates, hstackUpdates⟩⟩

end Frame

/-! ## States -/

/-- All sources in the frames and all known ones have a property. -/
structure State.From (P : Source → Prop) (s : State) : Prop where
  frames : ∀ j f, s.frame? j = some f → f.From P
  facts : s.facts.Below fun x y => P x ∧ P y

namespace State

variable {s : State}

theorem From.mono {P' : Source → Prop} (h : s.From P) (hP : ∀ x, P x → P' x) : s.From P' :=
  ⟨fun j f hf => (h.frames j f hf).mono hP,
    fun x y hxy => (h.facts x y hxy).imp (hP x) (hP y)⟩

theorem From.learn (h : s.From P) {us : List FactUpdate} (hus : ∀ up ∈ us, ∀ x ∈ up.sources, P x) :
    (s.learn us).From P where
  frames := h.frames
  facts := by
    refine FactTable.Below.updateAll ?_ ?_ h.facts ?_
    · exact fun x y hxy => hxy.symm
    · exact fun x y z hxy hyz => ⟨hxy.1, hyz.2⟩
    · exact fun up hup x hx y hy => ⟨hus up hup x hx, hus up hup y hy⟩

theorem From.setFrame (h : s.From P) {f : Frame} (hf : f.From P) (j : Nat) :
    (s.setFrame j f).From P where
  frames j' f' hf' := by
    rw [frame?_setFrame] at hf'
    split_ifs at hf' with hj
    · exact Option.some.inj hf' ▸ hf
    · exact h.frames j' f' hf'
  facts := h.facts

theorem From.enqueue (h : s.From P) (j : Nat) : (s.enqueue j).From P where
  frames j' f hf := h.frames j' f (by rwa [frame?_enqueue] at hf)
  facts := by
    rw [facts_enqueue]
    exact h.facts

theorem From.flow (h : s.From P) {f : Frame} (hf : f.From P) (j : Nat) :
    Yields (From P) (s.flow r j f) := by
  unfold State.flow
  split
  · exact (h.setFrame hf j).enqueue j
  · next old hold =>
    refine ((h.frames j old hold).merge hf).bind ?_
    rintro ⟨merged, changed, us⟩ ⟨hmerged, hus⟩
    have hlearnt := (h.setFrame hmerged j).learn hus
    cases changed with
    | true => exact hlearnt.enqueue j
    | false => exact hlearnt

/-- The state in which a run starts has the sources of its entry. -/
theorem from_start {n : Nat} {entry : Frame} {us : List FactUpdate} (hentry : entry.From P)
    (hus : ∀ up ∈ us, ∀ x ∈ up.sources, P x) : (start n entry us).From P := by
  let blank : State := ⟨Array.replicate n none, .empty, [0], 0⟩
  have hblank : blank.From P := by
    refine ⟨fun j f hf => ?_, FactTable.below_empty _⟩
    simp only [blank, frame?, Array.getElem?_replicate] at hf
    split_ifs at hf <;> simp at hf
  exact (hblank.setFrame hentry 0).learn hus

end State

theorem Handler.from_frame {h : Handler} {f : Frame} (hf : f.From P)
    (hentry : P (.instruction h.entry)) : (h.frame f).From P :=
  ⟨hf.locals, List.forall_mem_singleton.2 (Slot.from_ofSource hentry _)⟩

/-! ## Executions -/

section Preserved

variable {I : State → Prop} {p : Flow} {s : State}
  (hflow : ∀ u j f, I u → f.From P → j < p.code.size → Yields I (u.flow r j f))

include hflow in
theorem State.flowAll_yields (hs : I s) {es : List (Nat × Frame)}
    (hes : ∀ e ∈ es, e.2.From P ∧ e.1 < p.code.size) : Yields I (s.flowAll r es) := by
  induction es generalizing s with
  | nil => exact hs
  | cons e es ih =>
    have ⟨he, hes⟩ := List.forall_mem_cons.1 hes
    rw [flowAll, List.foldlM_cons]
    exact (hflow s e.1 e.2 hs he.1 he.2).bind fun u hu => ih hu hes

include hflow in
theorem Flow.targets_yields (hp : p.Bounded) {after : Frame} (hafter : after.From P) (hs : I s)
    (ls : List Label) :
    Yields I (ls.foldlM (fun (s : State) l => do s.flow r (← p.position l) after) s) := by
  induction ls generalizing s with
  | nil => exact hs
  | cons l ls ih =>
    rw [List.foldlM_cons]
    refine Yields.bind (Q := I) ?_ fun u hu => ih hu
    exact (yields_elim _ id).bind fun j hj => hflow s j after hs hafter (hp.labels l j hj)

include hflow in
/-- What learning and arriving preserve, an execution does. -/
theorem Flow.execute_yields (hp : p.Bounded) (hs : I s) {j : Nat}
    (hlearn : ∀ us, (∀ up ∈ us, ∀ x ∈ up.sources, P x) → I (s.learn us))
    (hframe : ∀ f, s.frame? j = some f → f.From P)
    (hj : ∀ i, p.code[j]? = some i → P (.instruction j))
    (hhandlers : ∀ h ∈ p.handlers, P (.instruction h.entry)) : Yields I (p.execute r s j) := by
  unfold Flow.execute
  split
  · next before i hbefore hi =>
    have hbefore := hframe before hbefore
    refine (Instr.execute_from hbefore p.ret? fun _ => hj i hi).bind ?_
    rintro ⟨after, us⟩ ⟨hafter, hus⟩
    refine (State.flowAll_yields hflow (hlearn us fun up hup => (hus up hup).sources) ?_).bind
      fun s₁ hs₁ => ?_
    · intro e he
      obtain ⟨h, hh, rfl | ⟨-, rfl⟩⟩ := mem_handlerEdges.1 he
      · exact ⟨Handler.from_frame hbefore (hhandlers h hh.1), hp.handlers h hh.1⟩
      · exact ⟨Handler.from_frame hafter (hhandlers h hh.1), hp.handlers h hh.1⟩
    refine (targets_yields hflow hp hafter hs₁ i.targets).bind fun s₂ hs₂ => ?_
    unfold nextEdges
    split_ifs with hfalls hsize
    · exact State.flowAll_yields hflow hs₂ (List.forall_mem_singleton.2 ⟨hafter, hsize⟩)
    · exact id
    · exact hs₂
  · exact hs

end Preserved

/-! ## Methods -/

namespace Method

variable {m : Method}

/-- An update notes on a parameter that it is one. -/
def NotesParam (P : Source → Prop) (up : FactUpdate) : Prop :=
  ∃ n, P (.parameter n) ∧ up = .record (.parameter n) (.paramSource n)

theorem NotesParam.sources {up : FactUpdate} (h : NotesParam P up) : ∀ x ∈ up.sources, P x := by
  obtain ⟨n, hn, rfl⟩ := h
  exact List.forall_mem_singleton.2 hn

theorem storeParams_from {params : List (Descriptor × Nat)}
    (hparams : ∀ x ∈ params, P (.parameter x.2)) {f : Frame} (hf : f.From P) (slot : Nat) :
    Yields (fun x => x.1.From P ∧ ∀ up ∈ x.2, NotesParam P up) (storeParams params slot f) := by
  induction params generalizing slot f with
  | nil => exact ⟨hf, nofun⟩
  | cons param params ih =>
    have ⟨hparam, hparams⟩ := List.forall_mem_cons.1 hparams
    refine (hf.setLocal (Slot.from_ofSource hparam _) slot).bind fun f hf => ?_
    refine (ih hparams hf _).bind fun x hx => ⟨hx.1, List.forall_mem_cons.2 ⟨?_, hx.2⟩⟩
    exact ⟨_, hparam, rfl⟩

/-- The sources at the entry are the parameters. -/
theorem entryFrame_from {d : MethodDescriptor} (hparams : ∀ n < d.params.length, P (.parameter n))
    (owner : String) :
    Yields (fun x => x.1.From P ∧ ∀ up ∈ x.2, NotesParam P up) (m.entryFrame owner d) := by
  have hempty (n : Nat) : (Frame.empty n).From P :=
    ⟨fun s hs => List.eq_of_mem_replicate hs ▸ Slot.from_untracked P .top, nofun⟩
  have hparams : ∀ x ∈ d.params.zipIdx, P (.parameter x.2) :=
    fun x hx => hparams x.2 (by simpa using List.snd_lt_of_mem_zipIdx hx)
  have hstore {f : Frame} (hf : f.From P) (slot : Nat) := storeParams_from hparams hf slot
  unfold entryFrame
  dsimp only
  split_ifs
  · exact hstore (hempty _) _
  · exact ((hempty _).setLocal (Slot.from_untracked P _) 0).bind fun f hf => hstore hf _

/-- A method is prepared, or refers to a label that it does not have. -/
theorem flow_yields (m : Method) (d : MethodDescriptor) :
    Yields (fun _ => True) (m.flow d) := by
  refine Yields.bind (Q := fun _ => True) ?_ fun _ _ => trivial
  unfold handlers
  generalize m.tryBlocks = bs
  induction bs with
  | nil => exact trivial
  | cons b bs ih =>
    rw [List.mapM_cons]
    refine Yields.bind (Q := fun _ => True) ?_ fun _ _ => ih.bind fun _ _ => trivial
    refine (yields_elim _ id).bind fun _ _ => ?_
    refine (yields_elim _ id).bind fun _ _ => ?_
    exact (yields_elim _ id).bind fun _ _ => trivial

end Method

end ConstRestore
