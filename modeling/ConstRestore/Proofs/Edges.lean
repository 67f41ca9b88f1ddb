/-
  The edges between the instructions of a method.

  * `Flow.Follows` and `Flow.Catches` are the edges, and `Flow.Reaches` is
    reachability along them;
  * `Flow.execute_eq_ok`: the execution of an instruction sends its frames
    along all of its edges and along no others;
  * `Method.bounded_flow`: labels and handlers lie in the code.
-/
import ConstRestore.Dataflow.Solution
import ConstRestore.Proofs.Result

namespace ConstRestore

/-! ## Edges -/

namespace Flow

/-- Instruction `j'` may be the next one after `j`. -/
def Follows (p : Flow) (j j' : Nat) : Prop :=
  ∃ i, p.code[j]? = some i ∧
    (fallsThrough i ∧ j' = j + 1 ∨ ∃ l ∈ i.targets, p.labels.get? l = some j')

/-- A handler protects instruction `j`. -/
def Catches (p : Flow) (j : Nat) (h : Handler) : Prop := h ∈ p.handlers ∧ h.covers j

/-- Some path from the first instruction leads to `j`. -/
inductive Reaches (p : Flow) : Nat → Prop
  | entry : p.Reaches 0
  | follow {j j' : Nat} (hj : p.Reaches j) (h : p.Follows j j') : p.Reaches j'
  | raise {j : Nat} {h : Handler} (hj : p.Reaches j) (hh : p.Catches j h) : p.Reaches h.entry

/-- Labels and handlers lie in the code. -/
structure Bounded (p : Flow) : Prop where
  labels : ∀ l j, p.labels.get? l = some j → j < p.code.size
  handlers : ∀ h ∈ p.handlers, h.entry < p.code.size

end Flow

/-! ## One step -/

namespace Flow

variable {p : Flow} {r : Registry} {s t : State}

/-- Edges out of an instruction, with the frames that flow along them. -/
structure Edges (p : Flow) (j : Nat) (i : Instr) (before after : Frame)
    (es : List (Nat × Frame)) : Prop where
  follows : ∀ j', p.Follows j j' → (j', after) ∈ es
  catches : ∀ h, p.Catches j h → (h.entry, h.frame before) ∈ es
  /-- A handler may also see the local variables that the instruction changed. -/
  catchesChanged : ∀ h, p.Catches j h → i.touchesLocals → (h.entry, h.frame after) ∈ es
  labels : ∀ l ∈ i.targets, ∃ j', p.labels.get? l = some j'
  next : fallsThrough i → j + 1 < p.code.size
  sound : ∀ e ∈ es, p.Follows j e.1 ∧ e.2 = after ∨
    ∃ h, p.Catches j h ∧ h.entry = e.1 ∧ (e.2 = h.frame before ∨ e.2 = h.frame after)
  inside : p.Bounded → ∀ e ∈ es, e.1 < p.code.size

/-- The frames that flow to the labels of an instruction arrive one after the
    other. -/
theorem foldlM_targets {ls : List Label} {after : Frame}
    (h : ls.foldlM (fun (s : State) l => do s.flow r (← p.position l) after) s = .ok t) :
    ∃ js, List.Forall₂ (fun l j => p.labels.get? l = some j) ls js ∧
      s.flowAll r (js.map (·, after)) = .ok t := by
  induction ls generalizing s with
  | nil => exact ⟨[], .nil, h⟩
  | cons l ls ih =>
    rw [List.foldlM_cons] at h
    obtain ⟨u, hu, h⟩ := bind_eq_ok.1 h
    obtain ⟨j, hj, hu⟩ := bind_eq_ok.1 hu
    obtain ⟨js, hjs, h⟩ := ih h
    refine ⟨j :: js, .cons (elim_eq_ok.1 hj) hjs, ?_⟩
    rw [State.flowAll, List.map_cons, List.foldlM_cons]
    exact bind_eq_ok.2 ⟨u, hu, h⟩

theorem mem_handlerEdges {j : Nat} {i : Instr} {before after : Frame} {e : Nat × Frame} :
    e ∈ p.handlerEdges j i before after ↔ ∃ h, p.Catches j h ∧
      (e = (h.entry, h.frame before) ∨ i.touchesLocals ∧ e = (h.entry, h.frame after)) := by
  simp only [handlerEdges, List.mem_flatMap, List.mem_filter, List.mem_cons, Catches]
  refine exists_congr fun h => and_congr_right fun _ => or_congr_right ?_
  split_ifs with hi <;> simp [hi]

theorem mem_labelEdges {ls : List Label} {js : List Nat}
    (h : List.Forall₂ (fun l j => p.labels.get? l = some j) ls js) {after : Frame}
    {e : Nat × Frame} :
    e ∈ js.map (·, after) ↔ ∃ l ∈ ls, p.labels.get? l = some e.1 ∧ e.2 = after := by
  constructor
  · intro he
    obtain ⟨j, hj, rfl⟩ := List.mem_map.1 he
    obtain ⟨l, hl, hlj⟩ := exists_of_mem_forall₂ h.flip hj
    exact ⟨l, hl, hlj, rfl⟩
  · rintro ⟨l, hl, hlj, rfl⟩
    obtain ⟨j, hj, hlj'⟩ := exists_of_mem_forall₂ h hl
    obtain rfl := Option.some.inj (hlj.symm.trans hlj')
    exact List.mem_map.2 ⟨e.1, hj, rfl⟩

theorem mem_nextEdges {j : Nat} {i : Instr} {after : Frame} {next : List (Nat × Frame)}
    (h : p.nextEdges j i after = .ok next) {e : Nat × Frame} :
    e ∈ next ↔ fallsThrough i ∧ j + 1 < p.code.size ∧ e = (j + 1, after) := by
  unfold nextEdges at h
  split_ifs at h with hi hsize
  · obtain rfl := Except.ok.inj h
    simp [hi, hsize]
  · obtain rfl := Except.ok.inj h
    simp [hi]

theorem lt_of_nextEdges {j : Nat} {i : Instr} {after : Frame} {next : List (Nat × Frame)}
    (h : p.nextEdges j i after = .ok next) (hi : fallsThrough i) : j + 1 < p.code.size := by
  unfold nextEdges at h
  split_ifs at h with hsize
  exact hsize

/-- Handlers, labels and the next instruction together are all edges. -/
theorem edges_append {j : Nat} {i : Instr} {before after : Frame} {js : List Nat}
    {next : List (Nat × Frame)} (hi : p.code[j]? = some i)
    (hjs : List.Forall₂ (fun l j => p.labels.get? l = some j) i.targets js)
    (hnext : p.nextEdges j i after = .ok next) :
    p.Edges j i before after (p.handlerEdges j i before after ++ js.map (·, after) ++ next) := by
  have hmem (e : Nat × Frame) :
      e ∈ p.handlerEdges j i before after ++ js.map (·, after) ++ next ↔
        (∃ h, p.Catches j h ∧
          (e = (h.entry, h.frame before) ∨ i.touchesLocals ∧ e = (h.entry, h.frame after))) ∨
        (∃ l ∈ i.targets, p.labels.get? l = some e.1 ∧ e.2 = after) ∨
        fallsThrough i ∧ j + 1 < p.code.size ∧ e = (j + 1, after) := by
    rw [List.mem_append, List.mem_append, mem_handlerEdges, mem_labelEdges hjs,
      mem_nextEdges hnext, or_assoc]
  constructor
  · rintro j' ⟨i', hi', hj'⟩
    obtain rfl := Option.some.inj (hi.symm.trans hi')
    refine (hmem _).2 (.inr ?_)
    rcases hj' with ⟨hfalls, rfl⟩ | ⟨l, hl, hlj⟩
    · exact .inr ⟨hfalls, lt_of_nextEdges hnext hfalls, rfl⟩
    · exact .inl ⟨l, hl, hlj, rfl⟩
  · intro h hh
    exact (hmem _).2 (.inl ⟨h, hh, .inl rfl⟩)
  · intro h hh htouches
    exact (hmem _).2 (.inl ⟨h, hh, .inr ⟨htouches, rfl⟩⟩)
  · intro l hl
    obtain ⟨j', -, hj'⟩ := exists_of_mem_forall₂ hjs hl
    exact ⟨j', hj'⟩
  · exact lt_of_nextEdges hnext
  · intro e he
    rcases (hmem e).1 he with ⟨h, hh, rfl | ⟨-, rfl⟩⟩ | ⟨l, hl, hlj, hafter⟩ | ⟨hfalls, -, rfl⟩
    · exact .inr ⟨h, hh, rfl, .inl rfl⟩
    · exact .inr ⟨h, hh, rfl, .inr rfl⟩
    · exact .inl ⟨⟨i, hi, .inr ⟨l, hl, hlj⟩⟩, hafter⟩
    · exact .inl ⟨⟨i, hi, .inl ⟨hfalls, rfl⟩⟩, rfl⟩
  · intro hp e he
    rcases (hmem e).1 he with ⟨h, hh, rfl | ⟨-, rfl⟩⟩ | ⟨l, -, hlj, -⟩ | ⟨-, hsize, rfl⟩
    · exact hp.handlers h hh.1
    · exact hp.handlers h hh.1
    · exact hp.labels l e.1 hlj
    · exact hsize

/-- What the execution of an instruction with a frame comes to. -/
theorem execute_eq_ok {j : Nat} {i : Instr} {before : Frame} (h : p.execute r s j = .ok t)
    (hbefore : s.frame? j = some before) (hi : p.code[j]? = some i) :
    ∃ after us es, i.execute p.ret? j before = .ok (after, us) ∧
      p.Edges j i before after es ∧ (s.learn us).flowAll r es = .ok t := by
  unfold execute at h
  simp only [hbefore, hi] at h
  obtain ⟨⟨after, us⟩, hex, h⟩ := bind_eq_ok.1 h
  obtain ⟨s₁, hhandlers, h⟩ := bind_eq_ok.1 h
  obtain ⟨s₂, htargets, h⟩ := bind_eq_ok.1 h
  obtain ⟨next, hnext, h⟩ := bind_eq_ok.1 h
  obtain ⟨js, hjs, htargets⟩ := foldlM_targets htargets
  refine ⟨after, us, _, hex, edges_append hi hjs hnext, ?_⟩
  simp only [State.flowAll, List.foldlM_append]
  exact bind_eq_ok.2 ⟨s₂, bind_eq_ok.2 ⟨s₁, hhandlers, htargets⟩, h⟩

end Flow

/-! ## Positions -/

/-- What the labels of some code have in common holds of all that are collected
    from it. -/
theorem foldl_labels {Q : Label → Nat → Prop} {es : List (Instr × Nat)}
    (hes : ∀ e ∈ es, ∀ l, e.1 = .label l → Q l e.2) {t : Table Label Nat}
    (ht : ∀ l j, t.get? l = some j → Q l j) {l : Label} {j : Nat}
    (h : (es.foldl (fun t (i, index) =>
      match i with
      | .label l => t.set l index
      | _ => t) t).get? l = some j) : Q l j := by
  induction es generalizing t with
  | nil => exact ht l j h
  | cons e es ih =>
    have ⟨he, hes⟩ := List.forall_mem_cons.1 hes
    refine ih hes ?_ h
    intro l' j' hj'
    dsimp only at hj'
    split at hj'
    · next l₀ hlabel =>
      rw [Table.get?_set] at hj'
      split_ifs at hj' with hl
      · obtain rfl := Option.some.inj hj'
        exact he l' (hl ▸ hlabel)
      · exact ht l' j' hj'
    · exact ht l' j' hj'

namespace Method

variable {m : Method}

/-- A label stands where its position says. -/
theorem label_of_labelPositions {l : Label} {j : Nat} (h : m.labelPositions.get? l = some j) :
    m.code[j]? = some (.label l) := by
  refine foldl_labels (Q := fun l j => m.code[j]? = some (.label l)) ?_ ?_ h
  · intro e he l hl
    rw [← hl]
    exact List.mem_zipIdx_iff_getElem?.1 he
  · intro l' j' hj'
    cases hj'

/-- Handlers start at labels. -/
theorem label_of_handlers {hs : List Handler} (h : m.handlers = .ok hs) :
    ∀ h ∈ hs, ∃ l, m.code[h.entry]? = some (.label l) := by
  unfold handlers at h
  generalize m.tryBlocks = bs at h
  induction bs generalizing hs with
  | nil =>
    obtain rfl := Except.ok.inj h
    simp
  | cons b bs ih =>
    rw [List.mapM_cons] at h
    obtain ⟨h₀, hb, h⟩ := bind_eq_ok.1 h
    obtain ⟨hs', hbs, h⟩ := bind_eq_ok.1 h
    obtain rfl := Except.ok.inj h
    refine List.forall_mem_cons.2 ⟨?_, ih hbs⟩
    obtain ⟨start, -, hb⟩ := bind_eq_ok.1 hb
    obtain ⟨stop, -, hb⟩ := bind_eq_ok.1 hb
    obtain ⟨entry, hentry, hb⟩ := bind_eq_ok.1 hb
    obtain rfl := Except.ok.inj hb
    exact ⟨_, label_of_labelPositions (elim_eq_ok.1 hentry)⟩

theorem bounded_flow {d : MethodDescriptor} {p : Flow} (h : m.flow d = .ok p) : p.Bounded := by
  obtain ⟨hs, hhs, h⟩ := bind_eq_ok.1 h
  obtain rfl := Except.ok.inj h
  have hlt {j : Nat} {i : Instr} (h : m.code[j]? = some i) : j < m.code.toArray.size := by
    rw [List.size_toArray]
    exact (List.getElem?_eq_some_iff.1 h).1
  refine ⟨fun l j hj => hlt (label_of_labelPositions hj), fun h hh => ?_⟩
  obtain ⟨l, hl⟩ := label_of_handlers hhs h hh
  exact hlt hl

end Method

end ConstRestore
