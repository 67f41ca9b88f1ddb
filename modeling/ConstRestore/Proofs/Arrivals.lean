/-
  Frames that arrive at instructions.

  `State.Grows` says what one state keeps of an earlier one.  It holds of every
  arrival of frames, after which each of them went into the frame of its
  instruction (`State.arrived_flowAll`).
-/
import ConstRestore.Dataflow.Solution
import ConstRestore.Proofs.Merge

namespace ConstRestore

/-! ## Growing states -/

namespace State

variable {s t u : State} {r : Registry}

/-- A frame went into the one of an instruction. -/
def Received (r : Registry) (s : State) (j : Nat) (f : Frame) : Prop :=
  ∃ g, s.frame? j = some g ∧ f.WentInto r s.facts g

/-- An instruction has a frame that accounts for another one. -/
def Covers (s : State) (j : Nat) (f : Frame) : Prop := ∃ g, s.frame? j = some g ∧ f.Within g

theorem Received.covers {j : Nat} {f : Frame} (h : s.Received r j f) : s.Covers j f :=
  let ⟨g, hg, hfg⟩ := h
  ⟨g, hg, hfg.within⟩

/-- Nothing is lost from one state to a later one, frames change by merges, and
    a frame that is new has been queued. -/
structure Grows (r : Registry) (s t : State) : Prop where
  size : t.frames.size = s.frames.size
  became : ∀ j f, s.frame? j = some f → ∃ g, t.frame? j = some g ∧ f.Became r t.facts g
  settled : ∀ j f, t.frame? j = some f → j ∈ t.queue ∨ s.frame? j = some f
  queue : ∀ j ∈ s.queue, j ∈ t.queue
  facts : ∀ up, s.facts.Has up → t.facts.Has up

theorem Grows.refl (s : State) : s.Grows r s :=
  ⟨rfl, fun _ f h => ⟨f, h, .refl⟩, fun _ _ h => .inr h, fun _ h => h, fun _ h => h⟩

theorem Grows.received (h : s.Grows r t) {j : Nat} {f : Frame} (hf : s.Received r j f) :
    t.Received r j f := by
  obtain ⟨g, hg, hfg⟩ := hf
  obtain ⟨g', hg', hgg'⟩ := h.became j g hg
  exact ⟨g', hg', (hfg.mono h.facts).became hgg'⟩

theorem Grows.trans (h : s.Grows r t) (h' : t.Grows r u) : s.Grows r u where
  size := h'.size.trans h.size
  became j f hf := by
    obtain ⟨g, hg, hfg⟩ := h.became j f hf
    obtain ⟨g', hg', hgg'⟩ := h'.became j g hg
    exact ⟨g', hg', (hfg.mono h'.facts).trans hgg'⟩
  settled j f hf := by
    rcases h'.settled j f hf with hj | hf
    · exact .inl hj
    · exact (h.settled j f hf).imp_left (h'.queue j)
  queue j hj := h'.queue j (h.queue j hj)
  facts up hup := h'.facts up (h.facts up hup)

theorem frame?_setFrame (s : State) (j j' : Nat) (f : Frame) :
    (s.setFrame j f).frame? j' =
      if j' = j ∧ j < s.frames.size then some f else s.frame? j' := by
  simp only [frame?, setFrame, Array.getElem?_setIfInBounds]
  split_ifs <;> simp_all

theorem setFrame_eq_self {j : Nat} {g : Frame} (h : s.frame? j = some g) : s.setFrame j g = s := by
  have hframes : s.frames.setIfInBounds j (some g) = s.frames := by
    refine Array.ext Array.size_setIfInBounds fun j' hj hj' => ?_
    rw [Array.getElem_setIfInBounds hj']
    split_ifs with hjj'
    · subst hjj'
      rw [frame?, Array.getElem?_eq_getElem hj', Option.join_some] at h
      exact h.symm
    · rfl
  rw [setFrame, hframes]

@[simp] theorem frame?_enqueue (s : State) (i j : Nat) :
    (s.enqueue i).frame? j = s.frame? j := by
  unfold enqueue
  split_ifs <;> rfl

theorem mem_queue_enqueue (s : State) (i j : Nat) :
    j ∈ (s.enqueue i).queue ↔ j = i ∨ j ∈ s.queue := by
  unfold enqueue
  split_ifs with h
  · exact ⟨.inr, fun hj => hj.elim (fun e => e ▸ h) id⟩
  · simp [or_comm]

theorem grows_learn (s : State) (us : List FactUpdate) : s.Grows r (s.learn us) :=
  ⟨rfl, fun _ f h => ⟨f, h, .refl⟩, fun _ _ h => .inr h, fun _ h => h,
    fun _ h => h.updateAll us⟩

theorem grows_enqueue (s : State) (i : Nat) : s.Grows r (s.enqueue i) where
  size := by unfold enqueue; split_ifs <;> rfl
  became j f h := ⟨f, by rwa [frame?_enqueue], .refl⟩
  settled j f h := .inr (by rwa [frame?_enqueue] at h)
  queue j h := (mem_queue_enqueue ..).2 (.inr h)
  facts up h := by
    unfold enqueue
    split_ifs <;> exact h

/-- A frame may replace one that became it if the instruction is queued or the
    frame is the old one. -/
theorem grows_setFrame {j : Nat} {g : Frame}
    (hold : ∀ f, s.frame? j = some f → f.Became r s.facts g)
    (hqueue : j ∈ s.queue ∨ s.frame? j = some g) : s.Grows r (s.setFrame j g) where
  size := Array.size_setIfInBounds
  became j' f h := by
    rw [frame?_setFrame]
    split_ifs with hj
    · exact ⟨g, rfl, hold f (hj.1 ▸ h)⟩
    · exact ⟨f, h, .refl⟩
  settled j' f h := by
    rw [frame?_setFrame] at h
    split_ifs at h with hj
    · rw [hj.1, ← h]
      exact hqueue
    · exact .inr h
  queue _ h := h
  facts _ h := h

theorem enqueue_setFrame (s : State) (i j : Nat) (f : Frame) :
    (s.setFrame j f).enqueue i = (s.enqueue i).setFrame j f := by
  unfold enqueue
  split_ifs <;> first | rfl | contradiction

/-! ### Arrivals -/

/-- What a sequence of arrivals does: nothing is lost, every frame that arrived
    went into another one, and no other instruction has come to have a frame. -/
structure Arrived (r : Registry) (s t : State) (edges : List (Nat × Frame)) : Prop where
  grows : s.Grows r t
  received : ∀ e ∈ edges, t.Received r e.1 e.2
  frames : ∀ j, (t.frame? j).isSome → (s.frame? j).isSome ∨ ∃ e ∈ edges, e.1 = j

theorem received_setFrame {j : Nat} (hj : j < s.frames.size) {f g : Frame}
    (hfg : f.WentInto r s.facts g) : (s.setFrame j g).Received r j f :=
  ⟨g, by rw [frame?_setFrame, if_pos ⟨rfl, hj⟩], hfg⟩

theorem isSome_setFrame {j j' : Nat} {g : Frame} (h : ((s.setFrame j g).frame? j').isSome) :
    (s.frame? j').isSome ∨ j = j' := by
  rw [frame?_setFrame] at h
  split_ifs at h with hj
  · exact .inr hj.1.symm
  · exact .inl h

/-- The frame of `j` is replaced in a state that has grown in its queue and
    facts only. -/
theorem Grows.arrived_setFrame (h : s.Grows r u) (hframe : ∀ j, u.frame? j = s.frame? j) {j : Nat}
    (hj : j < s.frames.size) {f g : Frame} (hfg : f.WentInto r u.facts g)
    (hold : ∀ f', s.frame? j = some f' → f'.Became r u.facts g)
    (hqueue : j ∈ u.queue ∨ s.frame? j = some g) : s.Arrived r (u.setFrame j g) [(j, f)] where
  grows := h.trans (grows_setFrame (by simpa only [hframe] using hold)
    (by simpa only [hframe] using hqueue))
  received := by simpa using received_setFrame (by rwa [h.size]) hfg
  frames j' hj' := by simpa [hframe] using isSome_setFrame hj'

@[simp] theorem facts_enqueue (s : State) (i : Nat) : (s.enqueue i).facts = s.facts := by
  unfold enqueue
  split_ifs <;> rfl

/-- One frame arrives. -/
theorem arrived_flow {j : Nat} {f : Frame} (h : s.flow r j f = .ok t) (hj : j < s.frames.size) :
    s.Arrived r t [(j, f)] := by
  have hqueued (u : State) : j ∈ (u.enqueue j).queue := (mem_queue_enqueue ..).2 (.inl rfl)
  unfold flow at h
  split at h
  · next hnone =>
    obtain rfl := Except.ok.inj h
    rw [enqueue_setFrame]
    exact (grows_enqueue s j).arrived_setFrame (frame?_enqueue s j) hj (.refl f)
      (by simp [hnone]) (.inl (hqueued s))
  · next old hold =>
    obtain ⟨⟨merged, changed, us⟩, hmerge, h⟩ := bind_eq_ok.1 h
    have hus : ∀ up ∈ us, (s.facts.updateAll us).Has up := fun up => s.facts.has_updateAll
    have hwent : f.WentInto r (s.facts.updateAll us) merged :=
      ⟨merged, .refl, .inr ⟨old, changed, us, hmerge, hus⟩⟩
    have hbecame : ∀ f', s.frame? j = some f' → f'.Became r (s.facts.updateAll us) merged := by
      rintro f' hf'
      obtain rfl := Option.some.inj (hold.symm.trans hf')
      exact .merge .refl hmerge hus
    cases changed with
    | true =>
      obtain rfl : (((s.setFrame j merged).learn us).enqueue j) = t := Except.ok.inj h
      rw [show (s.setFrame j merged).learn us = (s.learn us).setFrame j merged from rfl,
        enqueue_setFrame]
      exact ((grows_learn s us).trans (grows_enqueue _ j)).arrived_setFrame
        (fun j' => frame?_enqueue _ j j') hj (by rwa [facts_enqueue]) (by rwa [facts_enqueue])
        (.inl (hqueued _))
    | false =>
      obtain rfl : (s.learn us).setFrame j merged = t := Except.ok.inj h
      exact (grows_learn s us).arrived_setFrame (fun _ => rfl) hj hwent hbecame
        (.inr (by rw [hold, (Frame.merge_above hmerge).2.2 rfl]))

theorem Arrived.refl (s : State) : s.Arrived r s [] :=
  ⟨.refl s, fun _ he => absurd he List.not_mem_nil, fun _ hj => .inl hj⟩

theorem Arrived.trans {es es' : List (Nat × Frame)} (h : s.Arrived r t es)
    (h' : t.Arrived r u es') : s.Arrived r u (es ++ es') where
  grows := h.grows.trans h'.grows
  received e he := by
    rcases List.mem_append.1 he with he | he
    · exact h'.grows.received (h.received e he)
    · exact h'.received e he
  frames j hj := by
    rcases h'.frames j hj with hj | ⟨e, he, hej⟩
    · exact (h.frames j hj).imp_right fun ⟨e, he, hej⟩ => ⟨e, List.mem_append_left _ he, hej⟩
    · exact .inr ⟨e, List.mem_append_right _ he, hej⟩

/-- Frames arrive one after the other. -/
theorem arrived_flowAll {es : List (Nat × Frame)} (h : s.flowAll r es = .ok t)
    (hes : ∀ e ∈ es, e.1 < s.frames.size) : s.Arrived r t es := by
  induction es generalizing s with
  | nil =>
    obtain rfl := Except.ok.inj h
    exact .refl s
  | cons e es ih =>
    rw [flowAll, List.foldlM_cons] at h
    obtain ⟨u, hu, h⟩ := bind_eq_ok.1 h
    have ⟨he, hes⟩ := List.forall_mem_cons.1 hes
    have harrived := arrived_flow hu he
    exact harrived.trans (ih h fun e he => by rw [harrived.grows.size]; exact hes e he)

end State

end ConstRestore
