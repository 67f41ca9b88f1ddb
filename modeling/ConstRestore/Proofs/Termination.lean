/-
  Every analysis ends.

  No bound is built into the executions but the one on their number.  What ends
  them is a potential, a sum over all slots: a slot that changes has more sources
  than before, of finitely many, or a type of lower rank, or it is no longer
  null (`Slot.potential_merge`).  An execution takes an instruction from the
  queue, and queues another one only when the potential falls
  (`State.measure_flow`).

  So there is a number of executions that is enough (`Flow.run_terminates`),
  and whatever number is enough, the result is the same.
-/
import ConstRestore.Proofs.Fixpoint
import ConstRestore.Proofs.Spread

namespace ConstRestore

variable {r : Registry} {U : Finset Source}

/-! ## Potentials -/

/-- Instructions without a frame, then null slots, then how far slots can climb. -/
abbrev Potential := ℕ ×ₗ ℕ ×ₗ ℕ

/-- How often a slot can change if there are `n` sources. -/
def Slot.potential (r : Registry) (n : Nat) (s : Slot) : Potential :=
  toLex (0, toLex (if s.type = .null then 1 else 0, s.type.rank r + (n - s.sources.size)))

theorem OrderedSet.size_le_of_subset {s t : OrderedSet Source} (h : ∀ x ∈ s, x ∈ t) :
    s.size ≤ t.size :=
  (s.nodup_toList.subperm h).length_le

theorem Slot.From.size_le {s : Slot} (h : s.From (· ∈ U)) : s.sources.size ≤ U.card := by
  have hcard := Finset.card_le_card (s := s.sources.toList.toFinset) (t := U) fun x hx =>
    h x (List.mem_toFinset.1 hx)
  rwa [List.toFinset_card_of_nodup s.sources.nodup_toList] at hcard

/-- A slot that a merge changes has a lower potential then. -/
theorem Slot.potential_merge_lt (hr : r.NoArrays) {s a : Slot} (hs : s.From (· ∈ U))
    (ha : a.From (· ∈ U)) (hchanged : (s.merge r a).2.1 = true) :
    (s.merge r a).1.potential r U.card < s.potential r U.card := by
  have hfrom := (hs.merge (r := r) ha).1.size_le
  have hne : s ≠ a := by
    rintro rfl
    rw [merge_self] at hchanged
    cases hchanged
  rw [merge_of_ne hne] at hchanged hfrom ⊢
  have hsize : s.sources.size ≤ (s.sources.union a.sources).size :=
    OrderedSet.size_le_of_subset fun x hx => OrderedSet.mem_union.2 (.inl hx)
  simp only [potential, Prod.Lex.toLex_lt_toLex, lt_self_iff_false, false_or, true_and]
  dsimp only at hchanged hfrom ⊢
  by_cases htype : s.type.join r a.type = s.type
  · have hsources := (of_decide_eq_true hchanged).resolve_left (not_not_intro htype)
    rw [htype]
    exact .inr ⟨rfl, by omega⟩
  by_cases hnull : s.type = .null
  · -- A slot that was null is something else now.
    rw [if_neg (hnull ▸ htype), if_pos hnull]
    exact .inl Nat.one_pos
  · have hrank := ValueType.rank_join_lt hr hnull htype
    rw [if_neg (ValueType.join_ne_null hnull), if_neg hnull]
    exact .inr ⟨rfl, by omega⟩

theorem Slot.potential_merge_le (hr : r.NoArrays) {s a : Slot} (hs : s.From (· ∈ U))
    (ha : a.From (· ∈ U)) : (s.merge r a).1.potential r U.card ≤ s.potential r U.card := by
  cases hchanged : (s.merge r a).2.1 with
  | true => exact (potential_merge_lt hr hs ha hchanged).le
  | false => rw [(merge_above r s a).2.2 hchanged]

namespace Frame

/-- The sum over some slots. -/
def slotsPotential (r : Registry) (n : Nat) (ss : List Slot) : Potential :=
  (ss.map (·.potential r n)).sum

def potential (r : Registry) (n : Nat) (f : Frame) : Potential :=
  slotsPotential r n f.locals + slotsPotential r n f.stack

theorem slotsPotential_merge (hr : r.NoArrays) {ss as : List Slot}
    (hs : ∀ s ∈ ss, s.From (· ∈ U)) (ha : ∀ a ∈ as, a.From (· ∈ U)) :
    slotsPotential r U.card (mergeSlots r ss as).1 ≤ slotsPotential r U.card ss ∧
      ((mergeSlots r ss as).2.1 = true →
        slotsPotential r U.card (mergeSlots r ss as).1 < slotsPotential r U.card ss) := by
  induction ss generalizing as with
  | nil => cases as <;> exact ⟨le_rfl, nofun⟩
  | cons s ss ih =>
    cases as with
    | nil => exact ⟨le_rfl, nofun⟩
    | cons a as =>
      have ⟨hs, hss⟩ := List.forall_mem_cons.1 hs
      have ⟨ha, has⟩ := List.forall_mem_cons.1 ha
      have hle := Slot.potential_merge_le hr hs ha
      obtain ⟨hles, hlts⟩ := ih hss has
      simp only [slotsPotential, mergeSlots, List.map_cons, List.sum_cons] at hles hlts ⊢
      refine ⟨add_le_add hle hles, fun hchanged => ?_⟩
      rcases Bool.or_eq_true_iff.1 hchanged with hchanged | hchanged
      · exact add_lt_add_of_lt_of_le (Slot.potential_merge_lt hr hs ha hchanged) hles
      · exact add_lt_add_of_le_of_lt hle (hlts hchanged)

theorem slotsPotential_eq (r : Registry) (n : Nat) (ss : List Slot) :
    ∃ c, slotsPotential r n ss = toLex (0, c) := by
  induction ss with
  | nil => exact ⟨0, rfl⟩
  | cons s ss ih =>
    obtain ⟨c, hc⟩ := ih
    rw [slotsPotential, List.map_cons, List.sum_cons]
    rw [slotsPotential] at hc
    rw [hc]
    exact ⟨_, rfl⟩

/-- Any frame counts less than none. -/
theorem potential_lt (r : Registry) (n : Nat) (f : Frame) :
    f.potential r n < toLex (1, 0) := by
  obtain ⟨c, hc⟩ := slotsPotential_eq r n f.locals
  obtain ⟨c', hc'⟩ := slotsPotential_eq r n f.stack
  rw [potential, hc, hc', ← toLex_add, Prod.Lex.toLex_lt_toLex]
  exact .inl Nat.one_pos

/-- A frame that a merge changes has a lower potential then. -/
theorem potential_merge_lt (hr : r.NoArrays) {f g merged : Frame} {us : List FactUpdate}
    (hf : f.From (· ∈ U)) (hg : g.From (· ∈ U)) (h : f.merge r g = .ok (merged, true, us)) :
    merged.potential r U.card < f.potential r U.card := by
  obtain ⟨-, -, rfl, hchanged, -⟩ := merge_eq_ok.1 h
  obtain ⟨hlocals, hlocalsLt⟩ := slotsPotential_merge hr hf.locals hg.locals
  obtain ⟨hstack, hstackLt⟩ := slotsPotential_merge hr hf.stack hg.stack
  rcases Bool.or_eq_true_iff.1 hchanged.symm with hchanged | hchanged
  · exact add_lt_add_of_lt_of_le (hlocalsLt hchanged) hstack
  · exact add_lt_add_of_le_of_lt hlocals (hstackLt hchanged)

end Frame

/-! ## States -/

namespace State

variable {s t : State} {n : Nat}

/-- What an instruction adds to the potential: most while it has no frame. -/
def framePotential (r : Registry) (n : Nat) (f? : Option Frame) : Potential :=
  f?.elim (toLex (1, 0)) (·.potential r n)

def potential (r : Registry) (n : Nat) (s : State) : Potential :=
  ∑ j ∈ Finset.range s.frames.size, framePotential r n (s.frame? j)

/-- The potential, then the instructions that are queued. -/
def measure (r : Registry) (n : Nat) (s : State) : Potential ×ₗ ℕ :=
  toLex (s.potential r n, s.queue.length)

theorem potential_setFrame_lt {j : Nat} {f : Frame} (hj : j < s.frames.size)
    (h : f.potential r n < framePotential r n (s.frame? j)) :
    (s.setFrame j f).potential r n < s.potential r n := by
  have hsize : (s.setFrame j f).frames.size = s.frames.size := Array.size_setIfInBounds
  rw [potential, potential, hsize]
  refine Finset.sum_lt_sum (fun j' _ => ?_) ⟨j, Finset.mem_range.2 hj, ?_⟩
  · rw [frame?_setFrame]
    split_ifs with hj'
    · rw [hj'.1]
      exact h.le
    · exact le_rfl
  · rwa [frame?_setFrame, if_pos ⟨rfl, hj⟩]

theorem potential_enqueue (s : State) (j : Nat) : (s.enqueue j).potential r n = s.potential r n := by
  unfold enqueue
  split_ifs <;> rfl

/-- What arrives lowers the measure or leaves it. -/
theorem measure_flow (hr : r.NoArrays) (hs : s.From (· ∈ U)) {f : Frame} (hf : f.From (· ∈ U))
    {j : Nat} (hj : j < s.frames.size) (h : s.flow r j f = .ok t) :
    t.measure r U.card ≤ s.measure r U.card := by
  unfold flow at h
  split at h
  · next hnone =>
    obtain rfl := Except.ok.inj h
    refine (Prod.Lex.toLex_lt_toLex.2 (.inl ?_)).le
    rw [potential_enqueue]
    refine potential_setFrame_lt hj ?_
    rw [hnone]
    exact f.potential_lt r U.card
  · next old hold =>
    obtain ⟨⟨merged, changed, us⟩, hmerge, h⟩ := bind_eq_ok.1 h
    cases changed with
    | true =>
      obtain rfl : ((s.setFrame j merged).learn us).enqueue j = t := Except.ok.inj h
      refine (Prod.Lex.toLex_lt_toLex.2 (.inl ?_)).le
      rw [potential_enqueue]
      refine potential_setFrame_lt (s := s) hj ?_
      rw [hold]
      exact Frame.potential_merge_lt hr (hs.frames j old hold) hf hmerge
    | false =>
      obtain rfl : (s.setFrame j merged).learn us = t := Except.ok.inj h
      obtain rfl := (Frame.merge_above hmerge).2.2 rfl
      exact (congrArg (measure r U.card) (setFrame_eq_self hold)).le

end State

/-! ## Runs -/

namespace Flow

variable {p : Flow} {s : State}

/-- A step lowers the measure: it takes an instruction from the queue, and what
    arrives then lowers the measure or leaves it. -/
theorem step_yields (hr : r.NoArrays) (hp : p.Bounded) (hsize : s.frames.size = p.code.size)
    (hs : s.From (· ∈ U)) (hU : ∀ j < p.code.size, .instruction j ∈ U) {j : Nat}
    {queue : List Nat} (hqueue : s.queue = j :: queue) :
    Yields (fun t => t.From (· ∈ U) ∧ t.frames.size = p.code.size ∧
      t.measure r U.card < s.measure r U.card) (p.step r s) := by
  simp only [step, hqueue]
  -- The state without the instruction, from which frames flow.
  generalize hu : ({ s with queue, iterations := s.iterations + 1 } : State) = u
  have huframe (j : Nat) : u.frame? j = s.frame? j := by
    rw [← hu]
    rfl
  have hu' : u.From (· ∈ U) ∧ u.frames.size = p.code.size := by
    rw [← hu]
    exact ⟨⟨hs.frames, hs.facts⟩, hsize⟩
  have hlt : u.measure r U.card < s.measure r U.card := by
    rw [← hu]
    refine Prod.Lex.toLex_lt_toLex.2 (.inr ⟨rfl, ?_⟩)
    simp [hqueue]
  refine execute_yields (P := (· ∈ U)) ?_ hp ⟨hu'.1, hu'.2, hlt⟩ ?_ (hu'.1.frames j) ?_ ?_
  · rintro v j' f ⟨hv, hvsize, hvlt⟩ hf hj'
    have hj' : j' < v.frames.size := by rwa [hvsize]
    cases hflow : v.flow r j' f with
    | error e =>
      have := hv.flow (r := r) hf j'
      rwa [hflow] at this
    | ok w =>
      exact ⟨(hv.flow hf j').of_ok hflow, (State.arrived_flow hflow hj').grows.size.trans hvsize,
        (State.measure_flow hr hv hf hj' hflow).trans_lt hvlt⟩
  · exact fun us hus => ⟨hu'.1.learn hus, hu'.2, hlt⟩
  · exact fun i hi => hU j (Array.getElem?_eq_some_iff.1 hi).1
  · exact fun h hh => hU h.entry (hp.handlers h hh)

/-- Some number of executions is enough. -/
theorem run_terminates (hr : r.NoArrays) (hp : p.Bounded) (hsize : s.frames.size = p.code.size)
    (hs : s.From (· ∈ U)) (hU : ∀ j < p.code.size, .instruction j ∈ U) :
    ∃ enough, ∀ limit, ∀ fuel ≥ enough, Yields (fun _ => True) (p.run r limit fuel s) := by
  induction hmeasure : s.measure r U.card using WellFoundedLT.induction generalizing s with
  | ind m ih =>
  subst hmeasure
  cases hqueue : s.queue with
  | nil => exact ⟨0, fun limit fuel _ => by rw [run_of_settled hqueue]; trivial⟩
  | cons j queue =>
    have hne : s.queue ≠ [] := by simp [hqueue]
    have hstep := step_yields hr hp hsize hs hU hqueue
    cases ht : p.step r s with
    | error e =>
      rw [ht] at hstep
      refine ⟨1, fun limit fuel hfuel => ?_⟩
      obtain ⟨fuel, rfl⟩ := Nat.exists_eq_add_of_le' hfuel
      rw [run_succ hne, ht]
      exact hstep
    | ok t =>
      obtain ⟨htfrom, htsize, hlt⟩ := hstep.of_ok ht
      obtain ⟨enough, henough⟩ := ih _ hlt htsize htfrom rfl
      refine ⟨enough + 1, fun limit fuel hfuel => ?_⟩
      obtain ⟨fuel, rfl⟩ := Nat.exists_eq_add_of_le' (Nat.le_of_add_left_le hfuel)
      rw [run_succ hne, ht]
      exact henough limit fuel (Nat.le_of_succ_le_succ hfuel)

/-- All runs that end from a state end in the same one. -/
theorem run_unique {t t' : State} {limit limit' fuel fuel' : Nat}
    (h : p.run r limit fuel s = .ok t) (h' : p.run r limit' fuel' s = .ok t') : t = t' := by
  induction fuel generalizing s fuel' with
  | zero =>
    obtain ⟨hqueue, rfl⟩ | ⟨_, _, _, _, -, hfuel, -⟩ := run_eq_ok h
    · rw [run_of_settled hqueue] at h'
      exact Except.ok.inj h'
    · cases hfuel
  | succ fuel ih =>
    obtain ⟨hqueue, rfl⟩ | ⟨j, queue, _, u, hqueue, hfuel, hu, h⟩ := run_eq_ok h
    · rw [run_of_settled hqueue] at h'
      exact Except.ok.inj h'
    · obtain rfl := Nat.succ.inj hfuel
      obtain ⟨hqueue', -⟩ | ⟨_, _, _, u', -, -, hu', h'⟩ := run_eq_ok h'
      · rw [hqueue] at hqueue'
        cases hqueue'
      · obtain rfl := Except.ok.inj (hu.symm.trans hu')
        exact ih h h'

end Flow

/-! ## Analyses -/

/-- The sources of a method: its instructions and its parameters. -/
def Method.allSources (m : Method) (d : MethodDescriptor) : Finset Source :=
  (Finset.range m.code.length).image .instruction ∪
    (Finset.range d.params.length).image .parameter

theorem solve_yields (hr : r.NoArrays) (owner : String) (m : Method) :
    ∃ enough, ∀ limit ≥ enough, Yields (fun _ => True) (solve r limit owner m) := by
  rcases eq_or_ne m.code [] with hcode | hcode
  · refine ⟨0, fun limit _ => ?_⟩
    rw [solve, if_pos (List.isEmpty_iff.2 hcode)]
    trivial
  obtain ⟨enough, henough⟩ : ∃ enough, ∀ d p entry us,
      MethodDescriptor.parse m.descriptor = .ok d → m.flow d = .ok p →
      m.entryFrame owner d = .ok (entry, us) → ∀ limit ≥ enough,
      Yields (fun _ => True) (p.run r limit limit (.start m.code.length entry us)) := by
    by_cases h : ∃ d p entry us, MethodDescriptor.parse m.descriptor = .ok d ∧
        m.flow d = .ok p ∧ m.entryFrame owner d = .ok (entry, us)
    · obtain ⟨d, p, entry, us, hd, hp, hentry⟩ := h
      have hfrom := (Method.entryFrame_from (m := m) (P := (· ∈ m.allSources d)) (d := d)
        (fun n hn => by simp [Method.allSources, hn]) owner).of_ok hentry
      have hsize := Method.size_flow hp
      obtain ⟨enough, henough⟩ := Flow.run_terminates (U := m.allSources d)
        (s := .start m.code.length entry us) hr (Method.bounded_flow hp)
        (by simp [State.start, hsize]) (State.from_start hfrom.1 fun up hup => (hfrom.2 up hup).sources)
        (fun j hj => by simp [Method.allSources, ← hsize, hj])
      refine ⟨enough, fun d' p' entry' us' hd' hp' hentry' limit hlimit => ?_⟩
      obtain rfl := Except.ok.inj (hd.symm.trans hd')
      obtain rfl := Except.ok.inj (hp.symm.trans hp')
      obtain ⟨rfl, rfl⟩ := Prod.mk.inj (Except.ok.inj (hentry.symm.trans hentry'))
      exact henough limit limit hlimit
    · exact ⟨0, fun d p entry us hd hp hentry => absurd ⟨d, p, entry, us, hd, hp, hentry⟩ h⟩
  refine ⟨enough, fun limit hlimit => ?_⟩
  rw [solve, if_neg (mt List.isEmpty_iff.1 hcode)]
  refine (yields_mapError _ fun _ => id).bind fun d hd => ?_
  refine (m.flow_yields d).and_eq.bind fun p hp => ?_
  refine (Method.entryFrame_from (P := fun _ => True) (fun _ _ => trivial) owner).and_eq.bind ?_
  rintro ⟨entry, us⟩ ⟨-, hentry⟩
  exact (henough d p entry us hd hp.2 hentry limit hlimit).bind fun _ _ => trivial

/-- **The worklist always reaches a fixpoint.**  Some number of executions is enough for a
    method, cyclic hierarchies included, and all numbers for which the analysis succeeds give
    the same frames and the same facts. -/
theorem solve_terminates (hr : r.NoArrays) (owner : String) (m : Method) :
    (∃ enough, ∀ limit ≥ enough, ∀ name descriptor n,
      solve r limit owner m ≠ .error (.noFixpoint name descriptor n)) ∧
    ∀ limit limit' a a', solve r limit owner m = .ok a → solve r limit' owner m = .ok a' →
      a = a' := by
  refine ⟨?_, fun limit limit' a a' h h' => ?_⟩
  · obtain ⟨enough, henough⟩ := solve_yields hr owner m
    refine ⟨enough, fun limit hlimit name descriptor n h => ?_⟩
    have hyields := henough limit hlimit
    rw [h] at hyields
    exact hyields trivial
  · rcases eq_or_ne m.code [] with hcode | hcode
    · rw [solve, if_pos (List.isEmpty_iff.2 hcode)] at h h'
      exact Except.ok.inj (h.symm.trans h')
    rw [solve, if_neg (mt List.isEmpty_iff.1 hcode)] at h h'
    obtain ⟨d, hd, h⟩ := bind_eq_ok.1 h
    obtain ⟨d', hd', h'⟩ := bind_eq_ok.1 h'
    obtain rfl := Except.ok.inj (hd.symm.trans hd')
    obtain ⟨p, hp, h⟩ := bind_eq_ok.1 h
    obtain ⟨p', hp', h'⟩ := bind_eq_ok.1 h'
    obtain rfl := Except.ok.inj (hp.symm.trans hp')
    obtain ⟨⟨entry, us⟩, hentry, h⟩ := bind_eq_ok.1 h
    obtain ⟨⟨entry', us'⟩, hentry', h'⟩ := bind_eq_ok.1 h'
    obtain ⟨rfl, rfl⟩ := Prod.mk.inj (Except.ok.inj (hentry.symm.trans hentry'))
    obtain ⟨s, hs, h⟩ := bind_eq_ok.1 h
    obtain ⟨s', hs', h'⟩ := bind_eq_ok.1 h'
    obtain rfl := Flow.run_unique hs hs'
    exact Except.ok.inj (h.symm.trans h')

/-- Two classes, each said to be a subclass of the other. -/
abbrev cyclic : Registry := (ClassRegistry.empty.addInfo ⟨"A", some "B", [], false, none⟩).addInfo
  ⟨"B", some "A", [], false, none⟩

theorem solve_terminates_cyclic : cyclic.NoArrays ∧
    (solve cyclic 3 "C" widening).map (·.frames) =
      .error (.noFixpoint "f" "(LB;)V" 3) ∧
    ∃ a, solve cyclic 8 "C" widening = .ok a ∧
      (∃ enough, ∀ limit ≥ enough, ∀ name descriptor n,
        solve cyclic limit "C" widening ≠ .error (.noFixpoint name descriptor n)) ∧
      ∀ limit a', solve cyclic limit "C" widening = .ok a' → a' = a := by
  have hcyclic : cyclic.NoArrays := by decide
  have hlow : (solve cyclic 3 "C" widening).map (·.frames) =
      .error (.noFixpoint "f" "(LB;)V" 3) := by cbv
  have hhigh : (solve cyclic 8 "C" widening).map (fun _ => ()) = .ok () := by cbv
  obtain ⟨a, ha, -⟩ := map_eq_ok.1 hhigh
  obtain ⟨henough, hunique⟩ := solve_terminates hcyclic "C" widening
  exact ⟨hcyclic, hlow, a, ha, henough, fun limit a' ha' => hunique limit 8 a' a ha' ha⟩

end ConstRestore
