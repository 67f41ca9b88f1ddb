/-
  The worklist of an analysis.

  `Flow.Inv` is the invariant of a run: a frame that is not queued was executed,
  and what came of it went into the frames after it (`Flow.inv_step`).

  When the queue is empty, every frame was executed (`Flow.run_settled`), and that
  is how an analysis ends (`solve_settled`).
-/
import ConstRestore.Proofs.Arrivals
import ConstRestore.Proofs.Edges

namespace ConstRestore

namespace Flow

variable {p : Flow} {r : Registry} {s t : State}

/-! ## The invariant -/

/-- The instruction was executed at a frame: what it learnt is known, and all
    that flowed along its edges went into the frames there. -/
def Executed (p : Flow) (r : Registry) (s : State) (j : Nat) (f : Frame) : Prop :=
  ∃ i after us es, p.code[j]? = some i ∧ i.execute p.ret? j f = .ok (after, us) ∧
    p.Edges j i f after es ∧ (∀ up ∈ us, s.facts.Has up) ∧ ∀ e ∈ es, s.Received r e.1 e.2

theorem Executed.of_grows {j : Nat} {f : Frame} (h : p.Executed r s j f) (hst : s.Grows r t) :
    p.Executed r t j f := by
  obtain ⟨i, after, us, es, hi, hex, hedges, hlearnt, hreceived⟩ := h
  exact ⟨i, after, us, es, hi, hex, hedges, fun up hup => hst.facts up (hlearnt up hup),
    fun e he => hst.received (hreceived e he)⟩

/-- The invariant of a run that starts with a frame at the entry. -/
structure Inv (p : Flow) (r : Registry) (entry : Frame) (s : State) : Prop where
  size : s.frames.size = p.code.size
  entry : s.Received r 0 entry
  reached : ∀ j, (s.frame? j).isSome → p.Reaches j
  executed : ∀ j f, s.frame? j = some f → j ∈ s.queue ∨ p.Executed r s j f

theorem lt_of_frame? {j : Nat} {f : Frame} (h : s.frame? j = some f) : j < s.frames.size := by
  by_contra hj
  rw [State.frame?, Array.getElem?_eq_none (Nat.le_of_not_lt hj)] at h
  simp at h

variable {entry : Frame}

/-- A run starts with the frame of the entry, which is queued. -/
theorem inv_start {us : List FactUpdate} (hcode : 0 < p.code.size) :
    p.Inv r entry (.start p.code.size entry us) := by
  have hzero : (State.start p.code.size entry us).frame? 0 = some entry := by
    simp [State.frame?, State.start, hcode]
  have hsucc (j : Nat) : (State.start p.code.size entry us).frame? (j + 1) = none := by
    simp only [State.frame?, State.start, Array.getElem?_setIfInBounds, Array.getElem?_replicate]
    split_ifs <;> first | rfl | contradiction
  refine ⟨by simp [State.start], ⟨entry, hzero, .refl entry⟩, ?_, ?_⟩
  · intro j hj
    cases j with
    | zero => exact .entry
    | succ j => simp [hsucc] at hj
  · intro j f hf
    cases j with
    | zero => exact .inl (by simp [State.start])
    | succ j => simp [hsucc] at hf

/-- An execution leaves what arrived along its edges. -/
theorem execute_arrived (hp : p.Bounded) (hsize : s.frames.size = p.code.size) {j : Nat}
    {f : Frame} (hf : s.frame? j = some f) (h : p.execute r s j = .ok t) :
    p.Executed r t j f ∧ s.Grows r t ∧
      ∀ j', (t.frame? j').isSome → (s.frame? j').isSome ∨ p.Follows j j' ∨
        ∃ h, p.Catches j h ∧ h.entry = j' := by
  obtain ⟨i, hi⟩ : ∃ i, p.code[j]? = some i :=
    ⟨_, Array.getElem?_eq_getElem (hsize ▸ lt_of_frame? hf)⟩
  obtain ⟨after, us, es, hex, hedges, hflow⟩ := execute_eq_ok h hf hi
  have harrived := State.arrived_flowAll hflow fun e he => hsize ▸ hedges.inside hp e he
  refine ⟨⟨i, after, us, es, hi, hex, hedges, ?_, harrived.received⟩, ?_, ?_⟩
  · intro up hup
    exact harrived.grows.facts up (s.facts.has_updateAll hup)
  · exact (s.grows_learn us).trans harrived.grows
  · intro j' hj'
    refine (harrived.frames j' hj').imp_right ?_
    rintro ⟨e, he, rfl⟩
    rcases hedges.sound e he with ⟨hfollows, -⟩ | ⟨h, hh, hentry, -⟩
    · exact .inl hfollows
    · exact .inr ⟨h, hh, hentry⟩

theorem Inv.dequeue (hs : p.Inv r entry s) {j : Nat} {queue : List Nat}
    (hqueue : s.queue = j :: queue) {j' : Nat} {f : Frame} (hf : s.frame? j' = some f) :
    j' = j ∨ j' ∈ queue ∨ p.Executed r s j' f := by
  rcases hs.executed j' f hf with hj' | hex
  · rw [hqueue] at hj'
    exact (List.mem_cons.1 hj').imp_right .inl
  · exact .inr (.inr hex)

/-- The first instruction of the queue is executed. -/
theorem inv_execute (hp : p.Bounded) (hs : p.Inv r entry s) {j : Nat}
    {queue : List Nat} (hqueue : s.queue = j :: queue) {n : Nat} {f : Frame}
    (hf : s.frame? j = some f)
    (h : p.execute r { s with queue, iterations := n } j = .ok t) : p.Inv r entry t := by
  obtain ⟨hex, hgrows, hframes⟩ :=
    execute_arrived (s := { s with queue, iterations := n }) hp hs.size hf h
  refine ⟨hgrows.size.trans hs.size, hgrows.received hs.entry, ?_, ?_⟩
  · intro j' hj'
    have hj := hs.reached j (by simp [hf])
    rcases hframes j' hj' with hj' | hj' | ⟨h, hh, rfl⟩
    · exact hs.reached j' hj'
    · exact hj.follow hj'
    · exact hj.raise hh
  · intro j' f' hf'
    rcases hgrows.settled j' f' hf' with hj' | hf'
    · exact .inl hj'
    · rcases hs.dequeue hqueue hf' with rfl | hj' | hex'
      · obtain rfl := Option.some.inj (hf.symm.trans hf')
        exact .inr hex
      · exact .inl (hgrows.queue j' hj')
      · exact .inr (Executed.of_grows (s := { s with queue, iterations := n }) hex' hgrows)

/-- A step keeps the invariant. -/
theorem inv_step (hp : p.Bounded) (hs : p.Inv r entry s)
    (h : p.step r s = .ok t) : p.Inv r entry t := by
  unfold step at h
  split at h
  · obtain rfl := Except.ok.inj h
    exact hs
  · next j queue hqueue =>
    cases hf : s.frame? j with
    | some f => exact inv_execute hp hs hqueue hf h
    | none =>
      have hskip : State.frame? { s with queue, iterations := s.iterations + 1 } j = none := hf
      simp only [execute, hskip] at h
      obtain rfl := Except.ok.inj h
      refine ⟨hs.size, hs.entry, hs.reached, ?_⟩
      intro j' f hf'
      rcases hs.dequeue hqueue hf' with rfl | hj' | hex
      · exact absurd (hf.symm.trans hf') nofun
      · exact .inl hj'
      · exact .inr hex

/-- A step loses nothing but the instruction that it takes from the queue. -/
theorem grows_step (hp : p.Bounded) (hsize : s.frames.size = p.code.size) {j : Nat}
    {queue : List Nat} (hqueue : s.queue = j :: queue) (h : p.step r s = .ok t) :
    State.Grows r { s with queue, iterations := s.iterations + 1 } t := by
  simp only [step, hqueue] at h
  cases hf : State.frame? { s with queue, iterations := s.iterations + 1 } j with
  | some f =>
    exact (execute_arrived (s := { s with queue, iterations := s.iterations + 1 }) hp hsize hf h).2.1
  | none =>
    simp only [execute, hf] at h
    obtain rfl := Except.ok.inj h
    exact .refl _

/-! ## Runs -/

theorem run_of_settled (hqueue : s.queue = []) (p : Flow) (limit fuel : Nat) :
    p.run r limit fuel s = .ok s := by
  unfold run
  rw [if_pos (List.isEmpty_iff.2 hqueue)]

theorem run_zero (hqueue : s.queue ≠ []) (limit : Nat) :
    p.run r limit 0 s = .error (.noFixpoint p.name p.descriptor limit) := by
  unfold run
  rw [if_neg (mt List.isEmpty_iff.1 hqueue)]

theorem run_succ (hqueue : s.queue ≠ []) (limit fuel : Nat) :
    p.run r limit (fuel + 1) s = p.step r s >>= p.run r limit fuel := by
  rw [run, if_neg (mt List.isEmpty_iff.1 hqueue)]

/-- A run that ends had nothing to do, or ends as it does after a step. -/
theorem run_eq_ok {limit fuel : Nat} (h : p.run r limit fuel s = .ok t) :
    s.queue = [] ∧ t = s ∨ ∃ j queue fuel' u, s.queue = j :: queue ∧ fuel = fuel' + 1 ∧
      p.step r s = .ok u ∧ p.run r limit fuel' u = .ok t := by
  cases hqueue : s.queue with
  | nil =>
    rw [run_of_settled hqueue] at h
    exact .inl ⟨rfl, (Except.ok.inj h).symm⟩
  | cons j queue =>
    have hne : s.queue ≠ [] := by simp [hqueue]
    cases fuel with
    | zero =>
      rw [run_zero hne] at h
      cases h
    | succ fuel =>
      rw [run_succ hne] at h
      obtain ⟨u, hu, h⟩ := bind_eq_ok.1 h
      exact .inr ⟨j, queue, fuel, u, rfl, rfl, hu, h⟩

/-- A run that ends has executed every frame. -/
theorem run_settled (hp : p.Bounded) {limit fuel : Nat} (hs : p.Inv r entry s)
    (h : p.run r limit fuel s = .ok t) : p.Inv r entry t ∧ t.queue = [] := by
  induction fuel generalizing s with
  | zero =>
    obtain ⟨hqueue, rfl⟩ | ⟨_, _, _, _, -, hfuel, -⟩ := run_eq_ok h
    · exact ⟨hs, hqueue⟩
    · cases hfuel
  | succ fuel ih =>
    obtain ⟨hqueue, rfl⟩ | ⟨j, queue, fuel', u, -, hfuel, hu, h⟩ := run_eq_ok h
    · exact ⟨hs, hqueue⟩
    · obtain rfl := Nat.succ.inj hfuel
      exact ih (inv_step hp hs hu) h

/-- A settled state has executed every frame. -/
theorem Inv.executed_of_settled (hs : p.Inv r entry s) (hqueue : s.queue = []) {j : Nat} {f : Frame}
    (hf : s.frame? j = some f) : p.Executed r s j f :=
  (hs.executed j f hf).resolve_left (by simp [hqueue])

theorem Inv.isSome_iff_reaches (hs : p.Inv r entry s) (hqueue : s.queue = []) (j : Nat) :
    (s.frame? j).isSome ↔ p.Reaches j := by
  refine ⟨hs.reached j, ?_⟩
  intro h
  have hsome {j : Nat} {f : Frame} (h : s.Received r j f) : (s.frame? j).isSome := by
    obtain ⟨g, hg, -⟩ := h
    simp [hg]
  induction h with
  | entry => exact hsome hs.entry
  | follow _ hfollows ih =>
    obtain ⟨f, hf⟩ := Option.isSome_iff_exists.1 ih
    obtain ⟨i, after, us, es, -, -, hedges, -, hreceived⟩ := hs.executed_of_settled hqueue hf
    exact hsome (hreceived _ (hedges.follows _ hfollows))
  | raise _ hcatches ih =>
    obtain ⟨f, hf⟩ := Option.isSome_iff_exists.1 ih
    obtain ⟨i, after, us, es, -, -, hedges, -, hreceived⟩ := hs.executed_of_settled hqueue hf
    exact hsome (hreceived _ (hedges.catches _ hcatches))

end Flow

variable {r : Registry}

/-! ## Analyses -/

theorem frame?_of_code_eq_nil {limit : Nat} {owner : String} {m : Method} {a : Solution}
    (h : solve r limit owner m = .ok a) (hcode : m.code = []) (j : Nat) : a.frame? j = none := by
  rw [solve, if_pos (List.isEmpty_iff.2 hcode)] at h
  obtain rfl := Except.ok.inj h
  simp [Solution.frame?]

theorem Method.size_flow {m : Method} {d : MethodDescriptor} {p : Flow} (h : m.flow d = .ok p) :
    p.code.size = m.code.length := by
  obtain ⟨hs, -, h⟩ := bind_eq_ok.1 h
  obtain rfl := Except.ok.inj h
  exact List.size_toArray

/-- An analysis is a run from the frame at the entry. -/
theorem run_of_solve {limit : Nat} {owner : String} {m : Method} {a : Solution}
    (h : solve r limit owner m = .ok a) (hcode : m.code ≠ []) :
    ∃ d p entry us s, MethodDescriptor.parse m.descriptor = .ok d ∧ m.flow d = .ok p ∧
      m.entryFrame owner d = .ok (entry, us) ∧
      p.run r limit limit (.start p.code.size entry us) = .ok s ∧
      a.frames = s.frames ∧ a.facts = s.facts := by
  rw [solve, if_neg (mt List.isEmpty_iff.1 hcode)] at h
  obtain ⟨d, hd, h⟩ := bind_eq_ok.1 h
  obtain ⟨p, hp, h⟩ := bind_eq_ok.1 h
  obtain ⟨⟨entry, us⟩, hentry, h⟩ := bind_eq_ok.1 h
  obtain ⟨s, hrun, h⟩ := bind_eq_ok.1 h
  obtain rfl := Except.ok.inj h
  exact ⟨d, p, entry, us, s, mapError_eq_ok.1 hd, hp, hentry, by rwa [Method.size_flow hp], rfl, rfl⟩

/-- An analysis ends in a settled state. -/
theorem solve_settled {limit : Nat} {owner : String} {m : Method} {a : Solution}
    (h : solve r limit owner m = .ok a) (hcode : m.code ≠ []) :
    ∃ d p entry us n, MethodDescriptor.parse m.descriptor = .ok d ∧ m.flow d = .ok p ∧
      m.entryFrame owner d = .ok (entry, us) ∧
      p.run r limit limit (.start p.code.size entry us) = .ok ⟨a.frames, a.facts, [], n⟩ ∧
      p.Inv r entry ⟨a.frames, a.facts, [], n⟩ := by
  obtain ⟨d, p, entry, us, s, hd, hp, hentry, hrun, hframes, hfacts⟩ := run_of_solve h hcode
  have hsize : 0 < p.code.size := by
    rw [Method.size_flow hp]
    exact List.length_pos_of_ne_nil hcode
  obtain ⟨hs, hqueue⟩ := Flow.run_settled (Method.bounded_flow hp) (Flow.inv_start hsize) hrun
  have hstate : s = ⟨a.frames, a.facts, [], s.iterations⟩ := by rw [hframes, hfacts, ← hqueue]
  exact ⟨d, p, entry, us, s.iterations, hd, hp, hentry, hstate ▸ hrun, hstate ▸ hs⟩

end ConstRestore
