/-
  An analysis that succeeds is a fixpoint.

  * `State.Still` says that a state changed in nothing that can be seen: not in
    its frames, its queue, or its classes and facts;
  * an execution whose edges lead to frames that absorb what flows along them
    leaves the state so (`Flow.execute_still`);
  * `Flow.history` lists the executions of a run; the last one of every
    instruction was at the frame that it has in the end
    (`Flow.lastExecuted_of_run`).

  `solve_fixpoint` puts them together.  It needs a hierarchy in which no class
  has a supertype that is called like an array, for otherwise joins do not
  absorb what went into them.
-/
import ConstRestore.Proofs.Worklist

namespace ConstRestore

variable {r : Registry}

/-! ## States that stay as they are -/

namespace State

variable {s t u : State}

/-- Nothing changed but how the trees of the classes are built. -/
structure Still (s t : State) : Prop where
  frames : t.frames = s.frames
  queue : t.queue = s.queue
  facts : s.facts.Agrees t.facts

theorem Still.refl (s : State) : s.Still s := ⟨rfl, rfl, .refl _⟩

theorem Still.trans (h : s.Still t) (h' : t.Still u) : s.Still u :=
  ⟨h'.frames.trans h.frames, h'.queue.trans h.queue, h.facts.trans h'.facts⟩

theorem still_learn {us : List FactUpdate} (h : ∀ up ∈ us, s.facts.Has up) : s.Still (s.learn us) :=
  ⟨rfl, rfl, FactTable.agrees_updateAll h⟩

/-- The frame of an instruction absorbs another one. -/
def Absorbs (r : Registry) (s : State) (j : Nat) (f : Frame) : Prop :=
  ∃ g, s.frame? j = some g ∧ g.Absorbs r s.facts f

theorem Received.absorbs (hr : r.NoArrays) {j : Nat} {f : Frame} (h : s.Received r j f) :
    s.Absorbs r j f :=
  let ⟨g, hg, hfg⟩ := h
  ⟨g, hg, hfg.absorbed hr⟩

theorem Absorbs.of_still {j : Nat} {f : Frame} (h : s.Absorbs r j f) (hst : s.Still t) :
    t.Absorbs r j f := by
  obtain ⟨g, hg, hgf⟩ := h
  exact ⟨g, by rwa [frame?, hst.frames], hgf.mono fun up => hst.facts.has⟩

/-- A frame that is absorbed where it arrives changes nothing. -/
theorem still_flow {j : Nat} {f : Frame} (h : s.Absorbs r j f) :
    ∃ t, s.flow r j f = .ok t ∧ s.Still t := by
  obtain ⟨g, hg, hgf⟩ := h
  obtain ⟨us, hmerge, hus⟩ := hgf.merge_eq
  refine ⟨s.learn us, ?_, still_learn hus⟩
  unfold flow
  rw [hg]
  exact bind_eq_ok.2 ⟨_, hmerge, by simp [setFrame_eq_self hg]⟩

theorem still_flowAll {es : List (Nat × Frame)} (h : ∀ e ∈ es, s.Absorbs r e.1 e.2) :
    ∃ t, s.flowAll r es = .ok t ∧ s.Still t := by
  induction es generalizing s with
  | nil => exact ⟨s, rfl, .refl s⟩
  | cons e es ih =>
    have ⟨he, hes⟩ := List.forall_mem_cons.1 h
    obtain ⟨u, hu, hsu⟩ := still_flow he
    obtain ⟨t, ht, hut⟩ := ih fun e he => (hes e he).of_still hsu
    refine ⟨t, ?_, hsu.trans hut⟩
    rw [flowAll, List.foldlM_cons]
    exact bind_eq_ok.2 ⟨u, hu, ht⟩

end State

namespace Flow

variable {p : Flow} {s t : State} {entry : Frame}

theorem still_targets {ls : List Label} {after : Frame}
    (h : ∀ l ∈ ls, ∃ j, p.labels.get? l = some j ∧ s.Absorbs r j after) :
    ∃ t, ls.foldlM (fun (s : State) l => do s.flow r (← p.position l) after) s = .ok t ∧
      s.Still t := by
  induction ls generalizing s with
  | nil => exact ⟨s, rfl, .refl s⟩
  | cons l ls ih =>
    have ⟨⟨j, hj, habsorbs⟩, hls⟩ := List.forall_mem_cons.1 h
    obtain ⟨u, hu, hsu⟩ := State.still_flow habsorbs
    obtain ⟨t, ht, hut⟩ := ih fun l hl =>
      (hls l hl).imp fun j hj => hj.imp_right fun habsorbs => habsorbs.of_still hsu
    refine ⟨t, ?_, hsu.trans hut⟩
    rw [List.foldlM_cons]
    exact bind_eq_ok.2 ⟨u, bind_eq_ok.2 ⟨j, elim_eq_ok.2 hj, hu⟩, ht⟩

/-- To execute an instruction again at the frame that it was executed at
    changes nothing. -/
theorem execute_still (hr : r.NoArrays) {j : Nat} {f : Frame} (hf : s.frame? j = some f)
    (h : p.Executed r s j f) : ∃ t, p.execute r s j = .ok t ∧ s.Still t := by
  obtain ⟨i, after, us, es, hi, hex, hedges, hus, hreceived⟩ := h
  have habsorbs {e : Nat × Frame} (he : e ∈ es) : s.Absorbs r e.1 e.2 := (hreceived e he).absorbs hr
  have hlearn := State.still_learn hus
  obtain ⟨s₁, hs₁, hstill₁⟩ : ∃ t,
      (s.learn us).flowAll r (p.handlerEdges j i f after) = .ok t ∧ s.Still t := by
    have hhandlers : ∀ e ∈ p.handlerEdges j i f after, (s.learn us).Absorbs r e.1 e.2 := by
      intro e he
      obtain ⟨h, hh, rfl | ⟨htouches, rfl⟩⟩ := mem_handlerEdges.1 he
      · exact (habsorbs (hedges.catches h hh)).of_still hlearn
      · exact (habsorbs (hedges.catchesChanged h hh htouches)).of_still hlearn
    obtain ⟨t, ht, hstill⟩ := State.still_flowAll hhandlers
    exact ⟨t, ht, hlearn.trans hstill⟩
  have htargets : ∀ l ∈ i.targets, ∃ j', p.labels.get? l = some j' ∧ s₁.Absorbs r j' after := by
    intro l hl
    obtain ⟨j', hj'⟩ := hedges.labels l hl
    exact ⟨j', hj', (habsorbs (hedges.follows j' ⟨i, hi, .inr ⟨l, hl, hj'⟩⟩)).of_still hstill₁⟩
  obtain ⟨s₂, hs₂, hstill₂⟩ := still_targets htargets
  have hstill₂ := hstill₁.trans hstill₂
  obtain ⟨next, hnext, hnextEdges⟩ : ∃ next, p.nextEdges j i after = .ok next ∧
      ∀ e ∈ next, e ∈ es := by
    unfold nextEdges
    split_ifs with hfalls hsize
    · exact ⟨_, rfl, List.forall_mem_singleton.2 (hedges.follows _ ⟨i, hi, .inl ⟨hfalls, rfl⟩⟩)⟩
    · exact absurd (hedges.next hfalls) hsize
    · exact ⟨_, rfl, nofun⟩
  have hfalls : ∀ e ∈ next, s₂.Absorbs r e.1 e.2 :=
    fun e he => (habsorbs (hnextEdges e he)).of_still hstill₂
  obtain ⟨s₃, hs₃, hstill₃⟩ := State.still_flowAll hfalls
  refine ⟨s₃, ?_, hstill₂.trans hstill₃⟩
  simp only [execute, hf, hi]
  exact bind_eq_ok.2 ⟨_, hex, bind_eq_ok.2 ⟨s₁, hs₁, bind_eq_ok.2 ⟨s₂, hs₂,
    bind_eq_ok.2 ⟨next, hnext, hs₃⟩⟩⟩⟩

/-! ## The executions of a run -/

/-- What a run executes, each instruction with the frame that it has then. -/
def history (r : Registry) (p : Flow) : Nat → State → List (Nat × Frame)
  | 0, _ => []
  | fuel + 1, s =>
    match s.queue with
    | [] => []
    | j :: _ =>
      ((s.frame? j).map (j, ·)).toList ++
        (p.step r s).toOption.elim [] (history r p fuel)

/-- The last execution of an instruction was at a frame. -/
def LastExecuted (h : List (Nat × Frame)) (j : Nat) (f : Frame) : Prop :=
  ∃ before later, h = before ++ (j, f) :: later ∧ ∀ e ∈ later, e.1 ≠ j

theorem LastExecuted.append_left {h : List (Nat × Frame)} {j : Nat} {f : Frame}
    (hlast : LastExecuted h j f) (h' : List (Nat × Frame)) : LastExecuted (h' ++ h) j f := by
  obtain ⟨before, later, rfl, hlater⟩ := hlast
  exact ⟨h' ++ before, later, by rw [List.append_assoc], hlater⟩

/-- What has a frame at the end of a run was last executed at it, or has it
    from the start and was neither queued then nor executed. -/
theorem lastExecuted_or (hp : p.Bounded) {limit fuel : Nat} (hsize : s.frames.size = p.code.size)
    (h : p.run r limit fuel s = .ok t) {j : Nat} {f : Frame} (hf : t.frame? j = some f) :
    LastExecuted (p.history r fuel s) j f ∨
      s.frame? j = some f ∧ j ∉ s.queue ∧ ∀ e ∈ p.history r fuel s, e.1 ≠ j := by
  induction fuel generalizing s with
  | zero =>
    obtain ⟨hqueue, rfl⟩ | ⟨_, _, _, _, -, hfuel, -⟩ := run_eq_ok h
    · exact .inr ⟨hf, by simp [hqueue], nofun⟩
    · cases hfuel
  | succ fuel ih =>
    obtain ⟨hqueue, rfl⟩ | ⟨j₀, queue, fuel', u, hqueue, hfuel, hu, h⟩ := run_eq_ok h
    · exact .inr ⟨hf, by simp [hqueue], by simp [history, hqueue]⟩
    obtain rfl := Nat.succ.inj hfuel
    have hgrows := grows_step hp hsize hqueue hu
    have hhistory : p.history r (fuel + 1) s =
        ((s.frame? j₀).map (j₀, ·)).toList ++ p.history r fuel u := by
      simp [history, hqueue, hu, Except.toOption]
    rw [hhistory, hqueue]
    rcases ih (hgrows.size.trans hsize) h with hlast | ⟨huf, hnot, hnever⟩
    · exact .inl (hlast.append_left _)
    have hsf : s.frame? j = some f := (hgrows.settled j f huf).resolve_left hnot
    by_cases hj : j = j₀
    · subst hj
      exact .inl ⟨[], p.history r fuel u, by rw [hsf]; rfl, hnever⟩
    · refine .inr ⟨hsf, ?_, List.forall_mem_append.2 ⟨fun e he => ?_, hnever⟩⟩
      · rw [List.mem_cons, not_or]
        exact ⟨hj, fun hmem => hnot (hgrows.queue j hmem)⟩
      · obtain ⟨g, -, rfl⟩ := Option.map_eq_some_iff.1 (Option.mem_toList.1 he)
        exact fun h => hj h.symm

/-- In a run from the entry every instruction was last executed at its final frame. -/
theorem lastExecuted_of_run (hp : p.Bounded) {limit fuel : Nat} {us : List FactUpdate}
    (h : p.run r limit fuel (.start p.code.size entry us) = .ok t) {j : Nat} {f : Frame}
    (hf : t.frame? j = some f) :
    LastExecuted (p.history r fuel (.start p.code.size entry us)) j f := by
  rcases lastExecuted_or hp (by simp [State.start]) h hf with hlast | ⟨hstart, hnot, -⟩
  · exact hlast
  · -- At the start only the entry has a frame, and it is queued.
    have hj : j ≠ 0 := fun hj => hnot (by simp [State.start, hj])
    simp only [State.frame?, State.start, Array.getElem?_setIfInBounds, if_neg hj.symm,
      Array.getElem?_replicate] at hstart
    split_ifs at hstart <;> simp at hstart

end Flow

/-! ## Analyses -/

/-- The frame of an instruction takes another one, and neither it nor the classes
    and their facts change. -/
def Solution.Settled (a : Solution) (r : Registry) (j : Nat) (incoming : Frame) : Prop :=
  ∃ f us, a.frame? j = some f ∧ f.merge r incoming = .ok (f, false, us) ∧
    a.facts.Agrees (a.facts.updateAll us)

theorem State.Received.settled (hr : r.NoArrays) {a : Solution} {n j : Nat} {f : Frame}
    (h : State.Received r ⟨a.frames, a.facts, [], n⟩ j f) : a.Settled r j f := by
  obtain ⟨g, hg, hgf⟩ := h.absorbs hr
  obtain ⟨us, hmerge, hus⟩ := hgf.merge_eq
  exact ⟨g, us, hg, hmerge, FactTable.agrees_updateAll hus⟩

/-- **An analysis that succeeds is a fixpoint.**  Every instruction with a frame was last
    executed at it; to execute it there again succeeds and teaches nothing; what flows to the
    next instructions and into handlers is taken without a change; and so the whole execution
    leaves the frames, the queue, the classes and the facts as they are. -/
theorem solve_fixpoint (hr : r.NoArrays) {limit : Nat} {owner : String} {m : Method}
    {a : Solution} (h : solve r limit owner m = .ok a) :
    m.code = [] ∧ (∀ j, a.frame? j = none) ∨
    ∃ d p entry us, MethodDescriptor.parse m.descriptor = .ok d ∧ m.flow d = .ok p ∧
      m.entryFrame owner d = .ok (entry, us) ∧ ∀ j f, a.frame? j = some f →
        Flow.LastExecuted (p.history r limit (.start p.code.size entry us)) j f ∧
        (∃ i after learnt, p.code[j]? = some i ∧ i.execute p.ret? j f = .ok (after, learnt) ∧
          a.facts.Agrees (a.facts.updateAll learnt) ∧
          (∀ j', p.Follows j j' → a.Settled r j' after) ∧
          ∀ h, p.Catches j h → a.Settled r h.entry (h.frame f) ∧
            (i.touchesLocals → a.Settled r h.entry (h.frame after))) ∧
        ∀ n, ∃ t, p.execute r ⟨a.frames, a.facts, [], n⟩ j = .ok t ∧ t.frames = a.frames ∧
          t.queue = [] ∧ a.facts.Agrees t.facts := by
  rcases eq_or_ne m.code [] with hcode | hcode
  · exact .inl ⟨hcode, frame?_of_code_eq_nil h hcode⟩
  obtain ⟨d, p, entry, us, n, hd, hp, hentry, hrun, hs⟩ := solve_settled h hcode
  refine .inr ⟨d, p, entry, us, hd, hp, hentry, fun j f hf => ?_⟩
  have hexecuted := hs.executed_of_settled rfl hf
  refine ⟨Flow.lastExecuted_of_run (Method.bounded_flow hp) hrun hf, ?_, fun n => ?_⟩
  · obtain ⟨i, after, learnt, es, hi, hex, hedges, hlearnt, hreceived⟩ := hexecuted
    refine ⟨i, after, learnt, hi, hex, FactTable.agrees_updateAll hlearnt, fun j' hj' => ?_,
      fun h hh => ⟨?_, fun htouches => ?_⟩⟩
    · exact (hreceived _ (hedges.follows j' hj')).settled hr
    · exact (hreceived _ (hedges.catches h hh)).settled hr
    · exact (hreceived _ (hedges.catchesChanged h hh htouches)).settled hr
  · obtain ⟨t, ht, hstill⟩ := Flow.execute_still (s := ⟨a.frames, a.facts, [], n⟩) hr hf hexecuted
    exact ⟨t, ht, hstill.frames, hstill.queue, hstill.facts⟩

/-- Class `B` is a subclass of `A`. -/
abbrev subclass : Registry := ClassRegistry.empty.addInfo ⟨"B", some "A", [], false, none⟩

/-- A loop that puts a value of class `A` in place of one of class `B`. -/
def widening : Method where
  access := Access.static
  name := "f"
  descriptor := "(LB;)V"
  code := [.label 0, .type .new "A", .var (.store .ref) 0, .jump .goto 0]
  tryBlocks := []
  maxLocals := 1
  maxStack := 1

def wideningFlow : Flow :=
  ⟨"f", "(LB;)V", widening.code.toArray, widening.labelPositions, [], none⟩

theorem solve_fixpoint_widening : ∃ a t, subclass.NoArrays ∧
    solve subclass defaultStepLimit "C" widening = .ok a ∧
    a.frame? 0 = some ⟨[⟨.ref "A", .insert (.singleton (.instruction 1)) (.parameter 0)⟩], []⟩ ∧
    wideningFlow.execute subclass ⟨a.frames, a.facts, [], 0⟩ 0 = .ok t ∧
    t.frames = a.frames ∧ t.queue = [] ∧ a.facts.Agrees t.facts := by
  have h : (solve subclass defaultStepLimit "C" widening).map (fun a => a.frame? 0) =
      .ok (some ⟨[⟨.ref "A", .insert (.singleton (.instruction 1)) (.parameter 0)⟩], []⟩) := by cbv
  obtain ⟨a, ha, hframe⟩ := map_eq_ok.1 h
  have hsubclass : subclass.NoArrays := by decide
  obtain ⟨hcode, -⟩ | ⟨d, p, entry, us, hd, hp, -, hall⟩ := solve_fixpoint hsubclass ha
  · cases hcode
  · have hparse : MethodDescriptor.parse widening.descriptor = .ok ⟨[.object "B"], .void⟩ := by cbv
    obtain rfl := Except.ok.inj (hparse.symm.trans hd)
    obtain rfl : wideningFlow = p := Except.ok.inj hp
    obtain ⟨-, -, hexecute⟩ := hall 0 _ hframe
    obtain ⟨t, ht, hframes, hqueue, hfacts⟩ := hexecute 0
    exact ⟨a, t, hsubclass, ha, hframe, ht, hframes, hqueue, hfacts⟩

end ConstRestore
