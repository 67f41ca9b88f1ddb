/-
  The shape of frames throughout an analysis.

  A frame is `Shaped` if it has a given number of local variables and every
  long or double among them has an unusable one after it.  Stores keep that,
  whichever half of a two-word value they overwrite, and so do merges, as types
  that meet are long or double only if both are.

  `Flow.Goes` takes a step of the worklist apart into the execution of an
  instruction and the arrivals of its frames, one by one, and remembers all that
  has arrived.  `Moment.Inv` holds at every moment on the way (`Flow.Goes.inv`):
  frames are shaped, and what arrived went into a frame that is there now, so it
  has the same stack height.
-/
import ConstRestore.Proofs.Grammar
import ConstRestore.Proofs.Locals
import ConstRestore.Proofs.Words

namespace ConstRestore

open Relation

/-! ## Two-word local variables -/

/-- Every local variable with a long or double has an unusable one after it. -/
def Paired (locals : List Slot) : Prop :=
  ∀ (i : Nat) (s : Slot), locals[i]? = some s → s.type = .long ∨ s.type = .double →
    ∃ t : Slot, locals[i + 1]? = some t ∧ t.type = .top

theorem Slot.size_eq_two_iff {s : Slot} : s.size = 2 ↔ s.type = .long ∨ s.type = .double := by
  unfold Slot.size
  cases s.type <;> simp [ValueType.size]

theorem not_wide_top : ¬ (Slot.top.type = .long ∨ Slot.top.type = .double) := by
  rintro (h | h) <;> cases h

theorem paired_replicate_top (n : Nat) : Paired (List.replicate n .top) := by
  intro i s hs hwide
  obtain rfl := List.eq_of_mem_replicate (List.mem_of_getElem? hs)
  exact absurd hwide not_wide_top

/-- The local variables when a store to `i` takes the second half of a two-word value away. -/
def splitBefore (locals : List Slot) (i : Nat) : List Slot :=
  if 0 < i ∧ (locals[i - 1]?).any (·.size = 2) then locals.set (i - 1) .top else locals

theorem storeAt_eq (locals : List Slot) (i : Nat) (s : Slot) :
    Frame.storeAt locals i s =
      if s.size = 2 then ((splitBefore locals i).set i s).set (i + 1) .top
      else (splitBefore locals i).set i s := rfl

theorem length_splitBefore (locals : List Slot) (i : Nat) :
    (splitBefore locals i).length = locals.length := by
  unfold splitBefore
  split_ifs
  · exact List.length_set
  · rfl

theorem getElem?_splitBefore {locals : List Slot} {i : Nat} (hi : i ≤ locals.length) (k : Nat) :
    (splitBefore locals i)[k]? =
      if k + 1 = i ∧ (locals[k]?).any (·.size = 2) then some .top else locals[k]? := by
  unfold splitBefore
  by_cases hbefore : 0 < i ∧ (locals[i - 1]?).any (·.size = 2)
  · obtain ⟨j, rfl⟩ := Nat.exists_eq_succ_of_ne_zero hbefore.1.ne'
    rw [if_pos hbefore, Nat.succ_sub_one, List.getElem?_set]
    by_cases hk : j = k
    · subst hk
      rw [if_pos rfl, if_pos (Nat.lt_of_succ_le hi), if_pos ⟨rfl, hbefore.2⟩]
    · rw [if_neg hk, if_neg fun h => hk (Nat.succ.inj h.1).symm]
  · rw [if_neg hbefore, if_neg]
    rintro ⟨rfl, hk⟩
    exact hbefore ⟨Nat.succ_pos k, hk⟩

/-- The local variables after a store that is in range, one by one. -/
theorem getElem?_storeAt {locals : List Slot} {i : Nat} {s : Slot}
    (h : i + s.size ≤ locals.length) (k : Nat) :
    (Frame.storeAt locals i s)[k]? =
      if k = i then some s
      else if k = i + 1 ∧ s.size = 2 then some .top
      else if k + 1 = i ∧ (locals[k]?).any (·.size = 2) then some .top
      else locals[k]? := by
  have hpos := s.size_pos
  have hlength := length_splitBefore locals i
  rw [← getElem?_splitBefore (by omega) k, storeAt_eq]
  by_cases hwide : s.size = 2
  · rw [if_pos hwide]
    simp only [List.getElem?_set, List.length_set, hwide, and_true]
    split_ifs <;> first | rfl | omega
  · rw [if_neg hwide]
    simp only [List.getElem?_set, hwide, and_false, if_false]
    split_ifs <;> first | rfl | omega

/-- A store keeps two-word values whole or makes what is left of them unusable. -/
theorem Paired.storeAt {locals : List Slot} (h : Paired locals) {i : Nat} {s : Slot}
    (hi : i + s.size ≤ locals.length) : Paired (Frame.storeAt locals i s) := by
  intro k x hx hwide
  rw [getElem?_storeAt hi] at hx ⊢
  by_cases hk : k = i
  · rw [if_pos hk] at hx
    obtain rfl := Option.some.inj hx
    rw [if_neg (by omega), if_pos ⟨by omega, Slot.size_eq_two_iff.2 hwide⟩]
    exact ⟨_, rfl, rfl⟩
  rw [if_neg hk] at hx
  split_ifs at hx with hsecond hbefore
  · obtain rfl := Option.some.inj hx
    exact absurd hwide not_wide_top
  · obtain rfl := Option.some.inj hx
    exact absurd hwide not_wide_top
  -- the value was there before, and the store is not to its second half
  obtain ⟨t, ht, httop⟩ := h k x hx hwide
  have hnext : k + 1 ≠ i := fun h => hbefore ⟨h, by
    rw [hx]
    exact decide_eq_true (Slot.size_eq_two_iff.2 hwide)⟩
  rw [if_neg hnext, if_neg (by omega)]
  split_ifs
  · exact ⟨_, rfl, rfl⟩
  · exact ⟨t, ht, httop⟩

/-! ### Merges -/

/-- Types that meet are of two words only if they are one type. -/
theorem ValueType.eq_of_join_wide {r : Registry} {s t : ValueType}
    (h : s.join r t = .long ∨ s.join r t = .double) : s = s.join r t ∧ t = s.join r t := by
  have hjoins := ValueType.joins r s t
  revert h
  generalize s.join r t = u at hjoins
  intro h
  cases hjoins with
  | self => exact ⟨rfl, rfl⟩
  | top | nullRef | refNull | ref | int | byteShort | shortByte => rcases h with h | h <;> cases h

theorem Slot.type_merge (r : Registry) (s t : Slot) :
    (s.merge r t).1.type = s.type.join r t.type := by
  by_cases h : s = t
  · rw [h, Slot.merge_self, ValueType.join_self]
  · rw [Slot.merge_of_ne h]

theorem mergeSlots_eq_zipWith (r : Registry) {ss ts : List Slot} (h : ss.length = ts.length) :
    (Frame.mergeSlots r ss ts).1 = List.zipWith (fun s t => (s.merge r t).1) ss ts := by
  induction ss generalizing ts with
  | nil => rfl
  | cons s ss ih =>
    cases ts with
    | nil => cases h
    | cons t ts =>
      rw [List.zipWith_cons_cons, ← ih (Nat.succ.inj h)]
      rfl

/-- Two-word values that meet stay whole, with the unusable halves behind them, and all others
    leave nothing of two words. -/
theorem Paired.mergeSlots {r : Registry} {ss ts : List Slot} (hs : Paired ss) (ht : Paired ts)
    (h : ss.length = ts.length) : Paired (Frame.mergeSlots r ss ts).1 := by
  intro i x hx hwide
  rw [mergeSlots_eq_zipWith r h] at hx ⊢
  obtain ⟨s, t, hsi, hti, rfl⟩ := List.getElem?_zipWith_eq_some.1 hx
  rw [Slot.type_merge] at hwide
  obtain ⟨hstype, httype⟩ := ValueType.eq_of_join_wide hwide
  obtain ⟨s', hs', hstop⟩ := hs i s hsi (hstype ▸ hwide)
  obtain ⟨t', ht', httop⟩ := ht i t hti (httype ▸ hwide)
  refine ⟨_, List.getElem?_zipWith_eq_some.2 ⟨s', t', hs', ht', rfl⟩, ?_⟩
  rw [Slot.type_merge, hstop, httop, ValueType.join_self]

/-! ## Frames -/

/-- A frame has `n` local variables, and those of two words are whole. -/
structure Frame.Shaped (n : Nat) (f : Frame) : Prop where
  length : f.locals.length = n
  paired : Paired f.locals

variable {r : Registry} {n : Nat}

namespace Frame.Shaped

variable {f g : Frame}

theorem empty (n : Nat) : (Frame.empty n).Shaped n := ⟨List.length_replicate, paired_replicate_top n⟩

theorem of_locals_eq (h : f.Shaped n) (hg : g.locals = f.locals) : g.Shaped n :=
  ⟨hg ▸ h.length, hg ▸ h.paired⟩

/-- A frame is as shaped as the one at a handler. -/
theorem handler (h : f.Shaped n) (handler : Handler) : (handler.frame f).Shaped n :=
  h.of_locals_eq rfl

theorem setLocal (h : f.Shaped n) (i : Nat) (s : Slot) : Yields (Shaped n) (f.setLocal i s) := by
  unfold Frame.setLocal
  split_ifs with hi
  · exact id
  · exact ⟨(length_storeAt ..).trans h.length, h.paired.storeAt (Nat.not_lt.1 hi)⟩

theorem setLocal_ok (h : f.Shaped n) {i : Nat} {s : Slot} (hi : i + s.size ≤ n) :
    ∃ g, f.setLocal i s = .ok g ∧ g.Shaped n := by
  have hset : f.setLocal i s = .ok { f with locals := storeAt f.locals i s } := by
    rw [Frame.setLocal, if_neg (by rw [h.length]; omega)]
  exact ⟨_, hset, (h.setLocal i s).of_ok hset⟩

theorem merge (hf : f.Shaped n) (hg : g.Shaped n) {merged : Frame} {changed : Bool}
    {us : List FactUpdate} (h : f.merge r g = .ok (merged, changed, us)) : merged.Shaped n := by
  obtain ⟨-, hlength, rfl, -, -⟩ := Frame.merge_eq_ok.1 h
  refine ⟨?_, hf.paired.mergeSlots hg.paired hlength⟩
  change (Frame.mergeSlots r f.locals g.locals).1.length = n
  rw [mergeSlots_eq_zipWith r hlength, List.length_zipWith, hf.length, hg.length, Nat.min_self]

/-- Every instruction keeps the shape of frames. -/
theorem execute (h : f.Shaped n) (i : Instr) (ret? : Option DataType) (index : Nat) :
    Yields (fun x => x.1.Shaped n) (i.execute ret? index f) := by
  have hlocals : Yields (fun x => x.1.locals.length = n ∧ Paired x.1.locals)
      (i.execute ret? index f) :=
    Instr.execute_stores (P := fun locals => locals.length = n ∧ Paired locals)
      ⟨h.length, h.paired⟩
      (fun g hg slot s => ((h.of_locals_eq hg).setLocal slot s).imp fun _ h => ⟨h.length, h.paired⟩)
      i ret?
  exact hlocals.imp fun _ hx => ⟨hx.1, hx.2⟩

end Frame.Shaped

/-! ### Entry -/

theorem ValueType.size_of_descriptor {d : Descriptor} (hd : d.IsField) (s : Source) :
    (Slot.ofSource ((ValueType.ofDescriptor? d).getD .top) s).size = d.size := by
  cases d <;> first | rfl | exact absurd rfl hd.ne_void

namespace Method

theorem argumentSlots_eq_sum (d : MethodDescriptor) :
    d.argumentSlots = (d.params.zipIdx.map fun p => p.1.size).sum := by
  have hsizes : d.params.zipIdx.map (fun p => p.1.size) = d.params.map Descriptor.size := by
    conv_rhs => rw [← List.zipIdx_map_fst 0 d.params, List.map_map]
    rfl
  rw [hsizes, List.sum_eq_foldl, List.foldl_map, MethodDescriptor.argumentSlots]

/-- Parameters that fit the local variables can be stored. -/
theorem storeParams_ok {params : List (Descriptor × Nat)} {slot : Nat} {f : Frame}
    (h : f.Shaped n) (hparams : ∀ p ∈ params, p.1.IsField)
    (hfit : slot + (params.map fun p => p.1.size).sum ≤ n) :
    ∃ g us, storeParams params slot f = .ok (g, us) ∧ g.Shaped n := by
  induction params generalizing slot f with
  | nil => exact ⟨f, [], rfl, h⟩
  | cons param params ih =>
    obtain ⟨d, index⟩ := param
    obtain ⟨hd, hparams⟩ := List.forall_mem_cons.1 hparams
    have hrest : slot + d.size + (params.map fun p => p.1.size).sum ≤ n := by
      rwa [List.map_cons, List.sum_cons, ← Nat.add_assoc] at hfit
    have hsize := ValueType.size_of_descriptor hd (.parameter index)
    obtain ⟨f', hset, hf'⟩ := h.setLocal_ok (i := slot) (hsize ▸ Nat.le_of_add_right_le hrest)
    obtain ⟨g, us, hstore, hg⟩ := ih hf' hparams hrest
    exact ⟨g, _, bind_eq_ok.2 ⟨f', hset, bind_eq_ok.2 ⟨(g, us), hstore, rfl⟩⟩, hg⟩

/-- The frame at the entry of a method with a proper descriptor exists and is shaped. -/
theorem entryFrame_ok {m : Method} {d : MethodDescriptor}
    (hd : MethodDescriptor.parse m.descriptor = .ok d) (owner : String) :
    ∃ entry us, m.entryFrame owner d = .ok (entry, us) ∧
      entry.Shaped (max m.maxLocals (m.receivedLocals d)) := by
  have hfields : ∀ p ∈ d.params.zipIdx, p.1.IsField := fun p hp =>
    (MethodDescriptor.parse_eq_ok_iff.1 hd).1.1 p.1 (List.fst_mem_of_mem_zipIdx hp)
  have hempty := Frame.Shaped.empty (max m.maxLocals (m.receivedLocals d))
  have hfit : (if m.isStatic then 0 else 1) + (d.params.zipIdx.map fun p => p.1.size).sum ≤
      max m.maxLocals (m.receivedLocals d) := by
    rw [← argumentSlots_eq_sum]
    exact Nat.le_max_right ..
  unfold entryFrame
  unfold receivedLocals at hempty hfit ⊢
  dsimp only
  split_ifs at hempty hfit ⊢ with hstatic
  · obtain ⟨entry, us, hstore, hentry⟩ := storeParams_ok hempty hfields hfit
    exact ⟨entry, us, bind_eq_ok.2 ⟨_, rfl, hstore⟩, hentry⟩
  · obtain ⟨f, hf, hshaped⟩ := hempty.setLocal_ok (i := 0)
      (s := .untracked (.ref owner)) (Nat.le_of_add_right_le hfit)
    obtain ⟨entry, us, hstore, hentry⟩ := storeParams_ok hshaped hfields hfit
    exact ⟨entry, us, bind_eq_ok.2 ⟨f, hf, hstore⟩, hentry⟩

end Method

/-! ## Moments of an analysis -/

/-- A moment of an analysis: the state, the frames of the last instruction that are still to
    arrive, with where they go, and all that have arrived. -/
structure Moment where
  state : State
  pending : List (Except FlowError Nat × Frame)
  arrived : List (Nat × Frame)

namespace Flow

variable {p : Flow} {s t : State}

/-- Where the frames of an instruction go, in order: to handlers, to the labels of the
    instruction, and on to the next one. -/
def exits (p : Flow) (index : Nat) (i : Instr) (before after : Frame) :
    List (Except FlowError Nat × Frame) :=
  (p.handlerEdges index i before after).map (fun e : Nat × Frame => (.ok e.1, e.2)) ++
    i.targets.map (fun l : Label => (p.position l, after)) ++
    if fallsThrough i then
      [(if index + 1 < p.code.size then .ok (index + 1) else .error (.fallsOff p.name p.descriptor),
        after)]
    else []

/-- What moves an analysis on. -/
inductive Goes (r : Registry) (p : Flow) : Moment → Moment → Prop
  /-- The first instruction of the queue is executed, and its frames are to arrive. -/
  | execute {s : State} {index : Nat} {queue : List Nat} {before after : Frame} {i : Instr}
      {us : List FactUpdate} {arrived : List (Nat × Frame)} :
      s.queue = index :: queue → s.frame? index = some before → p.code[index]? = some i →
      i.execute p.ret? index before = .ok (after, us) →
      Goes r p ⟨s, [], arrived⟩
        ⟨({ s with queue, iterations := s.iterations + 1 } : State).learn us,
          p.exits index i before after, arrived⟩
  /-- There is nothing to execute. -/
  | skip {s : State} {index : Nat} {queue : List Nat} {arrived : List (Nat × Frame)} :
      s.queue = index :: queue → s.frame? index = none ∨ p.code[index]? = none →
      Goes r p ⟨s, [], arrived⟩ ⟨{ s with queue, iterations := s.iterations + 1 }, [], arrived⟩
  /-- A frame arrives. -/
  | arrive {s t : State} {j : Nat} {f : Frame} {pending : List (Except FlowError Nat × Frame)}
      {arrived : List (Nat × Frame)} :
      s.flow r j f = .ok t → Goes r p ⟨s, (.ok j, f) :: pending, arrived⟩
        ⟨t, pending, (j, f) :: arrived⟩

/-! ### Steps as moves -/

/-- Frames arrive one after the other where they go. -/
def arriveAll (r : Registry) (s : State) (es : List (Except FlowError Nat × Frame)) :
    Except FlowError State :=
  es.foldlM (fun s e => do s.flow r (← e.1) e.2) s

/-- The flow to the next instruction, as the last exit. -/
theorem arriveAll_next (r : Registry) (p : Flow) (s : State) (index : Nat) (i : Instr)
    (after : Frame) :
    p.nextEdges index i after >>= s.flowAll r =
      arriveAll r s (if fallsThrough i then
        [(if index + 1 < p.code.size then .ok (index + 1)
          else .error (.fallsOff p.name p.descriptor), after)] else []) := by
  unfold nextEdges
  split_ifs <;> rfl

/-- An execution is the one of the instruction with the arrivals of its frames. -/
theorem execute_eq {index : Nat} {before : Frame} {i : Instr}
    (hbefore : s.frame? index = some before) (hi : p.code[index]? = some i) :
    p.execute r s index = i.execute p.ret? index before >>= fun (after, us) =>
      arriveAll r (s.learn us) (p.exits index i before after) := by
  unfold execute
  simp only [hbefore, hi]
  refine bind_congr fun ⟨after, us⟩ => ?_
  simp only [arriveAll_next]
  simp only [arriveAll, exits, List.foldlM_append, List.foldlM_map, bind_assoc]
  rfl

theorem goes_arriveAll {es : List (Except FlowError Nat × Frame)} (h : arriveAll r s es = .ok t)
    (arrived : List (Nat × Frame)) :
    ∃ arrived', ReflTransGen (p.Goes r) ⟨s, es, arrived⟩ ⟨t, [], arrived'⟩ := by
  induction es generalizing s arrived with
  | nil =>
    obtain rfl := Except.ok.inj h
    exact ⟨arrived, .refl⟩
  | cons e es ih =>
    obtain ⟨target, f⟩ := e
    rw [arriveAll, List.foldlM_cons] at h
    obtain ⟨u, hu, hrest⟩ := bind_eq_ok.1 h
    obtain ⟨j, rfl, hflow⟩ := bind_eq_ok.1 hu
    obtain ⟨arrived', hgoes⟩ := ih hrest ((j, f) :: arrived)
    exact ⟨arrived', .head (.arrive hflow) hgoes⟩

/-- A step of the worklist is made of moves. -/
theorem goes_step (h : p.step r s = .ok t) (arrived : List (Nat × Frame)) :
    ∃ arrived', ReflTransGen (p.Goes r) ⟨s, [], arrived⟩ ⟨t, [], arrived'⟩ := by
  unfold step at h
  split at h
  · obtain rfl := Except.ok.inj h
    exact ⟨arrived, .refl⟩
  · next index queue hqueue =>
    by_cases hnone : s.frame? index = none ∨ p.code[index]? = none
    · have hskip : p.execute r { s with queue, iterations := s.iterations + 1 } index =
          .ok { s with queue, iterations := s.iterations + 1 } := by
        unfold execute
        split
        · next before i hbefore hi =>
          rcases hnone with hnone | hnone
          · cases hnone.symm.trans hbefore
          · cases hnone.symm.trans hi
        · rfl
      obtain rfl := Except.ok.inj (hskip.symm.trans h)
      exact ⟨arrived, .single (.skip hqueue hnone)⟩
    · rw [not_or] at hnone
      obtain ⟨before, hbefore⟩ := Option.ne_none_iff_exists'.1 hnone.1
      obtain ⟨i, hi⟩ := Option.ne_none_iff_exists'.1 hnone.2
      let u : State := { s with queue, iterations := s.iterations + 1 }
      have hu : u.frame? index = some before := hbefore
      obtain ⟨⟨after, us⟩, hex, harrive⟩ := bind_eq_ok.1 ((execute_eq hu hi).symm.trans h)
      obtain ⟨arrived', hgoes⟩ := goes_arriveAll (p := p) harrive arrived
      exact ⟨arrived', .head (.execute hqueue hbefore hi hex) hgoes⟩

/-- Steps one after the other. -/
theorem goes_steps (h : ReflTransGen (fun s t => p.step r s = .ok t) s t)
    (arrived : List (Nat × Frame)) :
    ∃ arrived', ReflTransGen (p.Goes r) ⟨s, [], arrived⟩ ⟨t, [], arrived'⟩ := by
  induction h with
  | refl => exact ⟨arrived, .refl⟩
  | tail _ hstep ih =>
    obtain ⟨arrived', hgoes⟩ := ih
    obtain ⟨arrived'', hgoes'⟩ := goes_step hstep arrived'
    exact ⟨arrived'', hgoes.trans hgoes'⟩

/-- A run is made of steps. -/
theorem steps_run {limit fuel : Nat} (h : p.run r limit fuel s = .ok t) :
    ReflTransGen (fun s t => p.step r s = .ok t) s t := by
  induction fuel generalizing s with
  | zero =>
    rcases run_eq_ok h with ⟨-, rfl⟩ | ⟨_, _, _, _, -, hfuel, -⟩
    · exact .refl
    · cases hfuel
  | succ fuel ih =>
    rcases run_eq_ok h with ⟨-, rfl⟩ | ⟨j, queue, fuel', u, -, hfuel, hstep, hrun⟩
    · exact .refl
    · obtain rfl := Nat.succ.inj hfuel
      exact .head hstep (ih hrun)

end Flow

/-! ### The invariant -/

/-- Frames are shaped wherever they are, and those that arrived went into frames that are there. -/
structure Moment.Inv (r : Registry) (p : Flow) (n : Nat) (x : Moment) : Prop where
  size : x.state.frames.size = p.code.size
  frames : ∀ j f, x.state.frame? j = some f → f.Shaped n
  pending : ∀ e ∈ x.pending, e.2.Shaped n ∧ ∀ j, e.1 = .ok j → j < p.code.size
  arrived : ∀ e ∈ x.arrived, e.2.Shaped n ∧ x.state.Received r e.1 e.2

section

variable {p : Flow} {s t : State} {x y : Moment}

/-- The frames that leave an instruction are shaped and go to instructions of the method. -/
theorem Flow.shaped_exits (hp : p.Bounded) {index : Nat} {i : Instr} {before after : Frame}
    (hbefore : before.Shaped n) (hafter : after.Shaped n) {e : Except FlowError Nat × Frame}
    (he : e ∈ p.exits index i before after) :
    e.2.Shaped n ∧ ∀ j, e.1 = .ok j → j < p.code.size := by
  rcases List.mem_append.1 he with he | he
  · rcases List.mem_append.1 he with he | he
    · obtain ⟨edge, hedge, rfl⟩ := List.mem_map.1 he
      obtain ⟨h, hh, rfl | ⟨-, rfl⟩⟩ := Flow.mem_handlerEdges.1 hedge
      · refine ⟨hbefore.handler h, fun j hj => ?_⟩
        obtain rfl := Except.ok.inj hj
        exact hp.handlers h hh.1
      · refine ⟨hafter.handler h, fun j hj => ?_⟩
        obtain rfl := Except.ok.inj hj
        exact hp.handlers h hh.1
    · obtain ⟨l, -, rfl⟩ := List.mem_map.1 he
      exact ⟨hafter, fun j hj => hp.labels l j (elim_eq_ok.1 hj)⟩
  · split_ifs at he with hfalls hnext
    · obtain rfl := List.mem_singleton.1 he
      refine ⟨hafter, fun j hj => ?_⟩
      obtain rfl := Except.ok.inj hj
      exact hnext
    · obtain rfl := List.mem_singleton.1 he
      exact ⟨hafter, nofun⟩
    · cases he

/-- A frame that arrives leaves all frames shaped. -/
theorem State.shaped_flow {j : Nat} {f : Frame} (h : s.flow r j f = .ok t)
    (hs : ∀ j f, s.frame? j = some f → f.Shaped n) (hf : f.Shaped n) :
    ∀ k g, t.frame? k = some g → g.Shaped n := by
  have hset {u : State} {merged : Frame} (hmerged : merged.Shaped n)
      (hu : ∀ k, u.frame? k = (s.setFrame j merged).frame? k) :
      ∀ k g, u.frame? k = some g → g.Shaped n := by
    intro k g hg
    rw [hu, frame?_setFrame] at hg
    split_ifs at hg
    · obtain rfl := Option.some.inj hg
      exact hmerged
    · exact hs k g hg
  unfold flow at h
  split at h
  · obtain rfl := Except.ok.inj h
    exact hset hf fun k => frame?_enqueue _ j k
  · next old hold =>
    obtain ⟨⟨merged, changed, us⟩, hmerge, h⟩ := bind_eq_ok.1 h
    obtain rfl := Except.ok.inj h
    refine hset ((hs j old hold).merge hf hmerge) fun k => ?_
    split_ifs
    · exact frame?_enqueue _ j k
    · rfl

/-- Every move keeps the invariant. -/
theorem Flow.Goes.inv (hp : p.Bounded) (h : p.Goes r x y) (hx : x.Inv r p n) : y.Inv r p n := by
  cases h with
  | @execute s index queue before after i us arrived hqueue hbefore hi hex =>
    have hbeforeShaped := hx.frames index before hbefore
    have hafter : after.Shaped n := (hbeforeShaped.execute i p.ret? index).of_ok hex
    refine ⟨hx.size, hx.frames, fun e he => shaped_exits hp hbeforeShaped hafter he,
      fun e he => ⟨(hx.arrived e he).1, ?_⟩⟩
    have hreceived : State.Received r { s with queue, iterations := s.iterations + 1 } e.1 e.2 :=
      (hx.arrived e he).2
    exact (State.grows_learn _ us).received hreceived
  | skip => exact ⟨hx.size, hx.frames, hx.pending, hx.arrived⟩
  | @arrive s t j f pending arrived hflow =>
    obtain ⟨⟨hf, hj⟩, hpending⟩ := List.forall_mem_cons.1 hx.pending
    have harrived := State.arrived_flow hflow (hx.size ▸ hj j rfl)
    refine ⟨harrived.grows.size.trans hx.size, State.shaped_flow hflow hx.frames hf, hpending,
      List.forall_mem_cons.2 ⟨⟨hf, harrived.received _ List.mem_cons_self⟩, fun e he => ?_⟩⟩
    exact ⟨(hx.arrived e he).1, harrived.grows.received (hx.arrived e he).2⟩

/-- An analysis begins with the frame at the entry, which has arrived at the first instruction. -/
def Moment.start (p : Flow) (entry : Frame) (us : List FactUpdate) : Moment :=
  ⟨.start p.code.size entry us, [], [(0, entry)]⟩

theorem Moment.inv_start {entry : Frame} (hentry : entry.Shaped n) (hsize : 0 < p.code.size)
    (us : List FactUpdate) : (Moment.start p entry us).Inv r p n := by
  have hs : p.Inv r entry (.start p.code.size entry us) := Flow.inv_start hsize
  refine ⟨hs.size, fun j f hf => ?_, fun e he => absurd he List.not_mem_nil,
    List.forall_mem_singleton.2 ⟨hentry, hs.entry⟩⟩
  simp only [start, State.frame?, State.start, Array.getElem?_setIfInBounds,
    Array.getElem?_replicate] at hf
  split_ifs at hf
  · obtain rfl := Option.some.inj hf
    exact hentry
  all_goals cases hf

theorem Moment.inv_of_goes (hp : p.Bounded) (h : ReflTransGen (p.Goes r) x y)
    (hx : x.Inv r p n) : y.Inv r p n := by
  induction h with
  | refl => exact hx
  | tail _ hstep ih => exact hstep.inv hp ih

end

/-- **Frames are well formed throughout an analysis.**  A method with a proper descriptor has a
    frame at its entry.  From there on, whatever the analysis has done: all frames in its
    state and all that are on their way or have arrived have as many local variables as the
    method, or as a call of it fills, and two-word local variables are whole; and all frames
    that ever arrived at an instruction have the stack height of the one that it has now.
    Steps of the worklist are made of such moves, and an analysis that ends is a
    sequence of steps. -/
theorem frames_shaped (r : Registry) (owner : String) (m : Method) (d : MethodDescriptor)
    (hd : MethodDescriptor.parse m.descriptor = .ok d) :
    ∃ entry us, m.entryFrame owner d = .ok (entry, us) ∧
      entry.Shaped (max m.maxLocals (m.receivedLocals d)) ∧
      ∀ p, m.flow d = .ok p → m.code ≠ [] →
        (∀ x, ReflTransGen (p.Goes r) (.start p entry us) x →
          (∀ j f, x.state.frame? j = some f → f.Shaped (max m.maxLocals (m.receivedLocals d))) ∧
          (∀ e ∈ x.pending, e.2.Shaped (max m.maxLocals (m.receivedLocals d))) ∧
          ∀ e ∈ x.arrived, e.2.Shaped (max m.maxLocals (m.receivedLocals d)) ∧
            ∃ f, x.state.frame? e.1 = some f ∧ e.2.stack.length = f.stack.length) ∧
        (∀ s, ReflTransGen (fun s t => p.step r s = .ok t) (.start p.code.size entry us) s →
          ∃ arrived, ReflTransGen (p.Goes r) (.start p entry us) ⟨s, [], arrived⟩) ∧
        ∀ limit a, solve r limit owner m = .ok a →
          ∃ s, ReflTransGen (fun s t => p.step r s = .ok t) (.start p.code.size entry us) s ∧
            a.frames = s.frames := by
  obtain ⟨entry, us, hentry, hshaped⟩ := Method.entryFrame_ok hd owner
  refine ⟨entry, us, hentry, hshaped, fun p hp hcode => ⟨fun x hx => ?_, fun s hs => ?_, ?_⟩⟩
  · have hsize : 0 < p.code.size := by
      rw [Method.size_flow hp]
      exact List.length_pos_of_ne_nil hcode
    have hinv := Moment.inv_of_goes (Method.bounded_flow hp) hx (Moment.inv_start hshaped hsize us)
    refine ⟨hinv.frames, fun e he => (hinv.pending e he).1, fun e he => ?_⟩
    obtain ⟨he, hreceived⟩ := hinv.arrived e he
    obtain ⟨f, hf, hwithin⟩ := hreceived.covers
    exact ⟨he, f, hf, hwithin.stack.length_eq⟩
  · exact Flow.goes_steps hs [(0, entry)]
  · intro limit a ha
    obtain ⟨d', p', entry', us', s, hd', hp', hentry', hrun, hframes, -⟩ := run_of_solve ha hcode
    obtain rfl := Except.ok.inj (hd.symm.trans hd')
    obtain rfl := Except.ok.inj (hp.symm.trans hp')
    obtain ⟨rfl, rfl⟩ := Prod.mk.inj (Except.ok.inj (hentry.symm.trans hentry'))
    exact ⟨s, Flow.steps_run hrun, hframes⟩

/-- A loop that overwrites the second half of a long parameter, so the first one is unusable where
    the paths meet. -/
theorem frames_shaped_overwritten :
    let m : Method := ⟨Access.static, "f", "(J)V",
      [.label 0, .int .bipush 7, .var (.store .int) 1, .jump .goto 0], [], 0, 1⟩
    let d : MethodDescriptor := ⟨[.long], .void⟩
    MethodDescriptor.parse m.descriptor = .ok d ∧
      ∃ entry us p, m.entryFrame "A" d = .ok (entry, us) ∧ m.flow d = .ok p ∧
        ∀ x, ReflTransGen (p.Goes .empty) (.start p entry us) x →
          ∀ j f, x.state.frame? j = some f → f.Shaped 2 := by
  intro m d
  have hd : MethodDescriptor.parse m.descriptor = .ok d := by cbv
  obtain ⟨entry, us, hentry, -, hrun⟩ := frames_shaped .empty "A" m d hd
  have hn : max m.maxLocals (m.receivedLocals d) = 2 := by decide
  rw [hn] at hrun
  obtain ⟨hgoes, -⟩ := hrun ⟨"f", "(J)V", m.code.toArray, m.labelPositions, [], none⟩ rfl
    (List.cons_ne_nil _ _)
  exact ⟨hd, entry, us, _, hentry, rfl, fun x hx => (hgoes x hx).1⟩

end ConstRestore
