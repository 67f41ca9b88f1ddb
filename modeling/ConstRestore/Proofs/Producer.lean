/-
  Calls that are noted on a value.

  A call is noted on the values that it takes and on the one that it gives.  So
  when an analysis is done, a call that is noted on a class of values gives a
  value of the class or takes one as an argument, and a call that gives a value
  of the class is noted on it (`solve_calls`).
-/
import ConstRestore.Proofs.Spread

namespace ConstRestore

variable {r : Registry}

/-! ## What a call learns -/

section Call

variable {f f' : Frame} {us : List FactUpdate} {index : Nat} {y : Source} {k : Nat}

theorem not_usage_mem_passed {s : Slot} {position : Nat} :
    .record y (.usage k) ∉ passed s index position := by
  intro h
  obtain ⟨x, -, hx⟩ := List.mem_map.1 h
  cases hx

theorem mem_sources_of_consumed {s : Slot} {narrow? : Option DataType}
    (h : .record y (.usage k) ∈ consumed s index narrow?) : y ∈ s.sources := by
  obtain ⟨x, hx, h⟩ := List.mem_flatMap.1 h
  rcases List.mem_cons.1 h with heq | h
  · obtain ⟨rfl, -⟩ := FactUpdate.record.inj heq
    exact hx
  · obtain ⟨t, -, ht⟩ := List.mem_map.1 h
    cases ht

/-- The uses noted by popping arguments are those of arguments. -/
theorem argument_of_popArguments {params : List (Descriptor × Nat)}
    (h : f.popArguments index params = .ok (f', us)) (hmem : .record y (.usage k) ∈ us) :
    ∃ position, .record y (.paramUsage ⟨index, position⟩) ∈ us := by
  induction params generalizing f f' us with
  | nil =>
    obtain ⟨-, rfl⟩ := Prod.mk.inj (Except.ok.inj h)
    exact absurd hmem List.not_mem_nil
  | cons p params ih =>
    obtain ⟨⟨s, f₁⟩, -, h⟩ := bind_eq_ok.1 h
    obtain ⟨⟨f₂, rest⟩, hrest, h⟩ := bind_eq_ok.1 h
    obtain ⟨-, rfl⟩ := Prod.mk.inj (Except.ok.inj h)
    rcases List.mem_append.1 hmem with hmem | hmem
    · rcases List.mem_append.1 hmem with hmem | hmem
      · exact absurd hmem not_usage_mem_passed
      · refine ⟨p.2, List.mem_append_left _ (List.mem_append_left _ ?_)⟩
        exact List.mem_map.2 ⟨y, mem_sources_of_consumed hmem, rfl⟩
    · obtain ⟨position, hposition⟩ := ih hrest hmem
      exact ⟨position, List.mem_append_right _ hposition⟩

/-- What a call learns is learnt of its arguments, and then of its result. -/
theorem call_eq_ok {descriptor : String} {hasReceiver : Bool}
    (h : f.call index descriptor hasReceiver = .ok (f', us)) :
    ∃ d f₁ f₂ us₁, MethodDescriptor.parse descriptor = .ok d ∧
      f.popArguments index d.params.zipIdx.reverse = .ok (f₁, us₁) ∧
      us = us₁ ++ (Frame.pushResult f₂ index d.ret).2 := by
  obtain ⟨d, hd, h⟩ := bind_eq_ok.1 h
  obtain ⟨⟨f₁, us₁⟩, hpop, h⟩ := bind_eq_ok.1 h
  cases hasReceiver <;>
  · obtain ⟨f₂, -, h⟩ := bind_eq_ok.1 h
    obtain ⟨-, rfl⟩ := Prod.mk.inj (Except.ok.inj h)
    exact ⟨d, f₁, f₂, us₁, mapError_eq_ok.1 hd, hpop, rfl⟩

/-- A call is noted on what it takes and on what it gives. -/
theorem usage_of_call {descriptor : String} {hasReceiver : Bool}
    (h : f.call index descriptor hasReceiver = .ok (f', us)) (hmem : .record y (.usage k) ∈ us) :
    y = .instruction index ∨ ∃ position, .record y (.paramUsage ⟨index, position⟩) ∈ us := by
  obtain ⟨d, f₁, f₂, us₁, -, hpop, rfl⟩ := call_eq_ok h
  rcases List.mem_append.1 hmem with hmem | hmem
  · obtain ⟨position, hposition⟩ := argument_of_popArguments hpop hmem
    exact .inr ⟨position, List.mem_append_left _ hposition⟩
  · unfold Frame.pushResult at hmem
    split at hmem
    · exact absurd hmem List.not_mem_nil
    · obtain ⟨rfl, -⟩ := FactUpdate.record.inj (List.mem_singleton.1 hmem)
      exact .inl rfl

/-- A call that gives a value is noted on it. -/
theorem usage_mem_call {descriptor : String} {hasReceiver : Bool}
    (h : f.call index descriptor hasReceiver = .ok (f', us)) (hvalue : GivesValue descriptor) :
    .record (.instruction index) (.usage index) ∈ us := by
  obtain ⟨d, f₁, f₂, us₁, hd, -, rfl⟩ := call_eq_ok h
  obtain ⟨d', hd', hret⟩ := hvalue
  obtain rfl := Except.ok.inj (hd.symm.trans hd')
  refine List.mem_append_right _ ?_
  unfold Frame.pushResult
  split
  · next hnone => exact absurd hnone hret
  · exact List.mem_singleton.2 rfl

end Call

/-! ## Tables -/

namespace FactTable

variable {t : FactTable} {calls : Nat → Prop} {us : List FactUpdate}

/-- A call that is noted on a value gives it or takes it. -/
def Explained (t : FactTable) (calls : Nat → Prop) : Prop :=
  ∀ x j, calls j → t.Knows x (.usage j) →
    t.Same x (.instruction j) ∨ ∃ position, t.Knows x (.paramUsage ⟨j, position⟩)

/-- If a source is a call, the call is noted on it. -/
def Noted (t : FactTable) (calls : Nat → Prop) (x : Source) : Prop :=
  ∀ j, calls j → x = .instruction j → t.Knows x (.usage j)

theorem explained_empty (calls : Nat → Prop) : empty.Explained calls := by
  intro x j _ h
  exact (below_empty (fun _ _ => False) x x h.same_self).elim

theorem Explained.updateAll (h : t.Explained calls)
    (hus : ∀ y j, calls j → .record y (.usage j) ∈ us →
      y = .instruction j ∨ ∃ position, .record y (.paramUsage ⟨j, position⟩) ∈ us) :
    (t.updateAll us).Explained calls := by
  have hgrown := grown_updateAll t us
  intro x j hj hknows
  obtain ⟨y, hxy, hy | hy⟩ := (hgrown.knows x (.usage j)).1 hknows
  · rcases h y j hj hy with hsame | ⟨position, hposition⟩
    · exact .inl (hxy.trans (hsame.updateAll us))
    · exact .inr ⟨position, (hposition.updateAll us).of_same hxy.symm⟩
  · rcases hus y j hj hy with rfl | ⟨position, hposition⟩
    · exact .inl hxy
    · exact .inr ⟨position, (knows_updateAll t hposition).of_same hxy.symm⟩

theorem Explained.of_unites (h : t.Explained calls) (hus : ∀ up ∈ us, ¬up.IsRecord) :
    (t.updateAll us).Explained calls :=
  h.updateAll fun _ _ _ hmem => absurd trivial (hus _ hmem)

theorem Noted.mono {u : FactTable} {x : Source} (h : t.Noted calls x)
    (hfacts : ∀ up, t.Has up → u.Has up) : u.Noted calls x :=
  fun j hj hx => hfacts (.record x (.usage j)) (h j hj hx)

end FactTable

/-! ## Runs -/

theorem Slot.unite_of_merge {s a : Slot} : ∀ up ∈ (s.merge r a).2.2, ¬up.IsRecord := by
  by_cases hne : s = a
  · rw [hne, merge_self]
    exact List.forall_mem_nil _
  · rw [merge_of_ne hne]
    split_ifs
    · exact List.forall_mem_nil _
    · exact fun up hup => List.mem_singleton.1 hup ▸ id

theorem Frame.unite_of_mergeSlots {ss as : List Slot} :
    ∀ up ∈ (mergeSlots r ss as).2.2, ¬up.IsRecord := by
  induction ss generalizing as with
  | nil => cases as <;> exact nofun
  | cons s ss ih =>
    cases as with
    | nil => exact nofun
    | cons a as => exact List.forall_mem_append.2 ⟨Slot.unite_of_merge, ih⟩

theorem Frame.unite_of_merge {f g merged : Frame} {changed : Bool} {us : List FactUpdate}
    (h : f.merge r g = .ok (merged, changed, us)) : ∀ up ∈ us, ¬up.IsRecord := by
  obtain ⟨-, -, -, -, rfl⟩ := merge_eq_ok.1 h
  exact List.forall_mem_append.2 ⟨unite_of_mergeSlots, unite_of_mergeSlots⟩

/-- Arrivals record nothing. -/
theorem State.facts_flow {s t : State} {j : Nat} {f : Frame} (h : s.flow r j f = .ok t) :
    ∃ us, t.facts = s.facts.updateAll us ∧ ∀ up ∈ us, ¬up.IsRecord := by
  unfold flow at h
  split at h
  · obtain rfl := Except.ok.inj h
    exact ⟨[], by rw [facts_enqueue]; rfl, nofun⟩
  · obtain ⟨⟨merged, changed, us⟩, hmerge, h⟩ := bind_eq_ok.1 h
    refine ⟨us, ?_, Frame.unite_of_merge hmerge⟩
    cases changed with
    | true =>
      obtain rfl : ((s.setFrame j merged).learn us).enqueue j = t := Except.ok.inj h
      rw [facts_enqueue]
      rfl
    | false =>
      obtain rfl : (s.setFrame j merged).learn us = t := Except.ok.inj h
      rfl

namespace Flow

variable {p : Flow} {s t : State}

/-- The instruction at an index calls a method. -/
def Calls (p : Flow) (j : Nat) : Prop := ∃ op site, p.code[j]? = some (.method op site)

/-- Calls that are sources are noted on themselves, and calls that are noted
    give a value or take it. -/
structure Sourced (p : Flow) (s : State) : Prop where
  noted : s.From (s.facts.Noted p.Calls)
  explained : s.facts.Explained p.Calls

/-- What an instruction learns keeps both, and so does its frame. -/
theorem Sourced.learn (hs : p.Sourced s) {j : Nat} {i : Instr} (hi : p.code[j]? = some i)
    {before after : Frame} {us : List FactUpdate} (hbefore : s.frame? j = some before)
    (hex : i.execute p.ret? j before = .ok (after, us)) :
    (s.learn us).From ((s.facts.updateAll us).Noted p.Calls) ∧
      (s.facts.updateAll us).Explained p.Calls ∧
      after.From ((s.facts.updateAll us).Noted p.Calls) := by
  have hfrom := hs.noted.mono fun x hx => hx.mono fun up hup => FactTable.Has.updateAll hup us
  have hmethod {k : Nat} (hk : p.Calls k) (hkj : k = j) : ∃ op site, i = .method op site := by
    obtain ⟨op, site, hcall⟩ := hk
    exact ⟨op, site, Option.some.inj (hi.symm.trans (hkj ▸ hcall))⟩
  have hself (hgives : ∀ op site, i = .method op site → GivesValue site.descriptor) :
      (s.facts.updateAll us).Noted p.Calls (.instruction j) := by
    intro k hk hkj
    obtain rfl := Source.instruction.inj hkj
    obtain ⟨op, site, rfl⟩ := hmethod hk rfl
    exact FactTable.knows_updateAll s.facts (usage_mem_call hex (hgives op site rfl))
  obtain ⟨hafter, hus⟩ :=
    (Instr.execute_from (hfrom.frames j before hbefore) p.ret? hself).of_ok hex
  refine ⟨hfrom.learn fun up hup => (hus up hup).sources, hs.explained.updateAll ?_, hafter⟩
  intro y k hk hmem
  obtain rfl : k = j := (hus _ hmem).fact y _ rfl
  obtain ⟨op, site, rfl⟩ := hmethod hk rfl
  exact usage_of_call hex hmem

/-- What flows along the edges of an instruction has the sources of its frames
    and those of the handlers. -/
theorem Edges.from {P : Source → Prop} {j : Nat} {i : Instr} {before after : Frame}
    {es : List (Nat × Frame)} (hedges : p.Edges j i before after es) (hbefore : before.From P)
    (hafter : after.From P) (hhandlers : ∀ h ∈ p.handlers, P (.instruction h.entry)) :
    ∀ e ∈ es, e.2.From P := by
  intro e he
  rcases hedges.sound e he with ⟨-, h⟩ | ⟨h, hh, -, heq | heq⟩
  · rwa [h]
  · rw [heq]
    exact Handler.from_frame hbefore (hhandlers h hh.1)
  · rw [heq]
    exact Handler.from_frame hafter (hhandlers h hh.1)

/-- What is noted once an instruction has learnt stays so while frames arrive. -/
theorem noted_flowAll {es : List (Nat × Frame)} (hsize : s.frames.size = p.code.size)
    (hnoted : s.From (s.facts.Noted p.Calls)) (hexplained : s.facts.Explained p.Calls)
    (hes : ∀ e ∈ es, e.2.From (s.facts.Noted p.Calls) ∧ e.1 < p.code.size)
    (h : s.flowAll r es = .ok t) :
    t.From (s.facts.Noted p.Calls) ∧ t.facts.Explained p.Calls ∧
      ∀ up, s.facts.Has up → t.facts.Has up := by
  have hkeeps : Yields (fun v : State => v.From (s.facts.Noted p.Calls) ∧
      v.facts.Explained p.Calls ∧ v.frames.size = p.code.size ∧
      ∀ up, s.facts.Has up → v.facts.Has up) (s.flowAll r es) := by
    refine State.flowAll_yields ?_ ⟨hnoted, hexplained, hsize, fun _ h => h⟩ hes
    rintro v j f ⟨hv, hvexplained, hvsize, hvfacts⟩ hf hj
    cases hw : v.flow r j f with
    | error e =>
      have := hv.flow (r := r) hf j
      rwa [hw] at this
    | ok w =>
      have harrived := State.arrived_flow hw (by rwa [hvsize])
      obtain ⟨us, hus, hunites⟩ := State.facts_flow hw
      refine ⟨(hv.flow hf j).of_ok hw, ?_, harrived.grows.size.trans hvsize,
        fun up hup => harrived.grows.facts up (hvfacts up hup)⟩
      rw [hus]
      exact hvexplained.of_unites hunites
  obtain ⟨ht, htexplained, -, hfacts⟩ := hkeeps.of_ok h
  exact ⟨ht, htexplained, hfacts⟩

/-- A step keeps both. -/
theorem sourced_step (hp : p.Bounded) (hhandlers : ∀ h ∈ p.handlers, ¬p.Calls h.entry)
    (hsize : s.frames.size = p.code.size) (hs : p.Sourced s) (h : p.step r s = .ok t) :
    p.Sourced t := by
  unfold step at h
  split at h
  · obtain rfl := Except.ok.inj h
    exact hs
  next j queue hqueue =>
  have hs : p.Sourced { s with queue, iterations := s.iterations + 1 } :=
    ⟨⟨hs.noted.frames, hs.noted.facts⟩, hs.explained⟩
  generalize hu : ({ s with queue, iterations := s.iterations + 1 } : State) = u at h hs
  have husize : u.frames.size = p.code.size := by
    rw [← hu]
    exact hsize
  cases hbefore : u.frame? j with
  | none =>
    simp only [execute, hbefore] at h
    obtain rfl := Except.ok.inj h
    exact hs
  | some before =>
  obtain ⟨i, hi⟩ : ∃ i, p.code[j]? = some i :=
    ⟨_, Array.getElem?_eq_getElem (husize ▸ lt_of_frame? hbefore)⟩
  obtain ⟨after, us, es, hex, hedges, hflow⟩ := execute_eq_ok h hbefore hi
  obtain ⟨hnoted, hexplained, hafter⟩ := hs.learn hi hbefore hex
  have hfrom := hedges.from (hnoted.frames j before hbefore) hafter
    fun h hh k hk hkj => absurd (Source.instruction.inj hkj ▸ hk) (hhandlers h hh)
  obtain ⟨ht, htexplained, hfacts⟩ := noted_flowAll (s := u.learn us) husize hnoted hexplained
    (fun e he => ⟨hfrom e he, hedges.inside hp e he⟩) hflow
  exact ⟨ht.mono fun x hx => hx.mono hfacts, htexplained⟩

theorem sourced_run (hp : p.Bounded) (hhandlers : ∀ h ∈ p.handlers, ¬p.Calls h.entry)
    {limit fuel : Nat} (hsize : s.frames.size = p.code.size) (hs : p.Sourced s)
    (h : p.run r limit fuel s = .ok t) : p.Sourced t := by
  induction fuel generalizing s with
  | zero =>
    obtain ⟨-, rfl⟩ | ⟨_, _, _, _, -, hfuel, -⟩ := run_eq_ok h
    · exact hs
    · cases hfuel
  | succ fuel ih =>
    obtain ⟨-, rfl⟩ | ⟨j, queue, _, u, hqueue, hfuel, hu, h⟩ := run_eq_ok h
    · exact hs
    · obtain rfl := Nat.succ.inj hfuel
      have hgrows := grows_step hp hsize hqueue hu
      exact ih (hgrows.size.trans hsize) (sourced_step hp hhandlers hsize hs hu) h

end Flow

/-! ## Analyses -/

theorem solve_sourced {limit : Nat} {owner : String} {m : Method} {a : Solution}
    (h : solve r limit owner m = .ok a) (hcode : m.code ≠ []) :
    ∃ d p n, m.flow d = .ok p ∧ p.Sourced ⟨a.frames, a.facts, [], n⟩ := by
  obtain ⟨d, p, entry, us, n, hd, hp, hentry, hrun, -⟩ := solve_settled h hcode
  obtain ⟨hs, hhandlers, hflow⟩ := bind_eq_ok.1 hp
  have hlabels : ∀ h ∈ p.handlers, ¬p.Calls h.entry := by
    obtain rfl := Except.ok.inj hflow
    rintro h hh ⟨op, site, hcall⟩
    obtain ⟨l, hl⟩ := Method.label_of_handlers hhandlers h hh
    have hcall : m.code[h.entry]? = some (.method op site) := by simpa using hcall
    cases hl.symm.trans hcall
  obtain ⟨hfrom, hus⟩ := (Method.entryFrame_from (m := m) (d := d)
    (P := fun x => ∃ n, x = .parameter n) (fun n _ => ⟨n, rfl⟩) owner).of_ok hentry
  have hparameter {t : FactTable} (x : Source) (hx : ∃ n, x = .parameter n) : t.Noted p.Calls x := by
    obtain ⟨n, rfl⟩ := hx
    rintro j - ⟨⟩
  refine ⟨d, p, n, hp, Flow.sourced_run (Method.bounded_flow hp) hlabels ?_ ⟨?_, ?_⟩ hrun⟩
  · simp [State.start]
  · exact State.from_start (hfrom.mono hparameter)
      fun up hup x hx => hparameter x ((hus up hup).sources x hx)
  · refine (FactTable.explained_empty _).updateAll fun y j _ hmem => ?_
    obtain ⟨n, -, heq⟩ := hus _ hmem
    cases heq

/-- A call that is noted on a class gives a value of it or takes one, and a call
    that gives a value of a class is noted on it. -/
theorem solve_calls {limit : Nat} {owner : String} {m : Method} {a : Solution}
    (h : solve r limit owner m = .ok a) {j : Nat} {op : Opcode} {site : MethodSite}
    (hj : m.code[j]? = some (.method op site)) (x : Source) :
    (a.facts.Knows x (.usage j) →
      a.facts.Same x (.instruction j) ∨ ∃ position, a.facts.Knows x (.paramUsage ⟨j, position⟩)) ∧
    (a.facts.Same x (.instruction j) → a.facts.Knows x (.usage j)) := by
  have hcode : m.code ≠ [] := by
    intro hcode
    simp [hcode] at hj
  obtain ⟨d, p, n, hp, hs⟩ := solve_sourced h hcode
  have hcalls : p.Calls j := by
    obtain ⟨hs, -, hp⟩ := bind_eq_ok.1 hp
    obtain rfl := Except.ok.inj hp
    exact ⟨op, site, by simpa using hj⟩
  refine ⟨hs.explained x j hcalls, fun hsame => ?_⟩
  have hself : a.facts.Knows (.instruction j) (.usage j) :=
    (hs.noted.facts _ _ hsame.symm).1 j hcalls rfl
  exact hself.of_same hsame.symm

end ConstRestore
