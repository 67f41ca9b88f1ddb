/-
  An analysis misses no destination on any path.

  `Flow.Path` is a path through a method, executed one instruction after the
  other without merging.  `solve_accounts_for_paths` says that an analysis has a
  frame exactly for what the edges reach, that the frame accounts for every
  path there, and that what the path passes on is known of all its sources.
  The paths are those on which the analysis keeps track of what is moved
  (`Solution.Clear`): an array load on the null reference can take another
  number of words than the analysis says, and `null_array_path_lost` is a path that
  loses an argument so.
-/
import ConstRestore.Proofs.Delivery
import ConstRestore.Proofs.Worklist

namespace ConstRestore

/-! ## Paths -/

/-- A path from a frame at the entry to an instruction with a frame.  An exception leaves the
    state before any protected instruction; the other edges are taken after the
    instruction was executed, which needs it to be `clear`. -/
inductive Flow.Path (p : Flow) (clear : Nat → Instr → Frame → Prop) (entry : Frame) :
    Nat → Frame → Prop
  | start : p.Path clear entry 0 entry
  | next {j j' : Nat} {i : Instr} {f f' : Frame} {us : List FactUpdate}
      (hpath : p.Path clear entry j f) (hi : p.code[j]? = some i) (hclear : clear j i f)
      (hex : i.execute p.ret? j f = .ok (f', us)) (hj' : p.Follows j j') :
      p.Path clear entry j' f'
  | raise {j : Nat} {f : Frame} {h : Handler} (hpath : p.Path clear entry j f)
      (hh : p.Catches j h) : p.Path clear entry h.entry (h.frame f)

/-- The analysis keeps track of what an instruction moves: none of it is unusable
    in the frame of the analysis, and an array element is as large as it says.
    What an instruction only consumes may be unusable. -/
def Solution.Clear (a : Solution) (j : Nat) (i : Instr) (f : Frame) : Prop :=
  ∀ g, a.frame? j = some g → i.Clear f g

namespace Flow

variable {r : Registry} {p : Flow} {entry : Frame} {s : State}

/-- The frames of a settled state account for every path. -/
theorem Inv.covers_path (hs : p.Inv r entry s) (hqueue : s.queue = [])
    {clear : Nat → Instr → Frame → Prop}
    (hclear : ∀ j i f g, clear j i f → s.frame? j = some g → i.Clear f g) {j : Nat} {f : Frame}
    (h : p.Path clear entry j f) : s.Covers j f := by
  induction h with
  | start => exact hs.entry.covers
  | next _ hi hc hex hfollows ih =>
    obtain ⟨g, hg, hfg⟩ := ih
    obtain ⟨i, after, us, es, hi', hex', hedges, -, hreceived⟩ := hs.executed_of_settled hqueue hg
    obtain rfl := Option.some.inj (hi.symm.trans hi')
    obtain ⟨⟨f', us'⟩, hf', hwithin⟩ :=
      Instr.execute_tracks hfg p.ret? (hclear _ _ _ _ hc hg) _ hex'
    obtain ⟨rfl, rfl⟩ := Prod.mk.inj (Except.ok.inj (hf'.symm.trans hex))
    obtain ⟨g', hg', hwithin'⟩ := (hreceived _ (hedges.follows _ hfollows)).covers
    exact ⟨g', hg', Frame.Within.trans hwithin hwithin'⟩
  | @raise j f h _ hcatches ih =>
    obtain ⟨g, hg, hfg⟩ := ih
    obtain ⟨i, after, us, es, -, -, hedges, -, hreceived⟩ := hs.executed_of_settled hqueue hg
    obtain ⟨g', hg', hwithin⟩ := (hreceived _ (hedges.catches h hcatches)).covers
    have hframe : (h.frame f).Within (h.frame g) := ⟨hfg.locals, .cons (.refl _) .nil⟩
    exact ⟨g', hg', hframe.trans hwithin⟩

end Flow

/-! ## Paths that are run -/

namespace Flow

variable {p : Flow} {clear : Nat → Instr → Frame → Prop} {entry : Frame}

instance (p : Flow) (j j' : Nat) : Decidable (p.Follows j j') :=
  decidable_of_iff (∃ i ∈ p.code[j]?,
      fallsThrough i ∧ j' = j + 1 ∨ ∃ l ∈ i.targets, p.labels.get? l = some j') Iff.rfl

/-- Executes from `j` on, going on with the instructions given. -/
def along? (p : Flow) (clear : Nat → Instr → Frame → Prop) [∀ j i f, Decidable (clear j i f)] :
    Nat → Frame → List Nat → Option (Nat × Frame)
  | j, f, [] => some (j, f)
  | j, f, j' :: js => do
    let i ← p.code[j]?
    let (f', _) ← (i.execute p.ret? j f).toOption
    if clear j i f ∧ p.Follows j j' then p.along? clear j' f' js else none

theorem Path.along [∀ j i f, Decidable (clear j i f)] {js : List Nat} {j : Nat} {f : Frame}
    (hpath : p.Path clear entry j f) {j' : Nat} {f' : Frame}
    (h : p.along? clear j f js = some (j', f')) : p.Path clear entry j' f' := by
  induction js generalizing j f with
  | nil =>
    obtain ⟨rfl, rfl⟩ := Prod.mk.inj (Option.some.inj h)
    exact hpath
  | cons j₁ js ih =>
    obtain ⟨i, hi, h⟩ := Option.bind_eq_some_iff.1 h
    obtain ⟨⟨f₁, us⟩, hex, h⟩ := Option.bind_eq_some_iff.1 h
    split_ifs at h with hj₁
    exact ih (hpath.next hi hj₁.1 (toOption_eq_some.1 hex) hj₁.2) h

end Flow

instance (i : Instr) (f g : Frame) : Decidable (i.Clear f g) :=
  decidable_of_iff ((∀ s ∈ i.moved g, s.type ≠ .top) ∧ i.elementSize? f = i.elementSize? g)
    ⟨fun h => ⟨h.1, h.2⟩, fun h => ⟨h.usable, h.element⟩⟩

instance (a : Solution) (j : Nat) (i : Instr) (f : Frame) : Decidable (a.Clear j i f) :=
  decidable_of_iff (∀ g ∈ a.frame? j, i.Clear f g) Iff.rfl

/-! ## An array that may be null -/

/-- A method that may put null in place of an array of longs before it loads an
    element, drops two words and calls a method with one. -/
def nullArray : Method where
  access := Access.static
  name := "f"
  descriptor := "([J)V"
  code := [.pushInt 0, .jump (.ifInt .eq) 0, .simple .aconstNull, .var (.store .ref) 0,
    .label 0, .pushInt 3, .pushInt 4, .var (.load .ref) 0, .pushInt 0, .simple (.arrayLoad .ref),
    .simple .pop2, .method .invokestatic ⟨"p/Api", "g", "(I)V", false⟩, .simple (.return_ none)]
  tryBlocks := []
  maxLocals := 1
  maxStack := 4

def nullArrayFlow : Flow :=
  ⟨"f", "([J)V", nullArray.code.toArray, nullArray.labelPositions, [], none⟩

/-- The descriptor of the method. -/
def nullArrayDescriptor : MethodDescriptor := ⟨[.array .long], .void⟩

/-- The frame at the entry: the array. -/
def nullArrayEntry : Frame := ⟨[.ofSource (.ref "[J") (.parameter 0)], []⟩

theorem parse_nullArray :
    MethodDescriptor.parse nullArray.descriptor = .ok nullArrayDescriptor := by cbv

theorem flow_nullArray : nullArray.flow nullArrayDescriptor = .ok nullArrayFlow := rfl

theorem entryFrame_nullArray : nullArray.entryFrame "p/A" nullArrayDescriptor =
    .ok (nullArrayEntry, [.record (.parameter 0) (.paramSource 0)]) := rfl

/-- The int at the top of the stack is the argument of the call. -/
theorem nullArray_delivers {f : Frame} {s : Slot} (hs : f.stack[0]? = some s) :
    (Instr.method .invokestatic ⟨"p/Api", "g", "(I)V", false⟩).Delivers 11 f s
      (.paramUsage ⟨11, 0⟩) :=
  .argument (d := ⟨[.int], .void⟩) rfl (by cbv) (by decide) hs

/-! ## Destinations -/

/-- **No destination is missed.**  Of a method that is analysed, an instruction has a
    frame exactly if the edges from the first instruction reach it.  The frame accounts for
    every path there, and what the path passes on there is known of all its sources. -/
theorem solve_accounts_for_paths {r : Registry} {limit : Nat} {owner : String} {m : Method}
    {a : Solution} (h : solve r limit owner m = .ok a) :
    m.code = [] ∧ (∀ j, a.frame? j = none) ∨
    ∃ d p entry us, MethodDescriptor.parse m.descriptor = .ok d ∧ m.flow d = .ok p ∧
      m.entryFrame owner d = .ok (entry, us) ∧ (∀ j, a.isReachable j ↔ p.Reaches j) ∧
      ∀ j f, p.Path a.Clear entry j f → ∃ g i, a.frame? j = some g ∧ f.Within g ∧
        p.code[j]? = some i ∧
        (a.Clear j i f → ∃ f' us', i.execute p.ret? j f = .ok (f', us')) ∧
        ∀ s fact, i.Delivers j f s fact → ∀ x ∈ s.sources, a.facts.Knows x fact := by
  rcases eq_or_ne m.code [] with hcode | hcode
  · exact .inl ⟨hcode, frame?_of_code_eq_nil h hcode⟩
  obtain ⟨d, p, entry, us, n, hd, hp, hentry, -, hs⟩ := solve_settled h hcode
  refine .inr ⟨d, p, entry, us, hd, hp, hentry, hs.isSome_iff_reaches rfl, ?_⟩
  intro j f hpath
  obtain ⟨g, hg, hfg⟩ := hs.covers_path rfl (fun _ _ _ g hclear hg => hclear g hg) hpath
  obtain ⟨i, after, us', es, hi, hex, -, hlearnt, -⟩ := hs.executed_of_settled rfl hg
  refine ⟨g, i, hg, hfg, hi, ?_, ?_⟩
  · intro hclear
    obtain ⟨⟨f', us₁⟩, hex', -⟩ := Instr.execute_tracks hfg p.ret? (hclear g hg) _ hex
    exact ⟨f', us₁, hex'⟩
  · intro s fact hdelivers x hx
    obtain ⟨t, ht, hst⟩ := hdelivers.of_within hfg
    exact hlearnt _ (ht.recorded hex (hst.sources x hx))

theorem solve_accounts_for_paths_array :
    ∃ a f, solve .empty defaultStepLimit "p/A" nullArray = .ok a ∧
      nullArrayFlow.Path a.Clear nullArrayEntry 11 f ∧ f.stack.length = 2 ∧
      a.facts.Knows (.instruction 6) (.paramUsage ⟨11, 0⟩) := by
  have h : (solve .empty defaultStepLimit "p/A" nullArray).map
      (fun a => nullArrayFlow.along? a.Clear 0 nullArrayEntry [1, 4, 5, 6, 7, 8, 9, 10, 11]) =
        .ok (some (11, ⟨nullArrayEntry.locals,
          [.ofSource .int (.instruction 6), .ofSource .int (.instruction 5)]⟩)) := by cbv
  obtain ⟨a, ha, halong⟩ := map_eq_ok.1 h
  have hpath := Flow.Path.start.along halong
  refine ⟨a, _, ha, hpath, rfl, ?_⟩
  obtain ⟨hcode, -⟩ | ⟨d, p, entry, us, hd, hp, hentry, -, hpaths⟩ := solve_accounts_for_paths ha
  · cases hcode
  · obtain rfl := Except.ok.inj (parse_nullArray.symm.trans hd)
    obtain rfl := Except.ok.inj (flow_nullArray.symm.trans hp)
    obtain ⟨rfl, -⟩ := Prod.mk.inj (Except.ok.inj (entryFrame_nullArray.symm.trans hentry))
    obtain ⟨g, i, -, -, hi, -, hdelivers⟩ := hpaths 11 _ hpath
    obtain rfl := Option.some.inj hi
    exact hdelivers _ _ (nullArray_delivers rfl) _ List.mem_cons_self

/-- Null is no array of longs: on the path that stores it the call is given the int
    pushed first, and nothing is known of that. -/
theorem null_array_path_lost :
    ∃ a f s, solve .empty defaultStepLimit "p/A" nullArray = .ok a ∧
      MethodDescriptor.parse nullArray.descriptor = .ok nullArrayDescriptor ∧
      nullArray.flow nullArrayDescriptor = .ok nullArrayFlow ∧
      nullArray.entryFrame "p/A" nullArrayDescriptor =
        .ok (nullArrayEntry, [.record (.parameter 0) (.paramSource 0)]) ∧
      (∀ j g, a.frame? j = some g → ∀ s ∈ g.locals ++ g.stack, s.type ≠ .top) ∧
      nullArrayFlow.Path (fun _ _ _ => True) nullArrayEntry 11 f ∧
      nullArrayFlow.code[11]? = some (.method .invokestatic ⟨"p/Api", "g", "(I)V", false⟩) ∧
      (Instr.method .invokestatic ⟨"p/Api", "g", "(I)V", false⟩).Delivers 11 f s
        (.paramUsage ⟨11, 0⟩) ∧
      .instruction 5 ∈ s.sources ∧ ¬a.facts.Knows (.instruction 5) (.paramUsage ⟨11, 0⟩) := by
  have h : (solve .empty defaultStepLimit "p/A" nullArray).map
      (fun a => (a.frames.toList.all fun g =>
          g.all fun g => (g.locals ++ g.stack).all (·.type ≠ .top),
        (a.facts.facts? (.instruction 5)).map (·.paramUsages))) = .ok (true, some ∅) := by cbv
  obtain ⟨a, ha, h⟩ := map_eq_ok.1 h
  obtain ⟨husable, hfacts⟩ := Prod.mk.inj h
  have halong : nullArrayFlow.along? (fun _ _ _ => True) 0 nullArrayEntry
      [1, 2, 3, 4, 5, 6, 7, 8, 9, 10, 11] =
        some (11, ⟨[.untracked .null], [.ofSource .int (.instruction 5)]⟩) := by cbv
  refine ⟨a, _, _, ha, parse_nullArray, flow_nullArray, entryFrame_nullArray, ?_,
    Flow.Path.start.along halong, rfl, nullArray_delivers rfl, List.mem_cons_self, ?_⟩
  · intro j g hg s hs
    have hmem : some g ∈ a.frames.toList :=
      (Array.mem_of_getElem? (Option.join_eq_some_iff.1 hg)).val
    have hg := List.all_eq_true.1 husable _ hmem
    simpa using List.all_eq_true.1 hg s hs
  · rintro ⟨fs, hfs, hknown⟩
    rw [hfs, Option.map_some, Option.some.injEq] at hfacts
    simp only [Facts.Holds, hfacts] at hknown
    exact List.not_mem_nil hknown

end ConstRestore
