/-
  Values that an instruction passes on.

  `Instr.Delivers` lists what the analysis is about: arguments of calls, values
  stored in fields and values returned.  An execution notes each of them on all
  sources of the value (`Instr.Delivers.recorded`).
-/
import ConstRestore.Proofs.Simulation

namespace ConstRestore

namespace Instr

/-- The descriptor of the method that an instruction calls. -/
def callDescriptor? : Instr → Option String
  | method _ site => some site.descriptor
  | dynamic site => some site.descriptor
  | _ => none

/-- The instruction at `index` passes on the value of a slot; the fact is what
    is to be known of its sources then. -/
inductive Delivers (i : Instr) (index : Nat) (f : Frame) : Slot → Fact → Prop
  /-- Argument `position` of a call. -/
  | argument {descriptor : String} {d : MethodDescriptor} {position : Nat} {s : Slot}
      (hcall : i.callDescriptor? = some descriptor)
      (hparse : MethodDescriptor.parse descriptor = .ok d)
      (hposition : position < d.params.length)
      (hs : f.stack[d.params.length - 1 - position]? = some s) :
      i.Delivers index f s (.paramUsage ⟨index, position⟩)
  /-- The value stored in a field. -/
  | stored {op : Opcode} {site : FieldSite} {s : Slot} (hi : i = field op site)
      (hop : op = .putstatic ∨ op = .putfield) (hs : f.stack[0]? = some s) :
      i.Delivers index f s (.usage index)
  /-- The value returned. -/
  | returned {k : VarKind} {s : Slot} (hi : i = simple (.return_ (some k)))
      (hs : f.stack[0]? = some s) : i.Delivers index f s (.usage index)

end Instr

variable {f g : Frame} {s : Slot} {index : Nat} {i : Instr} {fact : Fact}

/-- What is passed on from a frame is passed on from a frame that accounts for it. -/
theorem Instr.Delivers.of_within (h : i.Delivers index f s fact) (hf : f.Within g) :
    ∃ t, i.Delivers index g t fact ∧ s.Within t := by
  cases h with
  | argument hcall hparse hposition hs =>
    obtain ⟨t, ht, hst⟩ := forall₂_getElem? hf.stack hs
    exact ⟨t, .argument hcall hparse hposition ht, hst⟩
  | stored hi hop hs =>
    obtain ⟨t, ht, hst⟩ := forall₂_getElem? hf.stack hs
    exact ⟨t, .stored hi hop ht, hst⟩
  | returned hi hs =>
    obtain ⟨t, ht, hst⟩ := forall₂_getElem? hf.stack hs
    exact ⟨t, .returned hi ht, hst⟩

/-! ## Records -/

theorem mem_consumed {x : Source} (hx : x ∈ s.sources) (narrow? : Option DataType) :
    .record x (.usage index) ∈ consumed s index narrow? :=
  List.mem_flatMap.2 ⟨x, hx, List.mem_cons_self⟩

theorem mem_passed {x : Source} (hx : x ∈ s.sources) (position : Nat) :
    .record x (.paramUsage ⟨index, position⟩) ∈ passed s index position :=
  List.mem_map.2 ⟨x, hx, rfl⟩

theorem Frame.pop_eq_ok {f' : Frame} (h : f.pop = .ok (s, f')) : f.stack = s :: f'.stack := by
  unfold pop at h
  split at h
  · simp at h
  · next hstack =>
    obtain ⟨rfl, rfl⟩ := Prod.mk.inj (Except.ok.inj h)
    exact hstack

theorem mem_useTop {f' : Frame} {us : List FactUpdate} {narrow? : Option DataType}
    (h : useTop f index narrow? = .ok (f', us)) (hs : f.stack[0]? = some s) {x : Source}
    (hx : x ∈ s.sources) : .record x (.usage index) ∈ us := by
  obtain ⟨⟨t, f₁⟩, hpop, h⟩ := bind_eq_ok.1 h
  obtain ⟨-, rfl⟩ := Prod.mk.inj (Except.ok.inj h)
  rw [Frame.pop_eq_ok hpop, List.getElem?_cons_zero, Option.some.injEq] at hs
  exact mem_consumed (hs ▸ hx) narrow?

/-- Each argument popped is noted with its position. -/
theorem mem_popArguments {params : List (Descriptor × Nat)} {f' : Frame} {us : List FactUpdate}
    (h : f.popArguments index params = .ok (f', us)) {n position : Nat} {d : Descriptor}
    (hn : params[n]? = some (d, position)) (hs : f.stack[n]? = some s) {x : Source}
    (hx : x ∈ s.sources) : .record x (.paramUsage ⟨index, position⟩) ∈ us := by
  induction params generalizing f us n with
  | nil => simp at hn
  | cons p params ih =>
    obtain ⟨⟨t, f₁⟩, hpop, h⟩ := bind_eq_ok.1 h
    obtain ⟨⟨f₂, us'⟩, hrest, h⟩ := bind_eq_ok.1 h
    obtain ⟨rfl, rfl⟩ := Prod.mk.inj (Except.ok.inj h)
    rw [Frame.pop_eq_ok hpop] at hs
    cases n with
    | zero =>
      obtain ⟨rfl, rfl⟩ : p = (d, position) ∧ t = s := by simpa using And.intro hn hs
      exact List.mem_append_left _ (List.mem_append_left _ (mem_passed hx position))
    | succ n => exact List.mem_append_right _ (ih hrest (by simpa using hn) (by simpa using hs))

theorem mem_call {descriptor : String} {hasReceiver : Bool} {f' : Frame} {us : List FactUpdate}
    (h : f.call index descriptor hasReceiver = .ok (f', us)) {d : MethodDescriptor}
    (hparse : MethodDescriptor.parse descriptor = .ok d) {position : Nat}
    (hposition : position < d.params.length)
    (hs : f.stack[d.params.length - 1 - position]? = some s) {x : Source} (hx : x ∈ s.sources) :
    .record x (.paramUsage ⟨index, position⟩) ∈ us := by
  obtain ⟨d', hd', h⟩ := bind_eq_ok.1 h
  obtain rfl := Except.ok.inj ((mapError_eq_ok.1 hd').symm.trans hparse)
  obtain ⟨⟨f₁, us₁⟩, hpop, h⟩ := bind_eq_ok.1 h
  -- The receiver is popped after the arguments, and the result is noted last.
  obtain ⟨us₂, rfl⟩ : ∃ us₂, us = us₁ ++ us₂ := by
    cases hasReceiver <;>
    · obtain ⟨f₂, -, h⟩ := bind_eq_ok.1 h
      obtain ⟨-, rfl⟩ := Prod.mk.inj (Except.ok.inj h)
      exact ⟨_, rfl⟩
  refine List.mem_append_left _
    (mem_popArguments (d := d'.params[position]) hpop ?_ hs hx)
  rw [List.getElem?_reverse (by rw [List.length_zipIdx]; omega), List.length_zipIdx]
  have hsub : d'.params.length - 1 - (d'.params.length - 1 - position) = position := by omega
  rw [hsub, List.getElem?_zipIdx, List.getElem?_eq_getElem hposition]
  simp

/-- What an instruction passes on is noted on all its sources. -/
theorem Instr.Delivers.recorded (hd : i.Delivers index f s fact) {ret? : Option DataType}
    {f' : Frame} {us : List FactUpdate} (h : i.execute ret? index f = .ok (f', us)) {x : Source}
    (hx : x ∈ s.sources) : .record x fact ∈ us := by
  cases hd with
  | argument hcall hparse hposition hs =>
    cases i <;> simp only [callDescriptor?, Option.some.injEq, reduceCtorEq] at hcall
    · exact mem_call h (hcall ▸ hparse) hposition hs hx
    · exact mem_call h (hcall ▸ hparse) hposition hs hx
  | stored hi hop hs =>
    subst hi
    obtain ⟨d, -, h⟩ := bind_eq_ok.1 h
    rcases hop with rfl | rfl
    · exact mem_useTop h hs hx
    · obtain ⟨⟨f₁, us₁⟩, huse, h⟩ := bind_eq_ok.1 h
      obtain ⟨f₂, -, h⟩ := bind_eq_ok.1 h
      obtain ⟨-, rfl⟩ := Prod.mk.inj (Except.ok.inj h)
      exact mem_useTop huse hs hx
  | returned hi hs =>
    subst hi
    exact mem_useTop h hs hx

end ConstRestore
