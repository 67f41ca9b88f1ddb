/-
  Where the sources in a frame come from.

  An execution brings in one source, the instruction itself; all others were in
  the frame before.  What it learns is about such sources, and notes uses and
  arguments of this instruction only (`Instr.execute_from`).

  `Yields` is the rule for computations that may fail: a result has a property,
  and a failure has its reason in the code, never in the bound on the number of
  executions.
-/
import ConstRestore.Dataflow.Execute
import ConstRestore.Proofs.Known

namespace ConstRestore

/-! ## Results and failures -/

/-- The bound on the number of executions was too low. -/
def FlowError.IsLimit : FlowError → Prop
  | noFixpoint .. => True
  | _ => False

section Yields

variable {α β : Type} {Q : α → Prop} {Q' : β → Prop}

/-- A result has a property, and a failure has another reason than the bound. -/
def Yields (Q : α → Prop) : Except FlowError α → Prop
  | .ok a => Q a
  | .error e => ¬e.IsLimit

namespace Yields

theorem bind {x : Except FlowError α} {k : α → Except FlowError β} (h : Yields Q x)
    (hk : ∀ a, Q a → Yields Q' (k a)) : Yields Q' (x >>= k) := by
  cases x with
  | ok a => exact hk a h
  | error e => exact h

theorem map {x : Except FlowError α} {k : α → β} (h : Yields Q x) (hk : ∀ a, Q a → Q' (k a)) :
    Yields Q' (x.map k) := by
  cases x with
  | ok a => exact hk a h
  | error e => exact h

theorem imp {Q' : α → Prop} {x : Except FlowError α} (h : Yields Q x) (hQ : ∀ a, Q a → Q' a) :
    Yields Q' x := by
  cases x with
  | ok a => exact hQ a h
  | error e => exact h

theorem of_ok {x : Except FlowError α} {a : α} (h : Yields Q x) (ha : x = .ok a) : Q a := by
  subst ha
  exact h

/-- The property of a result may say which one it is. -/
theorem and_eq {x : Except FlowError α} (h : Yields Q x) : Yields (fun a => Q a ∧ x = .ok a) x := by
  cases x with
  | ok a => exact ⟨h, rfl⟩
  | error e => exact h

end Yields

theorem yields_mapError {ε : Type} (x : Except ε α) {k : ε → FlowError}
    (hk : ∀ e, ¬(k e).IsLimit) : Yields (fun a => x = .ok a) (x.mapError k) := by
  cases x with
  | ok a => exact rfl
  | error e => exact hk e

theorem yields_elim (x : Option α) {e : FlowError} (he : ¬e.IsLimit) :
    Yields (fun a => x = some a) (x.elim (.error e) .ok) := by
  cases x with
  | none => exact he
  | some a => exact rfl

end Yields

/-! ## Stacks and locals -/

variable {P : Source → Prop} {f : Frame} {s : Slot} {index : Nat}

/-- All sources of a slot have a property. -/
def Slot.From (P : Source → Prop) (s : Slot) : Prop := ∀ x ∈ s.sources, P x

theorem Slot.from_untracked (P : Source → Prop) (t : ValueType) : (untracked t).From P :=
  fun _ hx => absurd hx List.not_mem_nil

theorem Slot.from_ofSource {x : Source} (hx : P x) (t : ValueType) : (ofSource t x).From P :=
  fun _ hy => List.mem_singleton.1 hy ▸ hx

namespace Frame

/-- All sources in a frame have a property. -/
structure From (P : Source → Prop) (f : Frame) : Prop where
  locals : ∀ s ∈ f.locals, s.From P
  stack : ∀ s ∈ f.stack, s.From P

theorem From.mono {P' : Source → Prop} (h : f.From P) (hP : ∀ x, P x → P' x) : f.From P' :=
  ⟨fun s hs x hx => hP x (h.locals s hs x hx), fun s hs x hx => hP x (h.stack s hs x hx)⟩

theorem From.push (h : f.From P) (hs : s.From P) : (f.push s).From P :=
  ⟨h.locals, List.forall_mem_cons.2 ⟨hs, h.stack⟩⟩

theorem From.pop (h : f.From P) : Yields (fun x => x.1.From P ∧ x.2.From P) f.pop := by
  obtain ⟨locals, stack⟩ := f
  cases stack with
  | nil => exact id
  | cons s stack =>
    have ⟨hs, hstack⟩ := List.forall_mem_cons.1 h.stack
    exact ⟨hs, h.locals, hstack⟩

theorem takeWords_from {stack : List Slot} (h : ∀ s ∈ stack, s.From P) (words : Nat) :
    Yields (fun x => (∀ s ∈ x.1, s.From P) ∧ ∀ s ∈ x.2, s.From P) (takeWords words stack) := by
  induction stack generalizing words with
  | nil =>
    cases words with
    | zero => simpa only [takeWords] using ⟨List.forall_mem_nil _, List.forall_mem_nil _⟩
    | succ words =>
      simp only [takeWords]
      exact id
  | cons s stack ih =>
    cases words with
    | zero => simpa only [takeWords] using ⟨List.forall_mem_nil _, h⟩
    | succ words =>
      obtain ⟨hs, hstack⟩ := List.forall_mem_cons.1 h
      simp only [takeWords]
      split_ifs
      · exact id
      · exact (ih hstack _).map fun _ hx => ⟨List.forall_mem_cons.2 ⟨hs, hx.1⟩, hx.2⟩

theorem From.popWords (h : f.From P) (words : Nat) :
    Yields (fun x => (∀ s ∈ x.1, s.From P) ∧ x.2.From P) (f.popWords words) :=
  (takeWords_from h.stack words).bind fun _ hx => ⟨hx.1, h.locals, hx.2⟩

theorem From.dupWords (h : f.From P) (copy skip : Nat) :
    Yields (From P) (f.dupWords copy skip) := by
  refine (h.popWords copy).bind ?_
  rintro ⟨copied, f⟩ ⟨hcopied, h⟩
  refine (h.popWords skip).bind ?_
  rintro ⟨skipped, f⟩ ⟨hskipped, h⟩
  refine ⟨h.locals, ?_⟩
  simp only [List.forall_mem_append]
  exact ⟨⟨⟨hcopied, hskipped⟩, hcopied⟩, h.stack⟩

theorem From.swap (h : f.From P) : Yields (From P) f.swap := by
  refine (h.popWords 1).bind ?_
  rintro ⟨upper, f⟩ ⟨hupper, h⟩
  refine (h.popWords 1).bind ?_
  rintro ⟨lower, f⟩ ⟨hlower, h⟩
  refine ⟨h.locals, ?_⟩
  simp only [List.forall_mem_append]
  exact ⟨⟨hlower, hupper⟩, h.stack⟩

theorem From.getLocal (h : f.From P) (i : Nat) : Yields (Slot.From P) (f.getLocal i) := by
  unfold Frame.getLocal
  cases hi : f.locals[i]? with
  | none => exact id
  | some s => exact h.locals s (List.mem_of_getElem? hi)

theorem set_from {ss : List Slot} (h : ∀ s ∈ ss, s.From P) (hs : s.From P) (i : Nat) :
    ∀ s' ∈ ss.set i s, s'.From P := by
  intro s' hs'
  rcases List.mem_or_eq_of_mem_set hs' with hs' | rfl
  · exact h s' hs'
  · exact hs

theorem From.setLocal (h : f.From P) (hs : s.From P) (i : Nat) :
    Yields (From P) (f.setLocal i s) := by
  have htop : Slot.top.From P := Slot.from_untracked P .top
  have hstore : ∀ s' ∈ storeAt f.locals i s, s'.From P := by
    unfold storeAt
    dsimp only
    split_ifs
    · exact set_from (set_from (set_from h.locals htop _) hs _) htop _
    · exact set_from (set_from h.locals hs _) htop _
    · exact set_from (set_from h.locals htop _) hs _
    · exact set_from h.locals hs _
  unfold Frame.setLocal
  split_ifs
  · exact id
  · exact ⟨hstore, h.stack⟩

end Frame

/-! ## What is learnt -/

/-- A fact that the execution of one instruction may note. -/
def Fact.At (index : Nat) : Fact → Prop
  | usage i => i = index
  | paramSource _ => False
  | paramUsage a => a.call = index
  | narrowType _ => True

/-- An update names only sources with a property, and records what one
    instruction may note. -/
structure FactUpdate.From (P : Source → Prop) (index : Nat) (up : FactUpdate) : Prop where
  sources : ∀ x ∈ up.sources, P x
  fact : ∀ x fact, up = record x fact → fact.At index

theorem from_record {x : Source} {fact : Fact} (hx : P x) (hfact : fact.At index) :
    (FactUpdate.record x fact).From P index :=
  ⟨fun _ hy => List.mem_singleton.1 hy ▸ hx, by rintro _ _ ⟨⟩; exact hfact⟩

theorem from_consumed (hs : s.From P) (index : Nat) (narrow? : Option DataType) :
    ∀ up ∈ consumed s index narrow?, up.From P index := by
  intro up hup
  obtain ⟨x, hx, hup⟩ := List.mem_flatMap.1 hup
  rcases List.mem_cons.1 hup with rfl | hup
  · exact from_record (hs x hx) rfl
  · obtain ⟨t, -, rfl⟩ := List.mem_map.1 hup
    exact from_record (hs x hx) trivial

theorem from_passed (hs : s.From P) (index position : Nat) :
    ∀ up ∈ passed s index position, up.From P index := by
  intro up hup
  obtain ⟨x, hx, rfl⟩ := List.mem_map.1 hup
  exact from_record (hs x hx) rfl

theorem from_unified {slots : List Slot} (h : ∀ s ∈ slots, s.From P) (index : Nat) :
    ∀ up ∈ unified slots, up.From P index := by
  intro up hup
  obtain rfl := List.mem_singleton.1 hup
  refine ⟨fun x hx => ?_, nofun⟩
  obtain ⟨s, hs, hx⟩ := List.mem_flatMap.1 hx
  exact h s (List.mem_filter.1 hs).1 x hx

/-- A frame and updates with all their sources from a property. -/
def EffectFrom (P : Source → Prop) (index : Nat) (x : Frame × List FactUpdate) : Prop :=
  x.1.From P ∧ ∀ up ∈ x.2, up.From P index

theorem EffectFrom.silent (h : f.From P) : EffectFrom P index (f, []) := ⟨h, nofun⟩

/-! ## Instructions -/

section Execute

theorem Frame.From.dropTop (h : f.From P) : Yields (From P) (dropTop f) :=
  h.pop.map fun _ hx => hx.2

theorem Frame.From.useTop (h : f.From P) (narrow? : Option DataType) :
    Yields (EffectFrom P index) (useTop f index narrow?) :=
  h.pop.bind fun _ hx => ⟨hx.2, from_consumed hx.1 index narrow?⟩

theorem Frame.From.popArguments (h : f.From P) (params : List (Descriptor × Nat)) :
    Yields (EffectFrom P index) (f.popArguments index params) := by
  induction params generalizing f with
  | nil => exact .silent h
  | cons p params ih =>
    refine h.pop.bind ?_
    rintro ⟨s, f⟩ ⟨hs, h⟩
    refine (ih h).bind ?_
    rintro ⟨f, us⟩ ⟨h, hus⟩
    refine ⟨h, ?_⟩
    simp only [List.forall_mem_append]
    exact ⟨⟨from_passed hs index _, from_consumed hs index _⟩, hus⟩

theorem Frame.From.popDimensions (h : f.From P) (count : Nat) :
    Yields (EffectFrom P index) (f.popDimensions index count) := by
  induction count generalizing f with
  | zero => exact .silent h
  | succ count ih =>
    refine h.pop.bind ?_
    rintro ⟨s, f⟩ ⟨hs, h⟩
    refine (ih h).bind ?_
    rintro ⟨f, us⟩ ⟨h, hus⟩
    exact ⟨h, List.forall_mem_append.2 ⟨from_consumed hs index _, hus⟩⟩

theorem Frame.From.pushResult (h : f.From P) {d : Descriptor}
    (hindex : ValueType.ofDescriptor? d ≠ none → P (.instruction index)) :
    EffectFrom P index (f.pushResult index d) := by
  unfold Frame.pushResult
  split
  · exact .silent h
  · next t ht =>
    have hindex := hindex (by simp [ht])
    exact ⟨h.push (Slot.from_ofSource hindex t),
      List.forall_mem_singleton.2 (from_record hindex rfl)⟩

/-- A call gives a value. -/
def GivesValue (descriptor : String) : Prop :=
  ∃ d, MethodDescriptor.parse descriptor = .ok d ∧ ValueType.ofDescriptor? d.ret ≠ none

theorem Frame.From.call (h : f.From P) {descriptor : String}
    (hindex : GivesValue descriptor → P (.instruction index)) (hasReceiver : Bool) :
    Yields (EffectFrom P index) (f.call index descriptor hasReceiver) := by
  refine (yields_mapError _ fun _ => id).bind fun d hd => ?_
  have hindex (hvalue : ValueType.ofDescriptor? d.ret ≠ none) : P (.instruction index) :=
    hindex ⟨d, hd, hvalue⟩
  refine (h.popArguments d.params.zipIdx.reverse).bind ?_
  rintro ⟨f, us⟩ ⟨h, hus⟩
  have hresult {f : Frame} (h : f.From P) :
      EffectFrom P index ((f.pushResult index d.ret).1, us ++ (f.pushResult index d.ret).2) :=
    ⟨(h.pushResult hindex).1, List.forall_mem_append.2 ⟨hus, (h.pushResult hindex).2⟩⟩
  cases hasReceiver with
  | false => exact hresult h
  | true => exact h.dropTop.bind fun _ h => hresult h

variable (hindex : P (.instruction index))

include hindex in
theorem Frame.From.produce (h : f.From P) (t : ValueType) :
    (f.push (.ofSource t (.instruction index))).From P :=
  h.push (Slot.from_ofSource hindex t)

include hindex in
theorem executeSimple_from (h : f.From P) (ret? : Option DataType) (op : Opcode) :
    Yields (EffectFrom P index) (executeSimple ret? index op f) := by
  have hdup (copy skip : Nat) : Yields (EffectFrom P index) ((f.dupWords copy skip).map (·, [])) :=
    (h.dupWords copy skip).map fun _ h => .silent h
  have hdrop (words : Nat) :
      Yields (EffectFrom P index) (((f.popWords words).map (·.2)).map (·, [])) :=
    ((h.popWords words).map fun _ hx => hx.2).map fun _ h => .silent h
  have hcompare : Yields (EffectFrom P index) (f.pop >>= fun x => x.2.pop >>= fun y =>
      .ok (y.2.push (.ofSource .int (.instruction index)), unified [y.1, x.1])) := by
    refine h.pop.bind ?_
    rintro ⟨rhs, f⟩ ⟨hrhs, h⟩
    refine h.pop.bind ?_
    rintro ⟨lhs, f⟩ ⟨hlhs, h⟩
    exact ⟨h.produce hindex _, from_unified (by simp [hlhs, hrhs]) index⟩
  cases op
  case nop => exact .silent h
  case aconstNull => exact .silent (h.push (Slot.from_untracked P _))
  case arrayLoad k =>
    refine h.pop.bind ?_
    rintro ⟨position, f⟩ ⟨hposition, h⟩
    exact h.pop.bind fun _ hx => ⟨hx.2.produce hindex _, from_consumed hposition index _⟩
  case arrayStore k =>
    refine h.pop.bind ?_
    rintro ⟨value, f⟩ ⟨hvalue, h⟩
    refine h.pop.bind ?_
    rintro ⟨position, f⟩ ⟨hposition, h⟩
    refine h.pop.bind ?_
    rintro ⟨array, f⟩ ⟨-, h⟩
    refine ⟨h, List.forall_mem_append.2 ⟨from_consumed hposition index _, ?_⟩⟩
    split_ifs
    · exact List.forall_mem_nil _
    · exact from_consumed hvalue index _
  case pop => exact hdrop 1
  case pop2 => exact hdrop 2
  case dup => exact hdup 1 0
  case dupX1 => exact hdup 1 1
  case dupX2 => exact hdup 1 2
  case dup2 => exact hdup 2 0
  case dup2X1 => exact hdup 2 1
  case dup2X2 => exact hdup 2 2
  case swap => exact h.swap.map fun _ h => .silent h
  case bit op isLong =>
    refine h.pop.bind ?_
    rintro ⟨rhs, f⟩ ⟨hrhs, h⟩
    refine h.pop.bind ?_
    rintro ⟨lhs, f⟩ ⟨hlhs, h⟩
    have hall (t : ValueType) :
        ∀ up ∈ unified [lhs, rhs, .ofSource t (.instruction index)], up.From P index :=
      from_unified (by simp [hlhs, hrhs, Slot.from_ofSource hindex t]) index
    refine ⟨h.produce hindex _, ?_⟩
    by_cases hshift : op.isShift
    · simp only [hshift, if_true]
      exact List.forall_mem_nil _
    · simp only [hshift]
      exact hall _
  case arith op k => exact h.dropTop.bind fun _ h => h.dropTop.bind fun _ h => .silent (h.produce hindex _)
  case neg k => exact (h.useTop _).bind fun _ h => ⟨h.1.produce hindex _, h.2⟩
  case convert source target => exact (h.useTop _).bind fun _ h => ⟨h.1.produce hindex _, h.2⟩
  case narrow n => exact (h.useTop _).bind fun _ h => ⟨h.1.produce hindex _, h.2⟩
  case lcmp => exact hcompare
  case fcmp => exact hcompare
  case return_ k =>
    cases k with
    | none => exact .silent h
    | some k => exact h.useTop _
  case arraylength => exact h.dropTop.bind fun _ h => .silent (h.produce hindex _)
  case athrow => exact h.dropTop.map fun _ h => .silent h
  case monitorenter => exact h.dropTop.map fun _ h => .silent h
  case monitorexit => exact h.dropTop.map fun _ h => .silent h
  all_goals exact id

theorem executeVar_from (h : f.From P) (op : Opcode) (slot : Nat) :
    Yields (Frame.From P) (executeVar op slot f) := by
  cases op
  case load k =>
    refine (h.getLocal slot).bind fun s hs => h.push ?_
    split_ifs
    · exact Slot.from_untracked P _
    · exact hs
  case store k => exact h.pop.bind fun _ hx => hx.2.setLocal hx.1 slot
  all_goals exact id

include hindex in
theorem executeType_from (h : f.From P) (op : Opcode) (name : String) :
    Yields (EffectFrom P index) (executeType index op name f) := by
  cases op
  case new => exact .silent (h.produce hindex _)
  case anewarray => exact (h.useTop _).bind fun _ h => ⟨h.1.produce hindex _, h.2⟩
  case checkcast =>
    refine h.pop.bind ?_
    rintro ⟨s, f⟩ ⟨hs, h⟩
    exact ⟨h.push hs, from_consumed hs index _⟩
  case instanceof => exact h.dropTop.bind fun _ h => .silent (h.produce hindex _)
  all_goals exact id

include hindex in
theorem executeField_from (h : f.From P) (op : Opcode) (site : FieldSite) :
    Yields (EffectFrom P index) (executeField index op site f) := by
  refine (yields_mapError _ fun _ => id).bind fun d _ => ?_
  cases op
  case getstatic => exact h.pushResult fun _ => hindex
  case getfield => exact h.dropTop.bind fun _ h => h.pushResult fun _ => hindex
  case putstatic => exact h.useTop _
  case putfield => exact (h.useTop _).bind fun _ h => h.1.dropTop.bind fun _ h' => ⟨h', h.2⟩
  all_goals exact id

theorem executeJump_from (h : f.From P) (op : Opcode) :
    Yields (EffectFrom P index) (executeJump index op f) := by
  cases op
  case goto => exact .silent h
  case ifInt c => exact h.useTop _
  case ifIcmp c =>
    refine h.pop.bind ?_
    rintro ⟨rhs, f⟩ ⟨hrhs, h⟩
    refine h.pop.bind ?_
    rintro ⟨lhs, f⟩ ⟨hlhs, h⟩
    exact ⟨h, List.forall_mem_append.2
      ⟨from_unified (by simp [hlhs, hrhs]) index, from_consumed hlhs index none⟩⟩
  case ifAcmp equal => exact h.dropTop.bind fun _ h => h.dropTop.bind fun _ h => .silent h
  case ifnull => exact h.dropTop.map fun _ h => .silent h
  case ifnonnull => exact h.dropTop.map fun _ h => .silent h
  all_goals exact id

/-- **What one instruction brings in.**  The sources after it are those before it and, unless it
    is a call that gives no value, the instruction; what it learns is of such sources and noted
    at the instruction. -/
theorem Instr.execute_from (h : f.From P) (ret? : Option DataType) {i : Instr}
    (hgives : (∀ op site, i = .method op site → GivesValue site.descriptor) →
      P (.instruction index)) :
    Yields (EffectFrom P index) (i.execute ret? index f) := by
  by_cases hmethod : ∃ op site, i = .method op site
  · obtain ⟨op, site, rfl⟩ := hmethod
    refine h.call (fun hvalue => hgives ?_) _
    rintro _ _ ⟨⟩
    exact hvalue
  have hindex : P (.instruction index) :=
    hgives fun op site hi => absurd ⟨op, site, hi⟩ hmethod
  unfold Instr.execute
  cases i.literal? with
  | some v => exact ⟨h.produce hindex _, List.forall_mem_singleton.2 (from_record hindex trivial)⟩
  | none =>
    cases i with
    | label l => exact .silent h
    | line number start => exact .silent h
    | simple op => exact executeSimple_from hindex h ret? op
    | int op code =>
      cases op
      case newarray =>
        refine (h.useTop _).bind ?_
        rintro ⟨f, us⟩ ⟨h, hus⟩
        cases arrayElementLetter? code with
        | none => exact id
        | some letter => exact ⟨h.produce hindex _, hus⟩
      all_goals exact id
    | ldc c => exact .silent (h.push (Slot.from_untracked P _))
    | var op slot => exact (executeVar_from h op slot).map fun _ h => .silent h
    | iinc slot increment =>
      exact (h.setLocal (Slot.from_ofSource hindex _) slot).map fun _ h => .silent h
    | type op name => exact executeType_from hindex h op name
    | field op site => exact executeField_from hindex h op site
    | method op site => exact absurd ⟨op, site, rfl⟩ hmethod
    | dynamic site => exact h.call (fun _ => hindex) _
    | jump op target => exact executeJump_from h op
    | tableSwitch low high default targets => exact h.useTop _
    | lookupSwitch default pairs => exact h.useTop _
    | multiNewArray d dims => exact (h.popDimensions dims).bind fun _ h => ⟨h.1.produce hindex _, h.2⟩

end Execute

end ConstRestore
