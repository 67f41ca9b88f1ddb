/-
  Local variables in an analysis.

  Only the instructions on local variables change them (`Instr.execute_locals`),
  and these keep their number (`Instr.execute_length`).  So all frames of an
  analysis have as many as the one at the entry (`solve_locals`), which has room
  for the receiver and the parameters.
-/
import ConstRestore.Proofs.Origin
import ConstRestore.Proofs.Worklist

namespace ConstRestore

/-! ## Instructions -/

namespace Frame

variable {f : Frame} {locals : List Slot} {index : Nat}

/-- A frame has these local variables. -/
def HasLocals (locals : List Slot) (f : Frame) : Prop := f.locals = locals

theorem HasLocals.pop (h : f.HasLocals locals) : Yields (fun x => x.2.HasLocals locals) f.pop := by
  obtain ⟨_, stack⟩ := f
  cases stack with
  | nil => exact id
  | cons s stack => exact h

theorem HasLocals.popWords (h : f.HasLocals locals) (words : Nat) :
    Yields (fun x => x.2.HasLocals locals) (f.popWords words) := by
  have htake := takeWords_from (P := fun _ => True) (fun s (_ : s ∈ f.stack) _ _ => trivial) words
  exact htake.bind fun _ _ => h

theorem HasLocals.dupWords (h : f.HasLocals locals) (copy skip : Nat) :
    Yields (HasLocals locals) (f.dupWords copy skip) :=
  (h.popWords copy).bind fun _ h => (h.popWords skip).bind fun _ h => h

theorem HasLocals.swap (h : f.HasLocals locals) : Yields (HasLocals locals) f.swap :=
  (h.popWords 1).bind fun _ h => (h.popWords 1).bind fun _ h => h

theorem HasLocals.dropTop (h : f.HasLocals locals) : Yields (HasLocals locals) (dropTop f) :=
  h.pop.map fun _ h => h

/-- The frame after an effect has them. -/
abbrev EffectHasLocals (locals : List Slot) (x : Frame × List FactUpdate) : Prop := x.1.HasLocals locals

theorem HasLocals.useTop (h : f.HasLocals locals) (narrow? : Option DataType) :
    Yields (EffectHasLocals locals) (useTop f index narrow?) :=
  h.pop.bind fun _ h => h

theorem HasLocals.popArguments (h : f.HasLocals locals) (params : List (Descriptor × Nat)) :
    Yields (EffectHasLocals locals) (f.popArguments index params) := by
  induction params generalizing f with
  | nil => exact h
  | cons p params ih => exact h.pop.bind fun _ h => (ih h).bind fun _ h => h

theorem HasLocals.popDimensions (h : f.HasLocals locals) (count : Nat) :
    Yields (EffectHasLocals locals) (f.popDimensions index count) := by
  induction count generalizing f with
  | zero => exact h
  | succ count ih => exact h.pop.bind fun _ h => (ih h).bind fun _ h => h

theorem HasLocals.pushResult (h : f.HasLocals locals) (d : Descriptor) :
    (f.pushResult index d).1.HasLocals locals := by
  unfold Frame.pushResult
  split
  · exact h
  · exact h

theorem HasLocals.call (h : f.HasLocals locals) (descriptor : String) (hasReceiver : Bool) :
    Yields (EffectHasLocals locals) (f.call index descriptor hasReceiver) := by
  refine (yields_mapError _ fun _ => id).bind fun d _ => ?_
  refine (h.popArguments d.params.zipIdx.reverse).bind ?_
  rintro ⟨f, us⟩ h
  cases hasReceiver with
  | false => exact HasLocals.pushResult h d.ret
  | true => exact (HasLocals.dropTop h).bind fun _ h => HasLocals.pushResult h d.ret

end Frame

open ConstRestore.Frame (HasLocals EffectHasLocals)

section

variable {f : Frame} {locals : List Slot} {index : Nat}

theorem executeSimple_locals (h : f.HasLocals locals) (ret? : Option DataType) (op : Opcode) :
    Yields (EffectHasLocals locals) (executeSimple ret? index op f) := by
  have hdup (copy skip : Nat) : Yields (EffectHasLocals locals) ((f.dupWords copy skip).map (·, [])) :=
    (h.dupWords copy skip).map fun _ h => h
  have hdrop (words : Nat) :
      Yields (EffectHasLocals locals) (((f.popWords words).map (·.2)).map (·, [])) := by
    have hpop : Yields (HasLocals locals) ((f.popWords words).map (·.2)) :=
      (h.popWords words).map fun _ h => h
    exact hpop.map fun _ h => h
  cases op
  case nop => exact h
  case aconstNull => exact h
  case arrayLoad k => exact h.pop.bind fun _ h => HasLocals.pop h |>.bind fun _ h => h
  case arrayStore k =>
    exact h.pop.bind fun _ h => (HasLocals.pop h).bind fun _ h => (HasLocals.pop h).bind fun _ h => h
  case pop => exact hdrop 1
  case pop2 => exact hdrop 2
  case dup => exact hdup 1 0
  case dupX1 => exact hdup 1 1
  case dupX2 => exact hdup 1 2
  case dup2 => exact hdup 2 0
  case dup2X1 => exact hdup 2 1
  case dup2X2 => exact hdup 2 2
  case swap => exact h.swap.map fun _ h => h
  case bit op isLong => exact h.pop.bind fun _ h => (HasLocals.pop h).bind fun _ h => h
  case arith op k => exact h.dropTop.bind fun _ h => (HasLocals.dropTop h).bind fun _ h => h
  case neg k => exact (h.useTop _).bind fun _ h => h
  case convert source target => exact (h.useTop _).bind fun _ h => h
  case narrow n => exact (h.useTop _).bind fun _ h => h
  case lcmp => exact h.pop.bind fun _ h => (HasLocals.pop h).bind fun _ h => h
  case fcmp => exact h.pop.bind fun _ h => (HasLocals.pop h).bind fun _ h => h
  case return_ k =>
    cases k with
    | none => exact h
    | some k => exact h.useTop _
  case arraylength => exact h.dropTop.bind fun _ h => h
  case athrow => exact h.dropTop.map fun _ h => h
  case monitorenter => exact h.dropTop.map fun _ h => h
  case monitorexit => exact h.dropTop.map fun _ h => h
  all_goals exact id

theorem executeType_locals (h : f.HasLocals locals) (op : Opcode) (name : String) :
    Yields (EffectHasLocals locals) (executeType index op name f) := by
  cases op
  case new => exact h
  case anewarray => exact (h.useTop _).bind fun _ h => h
  case checkcast => exact h.pop.bind fun _ h => h
  case instanceof => exact h.dropTop.bind fun _ h => h
  all_goals exact id

theorem executeField_locals (h : f.HasLocals locals) (op : Opcode) (site : FieldSite) :
    Yields (EffectHasLocals locals) (executeField index op site f) := by
  refine (yields_mapError _ fun _ => id).bind fun d _ => ?_
  cases op
  case getstatic => exact h.pushResult d
  case getfield => exact h.dropTop.bind fun _ h => HasLocals.pushResult h d
  case putstatic => exact h.useTop _
  case putfield => exact (h.useTop _).bind fun _ h => (HasLocals.dropTop h).bind fun _ h => h
  all_goals exact id

theorem executeJump_locals (h : f.HasLocals locals) (op : Opcode) :
    Yields (EffectHasLocals locals) (executeJump index op f) := by
  cases op
  case goto => exact h
  case ifInt c => exact h.useTop _
  case ifIcmp c => exact h.pop.bind fun _ h => (HasLocals.pop h).bind fun _ h => h
  case ifAcmp equal => exact h.dropTop.bind fun _ h => (HasLocals.dropTop h).bind fun _ h => h
  case ifnull => exact h.dropTop.map fun _ h => h
  case ifnonnull => exact h.dropTop.map fun _ h => h
  all_goals exact id

/-- Only instructions on local variables change them. -/
theorem Instr.execute_locals {i : Instr} (hi : i.touchesLocals = false) (ret? : Option DataType)
    (f : Frame) : Yields (EffectHasLocals f.locals) (i.execute ret? index f) := by
  have h : f.HasLocals f.locals := rfl
  unfold Instr.execute
  cases i.literal? with
  | some v => exact h
  | none =>
    cases i with
    | label l => exact h
    | line number start => exact h
    | simple op => exact executeSimple_locals h ret? op
    | int op code =>
      cases op
      case newarray =>
        refine (h.useTop _).bind ?_
        rintro ⟨f, us⟩ h
        cases arrayElementLetter? code with
        | none => exact id
        | some letter => exact h
      all_goals exact id
    | ldc c => exact h
    | var op slot => cases hi
    | iinc slot increment => cases hi
    | type op name => exact executeType_locals h op name
    | field op site => exact executeField_locals h op site
    | method op site => exact h.call _ _
    | dynamic site => exact h.call _ _
    | jump op target => exact executeJump_locals h op
    | tableSwitch low high default targets => exact h.useTop _
    | lookupSwitch default pairs => exact h.useTop _
    | multiNewArray d dims => exact (h.popDimensions dims).bind fun _ h => h

theorem length_storeAt (locals : List Slot) (i : Nat) (s : Slot) :
    (Frame.storeAt locals i s).length = locals.length := by
  unfold Frame.storeAt
  dsimp only
  split_ifs <;> simp

theorem setLocal_length (f : Frame) (i : Nat) (s : Slot) :
    Yields (fun g => g.locals.length = f.locals.length) (f.setLocal i s) := by
  unfold Frame.setLocal
  split_ifs
  · exact id
  · exact length_storeAt f.locals i s

/-- What holds of the local variables, and goes on to hold after a store, holds after an
    instruction. -/
theorem Instr.execute_stores {P : List Slot → Prop} (h : P f.locals)
    (hstore : ∀ g : Frame, g.locals = f.locals → ∀ slot s,
      Yields (fun g' => P g'.locals) (g.setLocal slot s)) (i : Instr) (ret? : Option DataType) :
    Yields (fun x => P x.1.locals) (i.execute ret? index f) := by
  cases hi : i.touchesLocals with
  | false => exact (Instr.execute_locals hi ret? f).imp fun _ hlocals => hlocals.symm ▸ h
  | true =>
    cases i with
    | var op slot =>
      have hvar : Yields (fun g => P g.locals) (executeVar op slot f) := by
        have hf : f.HasLocals f.locals := rfl
        cases op
        case load k => exact (yields_elim f.locals[slot]? id).bind fun _ _ => h
        case store k => exact hf.pop.bind fun x hx => hstore x.2 hx slot x.1
        all_goals exact id
      exact hvar.map fun _ h => h
    | iinc slot n => exact (hstore f rfl slot _).map fun _ h => h
    | _ => cases hi

/-- **An instruction keeps the number of local variables.** -/
theorem Instr.execute_length (i : Instr) (ret? : Option DataType) (f : Frame) :
    Yields (fun x => x.1.locals.length = f.locals.length) (i.execute ret? index f) :=
  Instr.execute_stores (P := fun locals => locals.length = f.locals.length) rfl
    (fun g hg slot s => (setLocal_length g slot s).imp fun _ h => h.trans (congrArg List.length hg))
    i ret?

end

/-! ## Analyses -/

theorem State.Received.locals_length {r : Registry} {s : State} {j : Nat} {f g : Frame}
    (h : s.Received r j f) (hg : s.frame? j = some g) : g.locals.length = f.locals.length := by
  obtain ⟨g', hg', hwithin⟩ := h.covers
  obtain rfl := Option.some.inj (hg.symm.trans hg')
  exact hwithin.locals.length_eq.symm

/-- The frames of a settled state have as many local variables as the entry. -/
theorem Flow.Inv.locals_length {r : Registry} {p : Flow} {entry : Frame} {s : State}
    (hs : p.Inv r entry s) (hqueue : s.queue = []) {j : Nat} {f : Frame}
    (hf : s.frame? j = some f) : f.locals.length = entry.locals.length := by
  have hreaches := hs.reached j (by simp [hf])
  induction hreaches generalizing f with
  | entry => exact hs.entry.locals_length hf
  | @follow j j' hj hfollows ih =>
    obtain ⟨before, hbefore⟩ :=
      Option.isSome_iff_exists.1 ((hs.isSome_iff_reaches hqueue j).2 hj)
    obtain ⟨i, after, us, es, -, hex, hedges, -, hreceived⟩ :=
      hs.executed_of_settled hqueue hbefore
    have hafter := (hreceived _ (hedges.follows j' hfollows)).locals_length hf
    exact hafter.trans (((i.execute_length p.ret? before).of_ok hex).trans (ih hbefore))
  | @raise j h hj hcatches ih =>
    obtain ⟨before, hbefore⟩ :=
      Option.isSome_iff_exists.1 ((hs.isSome_iff_reaches hqueue j).2 hj)
    obtain ⟨i, after, us, es, -, -, hedges, -, hreceived⟩ := hs.executed_of_settled hqueue hbefore
    have hcaught : f.locals.length = before.locals.length :=
      (hreceived _ (hedges.catches h hcatches)).locals_length hf
    exact hcaught.trans (ih hbefore)

namespace Method

/-- Local variables that a call of the method fills: the receiver and the parameters. -/
def receivedLocals (m : Method) (d : MethodDescriptor) : Nat :=
  (if m.isStatic then 0 else 1) + d.argumentSlots

theorem storeParams_length {params : List (Descriptor × Nat)} {slot : Nat} {f f' : Frame}
    {us : List FactUpdate} (h : storeParams params slot f = .ok (f', us)) :
    f'.locals.length = f.locals.length := by
  induction params generalizing slot f f' us with
  | nil =>
    obtain ⟨rfl, -⟩ := Prod.mk.inj (Except.ok.inj h)
    rfl
  | cons param params ih =>
    obtain ⟨g, hg, h⟩ := bind_eq_ok.1 h
    obtain ⟨⟨g', us'⟩, hg', h⟩ := bind_eq_ok.1 h
    obtain ⟨rfl, -⟩ := Prod.mk.inj (Except.ok.inj h)
    exact (ih hg').trans ((setLocal_length f slot _).of_ok hg)

theorem entryFrame_length {m : Method} {owner : String} {d : MethodDescriptor} {entry : Frame}
    {us : List FactUpdate} (h : m.entryFrame owner d = .ok (entry, us)) :
    entry.locals.length = max m.maxLocals (m.receivedLocals d) := by
  unfold entryFrame at h
  dsimp only at h
  split_ifs at h with hstatic
  · obtain ⟨f, hf, h⟩ := bind_eq_ok.1 h
    obtain rfl := Except.ok.inj hf
    rw [storeParams_length h, receivedLocals, if_pos hstatic]
    exact List.length_replicate
  · obtain ⟨f, hf, h⟩ := bind_eq_ok.1 h
    rw [storeParams_length h, (setLocal_length _ 0 _).of_ok hf, receivedLocals, if_neg hstatic]
    exact List.length_replicate

end Method

/-- **All frames of an analysis have the local variables of the method**, or as many as a call of
    it fills if these are more. -/
theorem solve_locals {r : Registry} {limit : Nat} {owner : String} {m : Method} {a : Solution}
    (h : solve r limit owner m = .ok a) {j : Nat} {f : Frame} (hf : a.frame? j = some f) :
    ∃ d, MethodDescriptor.parse m.descriptor = .ok d ∧
      f.locals.length = max m.maxLocals (m.receivedLocals d) := by
  have hcode : m.code ≠ [] := by
    intro hcode
    rw [frame?_of_code_eq_nil h hcode] at hf
    cases hf
  obtain ⟨d, p, entry, us, n, hd, -, hentry, -, hs⟩ := solve_settled h hcode
  exact ⟨d, hd, (hs.locals_length rfl hf).trans (Method.entryFrame_length hentry)⟩

end ConstRestore
