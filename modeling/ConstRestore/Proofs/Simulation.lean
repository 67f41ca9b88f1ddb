/-
  Execution on the frames of a path and on the frames of an analysis.

  What an instruction does to a frame it does to every frame that this one
  accounts for: if it succeeds on the frame of the analysis, it succeeds on the
  frame of the path, and the frame after it accounts for the path's
  (`Instr.execute_tracks`).  Two things could tell the frames apart, and
  `Instr.Clear` excludes them: moving a value that is unusable in the analysis,
  whose origin and size the analysis has lost, and loading an element that is of
  another size on the path.
-/
import ConstRestore.Dataflow.Execute
import ConstRestore.Proofs.Within

namespace ConstRestore

/-! ## Related results -/

section Tracks

variable {ε α β α' β' : Type} {R : α → β → Prop} {S : α' → β' → Prop}

/-- Where `y` succeeds, `x` does with a related result. -/
def Tracks (R : α → β → Prop) (x : Except ε α) (y : Except ε β) : Prop :=
  ∀ b, y = .ok b → ∃ a, x = .ok a ∧ R a b

namespace Tracks

theorem ok {a : α} {b : β} (h : R a b) : Tracks R (.ok a : Except ε α) (.ok b) := by
  rintro _ ⟨⟩
  exact ⟨a, rfl, h⟩

theorem error (x : Except ε α) (e : ε) : Tracks R x (.error e) := by
  rintro _ ⟨⟩

theorem bind {x : Except ε α} {y : Except ε β} {k : α → Except ε α'} {l : β → Except ε β'}
    (h : Tracks R x y) (hk : ∀ a b, R a b → Tracks S (k a) (l b)) :
    Tracks S (x >>= k) (y >>= l) := by
  intro b' hb'
  obtain ⟨b, hb, hb'⟩ := bind_eq_ok.1 hb'
  obtain ⟨a, ha, hab⟩ := h b hb
  obtain ⟨a', ha', hab'⟩ := hk a b hab b' hb'
  exact ⟨a', bind_eq_ok.2 ⟨a, ha, ha'⟩, hab'⟩

theorem map {x : Except ε α} {y : Except ε β} {k : α → α'} {l : β → β'}
    (h : Tracks R x y) (hk : ∀ a b, R a b → S (k a) (l b)) : Tracks S (x.map k) (y.map l) := by
  intro b' hb'
  obtain ⟨b, hb, rfl⟩ := map_eq_ok.1 hb'
  obtain ⟨a, ha, hab⟩ := h b hb
  exact ⟨k a, map_eq_ok.2 ⟨a, ha, rfl⟩, hk a b hab⟩

end Tracks

end Tracks

/-! ## Stacks and locals -/

/-- Related frames; the updates beside them do not matter. -/
def EffectWithin (x y : Frame × List FactUpdate) : Prop := x.1.Within y.1

/-- The entries that make up the top words of a stack. -/
def topWords : Nat → List Slot → List Slot
  | 0, _ | _ + 1, [] => []
  | words + 1, s :: rest => s :: topWords (words + 1 - s.size) rest

namespace Frame

variable {f g : Frame} {s t : Slot}

theorem Within.push (hf : f.Within g) (hs : s.Within t) : (f.push s).Within (g.push t) :=
  ⟨hf.locals, .cons hs hf.stack⟩

theorem Within.pop (hf : f.Within g) :
    Tracks (fun x y => x.1.Within y.1 ∧ x.2.Within y.2 ∧
        f.stack = x.1 :: x.2.stack ∧ g.stack = y.1 :: y.2.stack) f.pop g.pop := by
  obtain ⟨fl, fs⟩ := f
  obtain ⟨gl, gs⟩ := g
  cases hf.stack with
  | nil => exact .error _ _
  | cons hs hstack => exact .ok ⟨hs, ⟨hf.locals, hstack⟩, rfl, rfl⟩

theorem takeWords_tracks {ss ts : List Slot} (h : List.Forall₂ Slot.Within ss ts) (words : Nat)
    (htop : ∀ t ∈ topWords words ts, t.type ≠ .top) :
    Tracks (fun x y => List.Forall₂ Slot.Within x.1 y.1 ∧ List.Forall₂ Slot.Within x.2 y.2)
      (takeWords words ss) (takeWords words ts) := by
  induction h generalizing words with
  | nil =>
    cases words with
    | zero => simpa only [takeWords] using .ok ⟨.nil, .nil⟩
    | succ words => simpa only [takeWords] using .error _ _
  | @cons s t ss ts hs hss ih =>
    cases words with
    | zero => simpa only [takeWords] using .ok ⟨.nil, .cons hs hss⟩
    | succ words =>
      obtain ⟨hst, htops⟩ := List.forall_mem_cons.1 htop
      simp only [takeWords, (hs.usable hst).2]
      split_ifs
      · exact .error _ _
      · exact (ih _ htops).map fun _ _ h => ⟨.cons hs h.1, h.2⟩

/-- What is taken first are the top words, and what is left are those below. -/
theorem topWords_add {ts taken rest : List Slot} {words : Nat}
    (h : takeWords words ts = .ok (taken, rest)) (more : Nat) :
    topWords (words + more) ts = taken ++ topWords more rest := by
  induction ts generalizing words taken with
  | nil =>
    cases words with
    | zero =>
      simp only [takeWords, Except.ok.injEq, Prod.mk.injEq] at h
      obtain ⟨rfl, rfl⟩ := h
      simp
    | succ words => simp [takeWords] at h
  | cons t ts ih =>
    cases words with
    | zero =>
      simp only [takeWords, Except.ok.injEq, Prod.mk.injEq] at h
      obtain ⟨rfl, rfl⟩ := h
      simp
    | succ words =>
      simp only [takeWords] at h
      split_ifs at h with hsize
      obtain ⟨⟨taken', rest'⟩, htake, heq⟩ := map_eq_ok.1 h
      obtain ⟨rfl, rfl⟩ := Prod.mk.inj heq
      have hwords : words + 1 + more = words + more + 1 := by omega
      rw [hwords, topWords, List.cons_append, ← ih htake]
      congr 2
      omega

theorem Within.popWords (hf : f.Within g) {words : Nat}
    (htop : ∀ t ∈ topWords words g.stack, t.type ≠ .top) :
    Tracks (fun x y => List.Forall₂ Slot.Within x.1 y.1 ∧ x.2.Within y.2 ∧
        ∀ more, topWords (words + more) g.stack = y.1 ++ topWords more y.2.stack)
      (f.popWords words) (g.popWords words) := by
  intro b hb
  obtain ⟨⟨taken, rest⟩, htake, hb⟩ := bind_eq_ok.1 hb
  obtain rfl := Except.ok.inj hb
  obtain ⟨⟨taken', rest'⟩, htake', htaken, hrest⟩ := takeWords_tracks hf.stack words htop _ htake
  exact ⟨_, bind_eq_ok.2 ⟨_, htake', rfl⟩, htaken, ⟨hf.locals, hrest⟩, topWords_add htake⟩

theorem mem_topWords_add {t : Slot} (more : Nat) {words : Nat} {ts : List Slot}
    (h : t ∈ topWords words ts) : t ∈ topWords (words + more) ts := by
  induction ts generalizing words more with
  | nil => cases words <;> exact absurd h List.not_mem_nil
  | cons t' ts ih =>
    cases words with
    | zero => exact absurd h List.not_mem_nil
    | succ words =>
      rw [Nat.succ_add_eq_add_succ, Nat.add_succ, topWords]
      rcases List.mem_cons.1 h with rfl | h
      · exact List.mem_cons_self
      · have hle : words + 1 - t'.size ≤ words + more + 1 - t'.size := by omega
        obtain ⟨rest, hrest⟩ := Nat.exists_eq_add_of_le hle
        exact List.mem_cons_of_mem _ (hrest ▸ ih rest h)

theorem Within.dupWords (hf : f.Within g) {copy skip : Nat}
    (htop : ∀ t ∈ topWords (copy + skip) g.stack, t.type ≠ .top) :
    Tracks Within (f.dupWords copy skip) (g.dupWords copy skip) := by
  refine (hf.popWords fun t ht => htop t (mem_topWords_add skip ht)).bind ?_
  rintro ⟨copied, f⟩ ⟨copied', g'⟩ ⟨hcopied, hf, hmore⟩
  refine (hf.popWords fun t ht => htop t (hmore skip ▸ List.mem_append_right _ ht)).bind ?_
  rintro ⟨skipped, f⟩ ⟨skipped', g'⟩ ⟨hskipped, hf, -⟩
  have hcopies := List.rel_append (List.rel_append hcopied hskipped) hcopied
  exact .ok ⟨hf.locals, List.rel_append hcopies hf.stack⟩

theorem Within.swap (hf : f.Within g) (htop : ∀ t ∈ topWords 2 g.stack, t.type ≠ .top) :
    Tracks Within f.swap g.swap := by
  refine (hf.popWords fun t ht => htop t (mem_topWords_add 1 ht)).bind ?_
  rintro ⟨upper, f⟩ ⟨upper', g'⟩ ⟨hupper, hf, hmore⟩
  refine (hf.popWords fun t ht => htop t (hmore 1 ▸ List.mem_append_right _ ht)).bind ?_
  rintro ⟨lower, f⟩ ⟨lower', g'⟩ ⟨hlower, hf, -⟩
  exact .ok ⟨hf.locals, List.rel_append (List.rel_append hlower hupper) hf.stack⟩

/-! ### Local variables -/

theorem forall₂_set {ss ts : List Slot} (h : List.Forall₂ Slot.Within ss ts) (hs : s.Within t)
    (i : Nat) : List.Forall₂ Slot.Within (ss.set i s) (ts.set i t) := by
  induction h generalizing i with
  | nil => exact .nil
  | cons hst hss ih =>
    cases i with
    | zero => exact .cons hs hss
    | succ i => exact .cons hst (ih i)

/-- A slot whose counterpart is unusable may become unusable. -/
theorem forall₂_set_top {ss ts : List Slot} (h : List.Forall₂ Slot.Within ss ts) {i : Nat}
    (hi : ∀ t, ts[i]? = some t → t.type = .top) :
    List.Forall₂ Slot.Within (ss.set i .top) ts := by
  induction h generalizing i with
  | nil => exact .nil
  | cons hst hss ih =>
    cases i with
    | zero => exact .cons (.top_left _ (hi _ rfl)) hss
    | succ i => exact .cons hst (ih hi)

theorem storeAt_within {ss ts : List Slot} (h : List.Forall₂ Slot.Within ss ts) (hs : s.Within t)
    (hsize : s.size = t.size) (i : Nat) :
    List.Forall₂ Slot.Within (storeAt ss i s) (storeAt ts i t) := by
  have hclear : List.Forall₂ Slot.Within
      (if 0 < i ∧ (ss[i - 1]?).any (·.size = 2) then ss.set (i - 1) .top else ss)
      (if 0 < i ∧ (ts[i - 1]?).any (·.size = 2) then ts.set (i - 1) .top else ts) := by
    split_ifs with hss hts hts
    · exact forall₂_set h (.refl _) _
    · refine forall₂_set_top h ?_
      intro u hu
      by_contra htop
      obtain ⟨v, hv, hvu : v.Within u⟩ := forall₂_getElem? h.flip hu
      have hv2 : v.size = 2 := by simpa [hv] using hss.2
      exact hts ⟨hss.1, by simp [hu, ← (hvu.usable htop).2, hv2]⟩
    · obtain ⟨u, hu, hu2⟩ := (Option.any_eq_true ..).1 hts.2
      obtain ⟨v, hv, hvu : v.Within u⟩ := forall₂_getElem? h.flip hu
      have htop : u.type ≠ .top := fun e => by simp [Slot.size, e, ValueType.size] at hu2
      exact absurd ⟨hts.1, by simp [hv, (hvu.usable htop).2, of_decide_eq_true hu2]⟩ hss
    · exact h
  unfold storeAt
  dsimp only
  rw [hsize]
  by_cases h2 : t.size = 2
  · rw [if_pos h2, if_pos h2]
    exact forall₂_set (forall₂_set hclear hs i) (.refl _) (i + 1)
  · rw [if_neg h2, if_neg h2]
    exact forall₂_set hclear hs i

theorem Within.setLocal (hf : f.Within g) (hs : s.Within t) (ht : t.type ≠ .top) (i : Nat) :
    Tracks Within (f.setLocal i s) (g.setLocal i t) := by
  have hsize := (hs.usable ht).2
  unfold Frame.setLocal
  rw [hf.locals.length_eq, hsize]
  split_ifs
  · exact .error _ _
  · exact .ok ⟨storeAt_within hf.locals hs hsize i, hf.stack⟩

theorem Within.getLocal (hf : f.Within g) (i : Nat) :
    Tracks (fun s t => s.Within t ∧ g.locals[i]? = some t) (f.getLocal i) (g.getLocal i) := by
  intro t ht
  have ht := elim_eq_ok.1 ht
  obtain ⟨s, hs, hst⟩ := forall₂_getElem? hf.locals.flip ht
  exact ⟨s, elim_eq_ok.2 hs, hst, ht⟩

end Frame

/-! ## Instructions -/

section Uses

variable {f g : Frame} {index : Nat}

theorem Frame.Within.dropTop (hf : f.Within g) :
    Tracks Frame.Within (dropTop f) (ConstRestore.dropTop g) :=
  hf.pop.map fun _ _ h => h.2.1

theorem Frame.Within.useTop (hf : f.Within g) (narrow? : Option DataType) :
    Tracks EffectWithin (useTop f index narrow?) (ConstRestore.useTop g index narrow?) :=
  hf.pop.bind fun _ _ h => .ok h.2.1

theorem Frame.Within.popArguments (hf : f.Within g) (params : List (Descriptor × Nat)) :
    Tracks EffectWithin (f.popArguments index params) (g.popArguments index params) := by
  induction params generalizing f g with
  | nil => exact .ok hf
  | cons p params ih =>
    refine hf.pop.bind ?_
    rintro ⟨s, f⟩ ⟨t, g⟩ ⟨-, hf, -⟩
    exact (ih hf).bind fun _ _ h => .ok h

theorem Frame.Within.popDimensions (hf : f.Within g) (count : Nat) :
    Tracks EffectWithin (f.popDimensions index count) (g.popDimensions index count) := by
  induction count generalizing f g with
  | zero => exact .ok hf
  | succ count ih =>
    refine hf.pop.bind ?_
    rintro ⟨s, f⟩ ⟨t, g⟩ ⟨-, hf, -⟩
    exact (ih hf).bind fun _ _ h => .ok h

theorem Frame.Within.pushResult (hf : f.Within g) (d : Descriptor) :
    EffectWithin (f.pushResult index d) (g.pushResult index d) := by
  unfold Frame.pushResult
  split
  · exact hf
  · exact hf.push (.refl _)

end Uses

/-- Words at the top of the stack that an instruction moves or drops unseen. -/
def Opcode.movedWords : Opcode → Nat
  | .pop | .dup => 1
  | .pop2 | .dup2 | .dupX1 | .swap => 2
  | .dupX2 | .dup2X1 => 3
  | .dup2X2 => 4
  | _ => 0

namespace Instr

/-- The slots that an instruction loads, stores, drops or duplicates. -/
def moved (i : Instr) (f : Frame) : List Slot :=
  match i with
  | simple op => topWords op.movedWords f.stack
  | var (.load _) slot => f.locals[slot]?.toList
  | var (.store _) _ => f.stack.head?.toList
  | _ => []

/-- Words of the array element that an instruction loads. -/
def elementSize? (i : Instr) (f : Frame) : Option Nat :=
  match i with
  | simple (.arrayLoad k) => f.stack[1]?.map fun array => (k.loadType array.type).size
  | _ => none

/-- Nothing that the instruction moves is unusable in the analysis, which has
    the frame `g` where the path has `f`, and elements are of one size. -/
structure Clear (i : Instr) (f g : Frame) : Prop where
  usable : ∀ s ∈ i.moved g, s.type ≠ .top
  element : i.elementSize? f = i.elementSize? g

end Instr

theorem ValueType.ofDescriptor?_ne_top {d : Descriptor} {t : ValueType}
    (h : ofDescriptor? d = some t) : t ≠ .top := by
  rintro rfl
  cases d <;> simp [ofDescriptor?] at h

theorem ValueType.arrayElement?_ne_top {s t : ValueType} (h : s.arrayElement? = some t) :
    t ≠ .top := by
  unfold arrayElement? at h
  split at h
  · split at h
    · obtain ⟨d, -, hd⟩ := Option.bind_eq_some_iff.1 h
      exact ofDescriptor?_ne_top hd
    · simp at h
  · simp at h

theorem ElemKind.loadType_ne_top (k : ElemKind) (array : ValueType) :
    k.loadType array ≠ .top := by
  cases k <;> simp only [loadType, ne_eq, reduceCtorEq, not_false_eq_true]
  case ref =>
    cases h : array.arrayElement? with
    | none => simp [objectType]
    | some t => exact ValueType.arrayElement?_ne_top h
  case byte => split_ifs <;> simp

section Execute

variable {f g : Frame} {index : Nat}

/-- An array load pushes elements of one size. -/
theorem arrayLoad_tracks (hf : f.Within g) (ret? : Option DataType) (k : ElemKind)
    (helement : (Instr.simple (.arrayLoad k)).elementSize? f =
      (Instr.simple (.arrayLoad k)).elementSize? g) :
    Tracks EffectWithin (executeSimple ret? index (.arrayLoad k) f)
      (executeSimple ret? index (.arrayLoad k) g) := by
  refine hf.pop.bind ?_
  rintro ⟨position, f'⟩ ⟨position', g'⟩ ⟨-, hf, hfs, hgs⟩
  refine hf.pop.bind ?_
  rintro ⟨array, f₂⟩ ⟨array', g₂⟩ ⟨-, hf, hfs', hgs'⟩
  dsimp only at hfs hgs hfs' hgs'
  have hsize : (k.loadType array.type).size = (k.loadType array'.type).size := by
    simpa [Instr.elementSize?, hfs, hgs, hfs', hgs'] using helement
  exact .ok (hf.push (.of_sources (k.loadType_ne_top _) hsize))

theorem executeSimple_tracks (hf : f.Within g) (ret? : Option DataType) {op : Opcode}
    (hclear : (Instr.simple op).Clear f g) :
    Tracks EffectWithin (executeSimple ret? index op f) (executeSimple ret? index op g) := by
  have hpush {f g : Frame} {t : ValueType} {us us' : List FactUpdate} (hf : f.Within g) :
      Tracks EffectWithin (.ok (f.push (.ofSource t (.instruction index)), us) : Effect)
        (.ok (g.push (.ofSource t (.instruction index)), us')) :=
    .ok (hf.push (.refl _))
  have hdup (copy skip : Nat) (h : copy + skip = op.movedWords) :
      Tracks EffectWithin ((f.dupWords copy skip).map (·, []))
        ((g.dupWords copy skip).map (·, [])) :=
    (hf.dupWords fun t ht => hclear.usable t (by rwa [Instr.moved, ← h])).map fun _ _ h => h
  cases op
  case nop => exact .ok hf
  case aconstNull => exact .ok (hf.push (.refl _))
  case arrayLoad k => exact arrayLoad_tracks hf ret? k hclear.element
  case arrayStore k =>
    refine hf.pop.bind ?_
    intro _ _ h
    refine h.2.1.pop.bind ?_
    intro _ _ h
    exact h.2.1.pop.bind fun _ _ h => .ok h.2.1
  case pop => exact ((hf.popWords hclear.usable).map fun _ _ h => h.2.1).map fun _ _ h => h
  case pop2 => exact ((hf.popWords hclear.usable).map fun _ _ h => h.2.1).map fun _ _ h => h
  case dup => exact hdup 1 0 rfl
  case dupX1 => exact hdup 1 1 rfl
  case dupX2 => exact hdup 1 2 rfl
  case dup2 => exact hdup 2 0 rfl
  case dup2X1 => exact hdup 2 1 rfl
  case dup2X2 => exact hdup 2 2 rfl
  case swap => exact (hf.swap hclear.usable).map fun _ _ h => h
  case bit op isLong =>
    refine hf.pop.bind ?_
    intro _ _ h
    exact h.2.1.pop.bind fun _ _ h => hpush h.2.1
  case arith op k => exact hf.dropTop.bind fun _ _ h => h.dropTop.bind fun _ _ h => hpush h
  case neg k => exact (hf.useTop _).bind fun _ _ h => hpush h
  case convert source target => exact (hf.useTop _).bind fun _ _ h => hpush h
  case narrow n => exact (hf.useTop _).bind fun _ _ h => hpush h
  case lcmp =>
    refine hf.pop.bind ?_
    intro _ _ h
    exact h.2.1.pop.bind fun _ _ h => hpush h.2.1
  case fcmp =>
    refine hf.pop.bind ?_
    intro _ _ h
    exact h.2.1.pop.bind fun _ _ h => hpush h.2.1
  case return_ k =>
    cases k with
    | none => exact .ok hf
    | some k => exact hf.useTop _
  case arraylength => exact hf.dropTop.bind fun _ _ h => hpush h
  case athrow => exact hf.dropTop.map fun _ _ h => h
  case monitorenter => exact hf.dropTop.map fun _ _ h => h
  case monitorexit => exact hf.dropTop.map fun _ _ h => h
  all_goals exact .error _ _

theorem executeVar_tracks (hf : f.Within g) {op : Opcode} {slot : Nat}
    (hclear : (Instr.var op slot).Clear f g) :
    Tracks Frame.Within (executeVar op slot f) (executeVar op slot g) := by
  cases op
  case load k =>
    refine (hf.getLocal slot).bind ?_
    rintro s t ⟨hst, ht⟩
    have htop : t.type ≠ .top := hclear.usable t (by simp [Instr.moved, ht])
    rw [if_neg htop, if_neg (hst.usable htop).1]
    exact .ok (hf.push hst)
  case store k =>
    refine hf.pop.bind ?_
    rintro ⟨s, f'⟩ ⟨t, g'⟩ ⟨hst, hf, -, hgs⟩
    have htop : t.type ≠ .top := hclear.usable t (by simp [Instr.moved, hgs])
    exact hf.setLocal hst htop slot
  all_goals exact .error _ _

theorem executeType_tracks (hf : f.Within g) (op : Opcode) (name : String) :
    Tracks EffectWithin (executeType index op name f) (executeType index op name g) := by
  cases op
  case new => exact .ok (hf.push (.refl _))
  case anewarray => exact (hf.useTop _).bind fun _ _ h => .ok (h.push (.refl _))
  case checkcast =>
    refine hf.pop.bind ?_
    rintro ⟨s, f'⟩ ⟨t, g'⟩ ⟨hst, hf, -⟩
    exact .ok (hf.push ⟨hst.sources, .inr ⟨by simp, rfl⟩⟩)
  case instanceof => exact hf.dropTop.bind fun _ _ h => .ok (h.push (.refl _))
  all_goals exact .error _ _

theorem executeField_tracks (hf : f.Within g) (op : Opcode) (site : FieldSite) :
    Tracks EffectWithin (executeField index op site f) (executeField index op site g) := by
  unfold executeField
  cases (Descriptor.parse site.descriptor).mapError FlowError.descriptor with
  | error e => exact .error _ _
  | ok d =>
    cases op
    case getstatic => exact .ok (hf.pushResult d)
    case getfield => exact hf.dropTop.bind fun _ _ h => .ok (h.pushResult d)
    case putstatic => exact hf.useTop _
    case putfield =>
      exact (hf.useTop _).bind fun _ _ h => h.dropTop.bind fun _ _ h => .ok h
    all_goals exact .error _ _

theorem executeJump_tracks (hf : f.Within g) (op : Opcode) :
    Tracks EffectWithin (executeJump index op f) (executeJump index op g) := by
  cases op
  case goto => exact .ok hf
  case ifInt c => exact hf.useTop _
  case ifIcmp c => exact hf.pop.bind fun _ _ h => h.2.1.pop.bind fun _ _ h => .ok h.2.1
  case ifAcmp equal => exact hf.dropTop.bind fun _ _ h => h.dropTop.bind fun _ _ h => .ok h
  case ifnull => exact hf.dropTop.map fun _ _ h => h
  case ifnonnull => exact hf.dropTop.map fun _ _ h => h
  all_goals exact .error _ _

theorem Frame.Within.call (hf : f.Within g) (descriptor : String) (hasReceiver : Bool) :
    Tracks EffectWithin (f.call index descriptor hasReceiver)
      (g.call index descriptor hasReceiver) := by
  unfold Frame.call
  cases (MethodDescriptor.parse descriptor).mapError FlowError.descriptor with
  | error e => exact .error _ _
  | ok d =>
    refine (hf.popArguments d.params.zipIdx.reverse).bind ?_
    rintro ⟨f, us⟩ ⟨g, us'⟩ hf
    cases hasReceiver with
    | false => exact .ok (hf.pushResult d.ret)
    | true => exact hf.dropTop.bind fun _ _ h => .ok (h.pushResult d.ret)

/-- **One instruction on a path and in the analysis.**  If the analysis can execute the
    instruction, so can the path, and the frame after it is accounted for. -/
theorem Instr.execute_tracks (hf : f.Within g) (ret? : Option DataType) {i : Instr}
    (hclear : i.Clear f g) :
    Tracks EffectWithin (i.execute ret? index f) (i.execute ret? index g) := by
  unfold Instr.execute
  cases i.literal? with
  | some v => exact .ok (hf.push (.refl _))
  | none =>
    cases i with
    | label l => exact .ok hf
    | line number start => exact .ok hf
    | simple op => exact executeSimple_tracks hf ret? hclear
    | int op code =>
      cases op
      case newarray =>
        refine (hf.useTop _).bind ?_
        intro _ _ h
        cases arrayElementLetter? code with
        | none => exact .error _ _
        | some letter => exact .ok (h.push (.refl _))
      all_goals exact .error _ _
    | ldc c => exact .ok (hf.push (.refl _))
    | var op slot => exact (executeVar_tracks hf hclear).map fun _ _ h => h
    | iinc slot increment =>
      exact (hf.setLocal (.refl _) (by simp [Slot.ofSource]) slot).map fun _ _ h => h
    | type op name => exact executeType_tracks hf op name
    | field op site => exact executeField_tracks hf op site
    | method op site => exact hf.call _ _
    | dynamic site => exact hf.call _ _
    | jump op target => exact executeJump_tracks hf op
    | tableSwitch low high default targets => exact hf.useTop _
    | lookupSwitch default pairs => exact hf.useTop _
    | multiNewArray d dims =>
      exact (hf.popDimensions dims).bind fun _ _ h => .ok (h.push (.refl _))

end Execute

end ConstRestore
