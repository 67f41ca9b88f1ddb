/-
  What generated code does to the frames of an analysis.

  `HasEffect n code before after` types a sequence: executed at any indices
  from a frame with at least `n` local variables and entries of the types
  `before` on top of the stack, it succeeds, puts entries of the types `after`
  in their place, and leaves everything else as it was.

  * sequences are typed like the words of a stack language: one after the other
    (`HasEffect.append`) and on top of what they do not touch (`HasEffect.below`);
  * one lemma types each instruction that code for expressions is made of;
  * `hasEffect_emitted` puts them together, by induction on the shapes of
    generated code.
-/
import ConstRestore.Dataflow.Execute
import ConstRestore.Registry.Tables
import ConstRestore.Proofs.Descriptors
import ConstRestore.Proofs.Emitted

namespace ConstRestore

/-! ## Types of one kind -/

namespace ValueType

variable {s t u : ValueType}

/-- Ints of any width, or one type. -/
def SameKind (s t : ValueType) : Prop := s = t ∨ s.isIntLike ∧ t.isIntLike

/-- A value of type `s` can be where one of type `t` is expected; anything can
    be where nothing is used. -/
def Fits (s t : ValueType) : Prop := t = top ∨ s.SameKind t

theorem SameKind.refl (t : ValueType) : t.SameKind t := .inl rfl

theorem SameKind.symm (h : s.SameKind t) : t.SameKind s := by
  rcases h with rfl | ⟨hs, ht⟩
  · exact .refl _
  · exact .inr ⟨ht, hs⟩

theorem SameKind.trans (h : s.SameKind t) (h' : t.SameKind u) : s.SameKind u := by
  rcases h with rfl | ⟨hs, ht⟩
  · exact h'
  · rcases h' with rfl | ⟨-, hu⟩
    · exact .inr ⟨hs, ht⟩
    · exact .inr ⟨hs, hu⟩

theorem SameKind.fits (h : s.SameKind t) : s.Fits t := .inr h

theorem Fits.refl (t : ValueType) : t.Fits t := .inr (.refl t)

theorem fits_top (s : ValueType) : s.Fits top := .inl rfl

theorem Fits.sameKind (h : s.Fits t) (ht : t ≠ top) : s.SameKind t := h.resolve_left ht

theorem Fits.trans (h : s.Fits t) (h' : t.Fits u) : s.Fits u := by
  rcases h' with rfl | h'
  · exact fits_top s
  · rcases h with rfl | h
    · rcases h' with rfl | ⟨htop, -⟩
      · exact fits_top s
      · cases htop
    · exact .inr (h.trans h')

theorem ofDataType_ne_top (t : DataType) : ofDataType t ≠ top := by
  cases t <;> exact nofun

/-- Primitive types of one stack kind are of one kind here. -/
theorem sameKind_ofDataType {s t : DataType} (hs : s.isPrimitive)
    (h : s.stackKind = t.stackKind) : (ofDataType s).SameKind (ofDataType t) := by
  cases s with
  | string | class_ => cases hs
  | byte | short | char | int =>
    cases t <;> first | exact .inr ⟨rfl, rfl⟩ | cases h
  | long | float | double =>
    cases t <;> first | exact .refl _ | cases h

end ValueType

/-- Entries of a stack have types. -/
abbrev Typed (slots : List Slot) (types : List ValueType) : Prop :=
  List.Forall₂ (fun s t => s.type.Fits t) slots types

/-! ## Sequences -/

/-- Executes instructions one after the other, each at its index. -/
def executeAll (ret? : Option DataType) (code : List (Instr × Nat)) (f : Frame) :
    Except FlowError Frame :=
  code.foldlM (fun f (i, index) => (i.execute ret? index f).map (·.1)) f

theorem executeAll_cons (ret? : Option DataType) (i : Instr) (index : Nat)
    (code : List (Instr × Nat)) (f : Frame) :
    executeAll ret? ((i, index) :: code) f =
      (i.execute ret? index f).map (·.1) >>= executeAll ret? code := rfl

theorem executeAll_append (ret? : Option DataType) (code code' : List (Instr × Nat)) (f : Frame) :
    executeAll ret? (code ++ code') f = executeAll ret? code f >>= executeAll ret? code' :=
  List.foldlM_append

/-- The code takes entries of the types `before` from the top of any stack and leaves entries of
    the types `after` there, if there are at least `n` locals. -/
def HasEffect (n : Nat) (code : List Instr) (before after : List ValueType) : Prop :=
  ∀ ret? start locals taken rest, n ≤ locals.length → Typed taken before →
    ∃ put, executeAll ret? (code.zipIdx start) ⟨locals, taken ++ rest⟩ =
      .ok ⟨locals, put ++ rest⟩ ∧ Typed put after

namespace HasEffect

variable {n : Nat} {code code' : List Instr} {a b d : List ValueType} {i : Instr}

theorem nil (n : Nat) (a : List ValueType) : HasEffect n [] a a :=
  fun _ _ _ taken _ _ htaken => ⟨taken, rfl, htaken⟩

theorem append (h : HasEffect n code a b) (h' : HasEffect n code' b d) :
    HasEffect n (code ++ code') a d := by
  intro ret? start locals taken rest hn htaken
  obtain ⟨put, hput, hb⟩ := h ret? start locals taken rest hn htaken
  obtain ⟨put', hput', hd⟩ := h' ret? (start + code.length) locals put rest hn hb
  refine ⟨put', ?_, hd⟩
  rw [List.zipIdx_append, executeAll_append, hput]
  exact hput'

theorem below (h : HasEffect n code a b) (under : List ValueType) :
    HasEffect n code (a ++ under) (b ++ under) := by
  intro ret? start locals taken rest hn htaken
  obtain ⟨put, hput, hb⟩ := h ret? start locals (taken.take a.length)
    (taken.drop a.length ++ rest) hn (List.forall₂_take_append _ _ _ htaken)
  refine ⟨put ++ taken.drop a.length, ?_,
    List.rel_append hb (List.forall₂_drop_append _ _ _ htaken)⟩
  rw [← List.append_assoc, List.take_append_drop] at hput
  rw [List.append_assoc]
  exact hput

theorem retype {s t : ValueType} (h : s.Fits t) : HasEffect n [] [s] [t] := by
  intro ret? start locals taken rest hn htaken
  obtain ⟨x, none, hx, hnone, rfl⟩ := List.forall₂_cons_right_iff.1 htaken
  exact ⟨x :: none, rfl, .cons (hx.trans h) hnone⟩

theorem of_execute (h : ∀ ret? index locals taken rest, n ≤ locals.length → Typed taken a →
    ∃ put us, i.execute ret? index ⟨locals, taken ++ rest⟩ = .ok (⟨locals, put ++ rest⟩, us) ∧
      Typed put b) : HasEffect n [i] a b := by
  intro ret? start locals taken rest hn htaken
  obtain ⟨put, us, hput, hb⟩ := h ret? start locals taken rest hn htaken
  refine ⟨put, ?_, hb⟩
  rw [List.zipIdx_singleton, executeAll_cons, hput]
  rfl

/-! ### Instructions that take none, one or two entries and leave one -/

variable {s s' t : ValueType}

theorem of_push (h : ∀ ret? index (f : Frame), ∃ (x : Slot) (us : List FactUpdate),
    i.execute ret? index f = .ok (f.push x, us) ∧ x.type.Fits t) : HasEffect n [i] [] [t] := by
  refine of_execute fun ret? index locals taken rest hn htaken => ?_
  obtain rfl := List.forall₂_nil_right_iff.1 htaken
  obtain ⟨x, us, hx, ht⟩ := h ret? index ⟨locals, rest⟩
  exact ⟨[x], us, hx, .cons ht .nil⟩

theorem of_turn (h : ∀ ret? index (f : Frame) (x : Slot), ∃ (y : Slot) (us : List FactUpdate),
    i.execute ret? index (f.push x) = .ok (f.push y, us) ∧ y.type.Fits t) :
    HasEffect n [i] [s] [t] := by
  refine of_execute fun ret? index locals taken rest hn htaken => ?_
  obtain ⟨x, none, -, hnone, rfl⟩ := List.forall₂_cons_right_iff.1 htaken
  obtain rfl := List.forall₂_nil_right_iff.1 hnone
  obtain ⟨y, us, hy, ht⟩ := h ret? index ⟨locals, rest⟩ x
  exact ⟨[y], us, hy, .cons ht .nil⟩

theorem of_join (h : ∀ ret? index (f : Frame) (x x' : Slot), ∃ (y : Slot) (us : List FactUpdate),
    i.execute ret? index ((f.push x).push x') = .ok (f.push y, us) ∧ y.type.Fits t) :
    HasEffect n [i] [s', s] [t] := by
  refine of_execute fun ret? index locals taken rest hn htaken => ?_
  obtain ⟨x', lower, -, hlower, rfl⟩ := List.forall₂_cons_right_iff.1 htaken
  obtain ⟨x, none, -, hnone, rfl⟩ := List.forall₂_cons_right_iff.1 hlower
  obtain rfl := List.forall₂_nil_right_iff.1 hnone
  obtain ⟨y, us, hy, ht⟩ := h ret? index ⟨locals, rest⟩ x x'
  exact ⟨[y], us, hy, .cons ht .nil⟩

end HasEffect

/-! ## Literals, conversions and operators -/

open ValueType (ofDataType)

theorem literal?_pushInt (v : Int32) : ∃ w, (Instr.pushInt v).literal? = some (.int w) := by
  simp only [Instr.pushInt]
  split_ifs <;> exact ⟨_, rfl⟩

/-- The push of a value pushes a literal of its promoted type. -/
theorem literal?_push (v : Value) :
    ∃ w, (Instr.push v).literal? = some w ∧ w.dataType = v.dataType.promote := by
  cases v with
  | byte v | short v | char v | int v =>
    obtain ⟨w, hw⟩ := literal?_pushInt _
    exact ⟨.int w, hw, rfl⟩
  | long v | float v | double v =>
    simp only [Instr.push]
    split_ifs <;> exact ⟨_, rfl, rfl⟩
  | string s | class_ name => exact ⟨_, rfl, rfl⟩

theorem DataType.sameKind_promote (t : DataType) :
    (ofDataType t.promote).SameKind (ofDataType t) := by
  cases t <;> first | exact .refl _ | exact .inr ⟨rfl, rfl⟩

/-- The push of a literal. -/
theorem hasEffect_literal {i : Instr} {v : Value} (h : i.literal? = some v) (n : Nat) :
    HasEffect n [i] [] [ofDataType v.dataType] := by
  refine .of_push fun ret? index f => ⟨.ofSource (ofDataType v.dataType) (.instruction index),
    [.record (.instruction index) (.narrowType v.dataType)], ?_, .refl _⟩
  simp only [Instr.execute, h]
  rfl

theorem hasEffect_push (v : Value) (n : Nat) :
    HasEffect n [.push v] [] [ofDataType v.dataType] := by
  obtain ⟨w, hw, ht⟩ := literal?_push v
  exact (hasEffect_literal hw n).append (.retype (ht ▸ v.dataType.sameKind_promote.fits))

section

variable (n : Nat) (s s' : ValueType)

theorem hasEffect_convert (k k' : NumKind) :
    HasEffect n [.simple (.convert k k')] [s] [k'.valueType] :=
  .of_turn fun _ _ _ _ => ⟨_, _, rfl, .refl _⟩

theorem hasEffect_narrow (k : Narrow) :
    HasEffect n [.simple (.narrow k)] [s] [ofDataType k.dataType] :=
  .of_turn fun _ _ _ _ => ⟨_, _, rfl, .refl _⟩

theorem hasEffect_neg (k : NumKind) : HasEffect n [.simple (.neg k)] [s] [k.valueType] :=
  .of_turn fun _ _ _ _ => ⟨_, _, rfl, .refl _⟩

theorem hasEffect_arith (op : ArithOp) (k : NumKind) :
    HasEffect n [.simple (.arith op k)] [s', s] [k.valueType] :=
  .of_join fun _ _ _ _ _ => ⟨_, _, rfl, .refl _⟩

theorem hasEffect_bit (op : BitOp) (isLong : Bool) :
    HasEffect n [.simple (.bit op isLong)] [s', s] [if isLong then .long else .int] :=
  .of_join fun _ _ _ _ _ => ⟨_, _, rfl, .refl _⟩

end

/-- The types of an arithmetic kind are of the kind of every type that it stands for. -/
theorem sameKind_numKind {t : DataType} {k : NumKind} (h : t.stackKind.numKind? = some k) :
    k.valueType.SameKind (ofDataType t) := by
  cases t <;> cases h <;> first | exact .refl _ | exact .inr ⟨rfl, rfl⟩

theorem hasEffect_kindConversion {s t : DataType} (hs : s.isPrimitive) (ht : t.isPrimitive)
    (n : Nat) : HasEffect n (kindConversion s t) [ofDataType s] [ofDataType t] := by
  obtain ⟨k, hk⟩ : ∃ k, s.stackKind.numKind? = some k := by
    cases s <;> first | exact ⟨_, rfl⟩ | cases hs
  obtain ⟨k', hk'⟩ : ∃ k, t.stackKind.numKind? = some k := by
    cases t <;> first | exact ⟨_, rfl⟩ | cases ht
  simp only [kindConversion, hk, hk']
  split_ifs with heq
  · exact .retype ((sameKind_numKind hk).symm.trans (heq ▸ sameKind_numKind hk')).fits
  · exact (hasEffect_convert n _ k k').append (.retype (sameKind_numKind hk').fits)

theorem hasEffect_narrowing (s t : DataType) (n : Nat) :
    HasEffect n (narrowing s t) [ofDataType t] [ofDataType t] := by
  unfold narrowing
  split_ifs
  · exact .nil n _
  · cases t with
    | byte => exact hasEffect_narrow n _ .byte
    | short => exact hasEffect_narrow n _ .short
    | char => exact hasEffect_narrow n _ .char
    | int | long | float | double | string | class_ => exact .nil n _

theorem hasEffect_of_convert {s t : DataType} {code : List Instr} (h : convert s t = .ok code)
    (n : Nat) : HasEffect n code [ofDataType s] [ofDataType t] := by
  unfold convert at h
  split_ifs at h with heq hp
  · obtain rfl := Except.ok.inj h
    exact heq ▸ .nil n _
  · obtain rfl := Except.ok.inj h
    simp only [Bool.or_eq_true, Bool.not_eq_true', not_or, Bool.not_eq_false] at hp
    exact (hasEffect_kindConversion hp.1 hp.2 n).append (hasEffect_narrowing s t n)

theorem hasEffect_of_convertValue {s t : DataType} {value : Option Value} {code : List Instr}
    (h : convertValue s t value = .ok code) (n : Nat) :
    HasEffect n code [ofDataType s] [ofDataType t] := by
  unfold convertValue at h
  split_ifs at h with hskip
  · obtain rfl := Except.ok.inj h
    have hs : s.isPrimitive := by
      cases s <;> first | rfl | cases hskip.1
    exact .retype (ValueType.sameKind_ofDataType hs (hskip.1.trans hskip.2.1.symm)).fits
  · exact hasEffect_of_convert h n

theorem hasEffect_of_binaryOpcode {op : BinaryOp} {t : DataType} {opcode : Opcode}
    (h : binaryOpcode op t = .ok opcode) (n : Nat) (s s' : ValueType) :
    HasEffect n [.simple opcode] [s', s] [ofDataType t] := by
  unfold binaryOpcode at h
  split at h
  case h_1 hk _ =>
    obtain rfl := Except.ok.inj h
    exact (hasEffect_arith n s s' _ _).append (.retype (sameKind_numKind hk).fits)
  case h_2 hk _ _ =>
    obtain rfl := Except.ok.inj h
    exact (hasEffect_bit n s s' _ false).append (.retype (sameKind_numKind hk).fits)
  case h_3 hk _ _ =>
    obtain rfl := Except.ok.inj h
    exact (hasEffect_bit n s s' _ true).append (.retype (sameKind_numKind hk).fits)
  case h_4 => cases h

theorem hasEffect_of_unaryCode {op : UnaryOp} {t : DataType} {code : List Instr}
    (h : unaryCode op t = .ok code) (n : Nat) : HasEffect n code [ofDataType t] [ofDataType t] := by
  cases op with
  | negate =>
    obtain ⟨opcode, hopcode, rfl⟩ := map_eq_ok.1 h
    unfold negateOpcode at hopcode
    split at hopcode
    · next k hk =>
      obtain rfl := Except.ok.inj hopcode
      exact (hasEffect_neg n _ k).append (.retype (sameKind_numKind hk).fits)
    · cases hopcode
  | complement =>
    -- all ones are pushed on top of the operand
    cases t <;> cases h
    · exact ((hasEffect_push (.int (-1)) n).below [.int]).append (hasEffect_bit n _ _ .xor false)
    · exact ((hasEffect_push (.long (-1)) n).below [.long]).append (hasEffect_bit n _ _ .xor true)

/-! ## Fields and calls -/

theorem ofDescriptor?_toDescriptor (t : DataType) :
    ValueType.ofDescriptor? t.toDescriptor = some (ofDataType t) := by
  cases t <;> rfl

theorem hasEffect_getstatic {site : FieldSite} {d : Descriptor} {t : ValueType}
    (hparse : Descriptor.parse site.descriptor = .ok d) (ht : ValueType.ofDescriptor? d = some t)
    (n : Nat) : HasEffect n [.field .getstatic site] [] [t] := by
  refine .of_push fun ret? index f => ⟨.ofSource t (.instruction index),
    [.record (.instruction index) (.usage index)], ?_, .refl _⟩
  refine bind_eq_ok.2 ⟨d, mapError_eq_ok.2 hparse, ?_⟩
  simp only [Frame.pushResult, ht]

theorem hasEffect_getfield {site : FieldSite} {d : Descriptor} {t : ValueType}
    (hparse : Descriptor.parse site.descriptor = .ok d) (ht : ValueType.ofDescriptor? d = some t)
    (n : Nat) (s : ValueType) : HasEffect n [.field .getfield site] [s] [t] := by
  refine .of_turn fun ret? index f x => ⟨.ofSource t (.instruction index),
    [.record (.instruction index) (.usage index)], ?_, .refl _⟩
  refine bind_eq_ok.2 ⟨d, mapError_eq_ok.2 hparse, bind_eq_ok.2 ⟨f, rfl, ?_⟩⟩
  simp only [Frame.pushResult, ht]

/-- The load of a constant, from the object on the stack if it is no static one. -/
theorem hasEffect_fieldAccess {r : Registry} {f : FieldRef} {load : Instr} {t : DataType}
    (h : fieldAccess r f = .ok (load, t)) (n : Nat) (s : ValueType) :
    HasEffect n [load] (if f.isStatic then [] else [s]) [ofDataType t] := by
  obtain ⟨c, -, h⟩ := bind_eq_ok.1 h
  obtain ⟨rfl, rfl⟩ := Prod.mk.inj (Except.ok.inj h)
  have hparse := c.dataType.parse_toDescriptor
  have ht := ofDescriptor?_toDescriptor c.dataType
  split_ifs
  · refine hasEffect_getstatic ?_ ht n
    exact hparse
  · refine hasEffect_getfield ?_ ht n s
    exact hparse

theorem exists_popArguments (index : Nat) {params : List (Descriptor × Nat)} {taken : List Slot}
    (h : taken.length = params.length) (locals rest : List Slot) :
    ∃ us, Frame.popArguments index params ⟨locals, taken ++ rest⟩ = .ok (⟨locals, rest⟩, us) := by
  induction params generalizing taken with
  | nil =>
    obtain rfl := List.eq_nil_of_length_eq_zero h
    exact ⟨[], rfl⟩
  | cons param params ih =>
    obtain ⟨s, taken, rfl⟩ := List.exists_cons_of_length_eq_add_one h
    obtain ⟨us, hus⟩ := ih (Nat.succ.inj h)
    exact ⟨_, bind_eq_ok.2 ⟨(s, ⟨locals, taken ++ rest⟩), rfl, bind_eq_ok.2 ⟨_, hus, rfl⟩⟩⟩

/-- A call takes as many entries as it has arguments, and the receiver if it has one. -/
theorem exists_call {descriptor : String} {d : MethodDescriptor}
    (hparse : MethodDescriptor.parse descriptor = .ok d) (hasReceiver : Bool) {taken : List Slot}
    (h : taken.length = d.params.length + hasReceiver.toNat) (index : Nat)
    (locals rest : List Slot) :
    ∃ put us, Frame.call ⟨locals, taken ++ rest⟩ index descriptor hasReceiver =
      .ok (⟨locals, put ++ rest⟩, us) ∧ Typed put (ValueType.ofDescriptor? d.ret).toList := by
  obtain ⟨args, receiver, rfl, hargs, hreceiver⟩ : ∃ args receiver, taken = args ++ receiver ∧
      args.length = d.params.zipIdx.reverse.length ∧ receiver.length = hasReceiver.toNat := by
    refine ⟨_, _, (List.take_append_drop d.params.length taken).symm, ?_, ?_⟩ <;> simp [h]
  obtain ⟨us, hpop⟩ := exists_popArguments index hargs locals (receiver ++ rest)
  have hcall : Frame.call ⟨locals, args ++ (receiver ++ rest)⟩ index descriptor hasReceiver =
      .ok ((Frame.pushResult ⟨locals, rest⟩ index d.ret).1,
        us ++ (Frame.pushResult ⟨locals, rest⟩ index d.ret).2) := by
    refine bind_eq_ok.2 ⟨d, mapError_eq_ok.2 hparse, bind_eq_ok.2 ⟨_, hpop, ?_⟩⟩
    cases hasReceiver with
    | false =>
      obtain rfl := List.eq_nil_of_length_eq_zero hreceiver
      rfl
    | true =>
      obtain ⟨s, rfl⟩ := List.length_eq_one_iff.1 hreceiver
      rfl
  rw [List.append_assoc, hcall]
  cases ht : ValueType.ofDescriptor? d.ret with
  | none =>
    simp only [Frame.pushResult, ht]
    exact ⟨[], _, rfl, .nil⟩
  | some t =>
    simp only [Frame.pushResult, ht]
    exact ⟨[.ofSource t (.instruction index)], _, rfl, .cons (.refl t) .nil⟩

section

variable {before after : List ValueType} (d : MethodDescriptor)

theorem hasEffect_method {op : Opcode} {site : MethodSite}
    (hparse : MethodDescriptor.parse site.descriptor = .ok d)
    (hlen : before.length = d.params.length + if op = .invokestatic then 0 else 1)
    (hret : (ValueType.ofDescriptor? d.ret).toList = after) (n : Nat) :
    HasEffect n [.method op site] before after := by
  subst hret
  refine .of_execute fun ret? index locals taken rest _ htaken => ?_
  refine exists_call hparse (op ≠ .invokestatic) ?_ index locals rest
  rw [htaken.length_eq, hlen]
  by_cases hop : op = .invokestatic <;> simp [hop]

theorem hasEffect_dynamic {site : DynamicSite}
    (hparse : MethodDescriptor.parse site.descriptor = .ok d)
    (hlen : before.length = d.params.length)
    (hret : (ValueType.ofDescriptor? d.ret).toList = after) (n : Nat) :
    HasEffect n [.dynamic site] before after := by
  subst hret
  refine .of_execute fun ret? index locals taken rest _ htaken => ?_
  exact exists_call hparse false (htaken.length_eq.trans hlen) index locals rest

end

/-! ## Concatenations -/

/-- The types of builders and strings. -/
def builderType : ValueType := .ref "java/lang/StringBuilder"

def stringType : ValueType := .ref "java/lang/String"

/-- A reference is one word. -/
theorem popWords_reference {x : Slot} {name : String} (hx : x.type.Fits (.ref name))
    (locals rest : List Slot) :
    Frame.popWords ⟨locals, x :: rest⟩ 1 = .ok ([x], ⟨locals, rest⟩) := by
  have hsize : x.size = 1 := by
    rcases hx.sameKind nofun with htype | ⟨-, hint⟩
    · rw [Slot.size, htype]
      rfl
    · cases hint
  refine bind_eq_ok.2 ⟨([x], rest), ?_, rfl⟩
  simp [Frame.takeWords, hsize, map_eq_ok]

theorem hasEffect_pop (name : String) (n : Nat) : HasEffect n [.simple .pop] [.ref name] [] := by
  refine .of_execute fun ret? index locals taken rest _ htaken => ?_
  obtain ⟨x, none, hx, hnone, rfl⟩ := List.forall₂_cons_right_iff.1 htaken
  obtain rfl := List.forall₂_nil_right_iff.1 hnone
  exact ⟨[], [], map_eq_ok.2 ⟨_, map_eq_ok.2 ⟨_, popWords_reference hx locals rest, rfl⟩, rfl⟩, .nil⟩

theorem hasEffect_dup (name : String) (n : Nat) :
    HasEffect n [.simple .dup] [.ref name] [.ref name, .ref name] := by
  refine .of_execute fun ret? index locals taken rest _ htaken => ?_
  obtain ⟨x, none, hx, hnone, rfl⟩ := List.forall₂_cons_right_iff.1 htaken
  obtain rfl := List.forall₂_nil_right_iff.1 hnone
  have hskip : Frame.popWords ⟨locals, rest⟩ 0 = .ok ([], ⟨locals, rest⟩) := by
    simp [Frame.popWords, Frame.takeWords, bind_eq_ok]
  have hdup : Frame.dupWords ⟨locals, x :: rest⟩ 1 0 = .ok ⟨locals, x :: x :: rest⟩ :=
    bind_eq_ok.2 ⟨_, popWords_reference hx locals rest, bind_eq_ok.2 ⟨_, hskip, rfl⟩⟩
  exact ⟨[x, x], [], map_eq_ok.2 ⟨_, hdup, rfl⟩, .cons hx (.cons hx .nil)⟩

theorem hasEffect_newBuilder (n : Nat) :
    HasEffect n [.type .new "java/lang/StringBuilder", .simple .dup,
      .method .invokespecial ⟨"java/lang/StringBuilder", "<init>", "()V", false⟩]
      [] [builderType] := by
  have hnew : HasEffect n [.type .new "java/lang/StringBuilder"] [] [builderType] :=
    .of_push fun _ _ _ => ⟨_, _, rfl, .refl _⟩
  have hinit : HasEffect n
      [.method .invokespecial ⟨"java/lang/StringBuilder", "<init>", "()V", false⟩]
      [builderType] [] :=
    hasEffect_method ⟨[], .void⟩ (by cbv) rfl rfl n
  exact hnew.append ((hasEffect_dup _ n).append (hinit.below [builderType]))

section

variable {n : Nat}

theorem hasEffect_appendCode {p : ConcatPart} (h : HasEffect n p.code [] [ofDataType p.type]) :
    HasEffect n p.appendCode [builderType] [builderType] := by
  refine (h.below [builderType]).append (hasEffect_method
    ⟨[p.type.appendParameter], .object "java/lang/StringBuilder"⟩ ?_ rfl rfl n)
  exact p.parse_append

theorem hasEffect_builderCode {parts : List ConcatPart}
    (h : ∀ p ∈ parts, HasEffect n p.code [] [ofDataType p.type]) :
    HasEffect n (builderCode parts) [] [stringType] := by
  have hparts : HasEffect n (parts.flatMap ConcatPart.appendCode) [builderType] [builderType] := by
    induction parts with
    | nil => exact .nil n _
    | cons p parts ih =>
      have ⟨hp, hparts⟩ := List.forall_mem_cons.1 h
      exact (hasEffect_appendCode hp).append (ih hparts)
  refine ((hasEffect_newBuilder n).append hparts).append ?_
  exact hasEffect_method ⟨[], .object "java/lang/String"⟩ (by cbv) rfl rfl n

/-- Operands are pushed one after the other, the last one on top. -/
theorem hasEffect_flatMap_code {parts : List ConcatPart}
    (h : ∀ p ∈ parts, HasEffect n p.code [] [ofDataType p.type]) :
    HasEffect n (parts.flatMap (·.code)) [] (parts.map fun p => ofDataType p.type).reverse := by
  induction parts with
  | nil => exact .nil n _
  | cons p parts ih =>
    have ⟨hp, hparts⟩ := List.forall_mem_cons.1 h
    rw [List.map_cons, List.reverse_cons]
    exact hp.append ((ih hparts).below [ofDataType p.type])

theorem hasEffect_dynamicCode {parts : List ConcatPart}
    (h : ∀ p ∈ parts, HasEffect n p.code [] [ofDataType p.type]) :
    HasEffect n (dynamicCode parts) [] [stringType] := by
  refine (hasEffect_flatMap_code fun p hp => h p (List.mem_filter.1 hp).1).append
    (hasEffect_dynamic ⟨(parts.filter (·.recipeText?.isNone)).map (·.type.toDescriptor),
      .object "java/lang/String"⟩ ?_ ?_ rfl n)
  · exact parse_concatSite _
  · simp

theorem hasEffect_concatCode (c : CodeContext) {parts : List ConcatPart}
    (h : ∀ p ∈ parts, HasEffect n p.code [] [ofDataType p.type]) :
    HasEffect n (concatCode c parts) [] [stringType] := by
  simp only [concatCode]
  split_ifs
  · exact hasEffect_dynamicCode h
  · exact hasEffect_builderCode h

end

/-! ## Enclosing instances -/

/-- The classes of enclosing instances have names that can stand in a descriptor. -/
def Registry.WellNamed (r : Registry) : Prop :=
  ∀ name c o, r.info? name = some c → c.outer = some o → IsClassName o.outerClass

theorem Registry.wellNamed_empty : ClassRegistry.empty.registry.WellNamed := by
  intro name c o hc ho
  cases hc

theorem Registry.WellNamed.addInfo {t : ClassRegistry} (hr : t.registry.WellNamed) {c : ClassInfo}
    (hc : ∀ o, c.outer = some o → IsClassName o.outerClass) :
    (t.addInfo c).registry.WellNamed := by
  intro name c' o hc' ho
  rw [ClassRegistry.info?_addInfo] at hc'
  split_ifs at hc'
  · exact hc o (Option.some.inj hc' ▸ ho)
  · exact hr name c' o hc' ho

theorem Registry.WellNamed.addConstant {t : ClassRegistry} (hr : t.registry.WellNamed)
    (owner name : String) (c : Constant) : (t.addConstant owner name c).registry.WellNamed := hr

theorem hasEffect_this : HasEffect 1 [.var (.load .ref) 0] [] [.top] := by
  refine .of_execute fun ret? index locals taken rest hn htaken => ?_
  obtain rfl := List.forall₂_nil_right_iff.1 htaken
  obtain ⟨x, locals, rfl⟩ := List.exists_cons_of_length_pos hn
  exact ⟨_, _, rfl, .cons (ValueType.fits_top _) .nil⟩

theorem hasEffect_outerLoad {r : Registry} (hr : r.WellNamed) (owner : String) (n : Nat) :
    HasEffect n (r.outerLoad owner) [.top] [.top] := by
  unfold Registry.outerLoad
  cases ho : (r.info? owner).bind (·.outer) with
  | none => exact .nil n _
  | some o =>
    obtain ⟨c, hc, ho⟩ := Option.bind_eq_some_iff.1 ho
    have hparse : Descriptor.parse o.descriptor = .ok (.object o.outerClass) :=
      Descriptor.parse_text (d := .object o.outerClass) (hr owner c o hc ho)
    have hload : HasEffect n [.field .getfield ⟨owner, o.fieldName, o.descriptor⟩] [.top]
        [.ref o.outerClass] := by
      refine hasEffect_getfield (d := .object o.outerClass) ?_ rfl n .top
      exact hparse
    exact hload.append (.retype (ValueType.fits_top _))

theorem hasEffect_receiver {r : Registry} (hr : r.WellNamed) {c : CodeContext} {owner : String}
    {code : List Instr} (h : receiver r c owner = .ok code) : HasEffect 1 code [] [.top] := by
  simp only [receiver] at h
  split_ifs at h
  obtain rfl := Except.ok.inj h
  refine hasEffect_this.append ?_
  induction (r.outerChain c.owner).takeWhile fun o => !r.isAssignable owner o with
  | nil => exact .nil 1 _
  | cons o chain ih => exact (hasEffect_outerLoad hr o 1).append ih

/-! ## Expressions -/

/-- **Generated code leaves a value of its type**, and nothing else changes. -/
theorem hasEffect_emitted {r : Registry} {c : CodeContext} {n : Nat}
    (hreceiver : ∀ owner code, receiver r c owner = .ok code → HasEffect n code [] [.top])
    {code : List Instr} {t : DataType} (h : Emitted r c code t) :
    HasEffect n code [] [ofDataType t] := by
  induction h with
  | literal v => exact hasEffect_push v n
  | @field f object load t hobject hload =>
    have hload := hasEffect_fieldAccess hload n .top
    unfold fieldObject at hobject
    split_ifs at hobject hload
    · obtain rfl := Except.ok.inj hobject
      exact hload
    · exact (hreceiver f.owner object hobject).append hload
  | converted _ hconversion ih => exact ih.append (hasEffect_of_convert hconversion n)
  | unary _ hoperation ih => exact ih.append (hasEffect_of_unaryCode hoperation n)
  | @binary op left right t opcode _ _ hopcode ihl ihr =>
    have hright := ihr.below [ofDataType t]
    exact (ihl.append hright).append (hasEffect_of_binaryOpcode hopcode n _ _)
  | concat _ ih => exact hasEffect_concatCode c ih

end ConstRestore
