/-
  Literals that an entry of a group stands in for.

  `verbatim_pushes_iff` says when the code of an entry pushes the literal that
  it takes the place of.  The code leaves out the narrowing to the group's type
  when the constant converts exactly to it, but `char` and the signed types
  convert exactly even where the sign becomes a bit of the magnitude:
  `verbatim_pushes_another_value` is a literal 65535 that becomes -1.
-/
import ConstRestore.Proofs.Filled

namespace ConstRestore

/-- The tables of a group that apply to the method. -/
def Subject.tables (s : Subject) (g : Group) : List Mappings :=
  g.tablesFor s.owner s.method.name s.method.descriptor

theorem Subject.standIn?_eq_some {s : Subject} {key : GroupKey} {g : Group} {value : Value}
    {f : Facts} {w : StandIn} (hg : s.store.group? key = some g)
    (h : s.standIn? key value f = some w) :
    g.standIn? s.config.flags (s.tables g) value (f.narrowType value.dataType) = some w := by
  rw [standIn?, hg] at h
  exact h

theorem Group.Sound.mapping {r : Registry} {g : Group} (hg : g.Sound r) {s : Subject}
    {value key : Value} {entry : Mapping} (hkey : value.convertExact g.dataType = some key)
    (h : g.mapping? (s.tables g) value = some entry) : entry.expr.StandsFor r key := by
  rw [mapping?, hkey, Option.bind_some] at h
  obtain ⟨t, ht, h⟩ := List.exists_of_findSome?_eq_some h
  exact (hg.tablesFor ht h).2

/-- **When an entry pushes the literal that it stands in for.**  The code of an entry
    pushes the literal's value exactly if the entry is itself a literal, or its
    value does not flip the sign in the conversion to the group's type. -/
theorem verbatim_pushes_iff {s : Subject} (hr : s.registry.StaticIntegral) {key : GroupKey}
    {g : Group} (hg : s.store.group? key = some g) (hfilled : g.Filled s.registry)
    {value : Value} (hvalue : value.dataType = .int ∨ value.dataType = .long) {f : Facts}
    {w : StandIn} (hw : s.standIn? key value f = some w) {entry : Mapping}
    (hentry : g.mapping? (s.tables g) value = some entry) {a : Solution} {index : Nat}
    {sub : Substitution} (hsub : s.substitution a index value.dataType w = .ok sub) :
    ∃ v p, entry.expr.evaluate s.registry = .ok v ∧ Pushes s.registry sub.code p ∧
      (p = value.word ↔ entry.expr.isLiteral ∨ ¬v.FlipsSign g.dataType) := by
  obtain ⟨hkind, k, hkey, hentry'⟩ := Group.standIn?_eq_some (Subject.standIn?_eq_some hg hw)
  rw [hentry] at hentry'
  subst hentry'
  have hk := (stackKind_narrowType f value.dataType).symm.trans hkind
  obtain ⟨v, hv, hx⟩ := (Group.sound_of_filled hfilled).mapping hkey hentry
  rw [Value.dataType_of_convertExact hkey] at hx
  obtain ⟨code, last, hcode, hlast, rfl⟩ := substitution_eq_ok hr hsub
  obtain rfl := Except.ok.inj ((convert_eq_nil hvalue hk.symm).symm.trans hlast)
  have ht : g.dataType.isPrimitive := by
    rcases hvalue with h | h <;> rw [h] at hk <;> revert hk <;> cases g.dataType <;> decide
  obtain ⟨w', hw', hpush⟩ := codeFor_pushes hr.wellTyped rfl (allStatic_of_evaluate hr hv) hv
    (Value.isPrimitive_of_cast (Value.convertExact_eq_some.1 hx).1 ht) ht hcode
  obtain rfl := Option.some.inj ((Value.convertExact_eq_some.1 hx).1.symm.trans hw')
  refine ⟨v, _, hv, by rwa [List.append_nil], ?_⟩
  rw [← Value.word_of_convertExact hkey hvalue hk.symm]
  split_ifs with hf
  · have ⟨hkv, hkt⟩ := Value.stackKind_of_flipsSign hf.2
    rw [eq_comm, Value.word_eq_iff_not_flipsSign hx hkv hkt]
    tauto
  · exact iff_of_true rfl (by tauto)

/-! ## A sign that is lost -/

/-- A method that passes an int to a parameter of a type, which is bound to a group. -/
def passing (r : Registry) (g : Group) (type : DataType) (literal : Int32) : Subject where
  registry := r
  store := ⟨(∅ : Table GroupKey Group).set (.named "g") g,
    Bindings.empty.declareParam ⟨"p/Api", "f", "(" ++ type.descriptor ++ ")V"⟩ 0 "g"⟩
  config := {}
  owner := "p/C"
  majorVersion := 52
  method :=
    { access := Access.static
      name := "m"
      descriptor := "()V"
      code := [.ldc (.int literal),
        .method .invokestatic ⟨"p/Api", "f", "(" ++ type.descriptor ++ ")V", false⟩,
        .simple (.return_ none)]
      tryBlocks := []
      maxLocals := 0
      maxStack := 1 }

/-- What is known of an int that is passed as a value of a type. -/
def passedFacts (type : DataType) : Facts :=
  [.narrowType .int, .paramUsage ⟨1, 0⟩, .usage 1, .narrowType type].foldl Facts.add .empty

/-- A registry with one constant, `p.K.NONE = -1` of type `short`. -/
def signRegistry : Registry :=
  ClassRegistry.empty.addConstant "p/K" "NONE" ⟨.short, .short (-1), true⟩

theorem staticIntegral_signRegistry : signRegistry.StaticIntegral :=
  Registry.staticIntegral_empty.addConstant rfl rfl rfl

def signField : Expr := .field ⟨"p/K", some "NONE", none, true⟩

/-- A group of the given type that maps the value of `p.K.NONE`. -/
def signGroup (type : DataType) : Group :=
  ((Group.empty (.named "g") type false).insertExpr signRegistry .global false signField).1

theorem filled_signGroup (type : DataType) : (signGroup type).Filled signRegistry :=
  .insertExpr (.empty ..) ..

def signSubject (type : DataType) (literal : Int32) : Subject :=
  passing signRegistry (signGroup type) type literal

theorem verbatim_pushes_iff_short :
    ∃ a sub, solve signRegistry defaultStepLimit "p/C" (signSubject .short (-1)).method = .ok a ∧
      (signSubject .short (-1)).substitution a 0 .int ⟨signField, .short⟩ = .ok sub ∧
      ∃ v p, signField.evaluate signRegistry = .ok v ∧ Pushes signRegistry sub.code p ∧
        (p = (Value.int (-1)).word ↔
          signField.isLiteral ∨ ¬v.FlipsSign (signGroup .short).dataType) := by
  have h : (solve signRegistry defaultStepLimit "p/C" (signSubject .short (-1)).method).map
      (fun a => (signSubject .short (-1)).substitution a 0 .int ⟨signField, .short⟩) =
        .ok (.ok ⟨none, [.field .getstatic ⟨"p/K", "NONE", "S"⟩]⟩) := by cbv
  have hg : (signSubject .short (-1)).store.group? (.named "g") = some (signGroup .short) := by cbv
  have hw : (signSubject .short (-1)).standIn? (.named "g") (.int (-1)) (passedFacts .short) =
      some ⟨signField, .short⟩ := by cbv
  have hentry : (signGroup .short).mapping? ((signSubject .short (-1)).tables (signGroup .short))
      (.int (-1)) = some ⟨false, signField⟩ := by cbv
  obtain ⟨a, ha, hsub⟩ := map_eq_ok.1 h
  exact ⟨a, _, ha, hsub, verbatim_pushes_iff staticIntegral_signRegistry hg
    (filled_signGroup .short) (.inl rfl) hw hentry hsub⟩

/-- The literal 65535 becomes `p.K.NONE`, which is -1 on the stack. -/
theorem verbatim_pushes_another_value :
    signRegistry.StaticIntegral ∧ (signGroup .char).Filled signRegistry ∧
    (signSubject .char 65535).store.group? (.named "g") = some (signGroup .char) ∧
    ∃ a f w sub,
      solve signRegistry defaultStepLimit "p/C" (signSubject .char 65535).method = .ok a ∧
      a.facts? 0 = some f ∧
      (signSubject .char 65535).standIn? (.named "g") (.int 65535) f = some w ∧
      (signGroup .char).mapping? ((signSubject .char 65535).tables (signGroup .char)) (.int 65535) =
        some ⟨false, w.expr⟩ ∧
      (signSubject .char 65535).substitution a 0 .int w = .ok sub ∧
      run? signRegistry sub.code [] = some [.int (-1)] ∧
      ¬Pushes signRegistry sub.code (Value.int 65535).word := by
  have h : (solve signRegistry defaultStepLimit "p/C" (signSubject .char 65535).method).map
      (fun a => (a.facts? 0,
        (signSubject .char 65535).substitution a 0 .int ⟨signField, .char⟩)) =
        .ok (some (passedFacts .char), .ok ⟨none, [.field .getstatic ⟨"p/K", "NONE", "S"⟩]⟩) := by
    cbv
  have hrun : run? signRegistry [.field .getstatic ⟨"p/K", "NONE", "S"⟩] [] =
      some [.int (-1)] := by cbv
  obtain ⟨a, ha, hsub⟩ := map_eq_ok.1 h
  refine ⟨staticIntegral_signRegistry, filled_signGroup .char, by cbv, a, passedFacts .char,
    ⟨signField, .char⟩, _, ha, congrArg Prod.fst hsub, by cbv, by cbv, congrArg Prod.snd hsub,
    hrun, ?_⟩
  intro hpush
  have hword : some [Word.int (-1)] = some [(Value.int 65535).word] := hrun.symm.trans (hpush [])
  exact absurd hword (by decide)

end ConstRestore
