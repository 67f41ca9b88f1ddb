/-
  The shapes of generated code.

  `Emitted r c code t` lists, with one case for each kind of expression, the
  code that `Expr.compile` can give and the type that it leaves on the stack.
  What holds of all generated code is proved by induction on it, without
  opening the generator again.
-/
import ConstRestore.Code.Generate
import ConstRestore.Proofs.Result

namespace ConstRestore

/-- Pushes the object that a field is loaded from, if it needs one. -/
def fieldObject (r : Registry) (c : CodeContext) (f : FieldRef) : Except CodeError (List Instr) :=
  if f.isStatic then .ok [] else receiver r c f.owner

/-- Code for an expression, and the type of what it leaves. -/
inductive Emitted (r : Registry) (c : CodeContext) : List Instr → DataType → Prop
  | literal (v : Value) : Emitted r c [.push v] v.dataType
  | field {f : FieldRef} {object : List Instr} {load : Instr} {t : DataType}
      (hobject : fieldObject r c f = .ok object) (hload : fieldAccess r f = .ok (load, t)) :
      Emitted r c (object ++ [load]) t
  | converted {code conversion : List Instr} {s t : DataType} (h : Emitted r c code s)
      (hconversion : convert s t = .ok conversion) : Emitted r c (code ++ conversion) t
  | unary {op : UnaryOp} {code operation : List Instr} {t : DataType} (h : Emitted r c code t)
      (hoperation : unaryCode op t = .ok operation) : Emitted r c (code ++ operation) t
  | binary {op : BinaryOp} {left right : List Instr} {t : DataType} {opcode : Opcode}
      (hleft : Emitted r c left t) (hright : Emitted r c right (if op.isShift then .int else t))
      (hopcode : binaryOpcode op t = .ok opcode) :
      Emitted r c (left ++ right ++ [.simple opcode]) t
  | concat {parts : List ConcatPart} (h : ∀ p ∈ parts, Emitted r c p.code p.type) :
      Emitted r c (concatCode c parts) .string

variable {r : Registry} {c : CodeContext}

/-! ## The parts of an expression -/

/-- Whatever an expression is compiled to has one of the shapes, as a whole and as operands of
    a concatenation. -/
structure Compiled.Emits (r : Registry) (c : CodeContext) (x : Compiled) : Prop where
  typed : ∀ expected code t, x.typed expected = .ok (code, t) → Emitted r c code t
  parts : ∀ parts, x.parts = .ok parts → ∀ p ∈ parts, Emitted r c p.code p.type

namespace Compiled

variable {x y : Compiled} {literal? : Option String}
  {typed : Option DataType → Except CodeError (List Instr × DataType)}

theorem emitted_part (h : ∀ expected code t, typed expected = .ok (code, t) → Emitted r c code t)
    {p : ConcatPart} (hp : part literal? typed = .ok p) : Emitted r c p.code p.type := by
  obtain ⟨⟨code, t⟩, hcode, hp⟩ := bind_eq_ok.1 hp
  obtain rfl := Except.ok.inj hp
  exact h none code t hcode

theorem emits_single (h : ∀ expected code t, typed expected = .ok (code, t) → Emitted r c code t) :
    (single literal? typed).Emits r c := by
  refine ⟨h, fun parts hparts p hp => ?_⟩
  obtain ⟨p', hp', rfl⟩ := map_eq_ok.1 hparts
  obtain rfl := List.mem_singleton.1 hp
  exact emitted_part h hp'

theorem Emits.as (h : x.Emits r c) {t : DataType} {code : List Instr} (hcode : x.as t = .ok code) :
    Emitted r c code t := by
  obtain ⟨⟨before, actual⟩, hbefore, hcode⟩ := bind_eq_ok.1 hcode
  obtain ⟨conversion, hconversion, hcode⟩ := bind_eq_ok.1 hcode
  obtain rfl := Except.ok.inj hcode
  exact .converted (h.typed _ _ _ hbefore) hconversion

theorem Emits.arithmetic {op : BinaryOp} {t : DataType} (hx : x.Emits r c) (hy : y.Emits r c)
    {code : List Instr} (h : arithmeticCode op t x y = .ok code) : Emitted r c code t := by
  obtain ⟨left, hleft, h⟩ := bind_eq_ok.1 h
  obtain ⟨right, hright, h⟩ := bind_eq_ok.1 h
  obtain ⟨opcode, hopcode, h⟩ := bind_eq_ok.1 h
  obtain rfl := Except.ok.inj h
  exact .binary (hx.as hleft) (hy.as hright) hopcode

/-- The operands of a concatenation of two expressions. -/
def joined (rightLiteral : Option String) (x y : Compiled) : Except CodeError (List ConcatPart) := do
  let left ← x.parts
  let right ← part rightLiteral y.typed
  .ok (left ++ [right])

theorem Emits.joined (hx : x.Emits r c) (hy : y.Emits r c) {parts : List ConcatPart}
    (h : joined literal? x y = .ok parts) : ∀ p ∈ parts, Emitted r c p.code p.type := by
  obtain ⟨left, hleft, h⟩ := bind_eq_ok.1 h
  obtain ⟨right, hright, h⟩ := bind_eq_ok.1 h
  obtain rfl := Except.ok.inj h
  intro p hp
  rcases List.mem_append.1 hp with hp | hp
  · exact hx.parts left hleft p hp
  · obtain rfl := List.mem_singleton.1 hp
    exact emitted_part hy.typed hright

end Compiled

/-! ## Operators -/

/-- An operator whose result is a string is a concatenation. -/
theorem compileBinary_string (c : CodeContext) (op : BinaryOp) (lit : Option String)
    (x y : Compiled) : compileBinary c op (.ok .string) lit x y =
      ⟨fun _ => ((Compiled.joined lit x y).map (concatCode c)).map (·, .string),
        Compiled.joined lit x y⟩ := rfl

/-- Any other operator acts on two operands of one type. -/
theorem compileBinary_arithmetic {c : CodeContext} {op : BinaryOp} {t : DataType}
    {lit : Option String} {x y : Compiled} (ht : t ≠ .string) :
    compileBinary c op (.ok t) lit x y =
      .single none fun _ => (arithmeticCode op t x y).map (·, t) := by
  cases t <;> first | rfl | exact absurd rfl ht

theorem compileBinary_error (c : CodeContext) (op : BinaryOp) (e : CodeError)
    (lit : Option String) (x y : Compiled) :
    compileBinary c op (.error e) lit x y = .single none fun _ => .error e := rfl

theorem emits_compileBinary (op : BinaryOp) (type : Except CodeError DataType)
    (lit : Option String) {x y : Compiled} (hx : x.Emits r c) (hy : y.Emits r c) :
    (compileBinary c op type lit x y).Emits r c := by
  cases type with
  | error e => exact Compiled.emits_single nofun
  | ok t =>
    by_cases ht : t = .string
    · subst ht
      rw [compileBinary_string]
      refine ⟨fun _ code t h => ?_, fun parts => hx.joined hy⟩
      obtain ⟨code', hcode, h⟩ := map_eq_ok.1 h
      obtain ⟨rfl, rfl⟩ := Prod.mk.inj h
      obtain ⟨parts, hparts, rfl⟩ := map_eq_ok.1 hcode
      exact .concat (hx.joined hy hparts)
    · rw [compileBinary_arithmetic ht]
      refine Compiled.emits_single fun _ code t' h => ?_
      obtain ⟨code', hcode, h⟩ := map_eq_ok.1 h
      obtain ⟨rfl, rfl⟩ := Prod.mk.inj h
      exact hx.arithmetic hy hcode

/-! ## Expressions -/

/-- The code of a field pushes its object, if it needs one, and loads it. -/
theorem typed_compileField {f : FieldRef} (expected : Option DataType) {code : List Instr}
    {t : DataType} (h : (compileField r c f).typed expected = .ok (code, t)) :
    ∃ object load, fieldObject r c f = .ok object ∧ fieldAccess r f = .ok (load, t) ∧
      code = object ++ [load] := by
  obtain ⟨object, hobject, ⟨load, t'⟩, hload, h⟩ :
      ∃ object, fieldObject r c f = .ok object ∧ ∃ loaded, fieldAccess r f = .ok loaded ∧
        (.ok (object ++ [loaded.1], loaded.2) : Except CodeError _) = .ok (code, t) := by
    simp only [compileField, Compiled.single] at h
    unfold fieldObject
    split_ifs at h ⊢
    all_goals exact (bind_eq_ok.1 h).imp fun _ h => h.imp_right fun h => bind_eq_ok.1 h
  obtain ⟨rfl, rfl⟩ := Prod.mk.inj (Except.ok.inj h)
  exact ⟨object, load, hobject, hload, rfl⟩

theorem emits_compile (r : Registry) (c : CodeContext) (e : Expr) : (e.compile r c).Emits r c := by
  induction e with
  | literal l =>
    refine Compiled.emits_single fun _ code t h => ?_
    obtain ⟨rfl, rfl⟩ := Prod.mk.inj (Except.ok.inj h)
    exact .literal _
  | field f =>
    refine Compiled.emits_single fun expected code t h => ?_
    obtain ⟨object, load, hobject, hload, rfl⟩ := typed_compileField expected h
    exact .field hobject hload
  | cast target e ih =>
    refine Compiled.emits_single fun _ code t h => ?_
    obtain ⟨code', hcode, h⟩ := bind_eq_ok.1 h
    obtain ⟨rfl, rfl⟩ := Prod.mk.inj (Except.ok.inj h)
    exact ih.as hcode
  | unary op e ih =>
    refine Compiled.emits_single fun _ code t h => ?_
    obtain ⟨type, -, h⟩ := bind_eq_ok.1 h
    obtain ⟨code', hcode, h⟩ := bind_eq_ok.1 h
    obtain ⟨operation, hoperation, h⟩ := bind_eq_ok.1 h
    obtain ⟨rfl, rfl⟩ := Prod.mk.inj (Except.ok.inj h)
    exact .unary (ih.as hcode) hoperation
  | binary op l r' ihl ihr => exact emits_compileBinary op _ _ ihl ihr

/-- **The code of an expression has one of the shapes.** -/
theorem emitted_of_typed {e : Expr} {expected : Option DataType} {code : List Instr} {t : DataType}
    (h : (e.compile r c).typed expected = .ok (code, t)) : Emitted r c code t :=
  (emits_compile r c e).typed expected code t h

/-! ## Code in a context -/

/-- Only an instance constant is loaded from an object on the stack. -/
theorem loadOnReceiver_eq_ok {e : Expr} {code : List Instr} {t : DataType}
    (h : loadOnReceiver r e = .ok (code, t)) :
    ∃ f load, e = .field f ∧ ¬f.isStatic ∧ fieldAccess r f = .ok (load, t) ∧ code = [load] := by
  cases e with
  | field f =>
    simp only [loadOnReceiver] at h
    split_ifs at h with hstatic
    obtain ⟨⟨load, t'⟩, hload, h⟩ := map_eq_ok.1 h
    obtain ⟨rfl, rfl⟩ := Prod.mk.inj h
    exact ⟨f, load, rfl, hstatic, hload, rfl⟩
  | literal | cast | unary | binary => cases h

/-- The code of an expression and the conversion to the target. -/
theorem codeFor_parts {e : Expr} {target : DataType} {code : List Instr}
    (h : codeFor r c e target = .ok code) :
    ∃ before actual conversion,
      (if c.receiverOnStack then loadOnReceiver r e else (e.compile r c).typed (some target)) =
        .ok (before, actual) ∧
      convertValue actual target (e.evaluate r).toOption = .ok conversion ∧
      code = before ++ conversion := by
  simp only [codeFor] at h
  split_ifs at h ⊢
  all_goals
    obtain ⟨⟨before, actual⟩, hbefore, h⟩ := bind_eq_ok.1 h
    obtain ⟨conversion, hconversion, h⟩ := bind_eq_ok.1 h
    exact ⟨before, actual, conversion, hbefore, hconversion, (Except.ok.inj h).symm⟩

end ConstRestore
