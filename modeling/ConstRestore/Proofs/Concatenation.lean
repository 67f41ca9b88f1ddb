/-
  Both forms of concatenation compute the folded string.

  `Expr.Concatenation` are the expressions of strings and integral operands.  Their operands
  are flattened into `ConcatPart`s, and each of these holds a value (`ConcatPart.Holds`): its
  code leaves the value, and what it contributes to a recipe or appends to a builder is the
  value's text.

  * `leaves_builderCode`, `leaves_dynamicCode`: both forms leave the texts, joined;
  * `Expr.Spells`: by induction on the expression, it is compiled to such parts, and
    their texts joined are that of its value;
  * `codeFor_concatenation`: so the code for the expression leaves the folded string.
-/
import ConstRestore.Proofs.Builders
import ConstRestore.Proofs.Emission

namespace ConstRestore

variable {r : Registry} {c : CodeContext}

/-! ## Operands -/

/-- A code unit that is half of a character. -/
def IsSurrogate (unit : UInt16) : Prop := 0xd800 ≤ unit.toNat ∧ unit.toNat ≤ 0xdfff

/-- The values whose texts the machine knows: strings, and integers that are no surrogates. -/
def Value.IsRendered : Value → Prop
  | .char unit => ¬IsSurrogate unit
  | .byte _ | .short _ | .int _ | .long _ | .string _ => True
  | .float _ | .double _ | .class_ _ => False

theorem charOfUnit?_of_not_isSurrogate {unit : UInt16} (h : ¬IsSurrogate unit) :
    charOfUnit? unit = some (Char.ofNat unit.toNat) := by
  unfold IsSurrogate at h
  exact if_pos (by omega)

/-- A parameter of the value's own type renders its text. -/
theorem render_toDescriptor {v : Value} (hv : v.IsRendered) :
    v.dataType.toDescriptor.render? v.word = some v.concatText := by
  cases v with
  | char unit =>
    have hword : unit.toUInt32.toInt32.toUInt32.toUInt16 = unit := by simp
    simp only [Value.dataType, DataType.toDescriptor, Value.word, Descriptor.render?, hword,
      Value.concatText, charOfUnit?_of_not_isSurrogate hv, Option.map_some, Option.getD_some]
  | byte v | short v =>
    simp [Value.dataType, DataType.toDescriptor, Value.word, Descriptor.render?, Value.concatText]
  | int | long | string => rfl
  | float | double | class_ => exact hv.elim

/-- The parameter of the method that appends the value renders its text. -/
theorem render_appendParameter {v : Value} (hv : v.IsRendered) :
    v.dataType.appendParameter.render? v.word = some v.concatText := by
  cases v with
  | byte v | short v =>
    simp [Value.dataType, DataType.appendParameter, Value.word, Descriptor.render?,
      Value.concatText]
  | char | int | long | string => exact render_toDescriptor hv
  | float | double | class_ => exact hv.elim

/-- The operand leaves the value, and a literal's text is that of the value. -/
structure ConcatPart.Holds (r : Registry) (p : ConcatPart) (v : Value) : Prop where
  type : p.type = v.dataType
  code : Leaves r p.code v.word
  literal : ∀ text, p.literal? = some text → text = v.concatText
  rendered : v.IsRendered

/-- The texts of values, one after the other. -/
def joinedText (values : List Value) : String := String.join (values.map Value.concatText)

/-! ## Builders -/

theorem appended?_append (p : ConcatPart) :
    appended? ⟨"java/lang/StringBuilder", "append",
      "(" ++ p.appendDescriptor ++ ")Ljava/lang/StringBuilder;", false⟩ =
        some p.type.appendParameter := by
  have hbyte : p.type.appendParameter ≠ .byte ∧ p.type.appendParameter ≠ .short := by
    cases p.type <;> exact ⟨nofun, nofun⟩
  simp [appended?, p.parse_append, builderClass, hbyte]

/-- The text of an operand is appended to the builder below. -/
theorem ConcatPart.Holds.run_appendCode {p : ConcatPart} {v : Value} (hp : p.Holds r v)
    (before after : List (Option String)) (text : String) (stack : List Item) :
    ∃ more, runBuilders? r p.appendCode
        ⟨before ++ some text :: after, .builder before.length :: stack⟩ =
      some ⟨before ++ some (text ++ v.concatText) :: (after ++ more),
        .builder before.length :: stack⟩ := by
  have hadded := render_appendParameter hp.rendered
  rw [← hp.type] at hadded
  obtain ⟨more, hcode⟩ := hp.code ⟨before ++ some text :: after, .builder before.length :: stack⟩
  refine ⟨more, ?_⟩
  rw [appendCode, runBuilders?_append, hcode, Option.bind_some, runBuilders?_singleton,
    List.append_assoc, List.cons_append]
  exact step?_append (appended?_append p) hadded before (after ++ more) text stack

theorem run_appendCodes {parts : List ConcatPart} {values : List Value}
    (h : List.Forall₂ (ConcatPart.Holds r) parts values) (before after : List (Option String))
    (text : String) (stack : List Item) :
    ∃ after', runBuilders? r (parts.flatMap ConcatPart.appendCode)
        ⟨before ++ some text :: after, .builder before.length :: stack⟩ =
      some ⟨before ++ some (text ++ joinedText values) :: after',
        .builder before.length :: stack⟩ := by
  induction h generalizing text after with
  | nil => exact ⟨after, by simp [joinedText, runBuilders?]⟩
  | cons hp _ ih =>
    obtain ⟨more, hone⟩ := hp.run_appendCode before after text stack
    obtain ⟨after', hrest⟩ := ih (after ++ more) (text ++ Value.concatText _)
    refine ⟨after', ?_⟩
    rw [List.flatMap_cons, runBuilders?_append, hone, Option.bind_some, hrest, joinedText,
      joinedText, List.map_cons, String.join_cons, String.append_assoc]

/-- **A builder leaves the texts of the operands, joined.** -/
theorem leaves_builderCode {parts : List ConcatPart} {values : List Value}
    (h : List.Forall₂ (ConcatPart.Holds r) parts values) :
    Leaves r (builderCode parts) (.string (joinedText values)) := by
  intro s
  obtain ⟨after, happended⟩ := run_appendCodes h s.builders [] "" s.stack
  rw [String.empty_append] at happended
  refine ⟨some (joinedText values) :: after, ?_⟩
  rw [builderCode, runBuilders?_append, runBuilders?_append]
  have hmade := run_makeBuilder (r := r) s
  simp only [builderClass, builderInit] at hmade
  rw [hmade, Option.bind_some, happended, Option.bind_some, runBuilders?_singleton]
  exact step?_toString s.builders after (joinedText values) s.stack

/-! ## Recipes -/

theorem fill?_recipeText {p : ConcatPart} {text : String} (h : p.recipeText? = some text)
    (recipe : List Char) (texts : List String) :
    fill? (text.toList ++ recipe) texts = (fill? recipe texts).map (text ++ ·) := by
  obtain ⟨-, hplain⟩ := Option.filter_eq_some_iff.1 h
  have hplain : argumentTag ∉ text.toList ∧ constantTag ∉ text.toList := by simpa using hplain
  rw [fill?_append hplain, String.ofList_toList]

/-- The operands that a recipe does not hold are arguments, and their texts fill it. -/
theorem exists_arguments {parts : List ConcatPart} {values : List Value}
    (h : List.Forall₂ (ConcatPart.Holds r) parts values) :
    ∃ arguments, List.Forall₂ (ConcatPart.Holds r) (parts.filter (·.recipeText?.isNone)) arguments ∧
      fill? (recipe parts).toList (arguments.map Value.concatText) = some (joinedText values) := by
  induction h with
  | nil => exact ⟨[], .nil, rfl⟩
  | @cons p v parts values hp h ih =>
    obtain ⟨arguments, harguments, hfill⟩ := ih
    have hrecipe : (recipe (p :: parts)).toList =
        (p.recipeText?.getD (String.singleton argumentTag)).toList ++ (recipe parts).toList := by
      rw [recipe, List.map_cons, String.join_cons, String.toList_append, recipe]
    have hjoined : joinedText (v :: values) = v.concatText ++ joinedText values := by
      rw [joinedText, List.map_cons, String.join_cons, joinedText]
    rw [hrecipe, hjoined]
    cases htext : p.recipeText? with
    | some text =>
      have hliteral : text = v.concatText :=
        hp.literal text (Option.filter_eq_some_iff.1 htext).1
      refine ⟨arguments, ?_, ?_⟩
      · rw [List.filter_cons_of_neg (by simp [htext])]
        exact harguments
      · rw [Option.getD_some, fill?_recipeText htext, hfill, hliteral, Option.map_some]
    | none =>
      refine ⟨v :: arguments, ?_, ?_⟩
      · rw [List.filter_cons_of_pos (by simp [htext])]
        exact .cons hp harguments
      · rw [Option.getD_none, String.toList_singleton, List.singleton_append, List.map_cons,
          fill?_argument, hfill, Option.map_some]

/-- Arguments are left on the stack, the last one on top. -/
theorem run_arguments {parts : List ConcatPart} {values : List Value}
    (h : List.Forall₂ (ConcatPart.Holds r) parts values) (s : BuilderState) :
    ∃ more, runBuilders? r (parts.flatMap (·.code)) s =
      some ⟨s.builders ++ more, (values.map (Item.word ∘ Value.word)).reverse ++ s.stack⟩ := by
  induction h generalizing s with
  | nil => exact ⟨[], by simp [runBuilders?]⟩
  | cons hp _ ih =>
    obtain ⟨more, hcode⟩ := hp.code s
    obtain ⟨more', hrest⟩ := ih ⟨s.builders ++ more, .word (Value.word _) :: s.stack⟩
    refine ⟨more ++ more', ?_⟩
    rw [List.flatMap_cons, runBuilders?_append, hcode, Option.bind_some, hrest]
    simp

theorem renderAll?_arguments {parts : List ConcatPart} {values : List Value}
    (h : List.Forall₂ (ConcatPart.Holds r) parts values) :
    renderAll? (parts.map (·.type.toDescriptor)) (values.map (Item.word ∘ Value.word)) =
      some (values.map Value.concatText) := by
  induction h with
  | nil => rfl
  | cons hp _ ih =>
    simp only [List.map_cons, Function.comp_apply, renderAll?, hp.type,
      render_toDescriptor hp.rendered, Option.bind_some]
    rw [ih]
    rfl

theorem concatSite?_parts (parts : List ConcatPart) (recipe : String) :
    concatSite? ⟨"makeConcatWithConstants",
      "(" ++ String.join (parts.map (·.type.descriptor)) ++ ")Ljava/lang/String;",
      concatBootstrap, [.string recipe]⟩ = some (parts.map (·.type.toDescriptor), recipe) := by
  simp [concatSite?, parse_concatSite]

/-- **A call site leaves the texts of the operands, joined.** -/
theorem leaves_dynamicCode {parts : List ConcatPart} {values : List Value}
    (h : List.Forall₂ (ConcatPart.Holds r) parts values) :
    Leaves r (dynamicCode parts) (.string (joinedText values)) := by
  intro s
  obtain ⟨arguments, harguments, hfill⟩ := exists_arguments h
  obtain ⟨more, hcode⟩ := run_arguments harguments s
  refine ⟨more, ?_⟩
  have hlength := harguments.length_eq
  rw [dynamicCode, runBuilders?_append, hcode, Option.bind_some, runBuilders?_singleton]
  have htake : ((arguments.map (Item.word ∘ Value.word)).reverse ++ s.stack).take
      ((parts.filter (·.recipeText?.isNone)).map (·.type.toDescriptor)).length =
        (arguments.map (Item.word ∘ Value.word)).reverse :=
    List.take_left' (by simp [hlength])
  have hdrop : ((arguments.map (Item.word ∘ Value.word)).reverse ++ s.stack).drop
      ((parts.filter (·.recipeText?.isNone)).map (·.type.toDescriptor)).length = s.stack :=
    List.drop_left' (by simp [hlength])
  simp only [Instr.step?, concatSite?_parts, Option.bind_some, BuilderState.concat?, htake, hdrop,
    List.reverse_reverse, renderAll?_arguments harguments, hfill, Option.map_some]

/-- Both forms of concatenation leave the texts of the operands, joined. -/
theorem leaves_concatCode (c : CodeContext) {parts : List ConcatPart} {values : List Value}
    (h : List.Forall₂ (ConcatPart.Holds r) parts values) :
    Leaves r (concatCode c parts) (.string (joinedText values)) := by
  simp only [concatCode]
  split_ifs
  · exact leaves_dynamicCode h
  · exact leaves_builderCode h

/-! ## Expressions -/

/-- An integral expression whose value is no surrogate. -/
def Expr.IntegralOperand (r : Registry) (e : Expr) : Prop :=
  e.Integral r ∧ ∀ unit, e.evaluate r = .ok (.char unit) → ¬IsSurrogate unit

/-- Strings, and sums in which at least one operand is such an expression. -/
inductive Expr.Concatenation (r : Registry) : Expr → Prop
  | literal (s : String) : Concatenation r (.literal (.string s))
  | field {f : FieldRef} (hstatic : f.isStatic)
      (h : ∀ k, r.fieldConstant f = .ok k → k.dataType = .string) : Concatenation r (.field f)
  | cast {e : Expr} (h : Concatenation r e) : Concatenation r (.cast .string e)
  | both {l e : Expr} (hl : Concatenation r l) (he : Concatenation r e) :
      Concatenation r (.binary .add l e)
  | left {l e : Expr} (hl : Concatenation r l) (he : e.IntegralOperand r) :
      Concatenation r (.binary .add l e)
  | right {l e : Expr} (hl : l.IntegralOperand r) (he : Concatenation r e) :
      Concatenation r (.binary .add l e)

theorem Expr.Concatenation.allStatic {e : Expr} (he : e.Concatenation r) : e.AllStatic := by
  induction he with
  | literal => trivial
  | field hstatic => exact hstatic
  | cast _ ih => exact ih
  | both _ _ ihl ihe => exact ⟨ihl, ihe⟩
  | left _ he ihl => exact ⟨ihl, he.1.allStatic⟩
  | right hl _ ihe => exact ⟨hl.1.allStatic, ihe⟩

theorem exists_string {v : Value} (h : v.dataType = .string) : ∃ s, v = .string s := by
  cases v <;> first | exact ⟨_, rfl⟩ | cases h

/-- A sum with a string operand is a string. -/
theorem apply_add_string {a b : Value} (h : a.dataType = .string ∨ b.dataType = .string) :
    BinaryOp.add.apply a b = .ok (.string (a.concatText ++ b.concatText)) :=
  if_pos ⟨rfl, h⟩

theorem evaluate_add {l e : Expr} {v : Value} (hv : (Expr.binary .add l e).evaluate r = .ok v) :
    ∃ a b, l.evaluate r = .ok a ∧ e.evaluate r = .ok b ∧ BinaryOp.add.apply a b = .ok v := by
  obtain ⟨a, ha, hv⟩ := bind_eq_ok.1 hv
  obtain ⟨b, hb, hv⟩ := bind_eq_ok.1 hv
  exact ⟨a, b, ha, hb, hv⟩

/-- The value of a concatenation is a string. -/
theorem Expr.Concatenation.dataType (hr : r.WellTyped) {e : Expr} (he : e.Concatenation r)
    {v : Value} (hv : e.evaluate r = .ok v) : v.dataType = .string := by
  induction he generalizing v with
  | literal s =>
    cases hv
    rfl
  | field hstatic h =>
    obtain ⟨k, hk, rfl⟩ := map_eq_ok.1 hv
    exact (hr.fieldConstant hk).trans (h k hk)
  | cast _ ih =>
    obtain ⟨a, -, hv⟩ := bind_eq_ok.1 hv
    exact Value.dataType_of_cast (elim_eq_ok.1 hv)
  | both _ _ ihl _ | left _ _ ihl =>
    obtain ⟨a, b, ha, -, hv⟩ := evaluate_add hv
    obtain rfl := Except.ok.inj ((apply_add_string (.inl (ihl ha))).symm.trans hv)
    rfl
  | right _ _ ihe =>
    obtain ⟨a, b, -, hb, hv⟩ := evaluate_add hv
    obtain rfl := Except.ok.inj ((apply_add_string (.inr (ihe hb))).symm.trans hv)
    rfl

/-- The value of an operand that is no string has a text that the machine knows. -/
theorem Expr.IntegralOperand.isRendered (hr : r.WellTyped) {e : Expr} (he : e.IntegralOperand r)
    {v : Value} (hv : e.evaluate r = .ok v) : v.IsRendered := by
  have hintegral := isIntegral_of_evaluate hr he.1 hv
  cases v with
  | char unit => exact he.2 unit hv
  | byte | short | int | long => exact trivial
  | float | double | string | class_ => cases hintegral

theorem pushed_string (e : Expr) (s : String) (expected : Option DataType) :
    e.pushed (.string s) expected = .string s := by
  cases e with
  | field | unary | binary | cast => rfl
  | literal l =>
    cases expected with
    | none => rfl
    | some t =>
      by_cases ht : t = .string
      · subst ht
        simp [Expr.pushed, Value.convertExact, Value.cast, Value.dataType]
      · cases t <;> first | rfl | exact absurd rfl ht

/-- The code of an expression leaves its value, and its operands have texts that are that of the
    value, joined. -/
structure Expr.Spells (r : Registry) (c : CodeContext) (e : Expr) (v : Value) : Prop where
  typed : ∀ expected code t, (e.compile r c).typed expected = .ok (code, t) →
    Leaves r code (e.pushed v expected).word
  parts : ∀ parts, (e.compile r c).parts = .ok parts →
    ∃ values, List.Forall₂ (ConcatPart.Holds r) parts values ∧ joinedText values = v.concatText

theorem concatText_of_literalText {e : Expr} {v : Value} (hv : e.evaluate r = .ok v) (text : String)
    (h : e.literalText? = some text) : text = v.concatText := by
  cases e with
  | literal l =>
    cases hv
    cases h
    rfl
  | field | unary | binary | cast => cases h

/-- An expression as one operand. -/
theorem holds_part (hr : r.WellTyped) {e : Expr} {v : Value} (hv : e.evaluate r = .ok v)
    (hrendered : v.IsRendered)
    (h : ∀ expected code t, (e.compile r c).typed expected = .ok (code, t) →
      Leaves r code (e.pushed v expected).word)
    {p : ConcatPart} (hp : Compiled.part e.literalText? (e.compile r c).typed = .ok p) :
    p.Holds r v := by
  obtain ⟨⟨code, t⟩, hcode, hp⟩ := bind_eq_ok.1 hp
  obtain rfl := Except.ok.inj hp
  have htype := dataType_of_typed hr hv hcode
  have hleaves := h none code t hcode
  rw [pushed_none] at htype hleaves
  exact ⟨htype.symm, hleaves, concatText_of_literalText hv, hrendered⟩

theorem spells_single (hr : r.WellTyped) {e : Expr} {v : Value} (hv : e.evaluate r = .ok v)
    (hrendered : v.IsRendered)
    (hparts : (e.compile r c).parts =
      (Compiled.part e.literalText? (e.compile r c).typed).map ([·]))
    (h : ∀ expected code t, (e.compile r c).typed expected = .ok (code, t) →
      Leaves r code (e.pushed v expected).word) : e.Spells r c v := by
  refine ⟨h, fun parts hp => ?_⟩
  rw [hparts] at hp
  obtain ⟨p, hpart, rfl⟩ := map_eq_ok.1 hp
  refine ⟨[v], .cons (holds_part hr hv hrendered h hpart) .nil, ?_⟩
  simp [joinedText]

/-- An expression that is no string is no concatenation. -/
theorem parts_of_ne_string (hr : r.WellTyped) {e : Expr} {v : Value} (hv : e.evaluate r = .ok v)
    (hs : v.dataType ≠ .string) : (e.compile r c).parts =
      (Compiled.part e.literalText? (e.compile r c).typed).map ([·]) := by
  cases e with
  | literal | field | unary | cast => rfl
  | binary op l e =>
    rw [Expr.compile, typeOf_eq_of_evaluate hr hv, compileBinary_arithmetic hs]
    rfl

theorem spells_integral (hr : r.WellTyped) {e : Expr} (he : e.IntegralOperand r) {v : Value}
    (hv : e.evaluate r = .ok v) : e.Spells r c v := by
  have hp := isPrimitive_of_isIntegral (isIntegral_of_evaluate hr he.1 hv)
  have hs : v.dataType ≠ .string := fun h => by rw [h] at hp; cases hp
  refine spells_single hr hv (he.isRendered hr hv) (parts_of_ne_string hr hv hs) ?_
  intro expected code t h
  exact (typed_pushes hr he.1.allStatic hv hp h).2.leaves

/-- The operands of a sum are those of its left side and its right side. -/
theorem Expr.Spells.joined {l e : Expr} {a b : Value} (hl : l.Spells r c a)
    (he : ∀ p, Compiled.part e.literalText? (e.compile r c).typed = .ok p → p.Holds r b)
    {parts : List ConcatPart}
    (h : Compiled.joined e.literalText? (l.compile r c) (e.compile r c) = .ok parts) :
    ∃ values, List.Forall₂ (ConcatPart.Holds r) parts values ∧
      joinedText values = a.concatText ++ b.concatText := by
  obtain ⟨left, hleft, h⟩ := bind_eq_ok.1 h
  obtain ⟨right, hright, h⟩ := bind_eq_ok.1 h
  obtain rfl := Except.ok.inj h
  obtain ⟨values, hvalues, htext⟩ := hl.parts left hleft
  refine ⟨values ++ [b], List.rel_append hvalues (.cons (he right hright) .nil), ?_⟩
  rw [← htext]
  simp [joinedText]

/-- A sum one of whose operands is a string. -/
theorem spells_add (hr : r.WellTyped) {l e : Expr} {a b : Value} (ha : l.evaluate r = .ok a)
    (hb : e.evaluate r = .ok b) (hs : a.dataType = .string ∨ b.dataType = .string)
    (hl : l.Spells r c a) (he : e.Spells r c b) (hrendered : b.IsRendered) :
    (Expr.binary .add l e).Spells r c (.string (a.concatText ++ b.concatText)) := by
  have hv : (Expr.binary .add l e).evaluate r = .ok (.string (a.concatText ++ b.concatText)) :=
    bind_eq_ok.2 ⟨a, ha, bind_eq_ok.2 ⟨b, hb, apply_add_string hs⟩⟩
  have hcompile : (Expr.binary .add l e).compile r c =
      compileBinary c .add (.ok .string) e.literalText? (l.compile r c) (e.compile r c) := by
    rw [Expr.compile, typeOf_eq_of_evaluate hr hv]
    rfl
  rw [compileBinary_string] at hcompile
  have hright (p : ConcatPart) := holds_part (p := p) hr hb hrendered he.typed
  refine ⟨fun expected code t h => ?_, fun parts h => ?_⟩
  · rw [hcompile] at h
    obtain ⟨code', hcode, h⟩ := map_eq_ok.1 h
    obtain ⟨rfl, rfl⟩ := Prod.mk.inj h
    obtain ⟨parts, hparts, rfl⟩ := map_eq_ok.1 hcode
    obtain ⟨values, hvalues, htext⟩ := hl.joined hright hparts
    have hleaves := leaves_concatCode c hvalues
    rw [htext] at hleaves
    exact hleaves
  · rw [hcompile] at h
    exact hl.joined hright h

/-- **A concatenation is compiled to its text.** -/
theorem spells_concatenation (hr : r.WellTyped) {e : Expr} (he : e.Concatenation r) {v : Value}
    (hv : e.evaluate r = .ok v) : e.Spells r c v := by
  induction he generalizing v with
  | literal s =>
    refine spells_single hr hv (by cases hv; trivial) rfl fun expected code t h => ?_
    cases hv
    cases h
    exact (pushes_push _).leaves
  | @field f hstatic h =>
    obtain ⟨k, hk, rfl⟩ := map_eq_ok.1 hv
    obtain ⟨s, hs⟩ := exists_string ((hr.fieldConstant hk).trans (h k hk))
    refine spells_single hr hv (by rw [hs]; trivial) rfl fun expected code t hcode => ?_
    obtain ⟨object, load, hobject, hload, rfl⟩ := typed_compileField expected hcode
    rw [fieldObject, if_pos hstatic] at hobject
    obtain rfl := Except.ok.inj hobject
    obtain ⟨k', hk', -, hpush⟩ := run?_fieldAccess hstatic hload
    obtain rfl := Except.ok.inj (hk.symm.trans hk')
    exact hpush.leaves
  | @cast e he ih =>
    have hdata := (Expr.Concatenation.cast he).dataType hr hv
    obtain ⟨a, ha, hcast⟩ := bind_eq_ok.1 hv
    obtain ⟨s, rfl⟩ := exists_string (he.dataType hr ha)
    obtain rfl := Option.some.inj (elim_eq_ok.1 hcast)
    refine spells_single hr hv trivial rfl fun expected code t h => ?_
    obtain ⟨operand, hoperand, h⟩ := bind_eq_ok.1 h
    obtain ⟨rfl, rfl⟩ := Prod.mk.inj (Except.ok.inj h)
    obtain ⟨⟨code', actual⟩, hcode', hoperand⟩ := bind_eq_ok.1 hoperand
    obtain ⟨conversion, hconversion, hoperand⟩ := bind_eq_ok.1 hoperand
    obtain rfl := Except.ok.inj hoperand
    -- a string is converted to a string by nothing
    obtain rfl := dataType_of_typed hr ha hcode'
    rw [pushed_string] at hconversion
    obtain rfl := Except.ok.inj hconversion
    have hleaves := (ih ha).typed _ _ _ hcode'
    rw [pushed_string] at hleaves
    rw [List.append_nil]
    exact hleaves
  | both hl he ihl ihe =>
    obtain ⟨a, b, ha, hb, hv⟩ := evaluate_add hv
    have hs := he.dataType hr hb
    obtain rfl := Except.ok.inj ((apply_add_string (.inr hs)).symm.trans hv)
    obtain ⟨s, rfl⟩ := exists_string hs
    exact spells_add hr ha hb (.inr rfl) (ihl ha) (ihe hb) trivial
  | left hl he ihl =>
    obtain ⟨a, b, ha, hb, hv⟩ := evaluate_add hv
    have hs := hl.dataType hr ha
    obtain rfl := Except.ok.inj ((apply_add_string (.inl hs)).symm.trans hv)
    exact spells_add hr ha hb (.inl hs) (ihl ha) (spells_integral hr he hb) (he.isRendered hr hb)
  | right hl he ihe =>
    obtain ⟨a, b, ha, hb, hv⟩ := evaluate_add hv
    have hs := he.dataType hr hb
    obtain rfl := Except.ok.inj ((apply_add_string (.inr hs)).symm.trans hv)
    obtain ⟨s, rfl⟩ := exists_string hs
    exact spells_add hr ha hb (.inr rfl) (spells_integral hr hl ha) (ihe hb) trivial

/-! ## Code in a context -/

/-- **Both forms of concatenation compute the folded string.**  If a concatenation has a value,
    this is a string; and in every context that has nothing on the stack, for builders as for
    call sites, there is code for it, which leaves exactly this string. -/
theorem codeFor_concatenation (hr : r.WellTyped) (hc : c.receiverOnStack = false) {e : Expr}
    (he : e.Concatenation r) {v : Value} (hv : e.evaluate r = .ok v) :
    ∃ s code, v = .string s ∧ codeFor r c e .string = .ok code ∧ Leaves r code (.string s) := by
  obtain ⟨s, rfl⟩ := exists_string (he.dataType hr hv)
  obtain ⟨code, hcode⟩ :=
    ((codeFor_of_evaluate hr hc he.allStatic hv).2.2 .string).2 ⟨_, Value.cast_self _⟩
  refine ⟨s, code, rfl, hcode, ?_⟩
  obtain ⟨code', actual, conversion, htyped, hconversion, rfl⟩ := codeFor_eq_ok hc hv hcode
  obtain rfl := dataType_of_typed hr hv htyped
  have hleaves := (spells_concatenation hr he hv).typed _ _ _ htyped
  rw [pushed_string] at hleaves hconversion
  obtain rfl := Except.ok.inj hconversion
  rw [List.append_nil]
  exact hleaves

/-- The expression `p.K.MASK + 1 + ("m\u0001" + ('\u0002' + "="))`. -/
def taggedMask : Expr :=
  .binary .add
    (.binary .add (.field ⟨"p/K", some "MASK", none, true⟩) (.literal (.int 1)))
    (.binary .add (.literal (.string "m\x01"))
      (.binary .add (.literal (.char 2)) (.literal (.string "="))))

theorem concatenation_taggedMask : taggedMask.Concatenation maskRegistry := by
  have hsum : Expr.IntegralOperand maskRegistry
      (.binary .add (.field ⟨"p/K", some "MASK", none, true⟩) (.literal (.int 1))) := by
    refine ⟨⟨⟨rfl, fun k hk => ?_⟩, rfl⟩, fun unit hunit => ?_⟩
    · cases hk.symm.trans (by cbv : _ = Except.ok _)
      rfl
    · cases hunit.symm.trans (by cbv : _ = Except.ok (Value.int (-1)))
  have htag : Expr.IntegralOperand maskRegistry (.literal (.char 2)) := by
    refine ⟨rfl, fun unit hunit => ?_⟩
    cases hunit
    rintro ⟨h, -⟩
    exact absurd h (by decide)
  exact .right hsum (.both (.literal _) (.right htag (.literal _)))

theorem codeFor_concatenation_taggedMask :
    (∃ code, codeFor maskRegistry ⟨"p/C", true, 52, false, .stringBuilder⟩ taggedMask .string =
      .ok code ∧ Leaves maskRegistry code (.string "-1m\x01\x02=")) ∧
    ∃ code, codeFor maskRegistry ⟨"p/C", true, 53, false, .auto⟩ taggedMask .string =
      .ok code ∧ Leaves maskRegistry code (.string "-1m\x01\x02=") := by
  have hr : maskRegistry.WellTyped := Registry.wellTyped_empty.addConstant rfl
  have hv : taggedMask.evaluate maskRegistry = .ok (.string "-1m\x01\x02=") := by cbv
  constructor
  · obtain ⟨s, code, ⟨⟩, hcode, hleaves⟩ := codeFor_concatenation
      (c := ⟨"p/C", true, 52, false, .stringBuilder⟩) hr rfl concatenation_taggedMask hv
    exact ⟨code, hcode, hleaves⟩
  · obtain ⟨s, code, ⟨⟩, hcode, hleaves⟩ := codeFor_concatenation
      (c := ⟨"p/C", true, 53, false, .auto⟩) hr rfl concatenation_taggedMask hv
    exact ⟨code, hcode, hleaves⟩

end ConstRestore
