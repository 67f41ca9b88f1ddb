/-
  Descriptors that are printed can be read.

  A type that a field can have is read back whatever follows it
  (`Descriptor.parsePrefix_text`).  So the parameters of a method are read back one after the
  other, and with its result the method is the one that was printed
  (`MethodDescriptor.parse_text`).  The descriptors that generated code needs are printed
  ones: those of constants and those of the calls that concatenate strings.
-/
import ConstRestore.Bytecode.Descriptor
import ConstRestore.Code.Concat
import ConstRestore.Proofs.Result

namespace ConstRestore

/-- A name that can stand in a descriptor. -/
def IsClassName (name : String) : Prop := name ≠ "" ∧ ';' ∉ name.toList

namespace Descriptor

/-- A type that a field or a parameter can have. -/
def IsField : Descriptor → Prop
  | void => False
  | object name => IsClassName name
  | array element => element.IsField
  | _ => True

theorem IsField.ne_void {d : Descriptor} (h : d.IsField) : d ≠ void := by
  rintro rfl
  exact h

/-! ## Types -/

theorem parseName?_text {name : String} (h : IsClassName name) (rest : List Char) :
    parseName? (name.toList ++ ';' :: rest) = some (name, rest) := by
  obtain ⟨hne, hsemicolon⟩ := h
  have hall : ∀ c ∈ name.toList, decide (c ≠ ';') = true := by
    intro c hc
    have : c ≠ ';' := fun e => hsemicolon (e ▸ hc)
    simpa using this
  have htake : (name.toList ++ ';' :: rest).takeWhile (· ≠ ';') = name.toList := by
    rw [List.takeWhile_append_of_pos hall, List.takeWhile_cons_of_neg (by simp), List.append_nil]
  have hdrop : (name.toList ++ ';' :: rest).dropWhile (· ≠ ';') = ';' :: rest := by
    rw [List.dropWhile_append_of_pos hall, List.dropWhile_cons_of_neg (by simp)]
  obtain ⟨c, cs, hname⟩ : ∃ c cs, name.toList = c :: cs := by
    refine List.exists_cons_of_ne_nil fun hnil => hne ?_
    rw [← String.ofList_toList (s := name), hnil]
  rw [parseName?, htake, hdrop]
  simp only [hname, Option.some.injEq, Prod.mk.injEq, and_true]
  rw [← hname, String.ofList_toList]

/-- Without a bracket in front, a type is a letter or a class. -/
theorem parsePrefix_of_parseElement? {c : Char} {s rest : List Char} {d : Descriptor} (hc : c ≠ '[')
    (h : parseElement? (c :: s) = some (d, rest)) : parsePrefix (c :: s) = .ok (d, rest) := by
  have hdims : ((c :: s).takeWhile (· = '[')).length = 0 := by simp [hc]
  simp only [parsePrefix, hdims, List.drop_zero, h, ne_eq, not_true, and_false, if_false, arrayOf]

/-- A bracket in front makes an array of what is read without it. -/
theorem parsePrefix_bracket {s rest : List Char} {d : Descriptor} (hd : d ≠ void)
    (h : parsePrefix s = .ok (d, rest)) : parsePrefix ('[' :: s) = .ok (array d, rest) := by
  have hdims : (('[' :: s).takeWhile (· = '[')).length = (s.takeWhile (· = '[')).length + 1 := by
    simp
  unfold parsePrefix at h ⊢
  simp only [hdims, List.drop_succ_cons]
  simp only at h
  split at h
  · cases h
  · rename_i element tail he
    split_ifs at h with hvoid
    obtain ⟨rfl, rfl⟩ := Prod.mk.inj (Except.ok.inj h)
    have helement : element ≠ void := by
      rintro rfl
      have hzero : (s.takeWhile (· = '[')).length = 0 := by simpa using hvoid
      exact hd (by rw [hzero, arrayOf])
    simp only [helement, false_and, if_false, arrayOf]

/-- **A printed field type is read back**, and what follows it is left. -/
theorem parsePrefix_text {d : Descriptor} (hd : d.IsField) (rest : List Char) :
    parsePrefix (d.text.toList ++ rest) = .ok (d, rest) := by
  induction d with
  | void => exact hd.elim
  | array element ih =>
    have htext : (array element).text.toList = '[' :: element.text.toList := by
      rw [text, String.toList_append]
      rfl
    rw [htext, List.cons_append]
    exact parsePrefix_bracket (IsField.ne_void hd) (ih hd)
  | object name =>
    have htext : (object name).text.toList ++ rest = 'L' :: (name.toList ++ ';' :: rest) := by
      simp only [text, String.toList_append, List.append_assoc]
      rfl
    rw [htext]
    refine parsePrefix_of_parseElement? (by decide) ?_
    rw [parseElement?, if_pos rfl, parseName?_text hd]
    rfl
  | boolean | byte | char | short | int | long | float | double =>
    exact parsePrefix_of_parseElement? (by decide) rfl

theorem parse_text {d : Descriptor} (hd : d.IsField) : parse d.text = .ok d := by
  have hread := parsePrefix_text hd []
  rw [List.append_nil] at hread
  exact bind_eq_ok.2 ⟨_, hread, rfl⟩

theorem parse_void : parse void.text = .ok void := rfl

end Descriptor

/-! ## Methods -/

namespace MethodDescriptor

/-- The text of a type does not start with the parenthesis that ends a list of parameters. -/
theorem head?_text_ne (d : Descriptor) (rest : List Char) :
    (d.text.toList ++ rest).head? ≠ some ')' := by
  cases d with
  | object name => simp [Descriptor.text, String.toList_append]
  | array element => simp [Descriptor.text, String.toList_append]
  | boolean | byte | char | short | int | long | float | double | void =>
    simp [Descriptor.text]

section

variable {s rest : List Char} {d : Descriptor} {e : DescriptorError}

theorem parseParams?_of_error (hclose : s.head? ≠ some ')')
    (h : Descriptor.parsePrefix s = .error e) : parseParams? s = none := by
  rw [parseParams?, if_neg hclose]
  split
  · rfl
  · next hok => cases h.symm.trans hok

/-- What is read first is a parameter, unless it is the type of no value. -/
theorem parseParams?_of_ok (hclose : s.head? ≠ some ')')
    (h : Descriptor.parsePrefix s = .ok (d, rest)) : parseParams? s =
      if d = .void then none
      else (parseParams? rest).map fun (params, rest) => (d :: params, rest) := by
  rw [parseParams?, if_neg hclose]
  split
  · next herror => cases h.symm.trans herror
  · next hok =>
    obtain ⟨rfl, rfl⟩ := Prod.mk.inj (Except.ok.inj (h.symm.trans hok))
    rfl

end

theorem parseParams?_text {params : List Descriptor} (h : ∀ d ∈ params, d.IsField)
    (rest : List Char) :
    parseParams? (params.flatMap (·.text.toList) ++ ')' :: rest) = some (params, rest) := by
  induction params with
  | nil =>
    rw [parseParams?]
    simp
  | cons d params ih =>
    have ⟨hd, hparams⟩ := List.forall_mem_cons.1 h
    have hread := Descriptor.parsePrefix_text hd (params.flatMap (·.text.toList) ++ ')' :: rest)
    rw [List.flatMap_cons, List.append_assoc, parseParams?_of_ok (head?_text_ne d _) hread,
      if_neg hd.ne_void, ih hparams]
    rfl

/-- **A printed method descriptor is read back.** -/
theorem parse_text {d : MethodDescriptor} (hparams : ∀ p ∈ d.params, p.IsField)
    (hret : d.ret = .void ∨ d.ret.IsField) : parse d.text = .ok d := by
  have htext : d.text.toList =
      '(' :: (d.params.flatMap (·.text.toList) ++ ')' :: d.ret.text.toList) := by
    simp only [text, String.toList_append, String.toList_join, List.flatMap_map]
    simp
  have hread : Descriptor.parse d.ret.text = .ok d.ret := by
    rcases hret with hret | hret
    · rw [hret]
      exact Descriptor.parse_void
    · exact Descriptor.parse_text hret
  simp only [parse, htext, parseParams?_text hparams, Option.bind_eq_bind, Option.bind_some,
    String.ofList_toList, hread, Option.elim_some]

end MethodDescriptor

/-! ## Types of constants -/

/-- The descriptor of a type of constants, taken apart. -/
def DataType.toDescriptor : DataType → Descriptor
  | byte => .byte
  | short => .short
  | int => .int
  | long => .long
  | float => .float
  | double => .double
  | char => .char
  | string => .object "java/lang/String"
  | class_ => .object "java/lang/Class"

theorem DataType.text_toDescriptor (t : DataType) : t.toDescriptor.text = t.descriptor := by
  cases t <;> rfl

theorem DataType.isField_toDescriptor (t : DataType) : t.toDescriptor.IsField := by
  cases t with
  | string | class_ => exact ⟨by decide, by decide⟩
  | byte | short | int | long | float | double | char => exact trivial

theorem DataType.parse_toDescriptor (t : DataType) :
    Descriptor.parse t.descriptor = .ok t.toDescriptor := by
  rw [← t.text_toDescriptor]
  exact Descriptor.parse_text t.isField_toDescriptor

/-! ## Calls of concatenations -/

/-- The parameter that takes an operand of a type: anything narrower than an int is one, and a
    class is taken as an object. -/
def DataType.appendParameter : DataType → Descriptor
  | string => .object "java/lang/String"
  | class_ => .object "java/lang/Object"
  | char => .char
  | long => .long
  | float => .float
  | double => .double
  | byte | short | int => .int

theorem ConcatPart.text_appendParameter (p : ConcatPart) :
    p.type.appendParameter.text = p.appendDescriptor := by
  cases h : p.type <;> simp only [appendDescriptor, h] <;> rfl

theorem DataType.isField_appendParameter (t : DataType) : t.appendParameter.IsField := by
  cases t with
  | string | class_ => exact ⟨by decide, by decide⟩
  | byte | short | int | long | float | double | char => exact trivial

/-- The call that appends an operand to a builder. -/
theorem ConcatPart.parse_append (p : ConcatPart) :
    MethodDescriptor.parse ("(" ++ p.appendDescriptor ++ ")Ljava/lang/StringBuilder;") =
      .ok ⟨[p.type.appendParameter], .object "java/lang/StringBuilder"⟩ := by
  have htext : (MethodDescriptor.mk [p.type.appendParameter]
      (.object "java/lang/StringBuilder")).text =
        "(" ++ p.appendDescriptor ++ ")Ljava/lang/StringBuilder;" := by
    rw [← p.text_appendParameter]
    cases p.type <;> rfl
  rw [← htext]
  exact MethodDescriptor.parse_text (List.forall_mem_singleton.2 p.type.isField_appendParameter)
    (.inr ⟨by decide, by decide⟩)

/-- The call site that takes some operands. -/
theorem parse_concatSite (parts : List ConcatPart) :
    MethodDescriptor.parse ("(" ++ String.join (parts.map (·.type.descriptor)) ++
      ")Ljava/lang/String;") =
        .ok ⟨parts.map (·.type.toDescriptor), .object "java/lang/String"⟩ := by
  have htext : (MethodDescriptor.mk (parts.map (·.type.toDescriptor))
      (.object "java/lang/String")).text =
        "(" ++ String.join (parts.map (·.type.descriptor)) ++ ")Ljava/lang/String;" := by
    simp only [MethodDescriptor.text, List.map_map, Function.comp_def, DataType.text_toDescriptor,
      String.append_assoc]
    rfl
  rw [← htext]
  refine MethodDescriptor.parse_text (List.forall_mem_map.2 fun p _ => p.type.isField_toDescriptor)
    (.inr ⟨by decide, by decide⟩)

end ConstRestore
