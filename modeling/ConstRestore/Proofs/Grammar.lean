/-
  The grammar of descriptors.

  `FieldText`, `ResultText` and `MethodText` say which texts are descriptors, without
  reading them.  What is read is what was printed: a reader takes the text of the type that it
  gives off the front and leaves the rest (`Descriptor.eq_append_of_parsePrefix`,
  `MethodDescriptor.eq_append_of_parseParams?`).  Together with the converse, that printed
  descriptors are read back, reading and printing are inverse (`Descriptor.parse_eq_ok_iff`,
  `MethodDescriptor.parse_eq_ok_iff`), and the texts of the grammar are those that are printed
  (`Descriptor.resultText_iff`, `MethodDescriptor.methodText_iff`).
-/
import ConstRestore.Proofs.Descriptors

namespace ConstRestore

/-! ## The grammar -/

/-- The text of a type that is no array: a letter, or a name between `L` and a semicolon. -/
inductive ElementText : List Char → Prop
  | letter {c : Char} (h : c ∈ ['Z', 'B', 'C', 'S', 'I', 'J', 'F', 'D']) : ElementText [c]
  | object {name : List Char} (hne : name ≠ []) (hname : ';' ∉ name) :
      ElementText ('L' :: (name ++ [';']))

/-- The text of a type that a field can have: of one that is no array, or one or more brackets
    before that. -/
inductive FieldText : List Char → Prop
  | element {t : List Char} (h : ElementText t) : FieldText t
  | array {t : List Char} {dims : Nat} (hdims : 0 < dims) (h : ElementText t) :
      FieldText (List.replicate dims '[' ++ t)

/-- The text of a type that a method can give. -/
inductive ResultText : List Char → Prop
  | field {t : List Char} (h : FieldText t) : ResultText t
  | void : ResultText ['V']

/-- The text of a method descriptor: the parameters in parentheses, then the result. -/
inductive MethodText : List Char → Prop
  | intro {params : List (List Char)} {ret : List Char} (hparams : ∀ p ∈ params, FieldText p)
      (hret : ResultText ret) : MethodText ('(' :: (params.flatten ++ ')' :: ret))

namespace Descriptor

/-- A type that a method can give. -/
def IsResult (d : Descriptor) : Prop := d.IsField ∨ d = void

theorem toList_text_array (d : Descriptor) : (array d).text.toList = '[' :: d.text.toList := by
  rw [text, String.toList_append]
  rfl

theorem toList_text_object (name : String) :
    (object name).text.toList = 'L' :: (name.toList ++ [';']) := by
  simp only [text, String.toList_append]
  rfl

theorem toList_text_arrayOf (dims : Nat) (d : Descriptor) :
    (arrayOf dims d).text.toList = List.replicate dims '[' ++ d.text.toList := by
  induction dims with
  | zero => rfl
  | succ dims ih => rw [arrayOf, toList_text_array, ih, List.replicate_succ, List.cons_append]

theorem isField_arrayOf {d : Descriptor} (hd : d.IsField) (dims : Nat) :
    (arrayOf dims d).IsField := by
  induction dims with
  | zero => exact hd
  | succ dims ih => exact ih

/-! ## Texts of types -/

theorem fieldText_bracket {t : List Char} (h : FieldText t) : FieldText ('[' :: t) := by
  cases h with
  | element h => exact .array Nat.one_pos h
  | @array t dims _ h => exact .array (Nat.succ_pos dims) h

theorem fieldText_text {d : Descriptor} (hd : d.IsField) : FieldText d.text.toList := by
  induction d with
  | void => exact hd.elim
  | array element ih =>
    rw [toList_text_array]
    exact fieldText_bracket (ih hd)
  | object name =>
    rw [toList_text_object]
    refine .element (.object (fun hnil => hd.1 ?_) hd.2)
    rw [← String.ofList_toList (s := name), hnil]
  | boolean | byte | char | short | int | long | float | double =>
    exact .element (.letter (by decide))

theorem exists_of_elementText {t : List Char} (h : ElementText t) :
    ∃ d : Descriptor, d.IsField ∧ d.text.toList = t := by
  cases h with
  | letter h =>
    simp only [List.mem_cons, List.not_mem_nil, or_false] at h
    rcases h with rfl | rfl | rfl | rfl | rfl | rfl | rfl | rfl
    · exact ⟨boolean, trivial, rfl⟩
    · exact ⟨byte, trivial, rfl⟩
    · exact ⟨char, trivial, rfl⟩
    · exact ⟨short, trivial, rfl⟩
    · exact ⟨int, trivial, rfl⟩
    · exact ⟨long, trivial, rfl⟩
    · exact ⟨float, trivial, rfl⟩
    · exact ⟨double, trivial, rfl⟩
  | @object name hne hname =>
    refine ⟨object (String.ofList name), ⟨fun hempty => hne ?_, ?_⟩, ?_⟩
    · rw [← String.toList_ofList (l := name), hempty]
      rfl
    · rwa [String.toList_ofList]
    · rw [toList_text_object, String.toList_ofList]

/-- The texts of field types are what field types are printed as. -/
theorem fieldText_iff {t : List Char} :
    FieldText t ↔ ∃ d : Descriptor, d.IsField ∧ d.text.toList = t := by
  constructor
  · intro h
    cases h with
    | element h => exact exists_of_elementText h
    | @array t dims hdims h =>
      obtain ⟨d, hd, rfl⟩ := exists_of_elementText h
      exact ⟨arrayOf dims d, isField_arrayOf hd dims, toList_text_arrayOf dims d⟩
  · rintro ⟨d, hd, rfl⟩
    exact fieldText_text hd

theorem exists_of_fieldTexts {ts : List (List Char)} (h : ∀ t ∈ ts, FieldText t) :
    ∃ ds : List Descriptor, (∀ d ∈ ds, d.IsField) ∧ ds.map (·.text.toList) = ts := by
  induction ts with
  | nil => exact ⟨[], List.forall_mem_nil _, rfl⟩
  | cons t ts ih =>
    have ⟨ht, hts⟩ := List.forall_mem_cons.1 h
    obtain ⟨d, hd, rfl⟩ := fieldText_iff.1 ht
    obtain ⟨ds, hds, rfl⟩ := ih hts
    exact ⟨d :: ds, List.forall_mem_cons.2 ⟨hd, hds⟩, rfl⟩

theorem resultText_iff {t : List Char} :
    ResultText t ↔ ∃ d : Descriptor, d.IsResult ∧ d.text.toList = t := by
  constructor
  · intro h
    cases h with
    | field h =>
      obtain ⟨d, hd, ht⟩ := fieldText_iff.1 h
      exact ⟨d, .inl hd, ht⟩
    | void => exact ⟨void, .inr rfl, rfl⟩
  · rintro ⟨d, hd | rfl, rfl⟩
    · exact .field (fieldText_text hd)
    · exact .void

/-! ## What is read -/

theorem ofLetter?_eq_some {c : Char} {d : Descriptor} (h : ofLetter? c = some d) :
    d.IsResult ∧ d.text.toList = [c] := by
  unfold ofLetter? at h
  split at h <;> cases h
  case h_9.refl => exact ⟨.inr rfl, rfl⟩
  all_goals exact ⟨.inl trivial, rfl⟩

/-- A name is what stands before the first semicolon. -/
theorem parseName?_eq_some {s rest : List Char} {name : String}
    (h : parseName? s = some (name, rest)) :
    IsClassName name ∧ s = name.toList ++ ';' :: rest := by
  unfold parseName? at h
  split at h
  next c cs d tail htake hdrop =>
    obtain ⟨rfl, rfl⟩ := Prod.mk.inj (Option.some.inj h)
    have hname : ∀ x ∈ c :: cs, x ≠ ';' := by
      intro x hx
      rw [← htake] at hx
      simpa using List.mem_takeWhile_imp hx
    have hd : d = ';' := by
      have hhead := List.head?_dropWhile_not (· ≠ ';') s
      rw [hdrop] at hhead
      simpa using hhead
    have hs := List.takeWhile_append_dropWhile (p := (· ≠ ';')) (l := s)
    rw [htake, hdrop, hd] at hs
    rw [String.toList_ofList]
    refine ⟨⟨fun hempty => ?_, ?_⟩, hs.symm⟩
    · simpa using congrArg String.toList hempty
    · rw [String.toList_ofList]
      exact fun hmem => hname ';' hmem rfl
  next => cases h

theorem parseElement?_eq_some {s rest : List Char} {d : Descriptor}
    (h : parseElement? s = some (d, rest)) : d.IsResult ∧ s = d.text.toList ++ rest := by
  cases s with
  | nil => cases h
  | cons c tail =>
    rw [parseElement?] at h
    split_ifs at h with hc
    · obtain ⟨⟨name, rest'⟩, hname, he⟩ := Option.map_eq_some_iff.1 h
      obtain ⟨rfl, rfl⟩ := Prod.mk.inj he
      obtain ⟨hclass, rfl⟩ := parseName?_eq_some hname
      refine ⟨.inl hclass, ?_⟩
      rw [toList_text_object, hc, List.cons_append, List.append_assoc]
      rfl
    · obtain ⟨d', hd, he⟩ := Option.map_eq_some_iff.1 h
      obtain ⟨rfl, rfl⟩ := Prod.mk.inj he
      obtain ⟨hresult, htext⟩ := ofLetter?_eq_some hd
      exact ⟨hresult, by rw [htext]; rfl⟩

/-- A text is its brackets and what follows them. -/
theorem replicate_append_drop (s : List Char) :
    List.replicate (s.takeWhile (· = '[')).length '[' ++
      s.drop (s.takeWhile (· = '[')).length = s := by
  have hbrackets : s.takeWhile (· = '[') =
      List.replicate (s.takeWhile (· = '[')).length '[' :=
    List.eq_replicate_of_mem fun c hc => by simpa using List.mem_takeWhile_imp hc
  rw [← hbrackets]
  exact List.prefix_iff_eq_append.1 (List.takeWhile_prefix _)

/-- **What is read of a text is a descriptor and stands at its start.** -/
theorem eq_append_of_parsePrefix {s rest : List Char} {d : Descriptor}
    (h : parsePrefix s = .ok (d, rest)) : d.IsResult ∧ s = d.text.toList ++ rest := by
  unfold parsePrefix at h
  simp only at h
  split at h
  · cases h
  next element tail helement =>
    split_ifs at h with hvoid
    obtain ⟨rfl, rfl⟩ := Prod.mk.inj (Except.ok.inj h)
    obtain ⟨hresult, hdrop⟩ := parseElement?_eq_some helement
    constructor
    · rcases hresult with hfield | rfl
      · exact .inl (isField_arrayOf hfield _)
      · have hdims : (s.takeWhile (· = '[')).length = 0 := by simpa using hvoid
        rw [hdims]
        exact .inr rfl
    · rw [toList_text_arrayOf, List.append_assoc, ← hdrop, replicate_append_drop]

/-- Reading and printing a type are inverse. -/
theorem parse_eq_ok_iff {s : String} {d : Descriptor} :
    parse s = .ok d ↔ d.IsResult ∧ d.text = s := by
  constructor
  · intro h
    obtain ⟨⟨d', rest⟩, hread, h⟩ := bind_eq_ok.1 h
    dsimp only at h
    split_ifs at h with hrest
    obtain rfl := Except.ok.inj h
    obtain ⟨hresult, hs⟩ := eq_append_of_parsePrefix hread
    rw [List.isEmpty_iff.1 hrest, List.append_nil] at hs
    exact ⟨hresult, String.toList_inj.1 hs.symm⟩
  · rintro ⟨hfield | rfl, rfl⟩
    · exact parse_text hfield
    · exact parse_void

end Descriptor

/-! ## Methods -/

namespace MethodDescriptor

/-- A descriptor that a method can have. -/
structure IsMethod (d : MethodDescriptor) : Prop where
  params : ∀ p ∈ d.params, p.IsField
  ret : d.ret.IsResult

theorem toList_text (d : MethodDescriptor) : d.text.toList =
    '(' :: ((d.params.map (·.text.toList)).flatten ++ ')' :: d.ret.text.toList) := by
  simp only [text, String.toList_append, String.toList_join, List.map_map, List.flatMap_def]
  simp [Function.comp_def]

/-- The parameters that are read stand at the start, and the closing parenthesis after them. -/
theorem eq_append_of_parseParams? {s rest : List Char} {params : List Descriptor}
    (h : parseParams? s = some (params, rest)) :
    (∀ p ∈ params, p.IsField) ∧ s = (params.map (·.text.toList)).flatten ++ ')' :: rest := by
  induction s using parseParams?.induct generalizing params rest with
  | case1 s hclose =>
    rw [parseParams?, if_pos hclose] at h
    obtain ⟨rfl, rfl⟩ := Prod.mk.inj (Option.some.inj h)
    refine ⟨List.forall_mem_nil _, ?_⟩
    obtain ⟨tail, rfl⟩ := List.head?_eq_some_iff.1 hclose
    rfl
  | case2 s hclose e herror => cases (parseParams?_of_error hclose herror).symm.trans h
  | case3 s hclose rest' hok =>
    rw [parseParams?_of_ok hclose hok, if_pos rfl] at h
    cases h
  | case4 s hclose param rest' hok hvoid ih =>
    rw [parseParams?_of_ok hclose hok, if_neg hvoid] at h
    obtain ⟨⟨params', rest''⟩, hparams, he⟩ := Option.map_eq_some_iff.1 h
    obtain ⟨rfl, rfl⟩ := Prod.mk.inj he
    obtain ⟨hfields, rfl⟩ := ih hparams
    obtain ⟨hresult, rfl⟩ := Descriptor.eq_append_of_parsePrefix hok
    refine ⟨List.forall_mem_cons.2 ⟨hresult.resolve_right hvoid, hfields⟩, ?_⟩
    rw [List.map_cons, List.flatten_cons, List.append_assoc]

/-- Reading and printing a method descriptor are inverse. -/
theorem parse_eq_ok_iff {s : String} {d : MethodDescriptor} :
    parse s = .ok d ↔ d.IsMethod ∧ d.text = s := by
  constructor
  · intro h
    unfold parse at h
    rw [elim_eq_ok] at h
    split at h
    · next tail hs =>
      obtain ⟨⟨params, rest⟩, hparams, h⟩ := Option.bind_eq_some_iff.1 h
      dsimp only at h
      split at h
      · next ret hret =>
        obtain rfl := Option.some.inj h
        obtain ⟨hfields, rfl⟩ := eq_append_of_parseParams? hparams
        obtain ⟨hresult, htext⟩ := Descriptor.parse_eq_ok_iff.1 hret
        refine ⟨⟨hfields, hresult⟩, String.toList_inj.1 ?_⟩
        rw [toList_text, hs, htext, String.toList_ofList]
      · cases h
    · cases h
  · rintro ⟨hd, rfl⟩
    exact parse_text hd.params hd.ret.symm

/-- The texts of method descriptors are what methods are printed as. -/
theorem methodText_iff {t : List Char} :
    MethodText t ↔ ∃ d : MethodDescriptor, d.IsMethod ∧ d.text.toList = t := by
  constructor
  · rintro ⟨hparams, hret⟩
    obtain ⟨d, hd, rfl⟩ := Descriptor.resultText_iff.1 hret
    obtain ⟨ds, hds, rfl⟩ := Descriptor.exists_of_fieldTexts hparams
    exact ⟨⟨ds, d⟩, ⟨hds, hd⟩, toList_text _⟩
  · rintro ⟨d, hd, rfl⟩
    rw [toList_text]
    refine .intro ?_ (Descriptor.resultText_iff.2 ⟨d.ret, hd.ret, rfl⟩)
    exact List.forall_mem_map.2 fun p hp => Descriptor.fieldText_text (hd.params p hp)

theorem foldl_size {params : List Descriptor} (h : ∀ p ∈ params, p.IsField) (n : Nat) :
    params.foldl (fun n p => n + p.size) n =
      n + (params.length + params.count .long + params.count .double) := by
  induction params generalizing n with
  | nil => rfl
  | cons p params ih =>
    have ⟨hp, hparams⟩ := List.forall_mem_cons.1 h
    have hsize : p.size = 1 + (if p = .long then 1 else 0) + if p = .double then 1 else 0 := by
      cases p with
      | void => exact hp.elim
      | boolean | byte | char | short | int | long | float | double | object | array => rfl
    rw [List.foldl_cons, ih hparams, hsize]
    simp only [List.length_cons, List.count_cons, beq_iff_eq]
    omega

end MethodDescriptor

end ConstRestore
