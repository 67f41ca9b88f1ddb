/-
  Slices of descriptors.

  A reader that cuts a text at byte offsets never cuts it inside of a character or past its end,
  and it ends: the offsets stand behind brackets, which take a byte each, before and behind a
  semicolon, and where the text that was read ends (`Descriptor.slicePrefix_eq`).  It reads what
  the reader on characters does, with arrays kept as texts (`Descriptor.sliced`).
  `MethodDescriptor.parse_grammar` has this with the grammar.
-/
import ConstRestore.Bytecode.Slicing
import ConstRestore.Proofs.Grammar

namespace ConstRestore

namespace Descriptor

/-- A type as the slices keep it. -/
def sliced : Descriptor → SlicedType
  | array element => .array (array element).text
  | d => .plain d

theorem text_sliced (d : Descriptor) : d.sliced.text = d.text := by
  cases d <;> rfl

theorem sliced_eq_void {d : Descriptor} : d.sliced = .plain void ↔ d = void := by
  cases d <;> simp [sliced]

theorem sliced_of_letter {c : Char} {d : Descriptor} (h : ofLetter? c = some d) :
    d.sliced = .plain d := by
  unfold ofLetter? at h
  split at h <;> cases h <;> rfl

theorem sliced_arrayOf {dims : Nat} (h : dims ≠ 0) (d : Descriptor) :
    (arrayOf dims d).sliced = .array (arrayOf dims d).text := by
  cases dims with
  | zero => exact absurd rfl h
  | succ dims => rfl

/-! ## Texts that start with no bracket -/

variable {s rest : List Char}

theorem dimensions_eq_zero (h : s.head? ≠ some '[') : dimensions s = 0 := by
  cases s with
  | nil => rfl
  | cons c s => simpa [dimensions] using h

theorem parsePrefix_of_element (h : s.head? ≠ some '[') {d : Descriptor}
    (hread : parseElement? s = some (d, rest)) : parsePrefix s = .ok (d, rest) := by
  have hdims : (s.takeWhile (· = '[')).length = 0 := dimensions_eq_zero h
  simp [parsePrefix, hdims, hread, arrayOf]

theorem parsePrefix_of_none (h : s.head? ≠ some '[') (hread : parseElement? s = none) :
    parsePrefix s = .error ⟨String.ofList s⟩ := by
  have hdims : (s.takeWhile (· = '[')).length = 0 := dimensions_eq_zero h
  simp [parsePrefix, hdims, hread]

theorem takeWhile_ne_append {c : Char} (h : c ∉ s) (rest : List Char) :
    (s ++ c :: rest).takeWhile (· ≠ c) = s := by
  rw [List.takeWhile_append_of_pos, List.takeWhile_cons_of_neg (by simp), List.append_nil]
  intro x hx
  have hne : x ≠ c := fun heq => h (heq ▸ hx)
  simpa using hne

theorem parseElement?_name (s : List Char) :
    parseElement? ('L' :: s) = (parseName? s).map fun (name, rest) => (object name, rest) := by
  rw [parseElement?, if_pos rfl]

theorem parseName?_eq_none (h : ';' ∉ s) : parseName? s = none := by
  have hdrop : s.dropWhile (· ≠ ';') = [] := by
    refine List.dropWhile_eq_nil_iff.2 fun c hc => ?_
    have hne : c ≠ ';' := fun heq => h (heq ▸ hc)
    simpa using hne
  rw [parseName?, hdrop]
  split <;> simp_all

/-- The name between the letter and the semicolon is cut out at places of the text. -/
theorem sliceName_eq (s : List Char) : sliceName ('L' :: s) =
    some ((parsePrefix ('L' :: s)).map fun (d, rest) => (d.sliced, rest)) := by
  have hbracket : ('L' :: s).head? ≠ some '[' := by simp
  unfold sliceName
  by_cases hmem : ';' ∈ s
  · obtain ⟨name, rest, rfl, hname⟩ := List.eq_append_cons_of_mem hmem
    have hfind : Text.find? ';' ('L' :: (name ++ ';' :: rest)) = some (1 + Text.byteLength name) := by
      rw [Text.find?, if_pos (List.mem_cons_of_mem _ hmem), ← List.cons_append,
        takeWhile_ne_append (by simpa using hname), Text.byteLength_cons]
      rfl
    simp only [hfind]
    cases name with
    | nil =>
      rw [parsePrefix_of_none hbracket (by rw [parseElement?_name]; rfl)]
      rfl
    | cons c name =>
      have hstop : 1 + Text.byteLength (c :: name) ≠ 1 := by
        have := c.utf8Size_pos
        rw [Text.byteLength_cons]
        omega
      have hclass : IsClassName (String.ofList (c :: name)) :=
        ⟨fun hempty => by simpa using congrArg String.toList hempty,
          by rwa [String.toList_ofList]⟩
      have hread := parseName?_text hclass rest
      rw [String.toList_ofList] at hread
      have hslice : Text.slice? ('L' :: (c :: name ++ ';' :: rest)) 1
          (1 + Text.byteLength (c :: name)) = some (c :: name) :=
        Text.slice?_append ['L'] (c :: name) (';' :: rest)
      have hrest : Text.sliceFrom? ('L' :: (c :: name ++ ';' :: rest))
          (1 + Text.byteLength (c :: name) + 1) = some rest := by
        have h := Text.sliceFrom?_append ('L' :: (c :: name) ++ [';']) rest
        rw [List.append_assoc, Text.byteLength_append, Text.byteLength_cons 'L'] at h
        exact h
      rw [if_neg hstop, hslice, hrest,
        parsePrefix_of_element hbracket (by rw [parseElement?_name, hread]; rfl)]
      rfl
  · have hfind : Text.find? ';' ('L' :: s) = none := if_neg (by simpa using hmem)
    rw [hfind, parsePrefix_of_none hbracket (by rw [parseElement?_name, parseName?_eq_none hmem]; rfl)]
    rfl

/-! ## Texts of arrays -/

theorem byteLength_brackets (dims : Nat) : Text.byteLength (List.replicate dims '[') = dims := by
  induction dims with
  | zero => rfl
  | succ dims ih =>
    rw [List.replicate_succ, Text.byteLength_cons, ih, Nat.add_comm]
    rfl

/-- The brackets at the start of a text are cut off behind the last one. -/
theorem sliceFrom?_dimensions (s : List Char) :
    Text.sliceFrom? s (dimensions s) = some (s.drop (dimensions s)) := by
  have happend : List.replicate (dimensions s) '[' ++ s.drop (dimensions s) = s :=
    replicate_append_drop s
  have h := Text.sliceFrom?_append (List.replicate (dimensions s) '[') (s.drop (dimensions s))
  rwa [byteLength_brackets, happend] at h

theorem head?_drop_dimensions (s : List Char) : (s.drop (dimensions s)).head? ≠ some '[' := by
  have hdrop : s.drop (dimensions s) = s.dropWhile (· = '[') := by
    have h := @List.drop_left _ (s.takeWhile (· = '[')) (s.dropWhile (· = '['))
    rwa [List.takeWhile_append_dropWhile] at h
  intro h
  have hhead := List.head?_dropWhile_not (· = '[') s
  rw [← hdrop, h] at hhead
  simp at hhead

/-- Behind brackets stands a type that is no array, and not that of no value. -/
theorem parsePrefix_of_brackets (hdims : dimensions s ≠ 0) : parsePrefix s =
    (parsePrefix (s.drop (dimensions s))).bind fun (d, rest) =>
      if d = void then .error ⟨String.ofList s⟩ else .ok (arrayOf (dimensions s) d, rest) := by
  have hhead := head?_drop_dimensions s
  cases hread : parseElement? (s.drop (dimensions s)) with
  | none =>
    rw [parsePrefix_of_none hhead hread]
    change parseElement? (s.drop (s.takeWhile (· = '[')).length) = none at hread
    simp [parsePrefix, hread, Except.bind, dimensions]
  | some p =>
    obtain ⟨d, rest⟩ := p
    rw [parsePrefix_of_element hhead hread]
    change parseElement? (s.drop (s.takeWhile (· = '[')).length) = some (d, rest) at hread
    change (s.takeWhile (· = '[')).length ≠ 0 at hdims
    simp [parsePrefix, hread, Except.bind, dimensions, hdims]

/-- **No slice of a type is undefined**, and what is read by slices is what is read. -/
theorem slicePrefix_eq (s : List Char) :
    slicePrefix s = some ((parsePrefix s).map fun (d, rest) => (d.sliced, rest)) := by
  fun_induction slicePrefix s with
  | case1 s hletter =>
    obtain ⟨tail, rfl⟩ := List.head?_eq_some_iff.1 hletter
    exact sliceName_eq tail
  | case2 s _ _ hslice => cases hslice.symm.trans (sliceFrom?_dimensions s)
  | case3 s _ hbracket elementText hslice ih =>
    obtain rfl := Option.some.inj (hslice.symm.trans (sliceFrom?_dimensions s))
    have hdims : dimensions s ≠ 0 := by
      obtain ⟨tail, rfl⟩ := List.head?_eq_some_iff.1 hbracket
      simp [dimensions]
    rw [ih, parsePrefix_of_brackets hdims]
    cases hread : parsePrefix (s.drop (dimensions s)) with
    | error e => rfl
    | ok p =>
      obtain ⟨d, rest⟩ := p
      by_cases hvoid : d = void
      · simp [Except.map, Except.bind, hvoid, sliced]
      · have hne : ¬d.sliced = .plain void := fun heq => hvoid (sliced_eq_void.1 heq)
        have hs : (arrayOf (dimensions s) d).text.toList ++ rest = s := by
          have hrest := (eq_append_of_parsePrefix hread).2
          rw [toList_text_arrayOf, List.append_assoc, ← hrest]
          exact replicate_append_drop s
        have hconsumed := Text.lengthDifference?_append (arrayOf (dimensions s) d).text.toList rest
        have htext := Text.sliceTo?_append (arrayOf (dimensions s) d).text.toList rest
        rw [hs] at hconsumed htext
        simp [Except.map, Except.bind, hvoid, hne, hconsumed, htext, sliced_arrayOf hdims]
  | case4 s hletter hbracket d hd =>
    obtain ⟨c, hc, hletter'⟩ := Option.bind_eq_some_iff.1 hd
    obtain ⟨tail, rfl⟩ := List.head?_eq_some_iff.1 hc
    have hread : parseElement? (c :: tail) = some (d, tail) := by
      rw [parseElement?, if_neg (by simpa using hletter), hletter']
      rfl
    rw [parsePrefix_of_element hbracket hread]
    simp [Except.map, sliced_of_letter hletter']
  | case5 s hletter hbracket hnone =>
    have hread : parseElement? s = none := by
      cases s with
      | nil => rfl
      | cons c tail =>
        have hc : ofLetter? c = none := by simpa using hnone
        rw [parseElement?, if_neg (by simpa using hletter), hc]
        rfl
    rw [parsePrefix_of_none hbracket hread]
    rfl

theorem sliceParse_eq (s : String) : sliceParse s = some ((parse s).map sliced) := by
  rw [sliceParse, slicePrefix_eq, parse]
  cases parsePrefix s.toList with
  | error e => rfl
  | ok p =>
    obtain ⟨d, rest⟩ := p
    simp only [Except.map, Option.bind_some, bind, Except.bind]
    split_ifs <;> rfl

end Descriptor

/-! ## Methods -/

namespace MethodDescriptor

/-- A method descriptor as the slices keep it. -/
def sliced (d : MethodDescriptor) : List SlicedType × SlicedType :=
  (d.params.map (·.sliced), d.ret.sliced)

/-- The closing parenthesis is there if the list of parameters has an end. -/
theorem sliceParams_eq (whole : String) (s : List Char) : sliceParams whole s =
    some ((parseParams? s).elim (.error ⟨whole⟩) fun (params, rest) =>
      .ok (params.map (·.sliced), ')' :: rest)) := by
  fun_induction sliceParams whole s with
  | case1 s hclose =>
    obtain ⟨tail, rfl⟩ := List.head?_eq_some_iff.1 hclose
    rw [parseParams?]
    rfl
  | case2 s hclose hread => cases hread.symm.trans (Descriptor.slicePrefix_eq s)
  | case3 s hclose e hread =>
    rw [Descriptor.slicePrefix_eq, Option.some_inj, map_eq_error] at hread
    rw [parseParams?_of_error hclose hread]
    rfl
  | case4 s hclose remainder hread =>
    rw [Descriptor.slicePrefix_eq, Option.some_inj, map_eq_ok] at hread
    obtain ⟨⟨d, rest⟩, hread, heq⟩ := hread
    obtain ⟨hvoid, -⟩ := Prod.mk.inj heq
    rw [parseParams?_of_ok hclose hread, if_pos (Descriptor.sliced_eq_void.1 hvoid)]
    rfl
  | case5 s hclose param remainder hread hvoid ih =>
    rw [Descriptor.slicePrefix_eq, Option.some_inj, map_eq_ok] at hread
    obtain ⟨⟨d, rest⟩, hread, heq⟩ := hread
    obtain ⟨rfl, rfl⟩ := Prod.mk.inj heq
    rw [parseParams?_of_ok hclose hread, if_neg fun heq => hvoid (Descriptor.sliced_eq_void.2 heq),
      ih]
    cases parseParams? rest <;> rfl

/-- **No slice of a method descriptor is undefined**, whatever the text is. -/
theorem sliceParse_eq (s : String) : sliceParse s = some ((parse s).map sliced) := by
  unfold sliceParse parse
  generalize s.toList = text
  split
  · next rest =>
    have hbehind (rest : List Char) : Text.sliceFrom? (')' :: rest) 1 = some rest :=
      Text.sliceFrom?_append [')'] rest
    simp only [sliceParams_eq]
    cases parseParams? rest with
    | none => rfl
    | some p =>
      obtain ⟨params, rest⟩ := p
      simp only [Option.elim_some, Option.bind_eq_bind, Option.bind_some, hbehind,
        Descriptor.sliceParse_eq]
      cases Descriptor.parse (String.ofList rest) <;> rfl
  · simp [Except.map]

/-- **The descriptors that can be read are those of the grammar.**  Each is read as the one type
    or method that prints as it, whose parameters take a word each and those of type `long` or
    `double` one more; a type that is read off the front of a text is a part of the text, and what
    is left is the rest of it.  Of every text, reading it by slices at byte offsets ends, with no
    slice undefined, and gives the same with arrays kept as their texts. -/
theorem parse_grammar (s : String) :
    ((∃ d, Descriptor.parse s = .ok d) ↔ ResultText s.toList) ∧
    ((∃ d, parse s = .ok d) ↔ MethodText s.toList) ∧
    (∀ d, Descriptor.parse s = .ok d → d.text = s ∧ Descriptor.parse d.text = .ok d) ∧
    (∀ d, parse s = .ok d → d.text = s ∧ parse d.text = .ok d ∧
      d.argumentSlots = d.params.length + d.params.count .long + d.params.count .double) ∧
    (∀ d rest, Descriptor.parsePrefix s.toList = .ok (d, rest) →
      s = d.text ++ String.ofList rest) ∧
    (∀ d : Descriptor, d.sliced.text = d.text) ∧
    Descriptor.sliceParse s = some ((Descriptor.parse s).map (·.sliced)) ∧
    sliceParse s = some ((parse s).map (·.sliced)) := by
  refine ⟨?_, ?_, ?_, ?_, ?_, Descriptor.text_sliced, Descriptor.sliceParse_eq s, sliceParse_eq s⟩
  · simp only [Descriptor.parse_eq_ok_iff, Descriptor.resultText_iff, String.toList_inj]
  · simp only [parse_eq_ok_iff, methodText_iff, String.toList_inj]
  · intro d h
    obtain ⟨-, rfl⟩ := Descriptor.parse_eq_ok_iff.1 h
    exact ⟨rfl, h⟩
  · intro d h
    obtain ⟨hd, rfl⟩ := parse_eq_ok_iff.1 h
    refine ⟨rfl, h, ?_⟩
    rw [argumentSlots, foldl_size hd.params, Nat.zero_add]
  · intro d rest h
    obtain ⟨-, hs⟩ := Descriptor.eq_append_of_parsePrefix h
    rw [← String.toList_inj, String.toList_append, String.toList_ofList, hs]

/-- A name may hold brackets, parentheses and characters of any length. -/
example : (parse "(J[[DL([λ);)V").map (·.argumentSlots) = .ok 4 := by
  cbv

end MethodDescriptor

end ConstRestore
