/-
  Descriptors read by slices.

  The reading of a descriptor step by step: types are taken off the front of
  what is left by slices at byte offsets that are counted or searched for.  Here
  a slice may be undefined, which stops the reading with `none`; a text that is no
  descriptor is an error as in `Descriptor.parse`.  An array is kept as the slice
  that it was read from.
-/
import ConstRestore.Bytecode.Descriptor
import ConstRestore.Text.Slice

namespace ConstRestore

/-- A type as it was read. -/
inductive SlicedType where
  | plain (d : Descriptor)
  /-- An array by its text. -/
  | array (text : String)
  deriving DecidableEq

def SlicedType.text : SlicedType → String
  | plain d => d.text
  | array text => text

namespace Descriptor

/-- Reads a class name between the letter at the start of a text and a semicolon. -/
def sliceName (input : List Char) : Option (Except DescriptorError (SlicedType × List Char)) :=
  match Text.find? ';' input with
  | none => some (.error ⟨String.ofList input⟩)
  | some stop =>
    if stop = 1 then some (.error ⟨String.ofList input⟩)
    else do
      let name ← Text.slice? input 1 stop
      let rest ← Text.sliceFrom? input (stop + 1)
      return .ok (.plain (.object (String.ofList name)), rest)

/-- The number of brackets at the start of a text. -/
def dimensions (input : List Char) : Nat := (input.takeWhile (· = '[')).length

/-- Reads one type from the start of a text. -/
def slicePrefix (input : List Char) : Option (Except DescriptorError (SlicedType × List Char)) :=
  if input.head? = some 'L' then sliceName input
  else if _hbracket : input.head? = some '[' then
    match _h : Text.sliceFrom? input (dimensions input) with
    | none => none
    | some elementText => do
      match ← slicePrefix elementText with
      | .error e => return .error e
      | .ok (element, rest) =>
        if element = .plain .void then return .error ⟨String.ofList input⟩
        let consumed ← Text.lengthDifference? (Text.byteLength input) (Text.byteLength rest)
        let text ← Text.sliceTo? input consumed
        return .ok (.array (String.ofList text), rest)
  else
    match input.head?.bind ofLetter? with
    | some d => some (.ok (.plain d, input.tail))
    | none => some (.error ⟨String.ofList input⟩)
  termination_by input.length
  decreasing_by
    obtain ⟨tail, rfl⟩ := List.head?_eq_some_iff.1 _hbracket
    exact Text.length_sliceFrom?_lt (by simp [dimensions]) _h

theorem length_sliceName_lt {input rest : List Char} {t : SlicedType}
    (h : sliceName input = some (.ok (t, rest))) : rest.length < input.length := by
  unfold sliceName at h
  split at h
  · simp at h
  · next stop _ =>
    split at h
    · simp at h
    · obtain ⟨name, -, h⟩ := Option.bind_eq_some_iff.1 h
      obtain ⟨rest', hrest, h⟩ := Option.bind_eq_some_iff.1 h
      obtain ⟨-, rfl⟩ := Prod.mk.inj (Except.ok.inj (Option.some.inj h))
      exact Text.length_sliceFrom?_lt (Nat.succ_ne_zero stop) hrest

/-- A type takes a part of the text. -/
theorem length_slicePrefix_lt {input rest : List Char} {t : SlicedType}
    (h : slicePrefix input = some (.ok (t, rest))) : rest.length < input.length := by
  fun_induction slicePrefix input generalizing t rest with
  | case1 input => exact length_sliceName_lt h
  | case2 => cases h
  | case3 input _ hbracket elementText hslice ih =>
    obtain ⟨r, hread, h⟩ := Option.bind_eq_some_iff.1 h
    split at h
    · simp at h
    · next element rest' =>
      split at h
      · simp at h
      · obtain ⟨consumed, -, h⟩ := Option.bind_eq_some_iff.1 h
        obtain ⟨text, -, h⟩ := Option.bind_eq_some_iff.1 h
        obtain ⟨-, rfl⟩ := Prod.mk.inj (Except.ok.inj (Option.some.inj h))
        obtain ⟨tail, rfl⟩ := List.head?_eq_some_iff.1 hbracket
        exact Nat.lt_trans (ih hread)
          (Text.length_sliceFrom?_lt (by simp [dimensions]) hslice)
  | case4 input _ _ d hd =>
    obtain ⟨-, rfl⟩ := Prod.mk.inj (Except.ok.inj (Option.some.inj h))
    obtain ⟨c, hc, -⟩ := Option.bind_eq_some_iff.1 hd
    obtain ⟨tail, rfl⟩ := List.head?_eq_some_iff.1 hc
    exact Nat.lt_succ_self _
  | case5 => cases h

/-- Reads a text that is one type. -/
def sliceParse (s : String) : Option (Except DescriptorError SlicedType) := do
  match ← slicePrefix s.toList with
  | .error e => return .error e
  | .ok (d, rest) => return if rest.isEmpty then .ok d else .error ⟨s⟩

end Descriptor

/-! ## Methods -/

namespace MethodDescriptor

/-- Reads parameters up to the closing parenthesis, which is left. -/
def sliceParams (whole : String) (rest : List Char) :
    Option (Except DescriptorError (List SlicedType × List Char)) :=
  if rest.head? = some ')' then some (.ok ([], rest))
  else
    match _h : Descriptor.slicePrefix rest with
    | none => none
    | some (.error _) => some (.error ⟨whole⟩)
    | some (.ok (param, remainder)) =>
      if param = .plain .void then some (.error ⟨whole⟩)
      else do
        match ← sliceParams whole remainder with
        | .error e => return .error e
        | .ok (params, rest) => return .ok (param :: params, rest)
  termination_by rest.length
  decreasing_by exact Descriptor.length_slicePrefix_lt _h

/-- Reads a method descriptor. -/
def sliceParse (s : String) : Option (Except DescriptorError (List SlicedType × SlicedType)) :=
  match s.toList with
  | '(' :: rest => do
    match ← sliceParams s rest with
    | .error e => return .error e
    | .ok (params, rest) =>
      let text ← Text.sliceFrom? rest 1
      match ← Descriptor.sliceParse (String.ofList text) with
      | .error _ => return .error ⟨s⟩
      | .ok ret => return .ok (params, ret)
  | _ => some (.error ⟨s⟩)

end MethodDescriptor

end ConstRestore
