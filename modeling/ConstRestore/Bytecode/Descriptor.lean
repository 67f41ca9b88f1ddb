/-
  Field and method descriptors.

  * `Descriptor` is a field type, or `void` as the type of a method without
    result; `parse` reads a complete one, `text` writes it.
  * `MethodDescriptor` adds the parameters.

  `parsePrefix_length` is what lets the list of parameters be read by recursion
  on the rest of the text.
-/
import ConstRestore.DataType

namespace ConstRestore

/-- A field type, or `void`. -/
inductive Descriptor where
  | boolean | byte | char | short | int | long | float | double | void
  /-- A class by its internal name. -/
  | object (name : String)
  | array (element : Descriptor)
  deriving DecidableEq

/-- A text that is not a descriptor. -/
structure DescriptorError where
  /-- The text that could not be read. -/
  input : String
  deriving DecidableEq

def DescriptorError.message (e : DescriptorError) : String := "Invalid descriptor - " ++ e.input

namespace Descriptor

/-- The descriptor as it is written in a class file. -/
def text : Descriptor → String
  | boolean => "Z"
  | byte => "B"
  | char => "C"
  | short => "S"
  | int => "I"
  | long => "J"
  | float => "F"
  | double => "D"
  | void => "V"
  | object name => "L" ++ name ++ ";"
  | array element => "[" ++ element.text

/-- Local variables or stack words that a value takes. -/
def size : Descriptor → Nat
  | void => 0
  | long | double => 2
  | _ => 1

def isReference : Descriptor → Bool
  | object _ | array _ => true
  | _ => false

/-- The type of constants with this descriptor. -/
def dataType? (d : Descriptor) : Option DataType := DataType.ofDescriptor? d.text

/-! ## Reading -/

/-- The array type with `dims` dimensions. -/
def arrayOf : Nat → Descriptor → Descriptor
  | 0, d => d
  | dims + 1, d => array (arrayOf dims d)

/-- The type that one letter stands for. -/
def ofLetter? : Char → Option Descriptor
  | 'Z' => some boolean
  | 'B' => some byte
  | 'C' => some char
  | 'S' => some short
  | 'I' => some int
  | 'J' => some long
  | 'F' => some float
  | 'D' => some double
  | 'V' => some void
  | _ => none

/-- Reads a class name, which ends before a semicolon, and drops that. -/
def parseName? (s : List Char) : Option (String × List Char) :=
  match s.takeWhile (· ≠ ';'), s.dropWhile (· ≠ ';') with
  | c :: name, _ :: rest => some (String.ofList (c :: name), rest)
  | _, _ => none

/-- Reads a type other than an array from the start of a text. -/
def parseElement? : List Char → Option (Descriptor × List Char)
  | [] => none
  | c :: rest =>
    if c = 'L' then (parseName? rest).map fun (name, rest) => (object name, rest)
    else (ofLetter? c).map fun d => (d, rest)

/-- Reads one type from the start of a text.  The error names the text after
    the brackets when nothing readable follows them. -/
def parsePrefix (s : List Char) : Except DescriptorError (Descriptor × List Char) :=
  let dims := (s.takeWhile (· = '[')).length
  match parseElement? (s.drop dims) with
  | none => .error ⟨String.ofList (s.drop dims)⟩
  | some (element, rest) =>
    if element = void ∧ dims ≠ 0 then .error ⟨String.ofList s⟩
    else .ok (arrayOf dims element, rest)

/-- Reads a text that is one type. -/
def parse (s : String) : Except DescriptorError Descriptor := do
  let (d, rest) ← parsePrefix s.toList
  if rest.isEmpty then .ok d else .error ⟨s⟩

theorem parseName?_length {s rest : List Char} {name : String}
    (h : parseName? s = some (name, rest)) : rest.length < s.length := by
  unfold parseName? at h
  split at h
  next htake hdrop =>
    have hlen : (s.dropWhile (· ≠ ';')).length ≤ s.length :=
      (List.dropWhile_sublist _).length_le
    rw [hdrop, List.length_cons] at hlen
    obtain ⟨-, rfl⟩ := Prod.mk.inj (Option.some.inj h)
    omega
  next => simp at h

theorem parseElement?_length {s rest : List Char} {d : Descriptor}
    (h : parseElement? s = some (d, rest)) : rest.length < s.length := by
  match s with
  | [] => simp [parseElement?] at h
  | c :: tail =>
    simp only [parseElement?] at h
    split at h
    · obtain ⟨⟨name, rest'⟩, hname, he⟩ := Option.map_eq_some_iff.1 h
      obtain ⟨-, rfl⟩ := Prod.mk.inj he
      exact Nat.lt_trans (parseName?_length hname) (Nat.lt_succ_self _)
    · obtain ⟨e, -, he⟩ := Option.map_eq_some_iff.1 h
      obtain ⟨-, rfl⟩ := Prod.mk.inj he
      exact Nat.lt_succ_self _

theorem parsePrefix_length {s rest : List Char} {d : Descriptor}
    (h : parsePrefix s = .ok (d, rest)) : rest.length < s.length := by
  unfold parsePrefix at h
  simp only at h
  split at h
  · simp at h
  · rename_i element tail he
    split at h
    · simp at h
    · simp only [Except.ok.injEq, Prod.mk.injEq] at h
      obtain ⟨-, rfl⟩ := h
      have := parseElement?_length he
      have hd := List.length_drop (i := (s.takeWhile (· = '[')).length) (l := s)
      omega

end Descriptor

/-! ## Methods -/

/-- The parameter types of a method and its result. -/
structure MethodDescriptor where
  params : List Descriptor
  ret : Descriptor
  deriving DecidableEq

namespace MethodDescriptor

def text (d : MethodDescriptor) : String :=
  "(" ++ String.join (d.params.map (·.text)) ++ ")" ++ d.ret.text

/-- Words that the parameters take, without a receiver. -/
def argumentSlots (d : MethodDescriptor) : Nat := d.params.foldl (fun n p => n + p.size) 0

/-- Reads parameters up to the closing parenthesis and drops it. -/
def parseParams? (s : List Char) : Option (List Descriptor × List Char) :=
  if s.head? = some ')' then some ([], s.tail)
  else
    match _h : Descriptor.parsePrefix s with
    | .error _ => none
    | .ok (param, rest) =>
      if param = .void then none
      else (parseParams? rest).map fun (params, rest) => (param :: params, rest)
  termination_by s.length
  decreasing_by exact Descriptor.parsePrefix_length _h

/-- Reads a method descriptor such as `(IJ)V`. -/
def parse (s : String) : Except DescriptorError MethodDescriptor :=
  let parsed : Option MethodDescriptor :=
    match s.toList with
    | '(' :: rest => do
      let (params, rest) ← parseParams? rest
      match Descriptor.parse (String.ofList rest) with
      | .ok ret => some ⟨params, ret⟩
      | .error _ => none
    | _ => none
  parsed.elim (.error ⟨s⟩) .ok

end MethodDescriptor

/-! ## Names -/

/-- The class that a descriptor or an internal name refers to. -/
def internalName (s : String) : String :=
  match s.toList with
  | 'L' :: rest =>
    if rest.getLast? = some ';' then String.ofList rest.dropLast else s
  | _ => s

/-- The package of an internal name, empty for the default package. -/
def packageOf (name : String) : String :=
  let reversed := name.toList.reverse.dropWhile (· ≠ '/')
  String.ofList reversed.tail.reverse

end ConstRestore
