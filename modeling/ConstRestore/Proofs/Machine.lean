/-
  The operand stack machine that code for constant expressions runs on.

  A `Word` is one entry of the operand stack; a value narrower than an int is
  an int there (`Value.word`).  `Opcode.exec?` and `Instr.exec?` are the
  effects of the instructions that constant expressions are made of, `run?`
  executes a sequence; there is no result where the machine traps.

  * `Pushes r code w` says that `code` adds exactly the word `w` to every stack;
  * `pushes_push`: the shortest push of a value pushes its word.
-/
import Mathlib
import ConstRestore.Code.Generate

namespace ConstRestore

open Ieee (Number single)

/-- An entry of the operand stack. -/
inductive Word where
  | int (v : Int32)
  | long (v : Int64)
  | float (v : Number single)
  | double (v : Number Ieee.double)
  /-- A reference to a string. -/
  | string (s : String)
  /-- A reference to a class. -/
  | class_ (name : String)
  deriving DecidableEq

/-- What a value is on the operand stack; `char` is extended by zeros. -/
def Value.word : Value → Word
  | .byte v => .int v.toInt32
  | .short v => .int v.toInt32
  | .char v => .int v.toUInt32.toInt32
  | .int v => .int v
  | .long v => .long v
  | .float v => .float v
  | .double v => .double v
  | .string s => .string s
  | .class_ name => .class_ name

/-! ## Operators of the machine -/

/-- Arithmetic on ints wraps; a division by zero traps. -/
def ArithOp.int? (op : ArithOp) (a b : Int32) : Option Int32 :=
  match op with
  | add => some (a + b)
  | sub => some (a - b)
  | mul => some (a * b)
  | div => if b = 0 then none else some (a / b)
  | rem => if b = 0 then none else some (a % b)

def ArithOp.long? (op : ArithOp) (a b : Int64) : Option Int64 :=
  match op with
  | add => some (a + b)
  | sub => some (a - b)
  | mul => some (a * b)
  | div => if b = 0 then none else some (a / b)
  | rem => if b = 0 then none else some (a % b)

def ArithOp.number {f : Ieee.Format} (op : ArithOp) (a b : Number f) : Number f :=
  match op with
  | add => a.add b
  | sub => a.sub b
  | mul => a.mul b
  | div => a.div b
  | rem => a.remainder b

/-- Bit operators on ints; a shift takes the low five bits of its distance. -/
def BitOp.int (op : BitOp) (a b : Int32) : Int32 :=
  match op with
  | shl => a <<< (b &&& 31)
  | shr => a >>> (b &&& 31)
  | ushr => (a.toUInt32 >>> (b &&& 31).toUInt32).toInt32
  | and => a &&& b
  | or => a ||| b
  | xor => a ^^^ b

/-- Bit operators on two longs, and the shifts of a long by the low six bits of
    an int. -/
def BitOp.long? (op : BitOp) (a : Int64) (b : Word) : Option Int64 :=
  match op, b with
  | shl, .int d => some (a <<< (d &&& 63).toInt64)
  | shr, .int d => some (a >>> (d &&& 63).toInt64)
  | ushr, .int d => some (a.toUInt64 >>> (d &&& 63).toInt64.toUInt64).toInt64
  | and, .long b => some (a &&& b)
  | or, .long b => some (a ||| b)
  | xor, .long b => some (a ^^^ b)
  | _, _ => none

/-- The low bits of an int, extended by the sign or, for `char`, by zeros. -/
def Narrow.apply (n : Narrow) (v : Int32) : Int32 :=
  match n with
  | byte => v.toInt8.toInt32
  | short => v.toInt16.toInt32
  | char => v.toUInt32.toUInt16.toUInt32.toInt32

/-- Conversions between the numeric kinds; a floating point number becomes the
    nearest integer toward zero, and widening it first changes nothing. -/
def NumKind.convert? (target : NumKind) (w : Word) : Option Word :=
  match w, target with
  | .int v, .long => some (.long v.toInt64)
  | .int v, .float => some (.float (Number.ofInt single v.toInt))
  | .int v, .double => some (.double (Number.ofInt Ieee.double v.toInt))
  | .long v, .int => some (.int v.toInt32)
  | .long v, .float => some (.float (Number.ofInt single v.toInt))
  | .long v, .double => some (.double (Number.ofInt Ieee.double v.toInt))
  | .float x, .int => some (.int (Value.saturateInt (x.convert Ieee.double)))
  | .float x, .long => some (.long (Value.saturateLong (x.convert Ieee.double)))
  | .float x, .double => some (.double (x.convert Ieee.double))
  | .double x, .int => some (.int (Value.saturateInt x))
  | .double x, .long => some (.long (Value.saturateLong x))
  | .double x, .float => some (.float (x.convert single))
  | _, _ => none

def Word.kind? : Word → Option NumKind
  | int _ => some .int
  | long _ => some .long
  | float _ => some .float
  | double _ => some .double
  | string _ | class_ _ => none

def ArithOp.word? (op : ArithOp) (a b : Word) : Option Word :=
  match a, b with
  | .int a, .int b => (op.int? a b).map .int
  | .long a, .long b => (op.long? a b).map .long
  | .float a, .float b => some (.float (op.number a b))
  | .double a, .double b => some (.double (op.number a b))
  | _, _ => none

def BitOp.word? (op : BitOp) (a b : Word) : Option Word :=
  match a, b with
  | .int a, .int b => some (.int (op.int a b))
  | .long a, b => (op.long? a b).map .long
  | _, _ => none

def Word.negated? : Word → Option Word
  | int v => some (int (-v))
  | long v => some (long (-v))
  | float x => some (float x.neg)
  | double x => some (double x.neg)
  | _ => none

/-! ## Instructions -/

/-- The stack after an instruction without operands.  Its kind has to be that
    of the words it takes. -/
def Opcode.exec? : Opcode → List Word → Option (List Word)
  | .iconst n, st => some (.int (Int32.ofInt (n.val - 1)) :: st)
  | .lconst n, st => some (.long (Int64.ofNat n) :: st)
  | .fconst n, st => some (.float (Number.ofInt _ n.val) :: st)
  | .dconst n, st => some (.double (Number.ofInt _ n.val) :: st)
  | .arith op k, b :: a :: st =>
    if a.kind? = some k then (op.word? a b).map (· :: st) else none
  | .bit op isLong, b :: a :: st =>
    if a.kind? = some (if isLong then .long else .int) then (op.word? a b).map (· :: st) else none
  | .neg k, a :: st => if a.kind? = some k then a.negated?.map (· :: st) else none
  | .convert s t, a :: st => if a.kind? = some s then (t.convert? a).map (· :: st) else none
  | .narrow n, .int v :: st => some (.int (n.apply v) :: st)
  | _, _ => none

/-- The word that a loadable constant is. -/
def Loadable.word? : Loadable → Option Word
  | int v => some (.int v)
  | float v => some (.float v)
  | long v => some (.long v)
  | double v => some (.double v)
  | string s => some (.string s)
  | class_ name => some (.class_ name)
  | methodType _ | handle _ => none

/-- What a static field holds, if a static constant of the site's type is found
    there. -/
def Registry.staticWord? (r : Registry) (site : FieldSite) : Option Word :=
  (r.findConstant? site.owner site.name).bind fun c =>
    if c.isStatic ∧ site.descriptor = c.dataType.descriptor then some c.value.word else none

/-- The stack after an instruction.  The operand of `bipush` is a byte, that of
    `sipush` a short. -/
def Instr.exec? (r : Registry) : Instr → List Word → Option (List Word)
  | .label _, st | .line .., st => some st
  | .simple op, st => op.exec? st
  | .int .bipush v, st => some (.int v.toInt8.toInt32 :: st)
  | .int .sipush v, st => some (.int v.toInt16.toInt32 :: st)
  | .ldc c, st => c.word?.map (· :: st)
  | .field .getstatic site, st => (r.staticWord? site).map (· :: st)
  | _, _ => none

/-- The stack after a sequence of instructions. -/
def run? (r : Registry) (code : List Instr) (st : List Word) : Option (List Word) :=
  code.foldlM (fun st i => i.exec? r st) st

variable {r : Registry}

@[simp] theorem run?_nil (st : List Word) : run? r [] st = some st := rfl

theorem run?_cons (i : Instr) (code : List Instr) (st : List Word) :
    run? r (i :: code) st = (i.exec? r st).bind (run? r code) := rfl

theorem run?_append (code code' : List Instr) (st : List Word) :
    run? r (code ++ code') st = (run? r code st).bind (run? r code') := by
  simp only [run?, List.foldlM_append]
  rfl

@[simp] theorem run?_simple (op : Opcode) (st : List Word) :
    run? r [.simple op] st = op.exec? st := by
  change (op.exec? st).bind some = op.exec? st
  exact Option.bind_fun_some _

/-! ### Operators on words of their kind -/

section

variable (st : List Word)

theorem exec?_bit_int (op : BitOp) (a b : Int32) :
    (Opcode.bit op false).exec? (.int b :: .int a :: st) = some (.int (op.int a b) :: st) := rfl

theorem exec?_bit_long (op : BitOp) (a : Int64) (b : Word) :
    (Opcode.bit op true).exec? (b :: .long a :: st) = ((op.long? a b).map .long).map (· :: st) :=
  rfl

theorem exec?_arith_int (op : ArithOp) (a b : Int32) :
    (Opcode.arith op .int).exec? (.int b :: .int a :: st) =
      ((op.int? a b).map .int).map (· :: st) := rfl

theorem exec?_arith_long (op : ArithOp) (a b : Int64) :
    (Opcode.arith op .long).exec? (.long b :: .long a :: st) =
      ((op.long? a b).map .long).map (· :: st) := rfl

end

/-- The code ends without a trap and leaves one more word on every stack. -/
def Pushes (r : Registry) (code : List Instr) (w : Word) : Prop :=
  ∀ st, run? r code st = some (w :: st)

theorem Pushes.append {code code' : List Instr} {w w' : Word} (h : Pushes r code w)
    (h' : ∀ st, run? r code' (w :: st) = some (w' :: st)) : Pushes r (code ++ code') w' := by
  intro st
  rw [run?_append, h st]
  exact h' st

/-! ## Pushing values -/

theorem pushes_pushInt (v : Int32) : Pushes r [.pushInt v] (.int v) := by
  intro st
  have hv : Int32.ofInt v.toInt = v := Int32.ofInt_toInt v
  unfold Instr.pushInt
  simp only [run?_cons]
  split_ifs with h₁ h₂ h₃
  · have hn : ((v.toInt + 1).toNat : Int) - 1 = v.toInt := by omega
    change some (Word.int (Int32.ofInt (((v.toInt + 1).toNat : Int) - 1)) :: st) = _
    rw [hn, hv]
  · have h8 : v.toInt8.toInt32 = v := by
      apply Int32.toInt_inj.1
      rw [Int8.toInt_toInt32, Int32.toInt_toInt8, Int.bmod_eq_of_le] <;> omega
    simp [Instr.exec?, h8]
  · have h16 : v.toInt16.toInt32 = v := by
      apply Int32.toInt_inj.1
      rw [Int16.toInt_toInt32, Int32.toInt_toInt16, Int.bmod_eq_of_le] <;> omega
    simp [Instr.exec?, h16]
  · simp [Instr.exec?, Loadable.word?]

/-- **The push of a value pushes its word.** -/
theorem pushes_push (v : Value) : Pushes r [.push v] v.word := by
  cases v with
  | byte | short | char | int => exact pushes_pushInt _
  | long v =>
    intro st
    simp only [Instr.push, Value.word]
    split_ifs with h₀ h₁
    · subst h₀; rfl
    · subst h₁; rfl
    · rfl
  | float v =>
    intro st
    simp only [Instr.push, Value.word]
    split_ifs with h₀ h₁ h₂
    · subst h₀; rfl
    · subst h₁; rfl
    · subst h₂; rfl
    · rfl
  | double v =>
    intro st
    simp only [Instr.push, Value.word]
    split_ifs with h₀ h₁
    · subst h₀; rfl
    · subst h₁; rfl
    · rfl
  | string | class_ => intro st; rfl

theorem run?_push_cons (v : Value) (code : List Instr) (st : List Word) :
    run? r (.push v :: code) st = run? r code (v.word :: st) := by
  rw [← List.singleton_append, run?_append, pushes_push, Option.bind_some]

end ConstRestore
