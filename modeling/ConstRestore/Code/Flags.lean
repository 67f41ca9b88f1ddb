/-
  Bit masks as combinations of flags.

  A value that is not mapped itself may be an OR of flags, an OR of flags and a
  literal for the bits left over, or the complement of an OR.

  * `flagsOf` lists the flags of scope tables, the most specific table first
    for a pattern in several, by descending number of bits;
  * `cover` greedily takes the flags inside a target that add a bit;
  * `decompose` chooses between the shapes: the complement only when the direct
    cover leaves bits, the complement leaves none and takes fewer flags.
-/
import ConstRestore.Group.Mapping

namespace ConstRestore

/-- A bit pattern with the constant that has it. -/
structure Flag where
  bits : UInt64
  expr : Expr

/-- The number of bits that are set. -/
def bitCount (n : UInt64) : Nat := (List.range 64).countP fun i => n.toNat.testBit i

/-- The nonzero patterns of a table's values inside a mask, ascending. -/
def tableFlags (mask : UInt64) (t : Mappings) : List Flag :=
  let flags := t.entries.filterMap fun (value, entry) =>
    value.bits?.map fun bits => ⟨bits &&& mask, entry.expr⟩
  (flags.filter (·.bits ≠ 0)).mergeSort fun a b => a.bits ≤ b.bits

/-- The first flag of every pattern. -/
def distinctFlags (flags : List Flag) : List Flag :=
  flags.foldl (fun seen f => if seen.any (·.bits == f.bits) then seen else seen ++ [f]) []

/-- The flags that tables offer inside a mask, in the order in which a cover
    tries them. -/
def flagsOf (mask : UInt64) (tables : List Mappings) : List Flag :=
  (distinctFlags (tables.flatMap (tableFlags mask))).mergeSort fun a b =>
    bitCount b.bits ≤ bitCount a.bits

/-- Flags chosen for a target, and the bits of the target that they have. -/
structure Cover where
  flags : List Flag
  covered : UInt64

/-- Takes each flag that lies within the target and adds a bit. -/
def cover (target : UInt64) (flags : List Flag) : Cover :=
  flags.foldl (fun c f =>
    if f.bits &&& ~~~target = 0 ∧ f.bits &&& ~~~c.covered ≠ 0 then
      ⟨c.flags ++ [f], c.covered ||| f.bits⟩
    else c) ⟨[], 0⟩

/-- The bits of the target that a cover leaves. -/
def Cover.residual (c : Cover) (target : UInt64) : UInt64 := target &&& ~~~c.covered

/-- The OR of flags, if there are any. -/
def Cover.expr? (c : Cover) : Option Expr :=
  match c.flags with
  | [] => none
  | f :: fs => some (fs.foldl (fun e g => .binary .or e g.expr) f.expr)

/-- Bits as a literal of the stack width of a type. -/
def residualLiteral (bits : UInt64) (type : DataType) : Expr :=
  if type = .long then .literal (.long bits.toInt64)
  else .literal (.int bits.toUInt32.toInt32)

/-- A value in the width of `narrow`, put together from the flags of tables.
    Zero and all ones have no decomposition. -/
def decompose (tables : List Mappings) (value : Value) (narrow : DataType) : Option Expr := do
  let mask ← narrow.mask?
  let target := (← value.bits?) &&& mask
  if target = 0 ∨ target = mask then none else
    let flags := flagsOf mask tables
    let opposite := ~~~target &&& mask
    let direct := cover target flags
    let complement := cover opposite flags
    if direct.residual target ≠ 0 ∧ complement.residual opposite = 0 ∧
        complement.flags ≠ [] ∧ complement.flags.length < direct.flags.length then
      complement.expr?.map (.unary .complement)
    else
      let expr ← direct.expr?
      if direct.residual target = 0 then some expr
      else some (.binary .or expr (residualLiteral (direct.residual target) narrow))

end ConstRestore
