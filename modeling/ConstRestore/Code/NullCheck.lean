/-
  Null checks before inlined instance constants.

  Where a compiler replaces a constant field of an object by its value, it
  still checks that the object is not null: a call that fails on null, and a
  `pop` of its result, stand before the literal.
-/
import ConstRestore.Bytecode.Instr

namespace ConstRestore

/-- Whether an instruction is one of the calls that compilers use as a check. -/
def Instr.isNullCheck : Instr → Bool
  | method .invokestatic m =>
    m.owner == "java/lang/Objects" && m.name == "requireNonNull" &&
      m.descriptor == "(Ljava/lang/Object;)Ljava/lang/Object;"
  | method .invokevirtual m =>
    m.owner == "java/lang/Object" && m.name == "getClass" &&
      m.descriptor == "()Ljava/lang/Class;"
  | _ => false

def Instr.isLine : Instr → Bool
  | line .. => true
  | _ => false

/-- The indices of the check and the `pop` before the instruction at `index`.
    Line numbers may stand between them, labels may not. -/
def nullCheckBefore? (code : List Instr) (index : Nat) : Option (Nat × Nat) :=
  match (code.take index).zipIdx.reverse.filter fun (i, _) => !i.isLine with
  | (.simple .pop, pop) :: (check, at_) :: _ => if check.isNullCheck then some (at_, pop) else none
  | _ => none

end ConstRestore
