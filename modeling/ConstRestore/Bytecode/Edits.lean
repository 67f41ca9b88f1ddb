/-
  Edits of a code list, made in one pass.

  An `Edits` gives the sequence that stands in for an instruction, by the index
  of the instruction in the list before any edit.  Every instruction belongs to
  one edit only: a second edit of the same index is an error.
-/
import ConstRestore.Bytecode.Instr
import ConstRestore.Table

namespace ConstRestore

/-- Replacements of instructions by index. -/
structure Edits where
  replacements : Table Nat (List Instr)

/-- The instruction at this index already had a replacement. -/
structure EditedTwice where
  index : Nat
  /-- The edits with the later replacement. -/
  edits : Edits

def EditedTwice.message (e : EditedTwice) : String :=
  "instruction " ++ toString e.index ++ " replaced twice"

namespace Edits

def empty : Edits := ⟨∅⟩

def contains (e : Edits) (index : Nat) : Bool := e.replacements.contains index

def size (e : Edits) : Nat := e.replacements.size

/-- Lets `sequence` stand in for the instruction at `index`; the empty one
    deletes it. -/
def replace (e : Edits) (index : Nat) (sequence : List Instr) : Except EditedTwice Edits :=
  let edits : Edits := ⟨e.replacements.set index sequence⟩
  if e.contains index then .error ⟨index, edits⟩ else .ok edits

/-- Makes replacements one after the other. -/
def replaceAll (e : Edits) (replacements : List (Nat × List Instr)) : Except EditedTwice Edits :=
  replacements.foldlM (fun e (index, sequence) => e.replace index sequence) e

/-- What stands for the instruction at `index`. -/
def at_ (e : Edits) (index : Nat) (i : Instr) : List Instr :=
  (e.replacements.get? index).getD [i]

/-- The code after all edits. -/
def apply (e : Edits) (code : List Instr) : List Instr :=
  code.zipIdx.flatMap fun (i, index) => e.at_ index i

end Edits

end ConstRestore
