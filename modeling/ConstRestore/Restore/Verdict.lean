/-
  What becomes of a literal.

  A literal that the analysis reached gets a `Verdict`; it does not depend on
  the other literals of the method.
-/
import ConstRestore.Restore.GroupChoice
import ConstRestore.Restore.StandIn

namespace ConstRestore

inductive Verdict where
  /-- No group claims the literal, or only a default group that has no stand-in. -/
  | unclaimed
  /-- Destinations of the value disagree. -/
  | conflict
  /-- A named group has nothing that stands in for the value. -/
  | unmapped
  /-- The stand-in has no code here. -/
  | refused (w : StandIn) (e : CodeError)
  | replaced (w : StandIn) (s : Substitution)

/-- What a restoration did. -/
structure Stats where
  /-- Literals that were replaced. -/
  replaced : Nat
  /-- Literals whose destinations disagree. -/
  conflicts : Nat
  /-- Literals of a named group without a stand-in, and stand-ins without code. -/
  skipped : Nat
  /-- Methods that cannot be analysed. -/
  failedMethods : Nat
  deriving DecidableEq

namespace Stats

def zero : Stats := ⟨0, 0, 0, 0⟩

instance : Add Stats where
  add s t := ⟨s.replaced + t.replaced, s.conflicts + t.conflicts, s.skipped + t.skipped,
    s.failedMethods + t.failedMethods⟩

def isUnchanged (s : Stats) : Bool := s.replaced == 0

end Stats

namespace Verdict

/-- What a verdict counts as. -/
def stats : Verdict → Stats
  | unclaimed => .zero
  | conflict => { Stats.zero with conflicts := 1 }
  | unmapped | refused .. => { Stats.zero with skipped := 1 }
  | replaced .. => { Stats.zero with replaced := 1 }

/-- What a verdict on a literal is reported as. -/
def report (signature : String) (index : Nat) (value : Value) (v : Verdict) : List LogLine :=
  let place := signature ++ " @" ++ toString index ++ ": "
  match v with
  | refused w e => [⟨.debug, place ++ "cannot emit " ++ w.expr.text ++ ": " ++ e.message⟩]
  | replaced w _ => [⟨.trace, place ++ value.text ++ " -> " ++ w.expr.text⟩]
  | _ => []

end Verdict

/-- Whether a literal with all bits set is what compilers make of a complement:
    the operand of the exclusive or that comes next. -/
def isComplementOperand (code : List Instr) (index : Nat) (value : Value) : Bool :=
  let next := (code.drop (index + 1)).find? (!·.isPseudo)
  match value with
  | .int v => v == -1 && next == some (.simple (.bit .xor false))
  | .long v => v == -1 && next == some (.simple (.bit .xor true))
  | _ => false

namespace Subject

def groupChoice (s : Subject) (f : Facts) : GroupChoice :=
  s.method.groupChoice s.registry s.store.bindings s.owner f

/-- The verdict on a literal of a group. -/
def groupVerdict (s : Subject) (a : Solution) (index : Nat) (value : Value) (f : Facts)
    (key : GroupKey) : Verdict :=
  match s.standIn? key value f with
  | some w =>
    match s.substitution a index value.dataType w with
    | .ok sub => .replaced w sub
    | .error e => .refused w e
  | none =>
    match key with
    | .named _ => .unmapped
    | .default _ => .unclaimed

/-- The verdict on the literal at `index` with the facts of its class. -/
def verdict (s : Subject) (a : Solution) (index : Nat) (value : Value) (f : Facts) : Verdict :=
  let choice := s.groupChoice f
  match choice.key? s.store value.dataType s.config.defaults with
  | some key => s.groupVerdict a index value f key
  | none => if choice.isConflict then .conflict else .unclaimed

/-- The value, class and facts of an instruction that is a literal to restore:
    one that the analysis reached and that no complement needs. -/
def literalAt? (s : Subject) (a : Solution) (index : Nat) (i : Instr) :
    Option (Value × Source × Facts) := do
  let value ← i.literal?
  let facts ← a.facts? index
  let root ← a.root? index
  if isComplementOperand s.method.code index value then none else some (value, root, facts)

end Subject

end ConstRestore
