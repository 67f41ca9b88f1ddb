/-
  Questions about constants and classes, and remembered answers.

  * A `Backend` answers the basic questions, in any way; a registry is one.
  * What else there is to ask is worked out from answers to other questions
    (`Query.body`): whether a class is assignable to another one by a search
    through the infos of classes, a common superclass by the answers to that.
    The loops of the source are questions that end in asking the next round.
  * A `Memo` remembers answers, misses among them: to the basic questions and
    to those for assignability.
-/
import ConstRestore.Expr.Evaluate
import ConstRestore.Table

namespace ConstRestore

/-- Sets a key that is not there yet. -/
def Table.setIfAbsent {κ α : Type} [BEq κ] [LawfulBEq κ] (t : Table κ α) (k : κ) (a : α) : Table κ α :=
  if t.contains k then t else t.set k a

namespace Table

variable {κ α : Type} [BEq κ] [LawfulBEq κ] [DecidableEq κ] {t : Table κ α} {k k' : κ} {a a' : α}

/-- What can be read was there before, or is what was just set. -/
theorem get?_setIfAbsent_cases (h : (t.setIfAbsent k a).get? k' = some a') :
    t.get? k' = some a' ∨ k' = k ∧ a' = a := by
  unfold setIfAbsent at h
  split at h
  · exact .inl h
  · rw [get?_set] at h
    split at h
    · next hk => exact .inr ⟨hk, (Option.some.inj h).symm⟩
    · exact .inl h

theorem isSome_get?_setIfAbsent :
    ((t.setIfAbsent k a).get? k').isSome ↔ (t.get? k').isSome ∨ k' = k := by
  unfold setIfAbsent
  split
  · next hcontains =>
    refine ⟨.inl, fun h => h.elim id ?_⟩
    rintro rfl
    exact hcontains
  · rw [get?_set]
    split <;> simp [*]

end Table

/-! ## Questions -/

inductive Query where
  | constant (owner name : String)
  | constants (owner : String)
  | info (name : String)
  | assignable (target source : String)
  | common (a b : String)
  /-- Goes on with a search for `target` among the supertypes of what is pending. -/
  | search (target : String) (pending visited : List String)
  /-- Goes on to the superclass of `current` that `b` is assignable to. -/
  | climb (b current : String) (visited : List String)

@[reducible] def Query.Answer : Query → Type
  | constant .. => Option Constant
  | constants _ => Option (List (String × Constant))
  | info _ => Option ClassInfo
  | assignable .. | search .. => Bool
  | common .. | climb .. => String

/-- A question with an answer. -/
abbrev Answered := (q : Query) × q.Answer

/-- A computation that asks. -/
inductive Script (α : Type) where
  | done (a : α)
  /-- A step that asks nothing. -/
  | pause (next : Script α)
  | ask (q : Query) (next : q.Answer → Script α)

namespace Script

variable {α β : Type}

protected def bind : Script α → (α → Script β) → Script β
  | done a, k => k a
  | pause next, k => pause (next.bind k)
  | ask q next, k => ask q fun a => (next a).bind k

instance : Monad Script where
  pure := done
  bind := Script.bind

end Script

/-- How the answer to a question is worked out. -/
def Query.body (b : Backend) : (q : Query) → Script q.Answer
  | constant owner name => .pause (.done (b.constant? owner name))
  | constants owner => .pause (.done (b.constants? owner))
  | info name => .pause (.done (b.info? name))
  | assignable target source =>
    if target = source ∨ target = objectClass then .done true
    else .ask (search target [source] []) .done
  | search _ [] _ => .done false
  | search target (x :: pending) visited =>
    if x ∈ visited then .ask (search target pending visited) .done
    else .ask (info x) fun
      | none => .ask (search target pending (x :: visited)) .done
      | some (c : ClassInfo) =>
        if target ∈ c.supertypes then .done true
        -- The supertype that was pushed last is the next one to be looked at.
        else .ask (search target (c.supertypes.reverse ++ pending) (x :: visited)) .done
  | common a b =>
    .ask (assignable a b) fun (ab : Bool) =>
    if ab then .done a
    else .ask (assignable b a) fun (ba : Bool) =>
    if ba then .done b
    else .ask (info a) fun (ca : Option ClassInfo) =>
    .ask (info b) fun (cb : Option ClassInfo) =>
    if ca.any (·.isInterface) || cb.any (·.isInterface) then .done objectClass
    else .ask (climb b a []) .done
  | climb b current visited =>
    .ask (info current) fun (c : Option ClassInfo) =>
    match c.bind (·.superclass) with
    | none => .done objectClass
    | some parent =>
      if parent ∈ visited then .done objectClass
      else .ask (assignable parent b) fun (found : Bool) =>
        if found then .done parent else .ask (climb b parent (parent :: visited)) .done

/-- Whether one of the classes that a search lists has `target` for a supertype. -/
def Registry.reaches (r : Registry) (target : String) (pending visited : List String) : Bool :=
  (r.preorderFrom .backwards pending visited).any fun x =>
    (r.info? x).any (target ∈ ·.supertypes)

/-- The nearest superclass of `current` that `b` is assignable to. -/
def Registry.climb (r : Registry) (b current : String) (visited : List String) : String :=
  ((r.preorderFrom .superclasses ((r.info? current).bind (·.superclass)).toList visited).find?
    (r.isAssignable · b)).getD objectClass

/-- What a registry itself says. -/
def Registry.answer (r : Registry) : (q : Query) → q.Answer
  | .constant owner name => r.constant? owner name
  | .constants owner => r.constants? owner
  | .info name => r.info? name
  | .assignable target source => r.isAssignable target source
  | .common a b => r.commonSuperclass a b
  | .search target pending visited => r.reaches target pending visited
  | .climb b current visited => r.climb b current visited

/-! ## Evaluation -/

namespace Script

/-- Asks for a constant in one class after the other. -/
def findConstant (name : String) : List String → Script (Option Constant)
  | [] => .done none
  | owner :: owners => .ask (.constant owner name) fun
    | some (c : Constant) => .done (some c)
    | none => findConstant name owners

/-- The value of an expression; every constant that evaluation looks at is asked for. -/
def evaluate (r : Registry) (e : Expr) : Script (Except EvalError Value) := do
  (e.consulted r).forM fun f => do
    if let some name := f.name then
      discard (findConstant name (r.fieldOwners f.owner))
  return e.evaluate r

end Script

/-! ## Memory -/

structure ConstantMemo where
  single : Table (String × String) (Option Constant)
  all : Table String (Option (List (String × Constant)))

/-- The number of remembered answers for single constants. -/
def ConstantMemo.size (m : ConstantMemo) : Nat := m.single.size

structure HierarchyMemo where
  infos : Table String (Option ClassInfo)
  assignable : Table (String × String) Bool

structure Memo where
  constants : ConstantMemo
  hierarchy : HierarchyMemo

namespace Memo

def empty : Memo := ⟨⟨∅, ∅⟩, ⟨∅, ∅⟩⟩

/-- The remembered answer to a question. -/
def get? (m : Memo) : (q : Query) → Option q.Answer
  | .constant owner name => m.constants.single.get? (owner, name)
  | .constants owner => m.constants.all.get? owner
  | .info name => m.hierarchy.infos.get? name
  | .assignable target source => m.hierarchy.assignable.get? (target, source)
  | .common .. | .search .. | .climb .. => none

/-- Remembers an answer, unless there is one. -/
def insert (m : Memo) : (q : Query) → q.Answer → Memo
  | .constant owner name, a =>
    { m with constants.single := m.constants.single.setIfAbsent (owner, name) a }
  | .constants owner, a => { m with constants.all := m.constants.all.setIfAbsent owner a }
  | .info name, a => { m with hierarchy.infos := m.hierarchy.infos.setIfAbsent name a }
  | .assignable target source, a =>
    { m with hierarchy.assignable := m.hierarchy.assignable.setIfAbsent (target, source) a }
  | .common .., _ | .search .., _ | .climb .., _ => m

end Memo

end ConstRestore
