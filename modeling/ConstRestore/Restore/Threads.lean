/-
  Restoration of many classes at once.

  Every class is restored by a `Thread` of its own.  Threads share one memo of
  the bindings of methods.  A question takes up to three steps: the memo is
  read; if it has no answer, one is worked out with nothing locked; then it is
  remembered, unless another thread was faster, whose answer is taken in that
  case.  A schedule names the thread that takes each step, so it stands
  for an order of the classes as well as for an interleaving of their lookups.

  Statistics are added up along a tree of any shape (`Reduces`).
-/
import ConstRestore.Restore.Asking
import ConstRestore.Registry.Memo

namespace ConstRestore

/-- Remembered answers to questions for the binding of a method, misses among them. -/
abbrev Answers := Table Member (Option MethodBinding)

/-! ## Threads -/

/-- A computation on its way through its questions. -/
inductive Thread (α : Type) where
  | running (p : Asking α)
  /-- The memo had no answer when it was read. -/
  | missed (m : Member) (next : Option MethodBinding → Asking α)
  /-- An answer was worked out. -/
  | found (m : Member) (answer : Option MethodBinding) (next : Option MethodBinding → Asking α)

namespace Thread

variable {α : Type}

/-- The next step of a thread, if it has any. -/
def step (compute : Member → Option MethodBinding) (memo : Answers) :
    Thread α → Answers × Thread α
  | running (.done a) => (memo, running (.done a))
  | running (.ask m next) =>
    match memo.get? m with
    | some answer => (memo, running (next answer))
    | none => (memo, missed m next)
  | missed m next => (memo, found m (compute m) next)
  | found m answer next =>
    let memo := memo.setIfAbsent m answer
    (memo, running (next ((memo.get? m).getD answer)))

/-- The outcome of a thread that is done. -/
def outcome? : Thread α → Option α
  | running (.done a) => some a
  | _ => none

end Thread

/-! ## Systems -/

/-- Threads that share a memo. -/
structure System (α : Type) where
  memo : Answers
  threads : List (Thread α)

namespace System

variable {α : Type}

def start (memo : Answers) (programs : List (Asking α)) : System α :=
  ⟨memo, programs.map .running⟩

/-- A step of the thread at an index. -/
def step (compute : Member → Option MethodBinding) (y : System α) (i : Nat) : System α :=
  match y.threads[i]? with
  | some t =>
    let (memo, t) := t.step compute y.memo
    ⟨memo, y.threads.set i t⟩
  | none => y

def run (compute : Member → Option MethodBinding) (y : System α) (schedule : List Nat) :
    System α :=
  schedule.foldl (step compute) y

/-- The outcome of the thread at an index, if it is done. -/
def outcome? (y : System α) (i : Nat) : Option α := y.threads[i]?.bind Thread.outcome?

end System

/-- The restoration of classes after the steps of a schedule.  Of a store, only
    the answers that it remembers are written to. -/
def restoreScheduled (r : Registry) (s : Store) (config : Config) (cs : List ClassFile)
    (schedule : List Nat) : System (Except EditedTwice (Restored ClassFile)) :=
  (System.start s.bindings.inherited
    (cs.map fun c => (restoreClassAsking r s.forget config c).run)).run
      (s.bindings.declaredFor? r) schedule

/-! ## Statistics -/

/-- A total of statistics that are added up in pairs, keeping their order; an
    empty part of the list counts as nothing. -/
inductive Stats.Reduces : List Stats → Stats → Prop where
  | none : Reduces [] .zero
  | single (s : Stats) : Reduces [s] s
  | pair {l l' : List Stats} {s s' : Stats} : Reduces l s → Reduces l' s' →
      Reduces (l ++ l') (s + s')

end ConstRestore
