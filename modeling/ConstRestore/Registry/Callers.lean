/-
  Callers that share remembered answers.

  A `Caller` runs a script and stops at each question.  The memory is read; if
  it has no answer, one is worked out with nothing locked, which may raise
  further questions to the memory; then it is remembered, unless another caller
  was faster, whose answer is taken in that case.  A schedule names the caller
  that takes each step.  What is answered is written down.
-/
import ConstRestore.Registry.Memo

namespace ConstRestore

/-- A script on its way through its questions. -/
inductive Caller : Type → Type 1 where
  | running {α : Type} (p : Script α) : Caller α
  /-- The memory had no answer when it was read; `inner` works one out. -/
  | computing {α : Type} (q : Query) (inner : Caller q.Answer) (next : q.Answer → Script α) : Caller α

namespace Caller

variable {α : Type}

/-- The outcome of a caller that is done. -/
def outcome? : Caller α → Option α
  | running (.done a) => some a
  | _ => none

/-- A step of a caller, if there is one left, and what it answers. -/
def step (b : Backend) (memo : Memo) {α : Type} : Caller α → Memo × Caller α × List Answered
  | running (.done a) => (memo, running (.done a), [])
  | running (.pause next) => (memo, running next, [])
  | running (.ask q next) =>
    match memo.get? q with
    | some a => (memo, running (next a), [⟨q, a⟩])
    | none => (memo, computing q (running (q.body b)) next, [])
  | computing q inner next =>
    match inner.outcome? with
    | some a =>
      let memo := memo.insert q a
      let a := (memo.get? q).getD a
      (memo, running (next a), [⟨q, a⟩])
    | none =>
      let (memo, inner, answered) := inner.step b memo
      (memo, computing q inner next, answered)

end Caller

structure Callers (α : Type) where
  memo : Memo
  callers : List (Caller α)
  /-- What was answered so far, in order. -/
  answered : List Answered

namespace Callers

variable {α : Type}

/-- Callers that share an empty memory. -/
def start (scripts : List (Script α)) : Callers α := ⟨.empty, scripts.map .running, []⟩

/-- A step of the caller at an index. -/
def step (b : Backend) (y : Callers α) (i : Nat) : Callers α :=
  match y.callers[i]? with
  | some t =>
    let (memo, t, answered) := t.step b y.memo
    ⟨memo, y.callers.set i t, y.answered ++ answered⟩
  | none => y

def run (b : Backend) (y : Callers α) (schedule : List Nat) : Callers α := schedule.foldl (step b) y

/-- The outcome of the caller at an index, if it is done. -/
def outcome? (y : Callers α) (i : Nat) : Option α := y.callers[i]?.bind Caller.outcome?

/-- The constants that were asked for so far, by owner and name. -/
def resolved (y : Callers α) : List (String × String) :=
  y.answered.filterMap fun
    | ⟨.constant owner name, _⟩ => some (owner, name)
    | _ => none

end Callers

end ConstRestore
