/-
  Restoration of methods and classes.

  `Subject.restore` analyses a method, gives every literal its verdict and
  makes all replacements in one pass; `restoreClass` and `restoreClasses` do so
  for every method.  A method that cannot be analysed stays as it is.
-/
import ConstRestore.Restore.Verdict
import ConstRestore.Bytecode.Edits

namespace ConstRestore

/-! ## Methods -/

/-- The state of a pass over the literals of a method. -/
structure Pass where
  edits : Edits
  reported : Reported
  stats : Stats
  log : List LogLine

def Pass.start : Pass := ⟨.empty, ∅, .zero, []⟩

/-- The edits that a substitution for the literal at `index` consists of. -/
def Substitution.replacements (s : Substitution) (index : Nat) : List (Nat × List Instr) :=
  (s.nullCheck.toList.flatMap fun (check, pop) => [(check, []), (pop, [])]) ++ [(index, s.code)]

/-- The edits that a verdict on the literal at `index` asks for. -/
def Verdict.replacements (index : Nat) : Verdict → List (Nat × List Instr)
  | replaced _ s => s.replacements index
  | _ => []

namespace Subject

/-- Takes up the instruction at `index`. -/
def visit (s : Subject) (a : Solution) (p : Pass) (index : Nat) (i : Instr) :
    Except EditedTwice Pass :=
  match s.literalAt? a index i with
  | none => .ok p
  | some (value, root, facts) => do
    let v := s.verdict a index value facts
    let (reported, warning) := p.reported.note s.signature root (s.groupChoice facts)
    let edits ← p.edits.replaceAll (v.replacements index)
    .ok ⟨edits, reported, p.stats + v.stats, p.log ++ warning ++ v.report s.signature index value⟩

/-- Decides about all literals of the method. -/
def plan (s : Subject) (a : Solution) : Except EditedTwice Pass :=
  s.method.code.zipIdx.foldlM (fun p (i, index) => s.visit a p index i) .start

/-- What a pass that edits something is reported as. -/
def summary (s : Subject) (p : Pass) : List LogLine :=
  if p.edits.size = 0 then []
  else [⟨.debug, s.signature ++ ": " ++ toString p.stats.replaced ++ " literals replaced, " ++
    toString p.stats.skipped ++ " skipped, " ++ toString p.stats.conflicts ++ " conflicts"⟩]

end Subject

/-- The outcome of a restoration. -/
structure Restored (α : Type) where
  result : α
  stats : Stats
  log : List LogLine

/-- The method with its literals replaced. -/
def Subject.restore (s : Subject) : Except EditedTwice (Restored Method) :=
  let m := s.method
  if m.hasCode then
    match solve s.registry s.config.stepLimit s.owner m with
    | .error e =>
      .ok ⟨m, { Stats.zero with failedMethods := 1 }, [⟨.warn, s.signature ++
        ": analysis failed, method left unchanged: " ++ e.message⟩]⟩
    | .ok a => do
      let p ← s.plan a
      .ok ⟨{ m with code := p.edits.apply m.code }, p.stats, a.log ++ p.log ++ s.summary p⟩
  else .ok ⟨m, .zero, []⟩

/-! ## Classes -/

/-- Outcomes of single items as one. -/
def Restored.collect {α : Type} (items : List (Restored α)) : Restored (List α) :=
  ⟨items.map (·.result), (items.map (·.stats)).foldl (· + ·) .zero, items.flatMap (·.log)⟩

/-- Restores one method of a class. -/
def restoreMethod (r : Registry) (s : Store) (config : Config) (c : ClassFile) (m : Method) :
    Except EditedTwice (Restored Method) :=
  Subject.restore ⟨r, s, config, c.name, c.majorVersion, m⟩

def restoreClass (r : Registry) (s : Store) (config : Config) (c : ClassFile) :
    Except EditedTwice (Restored ClassFile) := do
  let methods := Restored.collect (← c.methods.mapM (restoreMethod r s config c))
  .ok ⟨{ c with methods := methods.result }, methods.stats, methods.log⟩

def restoreClasses (r : Registry) (s : Store) (config : Config) (cs : List ClassFile) :
    Except EditedTwice (Restored (List ClassFile)) := do
  .ok (Restored.collect (← cs.mapM (restoreClass r s config)))

end ConstRestore
