/-
  Activations of methods.

  The machine of `Machine.lean` has words and nothing else.  Here the operand
  stack and the local variables also hold null and objects, and instructions
  that use an object may raise an exception: an `Activation` is at an
  instruction of a method, and takes one after the other (`Method.step?`).
  Instructions that branch are left out.

  * `Method.Runs` and `Method.Raises`: what an activation comes to;
  * `Method.handlersAt`: the handlers around an instruction, which an exception
    that is raised there goes to, with the local variables as they are;
  * `converts_convert`: a conversion leaves a value of the kind of its target.
-/
import ConstRestore.Code.NullCheck
import ConstRestore.Proofs.Machine
import ConstRestore.Proofs.Result

namespace ConstRestore

variable {Object : Type}

/-! ## Entries -/

/-- An entry of the operand stack, or a local variable. -/
inductive Entry (Object : Type) where
  | word (w : Word)
  | null
  | object (o : Object)

def Word.stackKind : Word → StackKind
  | int _ => .int
  | long _ => .long
  | float _ => .float
  | double _ => .double
  | string _ | class_ _ => .reference

def Entry.kind : Entry Object → StackKind
  | word w => w.stackKind
  | null | object _ => .reference

/-- What is outside of an activation.  A field of the type of a constant holds a value of it. -/
structure Heap (Object : Type) where
  field : Entry Object → FieldSite → Entry Object
  className : Entry Object → String
  kind_field : ∀ e site t, DataType.ofDescriptor? site.descriptor = some t →
    (field e site).kind = t.stackKind

/-- The initial value of a field. -/
def StackKind.initial : StackKind → Entry Object
  | int => .word (.int 0)
  | long => .word (.long 0)
  | float => .word (.float (.ofInt _ 0))
  | double => .word (.double (.ofInt _ 0))
  | reference => .null

/-- Every field has its initial value. -/
instance : Inhabited (Heap Object) where
  default := {
    field := fun _ site => (DataType.ofDescriptor? site.descriptor).elim .null (·.stackKind.initial)
    className := fun _ => "java/lang/Object"
    kind_field := by
      intro _ site t ht
      rw [ht]
      cases t <;> rfl }

/-- The words on top of a stack. -/
def wordsOnTop : List (Entry Object) → List Word
  | .word w :: st => w :: wordsOnTop st
  | _ => []

/-- What is below the words on top of a stack. -/
def belowWords : List (Entry Object) → List (Entry Object)
  | .word _ :: st => belowWords st
  | st => st

theorem wordsOnTop_append_belowWords (st : List (Entry Object)) :
    (wordsOnTop st).map .word ++ belowWords st = st := by
  induction st with
  | nil => rfl
  | cons e st ih =>
    cases e with
    | word w => exact congrArg (.word w :: ·) ih
    | null | object => rfl

/-! ## Steps -/

def nullPointerException : String := "java/lang/NullPointerException"

/-- What comes of an instruction. -/
inductive Outcome (α : Type) where
  | next (a : α)
  | raise (exception : String)

/-- What a call that checks for null leaves of an object. -/
def Heap.checked (heap : Heap Object) (op : Opcode) (e : Entry Object) : Entry Object :=
  if op = .invokestatic then e else .word (.class_ (heap.className e))

/-- The effect of an instruction on a stack.  Where it uses an object, null raises an exception; other
    instructions run on the words on top. -/
def Instr.effect? (r : Registry) (heap : Heap Object) (i : Instr) (st : List (Entry Object)) :
    Option (Outcome (List (Entry Object))) :=
  match i, st with
  | .simple .pop, e :: st =>
    if e.kind = .long ∨ e.kind = .double then none else some (.next st)
  | .method _ _, .null :: _ => if i.isNullCheck then some (.raise nullPointerException) else none
  | .method op _, e :: st =>
    if i.isNullCheck ∧ e.kind = .reference then some (.next (heap.checked op e :: st)) else none
  | .field .getfield _, .null :: _ => some (.raise nullPointerException)
  | .field .getfield site, e :: st =>
    if e.kind = .reference then some (.next (heap.field e site :: st)) else none
  | i, st => (i.exec? r (wordsOnTop st)).map fun words => .next (words.map .word ++ belowWords st)

/-- A method that is executed. -/
structure Activation (Object : Type) where
  /-- The index of the next instruction. -/
  pc : Nat
  locals : List (Entry Object)
  stack : List (Entry Object)

/-- Loads and stores of local variables; a value of two slots is kept in the first one. -/
def Activation.access? (f : Activation Object) : Instr → Option (Activation Object)
  | .var (.load _) slot => f.locals[slot]?.map fun e => { f with pc := f.pc + 1, stack := e :: f.stack }
  | .var (.store _) slot =>
    match f.stack with
    | e :: st => some ⟨f.pc + 1, f.locals.set slot e, st⟩
    | [] => none
  | _ => none

namespace Method

/-- The next step of an activation, unless its instruction is left out here. -/
def step? (m : Method) (r : Registry) (heap : Heap Object) (f : Activation Object) :
    Option (Outcome (Activation Object)) :=
  m.code[f.pc]?.bind fun i =>
    match i.effect? r heap f.stack with
    | some (.next st) => some (.next { f with pc := f.pc + 1, stack := st })
    | some (.raise exception) => some (.raise exception)
    | none => (f.access? i).map .next

/-- An activation gets to another one. -/
def Runs (m : Method) (r : Registry) (heap : Heap Object) :
    Activation Object → Activation Object → Prop :=
  Relation.ReflTransGen fun f g => m.step? r heap f = some (.next g)

/-- An activation gets to an instruction that raises an exception. -/
def Raises (m : Method) (r : Registry) (heap : Heap Object) (f : Activation Object)
    (exception : String) (g : Activation Object) : Prop :=
  m.Runs r heap f g ∧ m.step? r heap g = some (.raise exception)

/-- Whether a handler is for the instruction at an index. -/
def protects (m : Method) (b : TryBlock) (index : Nat) : Bool :=
  (m.labelPositions.get? b.start).any (· ≤ index) && (m.labelPositions.get? b.stop).any (index < ·)

/-- The handlers for what an instruction raises, in the order in which they are tried. -/
def handlersAt (m : Method) (index : Nat) : List TryBlock := m.tryBlocks.filter (m.protects · index)

variable {m : Method} {r : Registry} {heap : Heap Object} {pc : Nat} {locals : List (Entry Object)}
  {st st' : List (Entry Object)} {i : Instr}

theorem runs_of_effect? (hi : m.code[pc]? = some i) (h : i.effect? r heap st = some (.next st')) :
    m.Runs r heap ⟨pc, locals, st⟩ ⟨pc + 1, locals, st'⟩ := by
  refine .single ?_
  rw [step?, hi, Option.bind_some, h]

theorem raises_of_effect? {exception : String} (hi : m.code[pc]? = some i)
    (h : i.effect? r heap st = some (.raise exception)) :
    m.Raises r heap ⟨pc, locals, st⟩ exception ⟨pc, locals, st⟩ := by
  refine ⟨.refl, ?_⟩
  rw [step?, hi, Option.bind_some, h]

end Method

/-! ## Null checks -/

namespace Instr

variable {r : Registry} {heap : Heap Object} {e : Entry Object} {st : List (Entry Object)} {i : Instr}

theorem effect?_isLine (h : i.isLine) : i.effect? r heap st = some (.next st) := by
  cases i with
  | line number start =>
    have hst := wordsOnTop_append_belowWords st
    cases st <;> simpa [effect?, exec?] using hst
  | _ => cases h

theorem effect?_pop (he : e.kind = .reference) :
    (simple .pop).effect? r heap (e :: st) = some (.next st) := by
  simp [effect?, he]

theorem effect?_nullCheck_null (h : i.isNullCheck) :
    i.effect? r heap (.null :: st) = some (.raise nullPointerException) := by
  cases i with
  | method op site => exact if_pos h
  | _ => cases h

/-- A null check leaves a reference in place of an object. -/
theorem effect?_nullCheck (h : i.isNullCheck) (he : e.kind = .reference) (hnull : e ≠ .null) :
    ∃ e', e'.kind = .reference ∧ i.effect? r heap (e :: st) = some (.next (e' :: st)) := by
  cases i with
  | method op site =>
    refine ⟨heap.checked op e, ?_, ?_⟩
    · unfold Heap.checked
      split_ifs
      · exact he
      · rfl
    · cases e with
      | null => exact absurd rfl hnull
      | word | object => exact if_pos ⟨h, he⟩
  | _ => cases h

theorem effect?_getfield_null (site : FieldSite) :
    (field .getfield site).effect? r heap (.null :: st) = some (.raise nullPointerException) := rfl

theorem effect?_getfield {site : FieldSite} (he : e.kind = .reference) (hnull : e ≠ .null) :
    (field .getfield site).effect? r heap (e :: st) = some (.next (heap.field e site :: st)) := by
  cases e with
  | null => exact absurd rfl hnull
  | word w => exact if_pos he
  | object o => rfl

/-- What runs on words runs on those on top. -/
theorem effect?_of_exec? {words : List Word} (h : i.exec? r (wordsOnTop st) = some words) :
    i.effect? r heap st = some (.next (words.map .word ++ belowWords st)) := by
  unfold effect?
  split
  case h_6 => rw [h, Option.map_some]
  all_goals simp [exec?, Opcode.exec?] at h

theorem exists_word_of_loadableValue? {c : Loadable} {v : Value} (h : loadableValue? c = some v) :
    ∃ w : Word, w.stackKind = v.dataType.stackKind ∧
      ∀ words, (ldc c).exec? r words = some (w :: words) := by
  cases c <;> cases h <;> exact ⟨_, rfl, fun _ => rfl⟩

/-- A literal pushes an entry of its kind. -/
theorem effect?_literal {v : Value} (h : i.literal? = some v) (r : Registry) (heap : Heap Object) :
    ∃ e : Entry Object, e.kind = v.dataType.stackKind ∧
      ∀ st, i.effect? r heap st = some (.next (e :: st)) := by
  obtain ⟨w, hw, hexec⟩ : ∃ w : Word, w.stackKind = v.dataType.stackKind ∧
      ∀ words, i.exec? r words = some (w :: words) := by
    unfold literal? at h
    split at h
    case h_7 => exact exists_word_of_loadableValue? h
    case h_8 => cases h
    all_goals
      obtain rfl := Option.some.inj h
      exact ⟨_, rfl, fun _ => rfl⟩
  refine ⟨.word w, hw, fun st => ?_⟩
  rw [effect?_of_exec? (hexec _), List.map_cons, List.cons_append, wordsOnTop_append_belowWords]

end Instr

/-! ## Sequences -/

/-- The stack after a sequence that raises nothing. -/
def runStack? (r : Registry) (heap : Heap Object) (code : List Instr) (st : List (Entry Object)) :
    Option (List (Entry Object)) :=
  code.foldlM (fun st i =>
    match i.effect? r heap st with
    | some (.next st) => some st
    | _ => none) st

section

variable {r : Registry} {heap : Heap Object} {code code' : List Instr} {i : Instr}
  {st st' : List (Entry Object)}

theorem runStack?_cons (h : i.effect? r heap st = some (.next st')) :
    runStack? r heap (i :: code) st = runStack? r heap code st' := by
  simp only [runStack?, List.foldlM_cons, h]
  rfl

theorem runStack?_append :
    runStack? r heap (code ++ code') st = (runStack? r heap code st).bind (runStack? r heap code') := by
  simp only [runStack?, List.foldlM_append]
  rfl

theorem runStack?_cons_eq_some (h : runStack? r heap (i :: code) st = some st') :
    ∃ st₁, i.effect? r heap st = some (.next st₁) ∧ runStack? r heap code st₁ = some st' := by
  simp only [runStack?, List.foldlM_cons] at h
  split at h
  case h_1 st₁ heffect => exact ⟨st₁, heffect, h⟩
  case h_2 => cases h

/-- Line numbers have no effect. -/
theorem runStack?_lines (h : ∀ i ∈ code, i.isLine) (st : List (Entry Object)) :
    runStack? r heap code st = some st := by
  induction code with
  | nil => rfl
  | cons i code ih =>
    obtain ⟨hi, hcode⟩ := List.forall_mem_cons.1 h
    rw [runStack?_cons (Instr.effect?_isLine hi), ih hcode]

/-- An activation runs through the code in front of it. -/
theorem Method.runs_of_runStack? {m : Method} {pc : Nat} (hcode : code <+: m.code.drop pc)
    (h : runStack? r heap code st = some st') (locals : List (Entry Object)) :
    m.Runs r heap ⟨pc, locals, st⟩ ⟨pc + code.length, locals, st'⟩ := by
  induction code generalizing pc st with
  | nil =>
    obtain rfl := Option.some.inj h
    exact .refl
  | cons i code ih =>
    obtain ⟨st₁, heffect, h⟩ := runStack?_cons_eq_some h
    obtain ⟨rest, hrest⟩ := hcode
    have hi : m.code[pc]? = some i := by
      rw [← Nat.add_zero pc, ← List.getElem?_drop, ← hrest]
      rfl
    have hdrop : code <+: m.code.drop (pc + 1) := by
      rw [← List.drop_drop, ← hrest]
      exact List.prefix_append code rest
    have hrun := ih hdrop h
    rw [Nat.add_assoc, Nat.add_comm 1] at hrun
    exact (Method.runs_of_effect? hi heffect).trans hrun

theorem Method.runs_lines {m : Method} {first last : Nat} (hle : first ≤ last)
    (hlines : ∀ j, first ≤ j → j < last → ∃ i, m.code[j]? = some i ∧ i.isLine)
    (locals st : List (Entry Object)) : m.Runs r heap ⟨first, locals, st⟩ ⟨last, locals, st⟩ := by
  induction last, hle using Nat.le_induction with
  | base => exact .refl
  | succ last hle ih =>
    obtain ⟨i, hi, hline⟩ := hlines last hle (Nat.lt_succ_self last)
    have hbefore := ih fun j hj hlt => hlines j hj (hlt.trans (Nat.lt_succ_self last))
    exact hbefore.trans (Method.runs_of_effect? hi (Instr.effect?_isLine hline))

end

/-! ## Conversions -/

theorem StackKind.numKind?_inj {a b : StackKind} {k : NumKind} (ha : a.numKind? = some k)
    (hb : b.numKind? = some k) : a = b := by
  cases a <;> cases ha <;> cases b <;> cases hb <;> rfl

theorem DataType.exists_numKind {t : DataType} (h : t.isPrimitive) :
    ∃ k, t.stackKind.numKind? = some k := by
  cases t <;> first | exact ⟨_, rfl⟩ | cases h

/-- What is no reference is a word. -/
theorem Entry.word_of_numKind {e : Entry Object} {k : NumKind} (h : e.kind.numKind? = some k) :
    ∃ w, e = .word w ∧ w.stackKind.numKind? = some k := by
  cases e with
  | word w => exact ⟨w, rfl, h⟩
  | null | object => cases h

theorem NumKind.exists_convert? {w : Word} {a b : NumKind} (h : w.stackKind.numKind? = some a)
    (hab : a ≠ b) : ∃ w', b.convert? w = some w' ∧ w'.stackKind.numKind? = some b := by
  cases w <;> cases h <;> cases b <;> first | exact ⟨_, rfl, rfl⟩ | exact absurd rfl hab

/-- The code leaves an entry of a kind in place of another one. -/
def Converts (r : Registry) (heap : Heap Object) (code : List Instr) (e : Entry Object)
    (kind : StackKind) : Prop :=
  ∃ e' : Entry Object, e'.kind = kind ∧ ∀ st, runStack? r heap code (e :: st) = some (e' :: st)

section

variable {r : Registry} {heap : Heap Object} {e : Entry Object} {s t : DataType}
  {code code' : List Instr} {kind kind' : StackKind}

theorem converts_nil (h : e.kind = kind) : Converts r heap [] e kind := ⟨e, h, fun _ => rfl⟩

theorem Converts.append (h : Converts r heap code e kind)
    (h' : ∀ e' : Entry Object, e'.kind = kind → Converts r heap code' e' kind') :
    Converts r heap (code ++ code') e kind' := by
  obtain ⟨e₁, hkind₁, h⟩ := h
  obtain ⟨e₂, hkind₂, h'⟩ := h' e₁ hkind₁
  refine ⟨e₂, hkind₂, fun st => ?_⟩
  rw [runStack?_append, h, Option.bind_some, h']

/-- An operator on one word. -/
theorem converts_simple {op : Opcode} {w w' : Word}
    (h : ∀ words, op.exec? (w :: words) = some (w' :: words)) :
    Converts r heap [.simple op] (.word w) w'.stackKind := by
  refine ⟨.word w', rfl, fun st => ?_⟩
  have hexec : (Instr.simple op).exec? r (wordsOnTop (.word w :: st)) = some (w' :: wordsOnTop st) :=
    h (wordsOnTop st)
  have heffect : (Instr.simple op).effect? r heap (.word w :: st) = _ :=
    Instr.effect?_of_exec? hexec
  have hbelow : belowWords (.word w :: st) = belowWords st := rfl
  rw [hbelow, List.map_cons, List.cons_append, wordsOnTop_append_belowWords] at heffect
  exact runStack?_cons heffect

theorem converts_kindConversion (hs : s.isPrimitive) (ht : t.isPrimitive)
    (he : e.kind = s.stackKind) : Converts r heap (kindConversion s t) e t.stackKind := by
  obtain ⟨a, ha⟩ := DataType.exists_numKind hs
  obtain ⟨b, hb⟩ := DataType.exists_numKind ht
  simp only [kindConversion, ha, hb]
  split_ifs with hab
  · subst hab
    exact converts_nil (he.trans (StackKind.numKind?_inj ha hb))
  · rw [← he] at ha
    obtain ⟨w, rfl, hw⟩ := Entry.word_of_numKind ha
    obtain ⟨w', hconvert, hw'⟩ := NumKind.exists_convert? hw hab
    rw [← StackKind.numKind?_inj hw' hb]
    refine converts_simple fun words => ?_
    have hkind : w.kind? = some a := by cases w <;> exact hw
    simp only [Opcode.exec?, hkind, hconvert]
    rfl

theorem converts_narrowing (he : e.kind = t.stackKind) :
    Converts r heap (narrowing s t) e t.stackKind := by
  have hnarrow (n : Narrow) (hint : e.kind = .int) :
      Converts r heap [.simple (.narrow n)] e .int := by
    obtain ⟨w, rfl, hw⟩ := Entry.word_of_numKind (e := e) (k := .int) (by rw [hint]; rfl)
    cases w with
    | int v =>
      have hexec (words : List Word) :
          (Opcode.narrow n).exec? (.int v :: words) = some (.int (n.apply v) :: words) := rfl
      exact converts_simple hexec
    | _ => cases hw
  unfold narrowing
  split_ifs
  · exact converts_nil he
  · cases t with
    | byte | short | char => exact hnarrow _ he
    | _ => exact converts_nil he

/-- **A conversion leaves an entry of the kind of its target.** -/
theorem converts_convert (h : convert s t = .ok code) (he : e.kind = s.stackKind) :
    Converts r heap code e t.stackKind := by
  unfold convert at h
  split_ifs at h with heq hprimitive
  · obtain rfl := Except.ok.inj h
    exact converts_nil (heq ▸ he)
  · obtain rfl := Except.ok.inj h
    simp only [Bool.or_eq_true, Bool.not_eq_true', not_or, Bool.not_eq_false] at hprimitive
    exact (converts_kindConversion hprimitive.1 hprimitive.2 he).append fun e' he' =>
      converts_narrowing he'

theorem converts_convertValue {value : Option Value} (h : convertValue s t value = .ok code)
    (he : e.kind = s.stackKind) : Converts r heap code e t.stackKind := by
  unfold convertValue at h
  split_ifs at h with hint
  · obtain rfl := Except.ok.inj h
    exact converts_nil (he.trans (hint.1.trans hint.2.1.symm))
  · exact converts_convert h he

end

end ConstRestore
