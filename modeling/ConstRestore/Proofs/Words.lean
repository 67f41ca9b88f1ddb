/-
  The stack shuffles as operations on words.

  `Frame.words` flattens a stack: every value is laid out as its words, two for
  a long or double, the bottom of the stack first.  A word knows its value, with
  type and sources, and which half of it it is, so the words determine the stack.

  * a number of words can be taken off exactly if they are whole values
    (`WholeTop`), and what is taken are the words on top
    (`Frame.popWords_of_wholeTop`, `Frame.popWords_of_not_wholeTop`);
  * `Shuffle` are the movements of words that the virtual machine knows, with
    what each needs (`Shuffle.Possible`) and where it puts every word
    (`Shuffle.moved`);
  * `Shuffle.run_words`: the operations on frames move words in that way, and
    refuse stacks that do not have the whole values that they need.
-/
import ConstRestore.Proofs.Result
import ConstRestore.Dataflow.Execute

namespace ConstRestore

/-! ## Words -/

/-- One word of an operand stack: a value and which of its words this is. -/
structure StackWord where
  value : Slot
  part : Nat
  deriving DecidableEq

/-- The words of a value, the lowest first. -/
def Slot.words (s : Slot) : List StackWord := (List.range s.size).map (⟨s, ·⟩)

/-- The words of values that lie on each other, the lowest first. -/
def wordsOf (values : List Slot) : List StackWord := values.flatMap Slot.words

/-- The words of an operand stack, the bottom first. -/
def Frame.words (f : Frame) : List StackWord := wordsOf f.stack.reverse

theorem Slot.size_pos (s : Slot) : 0 < s.size := by
  unfold Slot.size ValueType.size
  split <;> omega

@[simp] theorem Slot.length_words (s : Slot) : s.words.length = s.size := by
  simp [Slot.words]

theorem Slot.words_ne_nil (s : Slot) : s.words ≠ [] :=
  List.ne_nil_of_length_pos (s.length_words ▸ s.size_pos)

theorem Slot.value_of_mem_words {s : Slot} {w : StackWord} (h : w ∈ s.words) : w.value = s := by
  obtain ⟨part, -, rfl⟩ := List.mem_map.1 h
  rfl

@[simp] theorem wordsOf_nil : wordsOf [] = [] := rfl

@[simp] theorem wordsOf_append (xs ys : List Slot) :
    wordsOf (xs ++ ys) = wordsOf xs ++ wordsOf ys :=
  List.flatMap_append

@[simp] theorem wordsOf_reverse_cons (s : Slot) (stack : List Slot) :
    wordsOf (s :: stack).reverse = wordsOf stack.reverse ++ s.words := by
  simp [wordsOf]

theorem length_wordsOf_reverse_cons (s : Slot) (stack : List Slot) :
    (wordsOf (s :: stack).reverse).length = (wordsOf stack.reverse).length + s.size := by
  rw [wordsOf_reverse_cons, List.length_append, Slot.length_words]

/-- Values whose words lie on top of a stack are the values on top of it: the topmost word
    belongs to the same value on both sides. -/
theorem stack_eq_of_words {stack taken : List Slot} {below : List StackWord}
    (h : wordsOf stack.reverse = below ++ wordsOf taken.reverse) :
    ∃ rest, stack = taken ++ rest ∧ wordsOf rest.reverse = below := by
  induction taken generalizing stack with
  | nil => exact ⟨stack, rfl, by simpa using h⟩
  | cons t taken ih =>
    cases stack with
    | nil =>
      have hnil : t.words = [] := by
        have := h.symm
        simp only [List.reverse_nil, wordsOf_nil, wordsOf_reverse_cons, List.append_eq_nil_iff]
          at this
        exact this.2.2
      exact absurd hnil t.words_ne_nil
    | cons s stack =>
      rw [wordsOf_reverse_cons, wordsOf_reverse_cons, ← List.append_assoc] at h
      have htop : s.words.getLast? = t.words.getLast? := by
        have := congrArg List.getLast? h
        rwa [List.getLast?_append_of_ne_nil _ s.words_ne_nil,
          List.getLast?_append_of_ne_nil _ t.words_ne_nil] at this
      obtain rfl : s = t := by
        have hs := List.getLast?_eq_some_getLast s.words_ne_nil
        rw [← Slot.value_of_mem_words (List.mem_of_getLast? hs),
          Slot.value_of_mem_words (List.mem_of_getLast? (htop ▸ hs))]
      obtain ⟨rest, rfl, hrest⟩ := ih (List.append_cancel_right h)
      exact ⟨rest, rfl, hrest⟩

/-- The words determine the stack. -/
theorem Frame.stack_eq_of_words_eq {f g : Frame} (h : f.words = g.words) : f.stack = g.stack := by
  have hbelow : wordsOf f.stack.reverse = [] ++ wordsOf g.stack.reverse := h
  obtain ⟨rest, hstack, hrest⟩ := stack_eq_of_words hbelow
  cases rest with
  | nil => rw [hstack, List.append_nil]
  | cons s rest =>
    rw [wordsOf_reverse_cons, List.append_eq_nil_iff] at hrest
    exact absurd hrest.2 s.words_ne_nil

/-! ## Taking words off -/

/-- The topmost `n` words are there and are the words of whole values. -/
def WholeTop (n : Nat) (words : List StackWord) : Prop :=
  n ≤ words.length ∧ ∃ values, wordsOf values = words.rtake n

theorem wholeTop_iff {n : Nat} {stack : List Slot} :
    WholeTop n (wordsOf stack.reverse) ↔
      ∃ taken rest, stack = taken ++ rest ∧ (wordsOf taken.reverse).length = n := by
  constructor
  · rintro ⟨hlen, values, hvalues⟩
    have hcut : wordsOf stack.reverse =
        (wordsOf stack.reverse).rdrop n ++ wordsOf values.reverse.reverse := by
      rw [List.reverse_reverse, hvalues]
      exact (List.take_append_drop _ _).symm
    obtain ⟨rest, rfl, -⟩ := stack_eq_of_words hcut
    refine ⟨values.reverse, rest, rfl, ?_⟩
    rw [List.reverse_reverse, hvalues, List.rtake, List.length_drop]
    omega
  · rintro ⟨taken, rest, rfl, rfl⟩
    refine ⟨by simp, taken.reverse, ?_⟩
    simp [List.rtake]

namespace Frame

/-- What is wrong with a stack of these words from which `n` cannot be taken. -/
def takeError (n : Nat) (words : List StackWord) : FlowError :=
  if words.length < n then .stackUnderflow else .splitsWide

theorem takeWords_append (taken rest : List Slot) :
    takeWords (wordsOf taken.reverse).length (taken ++ rest) = .ok (taken, rest) := by
  induction taken with
  | nil => cases rest <;> simp [takeWords]
  | cons t taken ih =>
    obtain ⟨n, hn⟩ : ∃ n, (wordsOf taken.reverse).length + t.size = n + 1 :=
      Nat.exists_eq_add_one_of_ne_zero (by have := t.size_pos; omega)
    have hleft : n + 1 - t.size = (wordsOf taken.reverse).length := by omega
    rw [length_wordsOf_reverse_cons, hn, List.cons_append, takeWords, if_neg (by omega), hleft, ih]
    rfl

theorem takeWords_spec (n : Nat) (stack : List Slot) :
    (∃ taken rest, takeWords n stack = .ok (taken, rest) ∧ stack = taken ++ rest ∧
        (wordsOf taken.reverse).length = n) ∨
      takeWords n stack = .error (takeError n (wordsOf stack.reverse)) := by
  induction stack generalizing n with
  | nil =>
    cases n with
    | zero => exact .inl ⟨[], [], by simp [takeWords]⟩
    | succ n => exact .inr (by simp [takeWords, takeError])
  | cons s stack ih =>
    cases n with
    | zero => exact .inl ⟨[], s :: stack, by simp [takeWords]⟩
    | succ n =>
      have hlength := length_wordsOf_reverse_cons s stack
      simp only [takeWords]
      by_cases hsplit : n + 1 < s.size
      · right
        rw [if_pos hsplit, takeError, if_neg (by omega)]
      · rw [if_neg hsplit]
        obtain ⟨taken, rest, htake, rfl, hlen⟩ | herror := ih (n + 1 - s.size)
        · left
          refine ⟨s :: taken, rest, by rw [htake]; rfl, rfl, ?_⟩
          rw [length_wordsOf_reverse_cons]
          omega
        · right
          -- words are missing below `s` if they are missing from the whole stack
          have hmissing : (wordsOf (s :: stack).reverse).length < n + 1 ↔
              (wordsOf stack.reverse).length < n + 1 - s.size := by omega
          rw [herror, takeError, takeError, if_congr hmissing rfl rfl]
          rfl

variable {f : Frame} {n : Nat}

/-- Whole values on top are taken off, and the words below them stay. -/
theorem popWords_of_wholeTop (h : WholeTop n f.words) :
    ∃ taken rest, f.popWords n = .ok (taken, { f with stack := rest }) ∧
      wordsOf taken.reverse = f.words.rtake n ∧ wordsOf rest.reverse = f.words.rdrop n := by
  obtain ⟨taken, rest, hstack, rfl⟩ := wholeTop_iff.1 h
  refine ⟨taken, rest, ?_, ?_, ?_⟩
  · rw [popWords, hstack, takeWords_append]
    rfl
  · simp [words, hstack, List.rtake]
  · simp [words, hstack, List.rdrop]

theorem popWords_of_not_wholeTop (h : ¬ WholeTop n f.words) :
    f.popWords n = .error (takeError n f.words) := by
  obtain ⟨taken, rest, -, hstack, hlen⟩ | herror := takeWords_spec n f.stack
  · exact absurd (wholeTop_iff.2 ⟨taken, rest, hstack, hlen⟩) h
  · rw [popWords, herror]
    rfl

end Frame

/-! ## Movements of words -/

/-- The instructions that only move words of the operand stack. -/
inductive Shuffle where
  /-- Takes the top `n` words off. -/
  | drop (n : Nat)
  /-- Puts a copy of the top `copy` words under the `skip` words below them. -/
  | dup (copy skip : Nat)
  /-- Exchanges two one-word values. -/
  | swap

namespace Shuffle

/-- The whole values that a movement needs. -/
def Possible : Shuffle → List StackWord → Prop
  | drop n, ws => WholeTop n ws
  | dup copy skip, ws => WholeTop copy ws ∧ WholeTop skip (ws.rdrop copy)
  | swap, ws => WholeTop 1 ws ∧ WholeTop 1 (ws.rdrop 1)

/-- Where the words are afterwards. -/
def moved : Shuffle → List StackWord → List StackWord
  | drop n, ws => ws.rdrop n
  | dup copy skip, ws =>
    (ws.rdrop copy).rdrop skip ++ ws.rtake copy ++ (ws.rdrop copy).rtake skip ++ ws.rtake copy
  | swap, ws => (ws.rdrop 1).rdrop 1 ++ ws.rtake 1 ++ (ws.rdrop 1).rtake 1

/-- The operation on frames. -/
def run (f : Frame) : Shuffle → Except FlowError Frame
  | drop n => (f.popWords n).map (·.2)
  | dup copy skip => f.dupWords copy skip
  | swap => f.swap

end Shuffle

/-- The movement of words that an instruction is. -/
def Opcode.shuffle? : Opcode → Option Shuffle
  | .pop => some (.drop 1)
  | .pop2 => some (.drop 2)
  | .dup => some (.dup 1 0)
  | .dupX1 => some (.dup 1 1)
  | .dupX2 => some (.dup 1 2)
  | .dup2 => some (.dup 2 0)
  | .dup2X1 => some (.dup 2 1)
  | .dup2X2 => some (.dup 2 2)
  | .swap => some .swap
  | _ => none

/-- A stack has too few words, or the words asked for are not whole values. -/
def FlowError.IsStackFault (e : FlowError) : Prop :=
  (e = .stackUnderflow ∨ e = .splitsWide) ∧ ∃ text, e.message = "Malformed - " ++ text

theorem Frame.isStackFault_takeError (n : Nat) (words : List StackWord) :
    (takeError n words).IsStackFault := by
  unfold takeError
  split
  · exact ⟨.inl rfl, "Operand stack underflow", rfl⟩
  · exact ⟨.inr rfl, "Stack operation splits a two-word value", rfl⟩

/-- A result of a movement from the frame `f`: the words that lie on the stack afterwards if it
    is possible, with the same locals, and a fault of the stack if it is not. -/
structure Frame.Shuffles (f : Frame) (possible : Prop) (words : List StackWord)
    (result : Except FlowError Frame) : Prop where
  moves : possible → ∃ g, result = .ok g ∧ g.words = words ∧ g.locals = f.locals
  refuses : ¬ possible → ∃ e, result = .error e ∧ e.IsStackFault

namespace Frame

variable (f : Frame)

theorem shuffles_drop (n : Nat) :
    f.Shuffles (WholeTop n f.words) (f.words.rdrop n) ((f.popWords n).map (·.2)) where
  moves h := by
    obtain ⟨taken, rest, hpop, -, hrest⟩ := popWords_of_wholeTop h
    exact ⟨{ f with stack := rest }, by rw [hpop]; rfl, hrest, rfl⟩
  refuses h := ⟨_, by rw [popWords_of_not_wholeTop h]; rfl, isStackFault_takeError _ _⟩

/-- Two stretches of words are taken off one after the other, and what is put back is made of
    them and the rest. -/
theorem shuffles_popTwice (n m : Nat) (put : List Slot → List Slot → List Slot → List Slot)
    (moved : List StackWord → List StackWord → List StackWord → List StackWord)
    (hput : ∀ rest upper lower, wordsOf (put rest upper lower).reverse =
      moved (wordsOf rest.reverse) (wordsOf upper.reverse) (wordsOf lower.reverse)) :
    f.Shuffles (WholeTop n f.words ∧ WholeTop m (f.words.rdrop n))
      (moved ((f.words.rdrop n).rdrop m) (f.words.rtake n) ((f.words.rdrop n).rtake m))
      (f.popWords n >>= fun (upper, g) => g.popWords m >>= fun (lower, g) =>
        .ok { g with stack := put g.stack upper lower }) := by
  by_cases hn : WholeTop n f.words
  · obtain ⟨upper, rest, hpop, hupper, hrest⟩ := popWords_of_wholeTop hn
    let g : Frame := { f with stack := rest }
    have hwords : g.words = f.words.rdrop n := hrest
    rw [hpop, ← hwords, ← hupper]
    by_cases hm : WholeTop m g.words
    · obtain ⟨lower, rest', hpop', hlower, hrest'⟩ := popWords_of_wholeTop hm
      refine ⟨fun _ => ⟨⟨f.locals, put rest' upper lower⟩, ?_, ?_, rfl⟩,
        fun h => absurd ⟨hn, hm⟩ h⟩
      · exact bind_eq_ok.2 ⟨_, rfl, bind_eq_ok.2 ⟨_, hpop', rfl⟩⟩
      · rw [← hlower, ← hrest', ← hput, words]
    · refine ⟨fun h => absurd h.2 hm, fun _ => ⟨_, ?_, isStackFault_takeError m g.words⟩⟩
      exact bind_eq_error.2 (.inr ⟨_, rfl, bind_eq_error.2 (.inl (popWords_of_not_wholeTop hm))⟩)
  · refine ⟨fun h => absurd h.1 hn, fun _ => ⟨_, ?_, isStackFault_takeError n f.words⟩⟩
    exact bind_eq_error.2 (.inl (popWords_of_not_wholeTop hn))

end Frame

/-- The operations on frames move words as `Shuffle.moved` says. -/
theorem Shuffle.run_words (f : Frame) (sh : Shuffle) :
    f.Shuffles (sh.Possible f.words) (sh.moved f.words) (sh.run f) := by
  cases sh with
  | drop n => exact f.shuffles_drop n
  | dup copy skip =>
    exact f.shuffles_popTwice copy skip
      (fun rest copied skipped => copied ++ skipped ++ copied ++ rest)
      (fun rest copied skipped => rest ++ copied ++ skipped ++ copied)
      fun rest copied skipped => by simp
  | swap =>
    exact f.shuffles_popTwice 1 1 (fun rest upper lower => lower ++ upper ++ rest)
      (fun rest upper lower => rest ++ upper ++ lower) fun rest upper lower => by simp

/-- An instruction that moves words does that and nothing else, and learns nothing. -/
theorem execute_of_shuffle {op : Opcode} {sh : Shuffle} (h : op.shuffle? = some sh)
    (ret? : Option DataType) (index : Nat) (f : Frame) :
    (Instr.simple op).execute ret? index f = (sh.run f).map (·, []) := by
  unfold Opcode.shuffle? at h
  split at h <;> cases h <;> rfl

/-- Stack shuffles are operations on words, for any frame `f`: its words determine its stack;
    `popWords`, `dupWords` and `swap` succeed exactly if the words that they take off are whole
    values, and every word, with the type and the sources of its value, is afterwards where
    `Shuffle.moved` says; and so do the instructions that are made of them. -/
theorem shuffles_move_words (f : Frame) :
    (∀ g : Frame, g.words = f.words → g.stack = f.stack) ∧
    (∀ n, (WholeTop n f.words → ∃ taken g, f.popWords n = .ok (taken, g) ∧
        wordsOf taken.reverse = f.words.rtake n ∧ g.words = f.words.rdrop n ∧
        g.locals = f.locals) ∧
      (¬ WholeTop n f.words → ∃ e, f.popWords n = .error e ∧ e.IsStackFault)) ∧
    (∀ copy skip, f.Shuffles (WholeTop copy f.words ∧ WholeTop skip (f.words.rdrop copy))
      ((f.words.rdrop copy).rdrop skip ++ f.words.rtake copy ++ (f.words.rdrop copy).rtake skip ++
        f.words.rtake copy) (f.dupWords copy skip)) ∧
    f.Shuffles (WholeTop 1 f.words ∧ WholeTop 1 (f.words.rdrop 1))
      ((f.words.rdrop 1).rdrop 1 ++ f.words.rtake 1 ++ (f.words.rdrop 1).rtake 1) f.swap ∧
    (∀ op sh, op.shuffle? = some sh → ∀ ret? index,
      ∃ result, (Instr.simple op).execute ret? index f = result.map (·, []) ∧
        f.Shuffles (sh.Possible f.words) (sh.moved f.words) result) := by
  refine ⟨fun g hg => Frame.stack_eq_of_words_eq hg, fun n => ⟨fun h => ?_, fun h => ?_⟩,
    fun copy skip => Shuffle.run_words f (.dup copy skip), Shuffle.run_words f .swap,
    fun op sh h ret? index => ⟨sh.run f, execute_of_shuffle h ret? index f, sh.run_words f⟩⟩
  · obtain ⟨taken, rest, hpop, htaken, hrest⟩ := Frame.popWords_of_wholeTop h
    exact ⟨taken, _, hpop, htaken, hrest, rfl⟩
  · exact ⟨_, Frame.popWords_of_not_wholeTop h, Frame.isStackFault_takeError _ _⟩

/-- A one-word value goes under the two-word value below it. -/
theorem shuffles_move_words_under_long :
    Opcode.shuffle? .dupX2 = some (.dup 1 2) ∧
    ∃ g, (Instr.simple .dupX2).execute none 7
        ⟨[], [.untracked .int, .ofSource .long (.parameter 0)]⟩ = .ok (g, []) ∧
      g.words = [⟨.untracked .int, 0⟩, ⟨.ofSource .long (.parameter 0), 0⟩,
        ⟨.ofSource .long (.parameter 0), 1⟩, ⟨.untracked .int, 0⟩] := by
  refine ⟨rfl, ?_⟩
  obtain ⟨-, -, -, -, hop⟩ :=
    shuffles_move_words ⟨[], [.untracked .int, .ofSource .long (.parameter 0)]⟩
  obtain ⟨result, hexecute, hresult⟩ := hop .dupX2 _ rfl none 7
  obtain ⟨g, rfl, hwords, -⟩ := hresult.moves
    ⟨⟨by decide, [.untracked .int], rfl⟩, ⟨by decide, [.ofSource .long (.parameter 0)], rfl⟩⟩
  exact ⟨g, hexecute, hwords⟩

end ConstRestore
