/-
  The machine that code for string concatenation runs on.

  It adds string builders to the operand stack machine.  An `Item` of the stack is a word
  or a reference to a builder; a `BuilderState` holds the stack and the texts of the
  builders made so far.  `Instr.step?` executes the calls of a builder and the call sites
  that follow a recipe; other instructions act on the words above the topmost builder.

  * `Leaves r code w` says that `code` adds exactly the word `w` to the stack of every
    state, and no builder that was there before changes;
  * `Pushes.leaves`: what runs without builders runs here alike.
-/
import ConstRestore.Proofs.Machine
import ConstRestore.Proofs.Descriptors

namespace ConstRestore

/-! ## Texts of arguments -/

/-- The text of an argument by the type of the parameter that takes it.  Floating point
    numbers, classes and surrogates are left out. -/
def Descriptor.render? : Descriptor → Word → Option String
  | .byte, .int v => some (toString v.toInt8.toInt)
  | .short, .int v => some (toString v.toInt16.toInt)
  | .char, .int v => (charOfUnit? v.toUInt32.toUInt16).map String.singleton
  | .int, .int v => some (toString v.toInt)
  | .long, .long v => some (toString v.toInt)
  | .object name, .string s => if name = "java/lang/String" then some s else none
  | _, _ => none

/-- The text of a recipe with its tags replaced by the texts of the arguments, one after
    the other.  A tag for a constant has none here. -/
def fill? : List Char → List String → Option String
  | [], [] => some ""
  | [], _ :: _ => none
  | ch :: recipe, texts =>
    if ch = constantTag then none
    else if ch = argumentTag then
      texts.head?.bind fun text => (fill? recipe texts.tail).map (text ++ ·)
    else (fill? recipe texts).map (String.singleton ch ++ ·)

/-! ## States -/

/-- An entry of an operand stack with builders. -/
inductive Item where
  | word (w : Word)
  | builder (address : Nat)
  deriving DecidableEq

/-- The builders that were made, and the stack.  A builder has no text before its
    constructor is called. -/
structure BuilderState where
  builders : List (Option String)
  stack : List Item
  deriving DecidableEq

/-- The words above the topmost builder, and the stack from it on. -/
def wordsAbove : List Item → List Word × List Item
  | .word w :: stack => (w :: (wordsAbove stack).1, (wordsAbove stack).2)
  | stack => ([], stack)

/-- The texts of arguments, the first of which comes first. -/
def renderAll? : List Descriptor → List Item → Option (List String)
  | [], [] => some []
  | p :: params, .word w :: items =>
    (p.render? w).bind fun text => (renderAll? params items).map (text :: ·)
  | _, _ => none

/-! ## Instructions -/

def builderClass : String := "java/lang/StringBuilder"

def builderInit : MethodSite := ⟨builderClass, "<init>", "()V", false⟩

def builderToString : MethodSite := ⟨builderClass, "toString", "()Ljava/lang/String;", false⟩

/-- The parameter of a method that appends to a builder; none takes a byte or a short. -/
def appended? (site : MethodSite) : Option Descriptor :=
  if site.owner = builderClass ∧ site.name = "append" ∧ ¬site.isInterface then
    match MethodDescriptor.parse site.descriptor with
    | .ok ⟨[p], ret⟩ =>
      if ret = .object builderClass ∧ p ≠ .byte ∧ p ≠ .short then some p else none
    | _ => none
  else none

/-- The parameters and the recipe of a call site that concatenates. -/
def concatSite? (site : DynamicSite) : Option (List Descriptor × String) :=
  if site.name = "makeConcatWithConstants" ∧ site.bootstrap = concatBootstrap then
    match MethodDescriptor.parse site.descriptor, site.arguments with
    | .ok ⟨params, ret⟩, [.string recipe] =>
      if ret = .object "java/lang/String" then some (params, recipe) else none
    | _, _ => none
  else none

namespace BuilderState

/-- The text of an initialised builder. -/
def text? (s : BuilderState) (address : Nat) : Option String := s.builders[address]?.join

/-- Makes a builder. -/
def allocate (s : BuilderState) : BuilderState :=
  ⟨s.builders ++ [none], .builder s.builders.length :: s.stack⟩

/-- Duplicates a reference to a builder. -/
def dup? (s : BuilderState) : Option BuilderState :=
  match s.stack with
  | .builder a :: stack => some ⟨s.builders, .builder a :: .builder a :: stack⟩
  | _ => none

/-- Calls the constructor of a builder that has no text yet. -/
def init? (s : BuilderState) : Option BuilderState :=
  match s.stack with
  | .builder a :: stack =>
    if s.builders[a]? = some none then some ⟨s.builders.set a (some ""), stack⟩ else none
  | _ => none

/-- Appends an argument to a builder, which is returned. -/
def append? (s : BuilderState) (p : Descriptor) : Option BuilderState :=
  match s.stack with
  | .word w :: .builder a :: stack =>
    (s.text? a).bind fun text => (p.render? w).map fun added =>
      ⟨s.builders.set a (some (text ++ added)), .builder a :: stack⟩
  | _ => none

/-- Replaces a builder by its text. -/
def toString? (s : BuilderState) : Option BuilderState :=
  match s.stack with
  | .builder a :: stack => (s.text? a).map fun text => ⟨s.builders, .word (.string text) :: stack⟩
  | _ => none

/-- Replaces the arguments of a call site by the text that its recipe makes of them. -/
def concat? (s : BuilderState) (params : List Descriptor) (recipe : String) :
    Option BuilderState :=
  (renderAll? params (s.stack.take params.length).reverse).bind fun texts =>
    (fill? recipe.toList texts).map fun text =>
      ⟨s.builders, .word (.string text) :: s.stack.drop params.length⟩

end BuilderState

/-- The state after an instruction. -/
def Instr.step? (r : Registry) (i : Instr) (s : BuilderState) : Option BuilderState :=
  match i with
  | .type .new name => if name = builderClass then some s.allocate else none
  | .simple .dup => s.dup?
  | .method .invokespecial site => if site = builderInit then s.init? else none
  | .method .invokevirtual site =>
    if site = builderToString then s.toString? else (appended? site).bind s.append?
  | .dynamic site => (concatSite? site).bind fun (params, recipe) => s.concat? params recipe
  | i =>
    (i.exec? r (wordsAbove s.stack).1).map fun words =>
      ⟨s.builders, words.map .word ++ (wordsAbove s.stack).2⟩

/-- The state after a sequence of instructions. -/
def runBuilders? (r : Registry) (code : List Instr) (s : BuilderState) : Option BuilderState :=
  code.foldlM (fun s i => i.step? r s) s

variable {r : Registry}

theorem runBuilders?_cons (i : Instr) (code : List Instr) (s : BuilderState) :
    runBuilders? r (i :: code) s = (i.step? r s).bind (runBuilders? r code) := rfl

theorem runBuilders?_singleton (i : Instr) (s : BuilderState) :
    runBuilders? r [i] s = i.step? r s :=
  Option.bind_fun_some _

theorem runBuilders?_append (code code' : List Instr) (s : BuilderState) :
    runBuilders? r (code ++ code') s = (runBuilders? r code s).bind (runBuilders? r code') := by
  simp only [runBuilders?, List.foldlM_append]
  rfl

/-- The code ends without a trap, and leaves one more word on the stack and all builders as
    they were. -/
def Leaves (r : Registry) (code : List Instr) (w : Word) : Prop :=
  ∀ s, ∃ more, runBuilders? r code s = some ⟨s.builders ++ more, .word w :: s.stack⟩

/-! ## Code without builders -/

theorem wordsAbove_append (words : List Word) (stack : List Item) :
    wordsAbove (words.map .word ++ stack) = (words ++ (wordsAbove stack).1, (wordsAbove stack).2) := by
  induction words with
  | nil => rfl
  | cons w words ih => simp only [List.map_cons, List.cons_append, wordsAbove, ih]

theorem wordsAbove_eq (stack : List Item) :
    (wordsAbove stack).1.map .word ++ (wordsAbove stack).2 = stack := by
  induction stack with
  | nil => rfl
  | cons i stack ih =>
    cases i with
    | word w => simp only [wordsAbove, List.map_cons, List.cons_append, ih]
    | builder a => rfl

theorem wordsAbove_below (stack : List Item) :
    wordsAbove (wordsAbove stack).2 = ([], (wordsAbove stack).2) := by
  induction stack with
  | nil => rfl
  | cons i stack ih =>
    cases i with
    | word w => exact ih
    | builder a => rfl

/-- What an instruction does to words it does above every builder. -/
theorem step?_of_exec? {i : Instr} {words words' : List Word} (h : i.exec? r words = some words')
    {below : List Item} (hbelow : wordsAbove below = ([], below)) (builders : List (Option String)) :
    i.step? r ⟨builders, words.map .word ++ below⟩ = some ⟨builders, words'.map .word ++ below⟩ := by
  have hwords : wordsAbove (words.map .word ++ below) = (words, below) := by
    rw [wordsAbove_append, hbelow, List.append_nil]
  unfold Instr.step?
  split
  -- the machine without builders knows none of the calls
  · cases h
  · cases h
  · cases h
  · cases h
  · cases h
  · simp only [hwords, h, Option.map_some]

theorem runBuilders?_of_run? {code : List Instr} {words words' : List Word}
    (h : run? r code words = some words') {below : List Item}
    (hbelow : wordsAbove below = ([], below)) (builders : List (Option String)) :
    runBuilders? r code ⟨builders, words.map .word ++ below⟩ =
      some ⟨builders, words'.map .word ++ below⟩ := by
  induction code generalizing words with
  | nil =>
    obtain rfl := Option.some.inj h
    rfl
  | cons i code ih =>
    rw [run?_cons] at h
    obtain ⟨next, hnext, h⟩ := Option.bind_eq_some_iff.1 h
    rw [runBuilders?_cons, step?_of_exec? hnext hbelow builders]
    exact ih h

/-- **Code that pushes a word pushes it on the machine with builders.** -/
theorem Pushes.leaves {code : List Instr} {w : Word} (h : Pushes r code w) : Leaves r code w := by
  intro s
  refine ⟨[], ?_⟩
  have hrun := runBuilders?_of_run? (h (wordsAbove s.stack).1) (wordsAbove_below s.stack) s.builders
  rw [wordsAbove_eq] at hrun
  rw [hrun, List.map_cons, List.cons_append, wordsAbove_eq, List.append_nil]

/-! ## Calls of builders -/

/-- A builder is made and initialised. -/
theorem run_makeBuilder (s : BuilderState) :
    runBuilders? r [.type .new builderClass, .simple .dup, .method .invokespecial builderInit] s =
      some ⟨s.builders ++ [some ""], .builder s.builders.length :: s.stack⟩ := by
  have hnone : (s.builders ++ [none])[s.builders.length]? = some none := by simp
  have hset : (s.builders ++ [none]).set s.builders.length (some "") = s.builders ++ [some ""] := by
    simp
  rw [runBuilders?_cons]
  simp only [Instr.step?, if_true, Option.bind_some, BuilderState.allocate]
  rw [runBuilders?_cons]
  simp only [Instr.step?, BuilderState.dup?, Option.bind_some]
  rw [runBuilders?_singleton]
  simp only [Instr.step?, if_true, BuilderState.init?, hnone, hset]

/-- An argument is appended to the builder below it. -/
theorem step?_append {site : MethodSite} {p : Descriptor} (hsite : appended? site = some p)
    {w : Word} {added : String} (hadded : p.render? w = some added)
    (before after : List (Option String)) (text : String) (stack : List Item) :
    (Instr.method .invokevirtual site).step? r
        ⟨before ++ some text :: after, .word w :: .builder before.length :: stack⟩ =
      some ⟨before ++ some (text ++ added) :: after, .builder before.length :: stack⟩ := by
  have hne : site ≠ builderToString := by
    rintro rfl
    cases hsite
  have hset : (before ++ some text :: after).set before.length (some (text ++ added)) =
      before ++ some (text ++ added) :: after := by
    simp
  simp only [Instr.step?, if_neg hne, hsite, Option.bind_some, BuilderState.append?,
    BuilderState.text?, List.getElem?_append_right le_rfl, Nat.sub_self, List.getElem?_cons_zero,
    Option.join_some, hadded, Option.map_some, hset]

/-- A builder is replaced by its text. -/
theorem step?_toString (before after : List (Option String)) (text : String) (stack : List Item) :
    (Instr.method .invokevirtual builderToString).step? r
        ⟨before ++ some text :: after, .builder before.length :: stack⟩ =
      some ⟨before ++ some text :: after, .word (.string text) :: stack⟩ := by
  simp only [Instr.step?, if_true, BuilderState.toString?, BuilderState.text?,
    List.getElem?_append_right le_rfl, Nat.sub_self, List.getElem?_cons_zero, Option.join_some,
    Option.map_some]

/-! ## Recipes -/

/-- Text without tags stands for itself. -/
theorem fill?_append {plain : List Char} (h : argumentTag ∉ plain ∧ constantTag ∉ plain)
    (recipe : List Char) (texts : List String) :
    fill? (plain ++ recipe) texts = (fill? recipe texts).map (String.ofList plain ++ ·) := by
  induction plain with
  | nil => simp
  | cons ch plain ih =>
    obtain ⟨hargument, hconstant⟩ := h
    rw [List.mem_cons, not_or] at hargument hconstant
    rw [List.cons_append, fill?, if_neg (Ne.symm hconstant.1), if_neg (Ne.symm hargument.1),
      ih ⟨hargument.2, hconstant.2⟩, Option.map_map]
    congr 1
    funext text
    rw [Function.comp_apply, ← String.append_assoc]
    congr 1
    exact String.toList_inj.1 (by simp)

/-- A tag stands for the next argument. -/
theorem fill?_argument (recipe : List Char) (text : String) (texts : List String) :
    fill? (argumentTag :: recipe) (text :: texts) = (fill? recipe texts).map (text ++ ·) := by
  rw [fill?, if_neg (by decide), if_pos rfl]
  rfl

end ConstRestore
