/-
  Code for string concatenation.

  The operands of a concatenation come as `ConcatPart`s, each with its own
  code.  `builderCode` appends them one by one to a string builder;
  `dynamicCode` pushes them as the arguments of a call site whose recipe holds
  the literal parts and one tag character for each argument.
-/
import ConstRestore.Bytecode.Instr

namespace ConstRestore

/-- How string concatenation is emitted. -/
inductive ConcatStyle where
  /-- A call site where the class file version allows it, else a builder. -/
  | auto
  | stringBuilder
  | invokeDynamic
  deriving DecidableEq

/-- One operand of a concatenation. -/
structure ConcatPart where
  /-- The text of a literal. -/
  literal? : Option String
  /-- Pushes the operand. -/
  code : List Instr
  /-- The type that `code` leaves on the stack. -/
  type : DataType

/-- Stands for an argument in a recipe. -/
def argumentTag : Char := '\x01'

/-- Stands for a constant in a recipe. -/
def constantTag : Char := '\x02'

namespace ConcatPart

/-- The text that can stand in a recipe as it is: that of a literal without tag
    characters. -/
def recipeText? (p : ConcatPart) : Option String :=
  p.literal?.filter fun s => !s.toList.contains argumentTag && !s.toList.contains constantTag

/-- The descriptor of the method parameter that takes the operand. -/
def appendDescriptor (p : ConcatPart) : String :=
  match p.type with
  | .string => "Ljava/lang/String;"
  | .class_ => "Ljava/lang/Object;"
  | .char => "C"
  | .long => "J"
  | .float => "F"
  | .double => "D"
  | .byte | .short | .int => "I"

/-- Appends the operand to the builder on the stack. -/
def appendCode (p : ConcatPart) : List Instr :=
  p.code ++ [.method .invokevirtual ⟨"java/lang/StringBuilder", "append",
    "(" ++ p.appendDescriptor ++ ")Ljava/lang/StringBuilder;", false⟩]

end ConcatPart

/-- Concatenation with a string builder. -/
def builderCode (parts : List ConcatPart) : List Instr :=
  [.type .new "java/lang/StringBuilder", .simple .dup,
    .method .invokespecial ⟨"java/lang/StringBuilder", "<init>", "()V", false⟩] ++
  parts.flatMap ConcatPart.appendCode ++
  [.method .invokevirtual ⟨"java/lang/StringBuilder", "toString", "()Ljava/lang/String;", false⟩]

/-- The recipe of a concatenation. -/
def recipe (parts : List ConcatPart) : String :=
  String.join (parts.map fun p => p.recipeText?.getD (String.singleton argumentTag))

/-- The bootstrap method of concatenation call sites. -/
def concatBootstrap : Handle where
  kind := .invokeStatic
  owner := "java/lang/invoke/StringConcatFactory"
  name := "makeConcatWithConstants"
  descriptor := "(Ljava/lang/invoke/MethodHandles$Lookup;Ljava/lang/String;" ++
    "Ljava/lang/invoke/MethodType;Ljava/lang/String;[Ljava/lang/Object;)Ljava/lang/invoke/CallSite;"
  isInterface := false

/-- Concatenation with a call site. -/
def dynamicCode (parts : List ConcatPart) : List Instr :=
  let arguments := parts.filter (·.recipeText?.isNone)
  arguments.flatMap (·.code) ++
  [.dynamic ⟨"makeConcatWithConstants",
    "(" ++ String.join (arguments.map (·.type.descriptor)) ++ ")Ljava/lang/String;",
    concatBootstrap, [.string (recipe parts)]⟩]

end ConstRestore
