/-
  Messages about what was done, as data.
-/
namespace ConstRestore

inductive LogLevel where
  | warn | debug | trace
  deriving DecidableEq

structure LogLine where
  level : LogLevel
  message : String
  deriving DecidableEq

end ConstRestore
