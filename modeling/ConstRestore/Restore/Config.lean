/-
  Switches of a restoration.
-/
import ConstRestore.Dataflow.Solution
import ConstRestore.Code.Concat

namespace ConstRestore

structure Config where
  /-- Instructions that the analysis of one method may execute. -/
  stepLimit : Nat := defaultStepLimit
  /-- Whether values are put together from flags. -/
  flags : Bool := true
  /-- Whether default groups claim literals. -/
  defaults : Bool := true
  /-- Whether null checks before instance constants are removed. -/
  nullChecks : Bool := true
  concat : ConcatStyle := .auto
  deriving DecidableEq

/-- Only values that named groups map as they are. -/
def Config.conservative : Config := { flags := false, defaults := false, nullChecks := false }

end ConstRestore
