import Mathlib.Data.List.Basic

/-!
# The nodes of yaml-cpp

A YAML document as yaml-cpp presents it.  A string is its list of bytes.
-/

namespace Mingo

namespace Yaml

/-- `YAML::Node`; a node that is looked up and not there is `undefined`. -/
inductive Node
  | undefined
  | null
  | scalar (text : List UInt8)
  | sequence (items : List Node)
  | map (entries : List (Node × Node))
  deriving Repr

namespace Node

/-- `IsDefined`. -/
def isDefined : Node → Bool
  | .undefined => false
  | _ => true

/-- `IsScalar`. -/
def isScalar : Node → Bool
  | .scalar _ => true
  | _ => false

/-- `Scalar`: empty for a node that is none. -/
def scalarText : Node → List UInt8
  | .scalar text => text
  | _ => []

end Node

end Yaml

end Mingo
