import Wordcode.Yaml.Cursor

/-!
Scalars: a text and the way it was written.
-/

namespace Wordcode.Yaml

inductive Style where
  | plain
  | quoted
  | literal
  | folded
  deriving Repr, DecidableEq

structure Scalar where
  style : Style
  text : String
  deriving Repr, DecidableEq

end Wordcode.Yaml
