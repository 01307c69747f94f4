import BrownLang.Data
import BrownLang.Stmt

/-!
# Source files

A source file is a data section, which may be empty, and a block of code.
-/

namespace BrownLang

structure Source where
  data : List DataItem
  code : Block
  deriving Inhabited

namespace Source

def unlocated (s : Source) : Source := { s with code := Stmt.unlocatedAll s.code }

end Source

end BrownLang
