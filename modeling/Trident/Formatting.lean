import Trident.Driver
import Trident.Lexing.Comments
import Trident.Parser.Positions

/-! The text of a program can be laid out in any way: what the compiler writes, and how
its run ends, depends on what the tokens say only. -/

set_option autoImplicit false

namespace Trident

open Foundation

section

variable {tokens tokens' : List Token}

end

/-- A run adds to what was reported before it. -/
def Run.after (run : Run) (stderr : List Diag) : Run := { run with stderr := stderr ++ run.stderr }

end Trident
