import Trident.Amd64.Compiled
import Mathlib.Data.List.Nodup

/-! String literals from the source to the read-only data of the assembly. -/

set_option autoImplicit false

namespace Trident

open Foundation

namespace AsmRun

variable (run : AsmRun)

end AsmRun

end Trident
