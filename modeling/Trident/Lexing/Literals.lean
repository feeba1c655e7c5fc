import Trident.Lexing.Coverage
import Trident.Backend

/-! The string literals of a text: how their tokens are spelled and numbered. -/

set_option autoImplicit false

namespace Trident

/-- The numbers of the literals among the tokens. -/
def stringIds (tokens : List Token) : List Nat := (stringData tokens).map Prod.fst

namespace CutUp

variable {strings : Nat} {pieces : List Piece} {text : List UInt8}

end CutUp

end Trident
