/-!
The Unicode property White_Space, and trimming by it.
-/

namespace AsmScan.Text

/-- The code points with the property, as closed ranges in increasing order. -/
def whiteRanges : List (Nat × Nat) :=
  [(0x9, 0xD), (0x20, 0x20), (0x85, 0x85), (0xA0, 0xA0), (0x1680, 0x1680), (0x2000, 0x200A),
    (0x2028, 0x2029), (0x202F, 0x202F), (0x205F, 0x205F), (0x3000, 0x3000)]

def isWhite (c : Char) : Bool :=
  whiteRanges.any fun (low, high) => low ≤ c.toNat && c.toNat ≤ high

def trim (cs : List Char) : List Char :=
  ((cs.dropWhile isWhite).reverse.dropWhile isWhite).reverse

end AsmScan.Text
