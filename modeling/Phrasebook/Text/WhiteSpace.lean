/-!
# White space

The characters of the Unicode property White_Space, which tags and placeholders may contain
between their parts.
-/

namespace Phrasebook

/-- Ranges of code points, both ends included, in increasing order. -/
def whiteSpaceRanges : List (Nat × Nat) :=
  [(0x9, 0xd), (0x20, 0x20), (0x85, 0x85), (0xa0, 0xa0), (0x1680, 0x1680), (0x2000, 0x200a),
    (0x2028, 0x2029), (0x202f, 0x202f), (0x205f, 0x205f), (0x3000, 0x3000)]

def isWhiteSpace (c : Char) : Bool :=
  whiteSpaceRanges.any fun r => r.1 ≤ c.toNat && c.toNat ≤ r.2

def trimStart (cs : List Char) : List Char :=
  cs.dropWhile isWhiteSpace

def trimEnd (cs : List Char) : List Char :=
  (trimStart cs.reverse).reverse

/-- `cs` without the white space at its ends. -/
def trim (cs : List Char) : List Char :=
  trimEnd (trimStart cs)

end Phrasebook
