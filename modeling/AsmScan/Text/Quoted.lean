/-!
Texts in double quotes, for inspection: quotes, backslashes and control
characters are escaped, everything else stands as it is.
-/

namespace AsmScan.Text

def isControl (c : Char) : Bool := c.toNat < 0x20 || c.toNat == 0x7F

/-- Control characters without a short form are written by code point, in
    lower-case hexadecimal without padding. -/
def escapeChar (c : Char) : List Char :=
  if c = '\x22' then ['\\', '\x22']
  else if c = '\\' then ['\\', '\\']
  else if c = '\n' then ['\\', 'n']
  else if c = '\r' then ['\\', 'r']
  else if c = '\t' then ['\\', 't']
  else if c = '\x00' then ['\\', '0']
  else if isControl c then ['\\', 'u', '\x7b'] ++ Nat.toDigits 16 c.toNat ++ ['\x7d']
  else [c]

def quoted (s : String) : String :=
  String.ofList (['\x22'] ++ s.toList.flatMap escapeChar ++ ['\x22'])

end AsmScan.Text
