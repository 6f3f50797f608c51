/-!
Bytes and characters. `encode` writes UTF-8, `decode?` reads it and refuses
anything malformed, and `lossy` reads any bytes at all.
-/

namespace AsmScan.Text

abbrev Bytes := List UInt8

def encode (s : String) : Bytes := s.toList.flatMap String.utf8EncodeChar

@[simp] theorem encode_append (s t : String) : encode (s ++ t) = encode s ++ encode t := by
  simp [encode]

/-- The text of well-formed UTF-8: no overlong forms, no surrogates, nothing
    above U+10FFFF. A byte order mark is a character like any other. -/
def decode? (bytes : Bytes) : Option String := String.fromUTF8? ⟨bytes.toArray⟩

def replacement : Char := '\uFFFD'

/-- What must follow the first byte of a character of several bytes: how many
    bytes, and the range of the one right after it. -/
structure Lead where
  length : Nat
  low : UInt8
  high : UInt8

def Lead.of? (b : UInt8) : Option Lead :=
  if 0xC2 ≤ b ∧ b ≤ 0xDF then some ⟨1, 0x80, 0xBF⟩
  else if b = 0xE0 then some ⟨2, 0xA0, 0xBF⟩
  else if b = 0xED then some ⟨2, 0x80, 0x9F⟩
  else if 0xE1 ≤ b ∧ b ≤ 0xEF then some ⟨2, 0x80, 0xBF⟩
  else if b = 0xF0 then some ⟨3, 0x90, 0xBF⟩
  else if 0xF1 ≤ b ∧ b ≤ 0xF3 then some ⟨3, 0x80, 0xBF⟩
  else if b = 0xF4 then some ⟨3, 0x80, 0x8F⟩
  else none

def Lead.continuation : Lead → Bytes → Bytes
  | ⟨0, _, _⟩, _ => []
  | ⟨_ + 1, _, _⟩, [] => []
  | ⟨n + 1, low, high⟩, b :: rest =>
    if low ≤ b ∧ b ≤ high then b :: Lead.continuation ⟨n, 0x80, 0xBF⟩ rest else []

def assemble (b : UInt8) (tail : Bytes) : Char :=
  Char.ofNat (tail.foldl (fun n t => n * 64 + t.toNat % 64) (b.toNat % (64 >>> tail.length)))

/-- Reads each character, and each longest run of bytes that only begins one, or
    else a single byte, as one replacement character. -/
def lossyChars : Bytes → List Char
  | [] => []
  | b :: rest =>
    if b < 0x80 then Char.ofNat b.toNat :: lossyChars rest
    else match Lead.of? b with
      | none => replacement :: lossyChars rest
      | some lead =>
        let tail := lead.continuation rest
        (if tail.length = lead.length then assemble b tail else replacement) ::
          lossyChars (rest.drop tail.length)
termination_by bytes => bytes.length
decreasing_by all_goals simp +arith

def lossy (bytes : Bytes) : String := String.ofList (lossyChars bytes)

end AsmScan.Text
