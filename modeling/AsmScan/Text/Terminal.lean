/-!
What a terminal prints of a text: control sequences and control characters are
left out, graphic characters and white space stay.
-/

namespace AsmScan.Text.Terminal

inductive State where
  | ground
  | escape
  | escapeIntermediate
  | control
  | device
  | deviceParameter
  | deviceIntermediate
  | command
  | content
  deriving DecidableEq

def within (low high : Nat) (c : Char) : Bool := low ≤ c.toNat && c.toNat ≤ high

/-- The byte 0x9C ends the content of a sequence, also as part of a character. -/
def endsContent (c : Char) : Bool := (String.utf8EncodeChar c).contains 0x9C

namespace State

/-- Where a character leads that is not printed. An escape begins a new sequence
    anywhere; a cancel or substitute character ends every sequence. -/
def next (s : State) (c : Char) : State :=
  if c = '\x1b' then escape
  else if c = '\x18' ∨ c = '\x1a' then ground
  else match s with
    | ground => ground
    | escape =>
      if within 0x20 0x2F c then escapeIntermediate
      else if c = '[' then control
      else if c = ']' then command
      else if c = 'P' then device
      else if c ∈ ['X', '^', '_'] then content
      else if within 0x30 0x7E c then ground
      else s
    | escapeIntermediate => if within 0x30 0x7E c then ground else s
    | control => if within 0x40 0x7E c then ground else s
    | device =>
      if within 0x20 0x2F c then deviceIntermediate
      else if c = ':' ∨ within 0x40 0x7E c then content
      else if within 0x30 0x3F c then deviceParameter
      else s
    | deviceParameter =>
      if within 0x20 0x2F c then deviceIntermediate
      else if c = ';' ∨ within 0x30 0x39 c then s
      else if within 0x3A 0x7E c then content
      else s
    | deviceIntermediate => if within 0x30 0x7E c then content else s
    | command => if c = '\x07' then ground else s
    | content => if endsContent c then ground else s

def spaces : State → Bool
  | ground | escape | escapeIntermediate | control => true
  | _ => false

end State

def isGraphic (c : Char) : Bool := within 0x20 0x7E c || 0x80 ≤ c.toNat

def isSpacing (c : Char) : Bool := c ∈ ['\t', '\n', '\x0c', '\r']

/-- White space interrupts a sequence: what follows is `showing` up to the next
    control character, and there the sequence goes on, unless a character
    beyond ASCII has ended it. -/
def printedChars (s : State) (showing : Bool) : List Char → List Char
  | [] => []
  | c :: rest =>
    if isGraphic c && (showing || s == .ground) || isSpacing c && (showing || s.spaces) then
      c :: printedChars (if 0x80 ≤ c.toNat then .ground else s) true rest
    else printedChars (s.next c) false rest

def printed (s : String) : String := String.ofList (printedChars .ground false s.toList)

end AsmScan.Text.Terminal
