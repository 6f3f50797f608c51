/-!
Lexemes, the pieces a source text is made of. Every character of the text
belongs to exactly one of them, and `text` gives the characters back.
-/

namespace AsmScan

inductive Lexeme where
  | blank (c : Char)
  | lineBreak
  | comment (body : List Char)
  | symbol (c : Char)
  | literal (quote : Char) (body : List Char)
  | word (chars : List Char)
  | openLiteral (quote : Char) (body : List Char)
  deriving DecidableEq

namespace Lexeme

def text : Lexeme → List Char
  | blank c => [c]
  | lineBreak => ['\n']
  | comment body => '/' :: '/' :: body
  | symbol c => [c]
  | literal quote body => quote :: body ++ [quote]
  | word chars => chars
  | openLiteral quote body => quote :: body

def size (l : Lexeme) : Nat := (String.ofList l.text).utf8ByteSize

def breaks (l : Lexeme) : Nat := l.text.count '\n'

end Lexeme

end AsmScan
