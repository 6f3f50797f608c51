import AsmScan.Path

/-!
File names and their extensions. The file name is the last component, whatever
slashes and single dots follow it.
-/

namespace AsmScan.Path

def isIdle (part : Text.Bytes) : Bool := part == [] || part == [dot]

def trunk (p : Path) : List Text.Bytes :=
  (p.components.reverse.dropWhile isIdle).reverse

def fileName? (p : Path) : Option Text.Bytes :=
  p.trunk.getLast?.filter (· != [dot, dot])

/-- What follows the last dot of a name, unless the name begins with that dot. -/
def extensionOf? (name : Text.Bytes) : Option Text.Bytes :=
  match name.splitOn dot with
  | [_] => none
  | [[], _] => none
  | parts => parts.getLast?

def extension? (p : Path) : Option Text.Bytes := p.fileName?.bind extensionOf?

/-- Adds an extension to a file name that has none, and cuts off what follows
    the name. A path without a file name stays as it is. -/
def withDefaultExtension (p : Path) (extension : Text.Bytes) : Path :=
  if p.fileName?.isNone || p.extension?.isSome then p
  else ⟨(ofComponents p.trunk).bytes ++ dot :: extension⟩

end AsmScan.Path
