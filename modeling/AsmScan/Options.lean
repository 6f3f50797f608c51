import AsmScan.Path.FileName

/-!
The options of a run.
-/

namespace AsmScan

structure Options where
  output : Path := .ofString "out.p16"
  verbose : Bool := false
  deriving DecidableEq

namespace Options

def withOutput (o : Options) (output : Path) : Options :=
  { o with output := output.withDefaultExtension (Text.encode "p16") }

def withVerbose (o : Options) : Options := { o with verbose := true }

end Options

end AsmScan
