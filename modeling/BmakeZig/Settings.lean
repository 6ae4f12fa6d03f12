import BmakeZig.Text.Basic

/-! What a caller may choose about a pass. -/
namespace BmakeZig

structure Settings where
  /-- Whether the statements are wrapped into a complete build script. -/
  prelude : Bool := true
  /-- Directories tried for an included unit after its neighbours and the searched ones. -/
  includeDirs : List Text := []
  maxIncludeDepth : Nat := 64
  /-- What stands between the old and the new part of an appended value. -/
  appendSeparator : Text := []
deriving DecidableEq, Repr

namespace Settings

def withPrelude (settings : Settings) (prelude : Bool) : Settings :=
  { settings with prelude }

def withIncludeDir (settings : Settings) (directory : Text) : Settings :=
  { settings with includeDirs := settings.includeDirs ++ [directory] }

def withMaxIncludeDepth (settings : Settings) (maxIncludeDepth : Nat) : Settings :=
  { settings with maxIncludeDepth }

def withAppendSeparator (settings : Settings) (appendSeparator : Text) : Settings :=
  { settings with appendSeparator }

end Settings

end BmakeZig
