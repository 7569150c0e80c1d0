import ScriptCoverage.Text.Utf8

/-!
Named results of a report, as bytes.
-/

namespace ScriptCoverage

structure Artifact where
  name : String
  bytes : List UInt8
  deriving DecidableEq

namespace Artifact

def ofChars (name : String) (chars : List Char) : Artifact :=
  ⟨name, Utf8.encode chars⟩

def text (artifact : Artifact) : String :=
  String.ofList (Utf8.decodeLossy artifact.bytes)

end Artifact

end ScriptCoverage
