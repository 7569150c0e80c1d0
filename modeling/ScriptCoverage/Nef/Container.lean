import ScriptCoverage.Binary.Sha256
import ScriptCoverage.Binary.VarInt
import ScriptCoverage.ContractHash
import ScriptCoverage.Text.Utf8

/-!
The NEF3 executable container: a magic word, 64 bytes for the compiler's name, the
source, a zero byte, method tokens, a zero word, the script, and a checksum of all
that stands before it. `toBytes` writes the shortest form of every length.
-/

namespace ScriptCoverage.Nef

/-- A call target that the container declares. -/
structure MethodToken where
  hash : ContractHash
  method : String
  parameterCount : UInt16
  hasReturnValue : Bool
  callFlags : UInt8
  deriving DecidableEq

structure Container where
  compiler : String
  source : String
  tokens : List MethodToken
  script : List UInt8
  checksum : UInt32
  deriving DecidableEq

/-- The characters NEF3 as a little-endian word. -/
def magic : Nat := 0x3346454E

def compilerWidth : Nat := 64
def maxSource : Nat := 256
def maxTokens : Nat := 128
def maxMethodName : Nat := 32
def maxScript : Nat := 512 * 1024

/-- The first word of the digest of the digest. -/
def checksumOf (bytes : List UInt8) : UInt32 :=
  UInt32.ofNat (LittleEndian.decode ((Sha256.digest (Sha256.digest bytes)).take 4))

/-- Cut or filled with zeros to the width of the compiler's field. -/
def compilerField (compiler : String) : List UInt8 :=
  let name := (Utf8.encode compiler.toList).take compilerWidth
  name ++ List.replicate (compilerWidth - name.length) 0

def stringField (text : String) : List UInt8 :=
  VarInt.encodeBytes (Utf8.encode text.toList)

def MethodToken.toBytes (token : MethodToken) : List UInt8 :=
  token.hash.toBytes ++ stringField token.method ++
    LittleEndian.encode 2 token.parameterCount.toNat ++
    [if token.hasReturnValue then 1 else 0, token.callFlags]

/-- Everything before the checksum. -/
def Container.body (nef : Container) : List UInt8 :=
  LittleEndian.encode 4 magic ++ compilerField nef.compiler ++ stringField nef.source ++ [0] ++
    VarInt.encode nef.tokens.length ++ nef.tokens.flatMap MethodToken.toBytes ++
    LittleEndian.encode 2 0 ++ VarInt.encodeBytes nef.script

/-- The checksum is computed anew; the stored one is not written. -/
def Container.toBytes (nef : Container) : List UInt8 :=
  nef.body ++ LittleEndian.encode 4 (checksumOf nef.body).toNat

def isContainer (bytes : List UInt8) : Bool :=
  bytes.take 4 == LittleEndian.encode 4 magic

end ScriptCoverage.Nef
