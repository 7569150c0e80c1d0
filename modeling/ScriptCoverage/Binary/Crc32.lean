/-!
CRC-32 of a byte list, with the reflected polynomial 0xEDB88320 that zip archives
use.
-/

namespace ScriptCoverage.Crc32

private def shiftBit (crc : UInt32) : UInt32 :=
  if crc &&& 1 = 1 then (crc >>> 1) ^^^ 0xEDB88320 else crc >>> 1

private def feed (crc : UInt32) (b : UInt8) : UInt32 :=
  (List.range 8).foldl (fun crc _ => shiftBit crc) (crc ^^^ b.toUInt32)

def checksum (bytes : List UInt8) : UInt32 :=
  bytes.foldl feed 0xFFFFFFFF ^^^ 0xFFFFFFFF

end ScriptCoverage.Crc32
