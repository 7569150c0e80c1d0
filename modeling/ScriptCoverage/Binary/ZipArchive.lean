import ScriptCoverage.Binary.Crc32
import ScriptCoverage.Binary.Inflate
import ScriptCoverage.Binary.LittleEndian

/-!
Reading a zip archive: the directory at its end lists the entries, and each entry
has a header of its own before its content. Content is stored or deflated. Bytes
before the archive are allowed, so offsets count from where the directory says that
the archive begins.
-/

namespace ScriptCoverage

/-- One line of the directory. -/
structure ZipEntry where
  name : List UInt8
  isEncrypted : Bool
  method : Nat
  crc : Nat
  compressedSize : Nat
  headerOffset : Nat

namespace ZipArchive

def number (bytes : List UInt8) (offset width : Nat) : Nat :=
  LittleEndian.decode ((bytes.drop offset).take width)

private def endMark : List UInt8 := [0x50, 0x4B, 0x05, 0x06]
private def directoryMark : List UInt8 := [0x50, 0x4B, 0x01, 0x02]
def entryMark : List UInt8 := [0x50, 0x4B, 0x03, 0x04]

/-- Whether bytes start as an archive with an entry does. -/
def isArchive (bytes : List UInt8) : Bool :=
  entryMark.isPrefixOf bytes

def endRecordSize : Nat := 22

/-- The last place at or before offset `last` where an end record starts; `offset`
is that of the bytes given. -/
private def findEndRecord (last offset : Nat) : List UInt8 → Option Nat
  | [] => none
  | b :: rest =>
      match findEndRecord last (offset + 1) rest with
      | some start => some start
      | none => if endMark.isPrefixOf (b :: rest) && offset ≤ last then some offset else none

/-- The end record is followed by a comment of at most this many bytes. -/
def maxComment : Nat := 65535

private def takeEntry (shift : Nat) (bytes : List UInt8) : Option (ZipEntry × List UInt8) :=
  if bytes.length < 46 ∨ !directoryMark.isPrefixOf bytes then none
  else
    let nameLength := number bytes 28 2
    let rest := bytes.drop 46
    let length := nameLength + number bytes 30 2 + number bytes 32 2
    if rest.length < length then none
    else
      some ({ name := rest.take nameLength
              isEncrypted := number bytes 8 2 % 2 = 1
              method := number bytes 10 2
              crc := number bytes 16 4
              compressedSize := number bytes 20 4
              headerOffset := shift + number bytes 42 4 }, rest.drop length)

private def takeEntries (shift : Nat) : (count : Nat) → List UInt8 → Option (List ZipEntry)
  | 0, _ => some []
  | count + 1, bytes => do
      let (entry, rest) ← takeEntry shift bytes
      let entries ← takeEntries shift count rest
      some (entry :: entries)

/-- The entries that the directory lists. -/
def entries? (bytes : List UInt8) : Option (List ZipEntry) := do
  if bytes.length < endRecordSize then none
  let last := bytes.length - endRecordSize
  let start ← findEndRecord last 0 bytes
  if start + maxComment < last then none
  let record := bytes.drop start
  if record.length < endRecordSize + number record 20 2 then none
  if number record 4 2 ≠ number record 6 2 then none
  let size := number record 12 4
  let offset := number record 16 4
  if start < size + offset then none
  let shift := start - size - offset
  takeEntries shift (number record 8 2) (bytes.drop (offset + shift))

end ZipArchive

namespace ZipEntry

def endsWith (entry : ZipEntry) (ending : List UInt8) : Bool :=
  ending.isSuffixOf entry.name

/-- The content as it is stored, if the entry can be opened. -/
def packed? (entry : ZipEntry) (archive : List UInt8) : Option (List UInt8) :=
  let header := archive.drop entry.headerOffset
  if entry.isEncrypted ∨ header.length < 30 ∨ !ZipArchive.entryMark.isPrefixOf header ∨
      (entry.method ≠ 0 ∧ entry.method ≠ 8) then none
  else
    let start := 30 + ZipArchive.number header 26 2 + ZipArchive.number header 28 2
    some ((header.drop start).take entry.compressedSize)

/-- The content, checked against the directory's checksum. -/
def content? (entry : ZipEntry) (archive : List UInt8) : Option (List UInt8) := do
  let packed ← entry.packed? archive
  let bytes ← if entry.method = 8 then Inflate.inflate? packed else some packed
  if (Crc32.checksum bytes).toNat = entry.crc then some bytes else none

end ZipEntry

end ScriptCoverage
