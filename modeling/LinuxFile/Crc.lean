import LinuxFile.Library.Buf

/-!
# Table-driven CRC-32
-/

namespace LinuxFile.Crc

/-- One bit of the table construction. -/
def tableStep (crc : UInt32) : UInt32 :=
  if crc &&& 1 ≠ 0 then (crc >>> 1) ^^^ 0xEDB88320 else crc >>> 1

def tableEntry (i : ℕ) : UInt32 := tableStep^[8] (UInt32.ofNat i)

def crcTable : List UInt32 := (List.range 256).map tableEntry

def crc32Update (crc : UInt32) : Bytes → UInt32
  | [] => crc
  | b :: rest =>
    let idx := ((crc ^^^ b.toUInt32) &&& 0xff).toNat
    crc32Update (crcTable.getD idx 0 ^^^ (crc >>> 8)) rest

def crc32 (data : Bytes) : UInt32 := crc32Update 0xFFFFFFFF data ^^^ 0xFFFFFFFF

end LinuxFile.Crc
