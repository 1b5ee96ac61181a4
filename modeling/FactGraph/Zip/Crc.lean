/-!
# Checksums

The 32-bit cyclic redundancy check of archive entries: the remainder of the message, bits reflected,
by the polynomial `EDB88320`.
-/

namespace FactGraph

namespace Zip

/-- One bit of the division. -/
def crcStep (r : UInt32) : UInt32 := if r &&& 1 = 1 then (r >>> 1) ^^^ 0xEDB88320 else r >>> 1

/-- Eight bits of the division. -/
def crcByte (r : UInt32) : UInt32 := (List.range 8).foldl (fun r _ => crcStep r) r

/-- The remainders of all bytes. -/
def crcTable : Array UInt32 := Array.ofFn fun n : Fin 256 => crcByte (UInt32.ofNat n)

/-- Take one byte into a remainder. -/
def crcFeed (r : UInt32) (b : UInt8) : UInt32 :=
  crcTable.getD ((r ^^^ b.toUInt32) &&& 0xFF).toNat 0 ^^^ (r >>> 8)

/-- The checksum of some bytes. -/
def crc32 (bytes : Array UInt8) : UInt32 := bytes.foldl crcFeed 0xFFFFFFFF ^^^ 0xFFFFFFFF

end Zip

end FactGraph
