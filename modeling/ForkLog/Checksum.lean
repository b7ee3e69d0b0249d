import ForkLog.Bytes

/-! # CRC-32

The cyclic redundancy check of IEEE 802.3 in its reflected form: the remainder of the message,
lowest bit of each byte first, by the polynomial `0xEDB88320`, with all bits inverted before
and after.
-/

namespace ForkLog.Checksum

set_option autoImplicit false

/-- Divides by one power of the polynomial's variable. -/
def shift (crc : UInt32) : UInt32 :=
  if crc &&& 1 = 1 then (crc >>> 1) ^^^ 0xEDB88320 else crc >>> 1

def absorb (crc : UInt32) (b : UInt8) : UInt32 :=
  shift (shift (shift (shift (shift (shift (shift (shift (crc ^^^ b.toUInt32))))))))

def register (bytes : Bytes) (crc : UInt32) : UInt32 := bytes.foldl absorb crc

def crc32 (bytes : Bytes) : UInt32 := register bytes 0xFFFFFFFF ^^^ 0xFFFFFFFF

theorem register_append (a b : Bytes) (crc : UInt32) :
    register (a ++ b) crc = register b (register a crc) := by
  simp [register, List.foldl_append]

end ForkLog.Checksum
