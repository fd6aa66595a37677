import UtilityCss.Text.Basic

/-!
# Checksums

The cyclic redundancy check of 32 bits with the reflected polynomial `EDB88320`, as archives and
networks use it.
-/

namespace UtilityCss.Checksum

def polynomial : UInt32 := 0xEDB88320

def shift (remainder : UInt32) : UInt32 :=
  if remainder &&& 1 = 1 then (remainder >>> 1) ^^^ polynomial else remainder >>> 1

def feed (remainder : UInt32) (byte : UInt8) : UInt32 :=
  Nat.repeat shift 8 (remainder ^^^ byte.toUInt32)

def crc32 (bytes : List UInt8) : UInt32 :=
  bytes.foldl feed 0xFFFFFFFF ^^^ 0xFFFFFFFF

def hex (checksum : UInt32) : Text :=
  let digits := Nat.toDigits 16 checksum.toNat
  List.replicate (8 - digits.length) '0' ++ digits

end UtilityCss.Checksum
