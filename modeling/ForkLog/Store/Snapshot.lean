import ForkLog.Checksum
import ForkLog.Store
import ForkLog.Wire

/-! # Snapshots

The entries of a store as one file: a magic number, the version of the format, the checksum and
the length of the body, and the body, which is the list of keys and values.
-/

namespace ForkLog.Snapshot

set_option autoImplicit false

def magic : Bytes := [0x4B, 0x56, 0x53, 0x4E]

def version : Nat := 1

def headerSize : Nat := 20

def body (entries : List Entry) : Bytes :=
  Wire.length entries.length ++ entries.flatMap fun e => Wire.bytes e.1 ++ Wire.bytes e.2

def header (body : Bytes) : Bytes :=
  magic ++ Bytes.littleEndian 4 version ++
    Bytes.littleEndian 4 (Checksum.crc32 body).toNat ++ Bytes.littleEndian 8 body.length

def encode (entries : List Entry) : Bytes := header (body entries) ++ body entries

inductive Fault where
  | truncated (size : Nat)
  | magic
  | version (found : Nat)
  | length (declared found : Nat)
  | checksum
  | body (fault : Wire.Fault)
  deriving DecidableEq, Repr

def Fault.toError (path : String) : Fault → Error
  | .truncated size => .store ("Snapshot " ++ path ++ s!" is truncated ({size} bytes)")
  | .magic => .store ("Snapshot " ++ path ++ " has an invalid magic")
  | .version found => .store s!"Unsupported snapshot version: {found}"
  | .length declared found =>
    .store s!"Snapshot body length mismatch: header says {declared}, found {found}"
  | .checksum => .store ("Snapshot " ++ path ++ " checksum mismatch")
  | .body fault => .serialization fault.message

def field (data : Bytes) (start size : Nat) : Bytes := (data.drop start).take size

def decode (data : Bytes) : Except Fault (List Entry) :=
  let content := data.drop headerSize
  if data.length < headerSize then .error (.truncated data.length)
  else if field data 0 4 ≠ magic then .error .magic
  else if Bytes.ofLittleEndian (field data 4 4) ≠ version then
    .error (.version (Bytes.ofLittleEndian (field data 4 4)))
  else if content.length ≠ Bytes.ofLittleEndian (field data 12 8) then
    .error (.length (Bytes.ofLittleEndian (field data 12 8)) content.length)
  else if (Checksum.crc32 content).toNat ≠ Bytes.ofLittleEndian (field data 8 4) then
    .error .checksum
  else
    match Wire.readList (Wire.readPair Wire.readBytes Wire.readBytes) content with
    | .error fault => .error (.body fault)
    | .ok (entries, _) => .ok entries

end ForkLog.Snapshot
