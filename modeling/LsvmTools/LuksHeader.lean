import LsvmTools.Luks
import LsvmTools.Strings

/-! # The LUKS header

On disk the numbers of the header are big-endian. `LUKSFixByteOrder` turns each of them
around in place; after that they are read as the machine reads them. -/
namespace LsvmTools.LuksHeader
open Lib.ByteString Lib.Program BlockDevice Strings

/-- `BlkdevRead`: the last block is read on its own where the bytes end inside it. -/
def blkdevRead (dev : Blkdev) (blkno size : Nat) : Out Unit Bytes :=
  let nblocks := (size + 512 - 1) / 512
  if nblocks = 0 then pure []
  else if size % 512 = 0 then Out.ofOption () (getN dev blkno nblocks)
  else do
    let data ← Out.ofOption () (getN dev blkno (nblocks - 1))
    let block ← Out.ofOption () (getN dev (blkno + nblocks - 1) 1)
    pure (data ++ block.take (size - (nblocks - 1) * 512))

/-- The `UINT32` at an offset. -/
def word (d : Bytes) (off : Nat) : UInt32 := UInt32.ofNat (le32 d off)

/-- The characters of a string. -/
def chars (b : Bytes) : String := String.ofList (b.map fun c => Char.ofNat c.toNat)

/-! ## Key slots -/

/-- `LUKSKeySlot`, in the byte order of the machine. -/
structure KeySlot where
  raw : Bytes
  size : raw.length = 48
deriving DecidableEq

namespace KeySlot

variable (slot : KeySlot)

def enabled : UInt32 := word slot.raw 0
def passwordIters : UInt32 := word slot.raw 4
def passwordSalt : Bytes := (slot.raw.drop 8).take 32
def keyMaterialOffset : UInt32 := word slot.raw 40
def afStripes : UInt32 := word slot.raw 44

end KeySlot

/-- `LUKS_SLOT_ENABLED`. -/
def slotEnabled : UInt32 := 0x00ac71f3

/-- `LUKS_SLOT_DISABLED`. -/
def slotDisabled : UInt32 := 0x0000dead

/-! ## Header -/

/-- `LUKSHeader`. -/
structure Header where
  raw : Bytes
  size : raw.length = 592
deriving DecidableEq

namespace Header

variable (header : Header)

def magic : Bytes := header.raw.take 6
def cipherName : Bytes := cstr (header.raw.drop 8)
def cipherMode : Bytes := cstr (header.raw.drop 40)
def hashSpec : Bytes := cstr (header.raw.drop 72)
def payloadOffset : UInt32 := word header.raw 104
def keyBytes : UInt32 := word header.raw 108
def mkDigest : Bytes := (header.raw.drop 112).take 20
def mkDigestSalt : Bytes := (header.raw.drop 132).take 32
def mkDigestIter : UInt32 := word header.raw 164

def slots : List KeySlot := List.ofFn fun i : Fin 8 =>
  ⟨(header.raw.drop (208 + 48 * i)).take 48, by
    have := header.size
    have := i.isLt
    rw [List.length_take, List.length_drop]
    omega⟩

/-- What `LUKSCrypt` uses of the header. -/
def cipher : Luks.LUKSHeader :=
  ⟨chars header.cipherName, chars header.cipherMode, header.payloadOffset, header.keyBytes⟩

end Header

/-- `_magic`. -/
def luksMagic : Bytes := [76, 85, 75, 83, 0xba, 0xbe]

/-! ## Byte order -/

/-- A field of the header: its size and whether it is a number. -/
structure Field where
  size : Nat
  number : Bool

/-- The fields of `LUKSKeySlot`. -/
def slotFields : List Field :=
  [⟨4, true⟩, ⟨4, true⟩, ⟨32, false⟩, ⟨4, true⟩, ⟨4, true⟩]

/-- The fields of `LUKSHeader`: magic, version, names of the cipher, its mode and the hash,
payload offset, size of the key, digest and its salt and iterations, uuid, slots. -/
def headerFields : List Field :=
  [⟨6, false⟩, ⟨2, true⟩, ⟨32, false⟩, ⟨32, false⟩, ⟨32, false⟩, ⟨4, true⟩, ⟨4, true⟩,
    ⟨20, false⟩, ⟨32, false⟩, ⟨4, true⟩, ⟨40, false⟩] ++ (List.replicate 8 slotFields).flatten

/-- Each number turned around. -/
def byteSwap : List Field → Bytes → Bytes
  | [], d => d
  | f :: fs, d =>
    (if f.number then (d.take f.size).reverse else d.take f.size) ++ byteSwap fs (d.drop f.size)

theorem length_byteSwap (fs : List Field) (d : Bytes) : (byteSwap fs d).length = d.length := by
  induction fs generalizing d with
  | nil => rfl
  | cons f fs ih =>
    rw [byteSwap, List.length_append, ih, List.length_drop]
    split
    · rw [List.length_reverse, List.length_take]
      omega
    · rw [List.length_take]
      omega

/-- `LUKSFixByteOrder`, on a machine that is little-endian. -/
def luksFixByteOrder (header : Header) : Header where
  raw := byteSwap headerFields header.raw
  size := by rw [length_byteSwap, header.size]

/-! ## Reading -/

theorem length_blkdevRead {dev : Blkdev} {blkno size : Nat} {data : Bytes}
    (h : blkdevRead dev blkno size = .ok data) : data.length = size := by
  have hget : ∀ b n d, Out.ofOption () (getN dev b n) = Out.ok d → d.length = n * 512 := by
    intro b n d h
    unfold getN at h
    split at h
    · injection h with h
      rw [← h, length_readMem]
    · cases h
  unfold blkdevRead at h
  dsimp only at h
  split at h
  · injection h with h
    rw [← h, List.length_nil]
    omega
  · split at h
    · rw [hget _ _ _ h]
      omega
    · obtain ⟨data', h1, h⟩ := Out.bind_eq_ok.mp h
      obtain ⟨block, h2, h⟩ := Out.bind_eq_ok.mp h
      injection h with h
      rw [← h, List.length_append, List.length_take, hget _ _ _ h1, hget _ _ _ h2]
      omega

/-- `LUKSReadHeader`. -/
def luksReadHeader (dev : Blkdev) : Out Unit Header :=
  match h : blkdevRead dev 0 592 with
  | .ok raw =>
    let header : Header := ⟨raw, length_blkdevRead h⟩
    if header.magic ≠ luksMagic then .err () else pure (luksFixByteOrder header)
  | .err e => .err e
  | .stuck => .stuck

end LsvmTools.LuksHeader
