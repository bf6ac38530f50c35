import LsvmTools.PeImage

/-! # Hash values

`sha.c` and the part of `measure.c` that extends the value of a PCR. -/
namespace LsvmTools.ShaHash
open Lib.ByteString Lib.Program PeImage

/-- A hash value of `n` bytes. -/
structure Digest (n : Nat) where
  buf : Bytes
  size : buf.length = n
deriving DecidableEq

abbrev SHA1Hash := Digest 20

abbrev SHA256Hash := Digest 32

theorem length_zeroes (n : Nat) : (List.replicate n (0 : UInt8)).length = n :=
  List.length_replicate

def Digest.zero (n : Nat) : Digest n := ⟨List.replicate n 0, length_zeroes n⟩

/-- The contexts of a hash function hold the bytes it was given. `works` says whether this
computation succeeds. -/
def sha {Hash : Type} (hash : Bytes → Hash) (works : Bool) : Sha Bytes Hash where
  init := some []
  update c data := some (c ++ data)
  final c := if works then some (hash c) else none

variable {Ctx Hash : Type} {n : Nat}

/-- What a function with a `UINT32` size reads of its data. -/
def read32 (data : Bytes) : Bytes := data.take (u32 data.length)

/-- `ComputeSHA1` and `ComputeSHA256`. -/
def computeSHA (f : Sha Ctx Hash) (data : Bytes) : Option Hash := do
  let context ← f.init
  let context ← f.update context (read32 data)
  f.final context

/-- How many zeros `ComputeSHA1Pad32` adds. -/
def padding32 (size : Nat) : Nat := u32 (u32 (size + 4 - 1) / 4 * 4 + 2 ^ 32 - size)

/-- `ComputeSHA1Pad32` and `ComputeSHA256Pad32`. -/
def computeSHAPad32 (f : Sha Ctx Hash) (data : Bytes) : Option Hash := do
  let context ← f.init
  let context ← f.update context (read32 data)
  let delta := padding32 (u32 data.length)
  if delta ≠ 0 then do
    let context ← f.update context (List.replicate delta 0)
    f.final context
  else f.final context

/-- `_ExtendSHA1` and `_ExtendSHA256`. -/
def extendSHA (f : Sha Ctx (Digest n)) (pcr data : Digest n) : Option (Digest n) :=
  computeSHA f (pcr.buf ++ data.buf)

/-! ## What they compute -/

/-- The bytes and as many zeros as fill the last group of four. -/
def pad32 (data : Bytes) : Bytes := data ++ List.replicate ((4 - data.length % 4) % 4) 0

/-- `H(v || x)`. -/
def extend (hash : Bytes → Digest n) (v x : Digest n) : Digest n := hash (v.buf ++ x.buf)

theorem read32_of_lt {data : Bytes} (h : data.length < 2 ^ 32) : read32 data = data := by
  rw [read32, u32_of_lt h, List.take_length]

theorem length_read32 (data : Bytes) : (read32 data).length = u32 data.length := by
  have hle : u32 data.length ≤ data.length := by
    unfold u32
    exact Nat.mod_le _ _
  rw [read32, List.length_take, Nat.min_eq_left hle]

theorem padding32_eq {size : Nat} (h : size < 2 ^ 32) : padding32 size = (4 - size % 4) % 4 := by
  unfold padding32 u32
  omega

theorem sha_final (hash : Bytes → Hash) (works : Bool) (c : Bytes) :
    (sha hash works).final c = if works then some (hash c) else none := rfl

theorem computeSHA_eq (hash : Bytes → Hash) (works : Bool) (data : Bytes) :
    computeSHA (sha hash works) data = if works then some (hash (read32 data)) else none := rfl

theorem computeSHAPad32_eq (hash : Bytes → Hash) (works : Bool) (data : Bytes) :
    computeSHAPad32 (sha hash works) data =
      if works then some (hash (pad32 (read32 data))) else none := by
  have hpad : padding32 (u32 data.length) = (4 - (read32 data).length % 4) % 4 := by
    rw [length_read32, padding32_eq (u32_lt _)]
  unfold pad32
  rw [← hpad]
  unfold computeSHAPad32
  generalize padding32 (u32 data.length) = delta
  cases delta with
  | zero => rw [List.replicate_zero, List.append_nil]; rfl
  | succ delta => rfl

theorem extendSHA_eq (hash : Bytes → Digest n) (works : Bool) (hn : n < 2 ^ 31)
    (pcr data : Digest n) :
    extendSHA (sha hash works) pcr data = if works then some (extend hash pcr data) else none := by
  have hlen : (pcr.buf ++ data.buf).length < 2 ^ 32 := by
    rw [List.length_append, pcr.size, data.size]
    omega
  rw [extendSHA, computeSHA_eq, read32_of_lt hlen, extend]

end LsvmTools.ShaHash
