import LsvmTools.Lib.Program

/-! # Strings and growable buffers

A C string is the bytes before its terminator. A `Buf` is the bytes that have
been put into it and the capacity of its allocation. -/
namespace LsvmTools.Strings
open Lib.ByteString

/-! ## Strings -/

/-- The character `/`. -/
def slash : UInt8 := 47

/-- The string in an array of characters. -/
def cstr (b : Bytes) : Bytes := b.takeWhile (· ≠ 0)

/-- The bytes of a string literal of the source. -/
def text (s : String) : Bytes := s.toList.map fun c => UInt8.ofNat c.toNat

/-- A string as it is passed around: no byte of it ends it. -/
structure CStr where
  bytes : Bytes
  noNul : (0 : UInt8) ∉ bytes
deriving DecidableEq

theorem noNul_cstr (b : Bytes) : (0 : UInt8) ∉ cstr b := fun h => by
  simpa using List.mem_takeWhile_imp h

theorem cstr_eq {b : Bytes} (h : (0 : UInt8) ∉ b) : cstr b = b := by
  rw [cstr, List.takeWhile_eq_self_iff]
  intro c hc
  simpa using fun h' : c = 0 => h (h' ▸ hc)

/-- `Strlcpy` into an array of `size` characters. -/
def strlcpy (src : Bytes) (size : Nat) : Bytes := src.take (size - 1)

/-- `Strlcat` onto a string in an array of `size` characters. -/
def strlcat (dest src : Bytes) (size : Nat) : Bytes := (dest ++ src).take (size - 1)

/-- The pieces that repeated calls of `Strtok` with the delimiter `/` deliver. -/
def strtok (path : Bytes) : List Bytes := (path.splitOn slash).filter (!·.isEmpty)

/-- What follows the last `/`. -/
def afterLastSlash (path : Bytes) : Bytes := (path.reverse.takeWhile (· ≠ slash)).reverse

/-- `Strcmp` orders strings by their first different byte. -/
def strcmpLe (a b : Bytes) : Bool := decide (a.map UInt8.toNat ≤ b.map UInt8.toNat)

/-! ## Arrays of strings -/

/-- A `StrArr`: the strings and how many of them the allocation has room for. -/
structure StrArr where
  data : List CStr
  capacity : Nat

namespace StrArr

/-- What `STRARR_INITIALIZER` and `StrArrRelease` leave. -/
def empty : StrArr := ⟨[], 0⟩

/-- `StrArrAppend`, where `mem` says which allocations succeed. -/
def append (mem : Nat → Bool) (self : StrArr) (str : CStr) : Option StrArr :=
  let capacity := if self.data.length = self.capacity then
      if self.capacity = 0 then 32 else self.capacity * 2
    else self.capacity
  if self.data.length = self.capacity && !mem (u32 (8 * capacity)) then none
  else if !mem (u32 (str.bytes.length + 1)) then none
  else some ⟨self.data ++ [str], capacity⟩

end StrArr

/-! ## Buffers -/

structure Buf where
  bytes : Bytes
  cap : Nat

namespace Buf

def empty : Buf := ⟨[], 0⟩

/-- `BufReserve`: double the capacity, or round up to a multiple of the chunk
size (1024) where that is not enough. -/
def reserve (buf : Buf) (cap : Nat) : Buf :=
  if cap > buf.cap then
    let newCap := buf.cap * 2
    { buf with cap := if cap > newCap then (cap + 1024 - 1) / 1024 * 1024 else newCap }
  else buf

/-- `BufAppend`. -/
def append (buf : Buf) (data : Bytes) : Buf :=
  if data.isEmpty then buf
  else { buf.reserve (buf.bytes.length + data.length) with bytes := buf.bytes ++ data }

/-- The whole allocation: what lies past the bytes put in is not initialised. -/
def memory (uninit : Nat → UInt8) (buf : Buf) : Bytes :=
  buf.bytes ++ readMem uninit buf.bytes.length (buf.cap - buf.bytes.length)

end Buf

end LsvmTools.Strings
