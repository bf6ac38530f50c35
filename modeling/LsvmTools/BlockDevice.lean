import LsvmTools.Lib.Program

/-! # Block devices

A `Blkdev` is an array of 512-byte (`BLKDEV_BLKSIZE`) sectors behind `GetN` and `PutN`, each of
which handles a run of sectors and fails when the run leaves the device or
meets a sector that cannot be accessed. A failing `PutN` writes nothing. -/
namespace LsvmTools.BlockDevice
open Lib.ByteString Lib.Program

structure Blkdev where
  nblks : Nat
  data : Nat → UInt8
  readable : Nat → Bool
  writable : Nat → Bool

/-- The device with the bytes from address `off` on replaced. -/
def Blkdev.store (dev : Blkdev) (off : Nat) (b : Bytes) : Blkdev :=
  { dev with data := writeMem dev.data off b }

def getN (dev : Blkdev) (blkno n : Nat) : Option Bytes :=
  if blkno + n ≤ dev.nblks ∧ (List.range' blkno n).all dev.readable then
    some (readMem dev.data (blkno * 512) (n * 512))
  else none

def putN (dev : Blkdev) (blkno n : Nat) (data : Bytes) : Option Blkdev :=
  if blkno + n ≤ dev.nblks ∧ (List.range' blkno n).all dev.writable then
    some (dev.store (blkno * 512) (data.take (n * 512)))
  else none

/-- The first `n` sectors exist and can be read and written. -/
structure Sound (dev : Blkdev) (n : Nat) : Prop where
  size : n ≤ dev.nblks
  readable : ∀ i, i < n → dev.readable i = true
  writable : ∀ i, i < n → dev.writable i = true

variable {dev : Blkdev} {k : Nat}

@[simp] theorem store_data (off : Nat) (b : Bytes) :
    (dev.store off b).data = writeMem dev.data off b := rfl

theorem store_nil (off : Nat) : dev.store off [] = dev := by simp [Blkdev.store, writeMem_nil]

theorem store_append (off : Nat) (a b : Bytes) :
    (dev.store off a).store (off + a.length) b = dev.store off (a ++ b) := by
  simp [Blkdev.store, writeMem_append]

theorem store_splice {off n i : Nat} {b : Bytes} (h : i + b.length ≤ n) :
    dev.store off (splice (readMem dev.data off n) i b) = dev.store (off + i) b := by
  simp [Blkdev.store, writeMem_splice _ _ _ _ _ h]

theorem Sound.store (h : Sound dev k) (off : Nat) (b : Bytes) : Sound (dev.store off b) k :=
  ⟨h.size, h.readable, h.writable⟩

theorem getN_eq (h : Sound dev k) {blkno n : Nat} (hn : blkno + n ≤ k) :
    getN dev blkno n = some (readMem dev.data (blkno * 512) (n * 512)) := by
  have hs := h.size
  have hr : (List.range' blkno n).all dev.readable = true := by
    rw [List.all_eq_true]
    intro i hi
    exact h.readable i (by have := (List.mem_range'_1.mp hi).2; omega)
  simp [getN, hr, show blkno + n ≤ dev.nblks by omega]

theorem putN_eq (h : Sound dev k) {blkno n : Nat} (hn : blkno + n ≤ k) {data : Bytes}
    (hl : data.length = n * 512) :
    putN dev blkno n data = some (dev.store (blkno * 512) data) := by
  have hs := h.size
  have hw : (List.range' blkno n).all dev.writable = true := by
    rw [List.all_eq_true]
    intro i hi
    exact h.writable i (by have := (List.mem_range'_1.mp hi).2; omega)
  simp [putN, hw, show blkno + n ≤ dev.nblks by omega, ← hl]

/-- `GetN` of one sector, as a step on the device. -/
def get (blkno : Nat) : Prog Blkdev Unit Bytes :=
  Prog.read fun dev => Out.ofOption () (getN dev blkno 1)

/-- `PutN`, as a step on the device. -/
def put (blkno n : Nat) (data : Bytes) : Prog Blkdev Unit Unit where
  exec dev := match putN dev blkno n data with
    | some dev' => .ok () dev'
    | none => .err () dev

theorem get_eq (h : Sound dev k) {blkno : Nat} (hb : blkno < k) :
    (get blkno).run dev = .ok (readMem dev.data (blkno * 512) 512) dev :=
  Prog.read_ok (by simp [Out.ofOption, getN_eq h (show blkno + 1 ≤ k by omega)])

theorem put_eq (h : Sound dev k) {blkno n : Nat} (hb : blkno + n ≤ k) {data : Bytes}
    (hl : data.length = n * 512) :
    (put blkno n data).run dev = .ok () (dev.store (blkno * 512) data) := by
  simp only [Prog.run, put, putN_eq h hb hl]

end LsvmTools.BlockDevice
