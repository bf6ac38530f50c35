import LsvmTools.Lib.Sectors
import LsvmTools.BlockDevice

/-! # The block device interface

A `Blkdev` is a table of functions on blocks of 512 (`BLKDEV_BLKSIZE`) bytes. Block
numbers are of type `UINTN`, so counting on from one wraps at 2^64. -/
namespace LsvmTools.Blkdev
open Lib.ByteString Lib.Program Lib.Sectors

instance : Addr UInt64 := ⟨fun b k => b + UInt64.ofNat k⟩

theorem nth_eq (b : UInt64) (k : Nat) : Addr.nth b k = b + UInt64.ofNat k := rfl

theorem nth_nth (b : UInt64) (j k : Nat) :
    (Addr.nth (Addr.nth b j) k : UInt64) = Addr.nth b (j + k) := by
  simp only [nth_eq, UInt64.ofNat_add, UInt64.add_assoc]

/-- Counting on reaches no block twice within a `UINTN`. -/
theorem nth_inj (b : UInt64) {j k : Nat} (hj : j < 2 ^ 64) (hk : k < 2 ^ 64)
    (h : (Addr.nth b j : UInt64) = Addr.nth b k) : j = k := by
  have h1 : UInt64.ofNat j = UInt64.ofNat k := UInt64.add_right_inj b |>.mp h
  have h2 := congrArg UInt64.toNat h1
  rwa [UInt64.toNat_ofNat_of_lt' hj, UInt64.toNat_ofNat_of_lt' hk] at h2

/-! ## Blocks -/

/-- The content of a block. -/
structure Sector where
  bytes : Bytes
  size : bytes.length = 512
deriving DecidableEq

/-- The bytes of a run of blocks. -/
def concat (ds : List Sector) : Bytes := ds.flatMap Sector.bytes

/-- The first 512 bytes, where there are as many. -/
def Sector.ofBytes (b : Bytes) : Sector :=
  ⟨b.take 512 ++ List.replicate (512 - (b.take 512).length) 0, by simp⟩

/-- A buffer seen as `n` blocks. -/
def split (b : Bytes) : Nat → List Sector
  | 0 => []
  | n + 1 => Sector.ofBytes b :: split (b.drop 512) n

theorem length_concat (ds : List Sector) : (concat ds).length = ds.length * 512 := by
  induction ds with
  | nil => rfl
  | cons d ds ih =>
    have h := d.size
    simp only [concat, List.flatMap_cons, List.length_append, List.length_cons] at ih ⊢
    omega

theorem ofBytes_append (d : Sector) (b : Bytes) : Sector.ofBytes (d.bytes ++ b) = d := by
  have h := d.size
  have ht : (d.bytes ++ b).take 512 = d.bytes := by
    rw [List.take_append_of_le_length (by omega), List.take_of_length_le (by omega)]
  obtain ⟨bytes, hs⟩ := d
  simp only [Sector.ofBytes, Sector.mk.injEq] at ht ⊢
  rw [ht, h, Nat.sub_self, List.replicate_zero, List.append_nil]

theorem split_concat (ds : List Sector) : split (concat ds) ds.length = ds := by
  induction ds with
  | nil => rfl
  | cons d ds ih =>
    have h := d.size
    have hd : (concat (d :: ds)).drop 512 = concat ds := by
      rw [concat, List.flatMap_cons, List.drop_append, List.drop_eq_nil_of_le (by omega),
        List.nil_append, h, Nat.sub_self, List.drop_zero]
      rfl
    rw [List.length_cons, split, hd, ih]
    exact congrArg (· :: ds) (ofBytes_append d _)

theorem concat_one (d : Sector) : concat [d] = d.bytes := by rw [concat, List.flatMap_singleton]

theorem split_one {b : Bytes} (hb : b.length = 512) : split b 1 = [⟨b, hb⟩] := by
  have := split_concat [⟨b, hb⟩]
  rwa [concat_one, List.length_singleton] at this

/-! ## Byte ranges -/

/-- `BlkdevRead`: the bytes of the first `size` ones of the blocks from `blkno` on. -/
def blkdevRead {σ : Type} (dev : Device UInt64 σ Sector) (blkno : UInt64) (size : Nat) :
    Prog σ Unit Bytes :=
  let nblocks := u64 (size + 512 - 1) / 512
  if nblocks = 0 then pure []
  else if size % 512 = 0 then do
    let ds ← dev.getN blkno nblocks
    pure (concat ds)
  else do
    let ds ← dev.getN blkno (nblocks - 1)
    let block ← dev.getN (Addr.nth blkno (nblocks - 1)) 1
    pure (concat ds ++ (concat block).take (size - (nblocks - 1) * 512))

/-- `BlkdevWrite`: the last block is rewritten where the bytes end inside it. -/
def blkdevWrite {σ : Type} (dev : Device UInt64 σ Sector) (blkno : UInt64) (data : Bytes) :
    Prog σ Unit Unit :=
  let nblocks := u64 (data.length + 512 - 1) / 512
  if nblocks = 0 then pure ()
  else if data.length % 512 = 0 then dev.putN blkno (split data nblocks)
  else do
    dev.putN blkno (split data (nblocks - 1))
    let block ← dev.getN (Addr.nth blkno (nblocks - 1)) 1
    let last := splice (concat block) 0 (data.drop ((nblocks - 1) * 512))
    dev.putN (Addr.nth blkno (nblocks - 1)) [Sector.ofBytes last]

/-! ## Memory -/

/-- A device that is an array of blocks, every one of which can be accessed. -/
def arrayDevice : Device UInt64 (UInt64 → Sector) Sector where
  getN b n := do
    let a ← Prog.get
    pure (load a b n)
  putN b ds := Prog.modify fun a => store a b 0 ds

theorem arrayDevice_lawful : Lawful arrayDevice id where
  getN_ok h := by cases h; exact ⟨rfl, rfl⟩
  getN_err h := by cases h
  putN_ok h := by cases h; rfl
  putN_err h := by cases h
  getN_returns _ _ _ h := by cases h
  putN_returns _ _ _ h := by cases h

/-- The block whose bytes are all `x`. -/
def Sector.fill (x : UInt8) : Sector := ⟨List.replicate 512 x, List.length_replicate⟩

theorem fill_ne {x y : UInt8} (h : x ≠ y) : Sector.fill x ≠ Sector.fill y := by
  intro he
  have := congrArg (fun d => d.bytes.head?) he
  simp only [Sector.fill, List.head?_replicate, Nat.reduceEqDiff, if_false, Option.some.injEq]
    at this
  exact h this

end LsvmTools.Blkdev
