import LsvmTools.Ext2.Device

/-! # EXT2 data structures

The superblock, the group descriptors and the inodes are kept as the bytes the
driver holds in memory. `SuperBlock` carries what `EXT2New` establishes before
it hands out a volume: the magic number that `EXT2Valid` looks for, divisors
that are not zero, a block size whose computation does not overflow and an
inode size that fits `EXT2Inode`. -/
namespace LsvmTools.Ext2.Volume
open Lib.ByteString Lib.Program BlockDevice

inductive Err where
  | failed
  | invalidParameter
  | fileNotFound
  | bufferOverflow
  | readFailed
  | writeFailed
  | unexpected
  | sanityCheckFailed
  | badBlkno
  | badIno
  | badGrpno
  | badMultiple
  | extraneousData
  | badSize
  | pathTooLong
deriving DecidableEq

/-! ## Superblock -/

structure SuperBlock where
  raw : Bytes
  size : raw.length = 1024
  magic : le16 raw 56 = 0xEF53
  logBlockSize_lt : le32 raw 24 < 21
  blocksPerGroup_pos : 0 < le32 raw 32
  inodesPerGroup_pos : 0 < le32 raw 40
  inodeSize_le : le16 raw 88 ≤ 256

namespace SuperBlock

variable (sb : SuperBlock)

def sBlocksCount : Nat := le32 sb.raw 4
def sFreeBlocksCount : Nat := le32 sb.raw 12
def sFreeInodesCount : Nat := le32 sb.raw 16
def sFirstDataBlock : Nat := le32 sb.raw 20
def sLogBlockSize : Nat := le32 sb.raw 24
def sBlocksPerGroup : Nat := le32 sb.raw 32
def sInodesPerGroup : Nat := le32 sb.raw 40
def sInodeSize : Nat := le16 sb.raw 88

/-- `block_size`. -/
def blockSize : Nat := 1024 * 2 ^ sb.sLogBlockSize

/-- `group_count`, a 32-bit variable. -/
def groupCount : Nat := u32 (1 + u32 (sb.sBlocksCount + 2 ^ 32 - 1) / sb.sBlocksPerGroup)

theorem counter_room {off : Nat} (h : off = 12 ∨ off = 16) (v : Nat) :
    off + (enc32 v).length ≤ sb.raw.length := by
  rw [sb.size, length_enc32]; omega

theorem counter_size {off : Nat} (h : off = 12 ∨ off = 16) (v : Nat) :
    (put32 sb.raw off v).length = 1024 := by
  rw [put32, length_splice (sb.counter_room h v), sb.size]

theorem counter_keep32 {off : Nat} (h : off = 12 ∨ off = 16) (v : Nat) {i : Nat} (hi : 20 ≤ i) :
    le32 (put32 sb.raw off v) i = le32 sb.raw i :=
  le32_splice (sb.counter_room h v) (by rw [length_enc32]; omega)

theorem counter_keep16 {off : Nat} (h : off = 12 ∨ off = 16) (v : Nat) {i : Nat} (hi : 20 ≤ i) :
    le16 (put32 sb.raw off v) i = le16 sb.raw i :=
  le16_splice (sb.counter_room h v) (by rw [length_enc32]; omega)

theorem counter_magic {off : Nat} (h : off = 12 ∨ off = 16) (v : Nat) :
    le16 (put32 sb.raw off v) 56 = 0xEF53 := by
  rw [sb.counter_keep16 h v (by omega), sb.magic]

theorem counter_logBlockSize {off : Nat} (h : off = 12 ∨ off = 16) (v : Nat) :
    le32 (put32 sb.raw off v) 24 < 21 := by
  rw [sb.counter_keep32 h v (by omega)]
  exact sb.logBlockSize_lt

theorem counter_blocksPerGroup {off : Nat} (h : off = 12 ∨ off = 16) (v : Nat) :
    0 < le32 (put32 sb.raw off v) 32 := by
  rw [sb.counter_keep32 h v (by omega)]
  exact sb.blocksPerGroup_pos

theorem counter_inodesPerGroup {off : Nat} (h : off = 12 ∨ off = 16) (v : Nat) :
    0 < le32 (put32 sb.raw off v) 40 := by
  rw [sb.counter_keep32 h v (by omega)]
  exact sb.inodesPerGroup_pos

theorem counter_inodeSize {off : Nat} (h : off = 12 ∨ off = 16) (v : Nat) :
    le16 (put32 sb.raw off v) 88 ≤ 256 := by
  rw [sb.counter_keep16 h v (by omega)]
  exact sb.inodeSize_le

/-- The superblock with the field at `off`, one of the two free counters,
replaced. -/
def setCounter (off v : Nat) (h : off = 12 ∨ off = 16) : SuperBlock where
  raw := put32 sb.raw off v
  size := sb.counter_size h v
  magic := sb.counter_magic h v
  logBlockSize_lt := sb.counter_logBlockSize h v
  blocksPerGroup_pos := sb.counter_blocksPerGroup h v
  inodesPerGroup_pos := sb.counter_inodesPerGroup h v
  inodeSize_le := sb.counter_inodeSize h v

def setFreeBlocksCount (v : Nat) : SuperBlock := sb.setCounter 12 v (.inl rfl)

def setFreeInodesCount (v : Nat) : SuperBlock := sb.setCounter 16 v (.inr rfl)

theorem blockSize_pos : 0 < sb.blockSize := by unfold blockSize; positivity

theorem blockSize_lt : sb.blockSize < 2 ^ 31 := by
  have h : 2 ^ sb.sLogBlockSize ≤ 2 ^ 20 :=
    Nat.pow_le_pow_right (by decide) (Nat.le_of_lt_succ sb.logBlockSize_lt)
  unfold blockSize; omega

end SuperBlock

/-! ## Group descriptors -/

structure GroupDesc where
  raw : Bytes
  size : raw.length = 32

namespace GroupDesc

variable (gd : GroupDesc)

def bgBlockBitmap : Nat := le32 gd.raw 0
def bgInodeBitmap : Nat := le32 gd.raw 4
def bgInodeTable : Nat := le32 gd.raw 8
def bgFreeBlocksCount : Nat := le16 gd.raw 12
def bgFreeInodesCount : Nat := le16 gd.raw 14

def setFreeBlocksCount (v : Nat) : GroupDesc :=
  ⟨put16 gd.raw 12 v, by rw [length_put16 (by rw [gd.size]; decide), gd.size]⟩

def setFreeInodesCount (v : Nat) : GroupDesc :=
  ⟨put16 gd.raw 14 v, by rw [length_put16 (by rw [gd.size]; decide), gd.size]⟩

end GroupDesc

/-! ## Inodes -/

structure Inode where
  raw : Bytes
  size : raw.length = 256

namespace Inode

variable (n : Inode)

/-- `EXT2_S_IFDIR` is set in the mode. -/
def modeIsDir (mode : Nat) : Bool := mode.testBit 14

def iMode : Nat := le16 n.raw 0
def iSize : Nat := le32 n.raw 4
def iLinksCount : Nat := le16 n.raw 26
def iOsd1 : Nat := le32 n.raw 36

/-- `i_block[i]`. -/
def iBlock (i : Nat) : Nat := le32 n.raw (40 + 4 * i)

/-- The slots of `i_block` from `i` on, `k` of them. -/
def iBlocks (i k : Nat) : List Nat := (List.range' i k).map n.iBlock

def isDir : Bool := modeIsDir n.iMode

def store (off : Nat) (b : Bytes) (h : off + b.length ≤ 256) : Inode :=
  ⟨splice n.raw off b, by rw [length_splice (by rw [n.size]; exact h), n.size]⟩

def setSize (v : Nat) : Inode := n.store 4 (enc32 v) (by simp)
def setOsd1 (v : Nat) : Inode := n.store 36 (enc32 v) (by simp)
def setLinksCount (v : Nat) : Inode := n.store 26 (enc16 v) (by simp)

/-- Assign `ws` to the slots of `i_block` from `i` on. -/
def setBlocks (i : Nat) (ws : List Nat) : Inode :=
  if h : i + ws.length ≤ 15 then n.store (40 + 4 * i) (encWords ws) (by simp; omega) else n

/-- A zeroed inode with the fields that creation fills in. -/
def create (mode size links blocks time : Nat) : Inode :=
  let zero : Inode := ⟨List.replicate 256 0, List.length_replicate⟩
  let times := enc32 time ++ enc32 time ++ enc32 time
  ((((zero.store 0 (enc16 mode) (by simp)).setSize size).store 8 times (by simp [times])).setLinksCount
    links).store 28 (enc32 blocks ++ enc32 0 ++ enc32 1) (by simp)

variable {n}

theorem le32_store {off : Nat} {b : Bytes} {h : off + b.length ≤ 256} {i : Nat}
    (hi : i + 4 ≤ off ∨ off + b.length ≤ i) : le32 (n.store off b h).raw i = le32 n.raw i :=
  le32_splice (by rw [n.size]; exact h) hi

theorem le16_store {off : Nat} {b : Bytes} {h : off + b.length ≤ 256} {i : Nat}
    (hi : i + 2 ≤ off ∨ off + b.length ≤ i) : le16 (n.store off b h).raw i = le16 n.raw i :=
  le16_splice (by rw [n.size]; exact h) hi

@[simp] theorem setSize_iSize (v : Nat) : (n.setSize v).iSize = u32 v :=
  le32_put32 (by rw [n.size]; decide)

@[simp] theorem setSize_iMode (v : Nat) : (n.setSize v).iMode = n.iMode :=
  le16_store (.inl (by decide))

@[simp] theorem setSize_iBlock (v i : Nat) : (n.setSize v).iBlock i = n.iBlock i :=
  le32_store (.inr (by rw [length_enc32]; omega))

@[simp] theorem setOsd1_iMode (v : Nat) : (n.setOsd1 v).iMode = n.iMode :=
  le16_store (.inl (by decide))

@[simp] theorem setOsd1_iSize (v : Nat) : (n.setOsd1 v).iSize = n.iSize :=
  le32_store (.inl (by decide))

@[simp] theorem setOsd1_iBlock (v i : Nat) : (n.setOsd1 v).iBlock i = n.iBlock i :=
  le32_store (.inr (by rw [length_enc32]; omega))

@[simp] theorem setLinksCount_iMode (v : Nat) : (n.setLinksCount v).iMode = n.iMode :=
  le16_store (.inl (by decide))

@[simp] theorem setLinksCount_iSize (v : Nat) : (n.setLinksCount v).iSize = n.iSize :=
  le32_store (.inl (by decide))

@[simp] theorem setLinksCount_iBlock (v i : Nat) : (n.setLinksCount v).iBlock i = n.iBlock i :=
  le32_store (.inr (by rw [length_enc16]; omega))

@[simp] theorem setBlocks_iMode (i : Nat) (ws : List Nat) : (n.setBlocks i ws).iMode = n.iMode := by
  unfold setBlocks
  split
  · exact le16_store (.inl (by omega))
  · rfl

@[simp] theorem setBlocks_iSize (i : Nat) (ws : List Nat) : (n.setBlocks i ws).iSize = n.iSize := by
  unfold setBlocks
  split
  · exact le32_store (.inl (by omega))
  · rfl

theorem setBlocks_iBlock_of_not {i j : Nat} {ws : List Nat} (h : j < i ∨ i + ws.length ≤ j) :
    (n.setBlocks i ws).iBlock j = n.iBlock j := by
  unfold setBlocks
  split
  · refine le32_store ?_
    rw [length_encWords]
    omega
  · rfl

theorem setBlocks_iBlock {i k : Nat} {ws : List Nat} (h : i + ws.length ≤ 15)
    (hk : k < ws.length) (hw : ∀ w ∈ ws, w < 2 ^ 32) :
    (n.setBlocks i ws).iBlock (i + k) = ws[k] := by
  have hl : 40 + 4 * i + (encWords ws).length ≤ n.raw.length := by
    rw [n.size, length_encWords]; omega
  have hword : le32 (encWords ws) (4 * k) = ws[k] := by
    have := words_encWords_append ws [] hw
    rw [List.append_nil, show words [] = [] from rfl, List.append_nil] at this
    have h2 : (words (encWords ws))[k]? = some ws[k] := by rw [this]; simp [hk]
    simpa [words, hk] using h2
  unfold setBlocks
  rw [dif_pos h]
  refine (le32_splice_inside hl (by omega) (by rw [length_encWords]; omega)).trans ?_
  rw [← hword]
  congr 1; omega

theorem isDir_congr {n m : Inode} (h : n.iMode = m.iMode) : n.isDir = m.isDir := by
  unfold isDir
  rw [h]

theorem length_iBlocks (i k : Nat) : (n.iBlocks i k).length = k := by simp [iBlocks]

theorem iBlocks_append (i j k : Nat) : n.iBlocks i (j + k) = n.iBlocks i j ++ n.iBlocks (i + j) k := by
  simp only [iBlocks, ← List.range'_append_1, List.map_append]

theorem iBlocks_congr {n m : Inode} {i k : Nat} (h : ∀ j, i ≤ j → j < i + k → n.iBlock j = m.iBlock j) :
    n.iBlocks i k = m.iBlocks i k := by
  refine List.map_congr_left fun j hj => ?_
  rw [List.mem_range'_1] at hj
  exact h j hj.1 hj.2

theorem setBlocks_iBlocks {i : Nat} {ws : List Nat} (h : i + ws.length ≤ 15)
    (hw : ∀ w ∈ ws, w < 2 ^ 32) : (n.setBlocks i ws).iBlocks i ws.length = ws := by
  apply List.ext_getElem (length_iBlocks _ _)
  intro k h1 h2
  simp only [iBlocks, List.getElem_map, List.getElem_range', Nat.one_mul]
  exact setBlocks_iBlock h h2 hw

theorem create_iBlock (mode size links blocks time i : Nat) (hi : i < 15) :
    (create mode size links blocks time).iBlock i = 0 := by
  refine (le32_store (h := by simp) (.inr (by simp))).trans ?_
  refine (setLinksCount_iBlock _ _).trans ?_
  refine (le32_store (h := by simp) (.inr (by simp; omega))).trans ?_
  refine (setSize_iBlock _ _).trans ?_
  refine (le32_store (h := by simp) (.inr (by simp; omega))).trans ?_
  simp only [le32, le16, byteAt_replicate]
  rfl

theorem create_iMode (mode size links blocks time : Nat) :
    (create mode size links blocks time).iMode = u16 mode := by
  refine (le16_store (h := by simp) (.inl (by simp))).trans ?_
  refine (setLinksCount_iMode _).trans ?_
  refine (le16_store (h := by simp) (.inl (by simp))).trans ?_
  refine (setSize_iMode _).trans ?_
  exact le16_put16 (d := List.replicate 256 0) (by rw [List.length_replicate]; decide)

end Inode

/-! ## Volumes -/

/-- A volume handle. `uninit` is the content of memory the driver allocates and
does not initialise. -/
structure EXT2 where
  dev : Blkdev
  sb : SuperBlock
  groups : List GroupDesc
  uninit : Nat → UInt8

namespace EXT2

variable (ext2 : EXT2)

def blockSize : Nat := ext2.sb.blockSize

def groupCount : Nat := ext2.sb.groupCount

/-- `ext2->groups[grpno]`. -/
def group (grpno : Nat) : Out Err GroupDesc := Out.index ext2.groups grpno

/-- `BlockOffset`: the product is computed in 32 bits. -/
def blockOffset (blkno : Nat) : Nat := u32 (blkno * ext2.blockSize)

def makeBlkno (grpno lblkno : Nat) : Nat :=
  u32 (u32 (grpno * ext2.sb.sBlocksPerGroup) + (lblkno + ext2.sb.sFirstDataBlock))

/-- `_BloknoToGrpno`. The difference is taken in 64 bits and the result returned
in 32. -/
def bloknoToGrpno (blkno : Nat) : Nat :=
  let first := ext2.sb.sFirstDataBlock
  if first ≠ 0 ∧ blkno = 0 then 0
  else u32 (u64 (blkno + 2 ^ 64 - first) / ext2.sb.sBlocksPerGroup)

def blknoToLblkno (blkno : Nat) : Nat :=
  let first := ext2.sb.sFirstDataBlock
  if first ≠ 0 ∧ blkno = 0 then 0
  else u32 (u64 (blkno + 2 ^ 64 - first) % ext2.sb.sBlocksPerGroup)

def makeIno (grpno lino : Nat) : Nat :=
  u32 (u32 (grpno * ext2.sb.sInodesPerGroup) + (lino + 1))

def inoToGrpno (ino : Nat) : Nat := if ino = 0 then 0 else (ino - 1) / ext2.sb.sInodesPerGroup

def inoToLino (ino : Nat) : Nat := if ino = 0 then 0 else (ino - 1) % ext2.sb.sInodesPerGroup

/-- The block where the group table starts. -/
def groupTable : Nat := if ext2.blockSize = 1024 then 2 else 1

end EXT2

end LsvmTools.Ext2.Volume
