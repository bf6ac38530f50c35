import LsvmTools.Ext2.DeviceExact
import LsvmTools.Ext2.Dir

/-! # Opening a volume

`EXT2New` takes the superblock as it is on the device, computes the block size and the number
of groups from it, and reads the group table and the root inode. What C leaves undefined is
stuck: a shift by `s_log_block_size` that leaves an `int`, and a division by zero. -/
namespace LsvmTools.Ext2.Open
open Lib.ByteString Lib.Program BlockDevice Volume Blocks

inductive OpenErr where
  | badMagic
  | unsupportedRevision
  | unexpected
  | failedToReadSuperblock
  | failedToReadGroups
  | failedToReadInode
deriving DecidableEq

/-- `EXT2_BASE_OFFSET` and `sizeof(EXT2SuperBlock)`. -/
def baseOffset : Nat := 1024

/-- `EXT2_ROOT_INO`. -/
def rootIno : Nat := 2

/-- The bytes of an `EXT2GroupDesc`. -/
def groupDesc (b : Bytes) : GroupDesc :=
  ⟨b.take 32 ++ List.replicate (32 - (b.take 32).length) 0, by
    simp only [List.length_append, List.length_replicate, List.length_take]; omega⟩

/-- An array of group descriptors. -/
def groupDescs (b : Bytes) : List GroupDesc :=
  (List.range (b.length / 32)).map fun i => groupDesc (b.drop (32 * i))

/-- The tests that `EXT2New` makes of a superblock. -/
def rejected (raw : Bytes) : Option OpenErr :=
  if le16 raw 56 ≠ 0xEF53 then some .badMagic
  else if le32 raw 76 = 0 then some .unsupportedRevision
  else if 256 < le16 raw 88 then some .unexpected
  else none

/-- `block_size`, from a shift that does not leave an `int`. -/
def rawBlockSize (raw : Bytes) : Nat := 1024 * 2 ^ le32 raw 24

/-- `group_count`. -/
def rawGroupCount (raw : Bytes) : Nat := u32 (1 + u32 (le32 raw 4 + 2 ^ 32 - 1) / le32 raw 32)

/-- `_ReadGroups`. -/
def readGroups (dev : Blkdev) (raw : Bytes) : Option (List GroupDesc) :=
  let groupsSize := u32 (rawGroupCount raw * 32)
  let blkno := if rawBlockSize raw = 1024 then 2 else 1
  (Device.read dev (u32 (blkno * rawBlockSize raw)) groupsSize).map groupDescs

/-- The last step of `EXT2New`: read the root inode. -/
def openRoot (ext2 : EXT2) : Out OpenErr EXT2 :=
  match readInode ext2 rootIno with
  | .ok _ => .ok ext2
  | .err _ => .err .failedToReadInode
  | .stuck => .stuck

/-- `EXT2New` after its tests. The division by `s_inodes_per_group` comes last. -/
def openVolume (dev : Blkdev) (uninit : Nat → UInt8) (raw : Bytes) : Out OpenErr EXT2 :=
  if h : raw.length = 1024 ∧ le16 raw 56 = 0xEF53 ∧ le16 raw 88 ≤ 256 ∧ le32 raw 24 < 21 ∧
      0 < le32 raw 32 then
    match readGroups dev raw with
    | none => .err .failedToReadGroups
    | some groups =>
      if hi : 0 < le32 raw 40 then
        openRoot ⟨dev, ⟨raw, h.1, h.2.1, h.2.2.2.1, h.2.2.2.2, hi, h.2.2.1⟩, groups, uninit⟩
      else .stuck
  else .stuck

/-- `EXT2New`. -/
def ext2New (dev : Blkdev) (uninit : Nat → UInt8) : Out OpenErr EXT2 :=
  match Device.read dev baseOffset 1024 with
  | none => .err .failedToReadSuperblock
  | some raw =>
    match rejected raw with
    | some e => .err e
    | none => openVolume dev uninit raw

/-- `EXT2BlknoToLBA`. -/
def blknoToLBA (ext2 : EXT2) (blkno : Nat) : Nat := ext2.blockOffset blkno / 512

/-! ## Small images -/

/-- A superblock of revision 1 with 128 bytes for an inode and 8 inodes in a group. -/
def superBlock (blocksCount logBlockSize blocksPerGroup : Nat) : Bytes :=
  enc32 0 ++ enc32 blocksCount ++ List.replicate 16 0 ++ enc32 logBlockSize ++ enc32 0 ++
    enc32 blocksPerGroup ++ enc32 0 ++ enc32 8 ++ List.replicate 12 0 ++ enc16 0xEF53 ++
    List.replicate 18 0 ++ enc32 1 ++ List.replicate 8 0 ++ enc16 128

/-- A device of 8 sectors with nothing but a superblock. -/
def image (raw : Bytes) : Blkdev :=
  ⟨8, fun a => if 1024 ≤ a then byteAt raw (a - 1024) else 0, fun _ => true, fun _ => true⟩

end LsvmTools.Ext2.Open
