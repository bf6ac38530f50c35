import LsvmTools.Ext2.Volume

/-! # Blocks, bitmaps and inodes

Reading and writing the metadata of a volume, and the two allocators. A
function that leaves through its `done` label with the error code of an earlier
successful call still in `err` returns normally: that is why an allocator that
finds nothing delivers the number 0 here instead of failing. -/
namespace LsvmTools.Ext2.Blocks
open Lib.ByteString Lib.Program BlockDevice Volume

/-! ## Bits -/

def testBit (data : Bytes) (index : Nat) : Bool :=
  (byteAt data (index / 8)).toNat.testBit (index % 8)

def setBit (data : Bytes) (index : Nat) : Bytes :=
  data.modify (index / 8) fun b => b ||| 1 <<< UInt8.ofNat (index % 8)

def clearBit (data : Bytes) (index : Nat) : Bytes :=
  data.modify (index / 8) fun b => b &&& ~~~(1 <<< UInt8.ofNat (index % 8))

def countBits (byte : UInt8) : Nat := (List.range 8).countP fun i => byte.toNat.testBit i

def countBitsN (data : Bytes) : Nat := (data.map countBits).sum

/-- The first clear bit of a bitmap. -/
def firstClear (bitmap : Bytes) : Option Nat :=
  (List.range (bitmap.length * 8)).find? fun i => !testBit bitmap i

/-! ## Device access -/

/-- Run a device operation; its failure is the error `e`. -/
def onDevice (e : Err) (m : Prog Blkdev Unit Unit) : Prog EXT2 Err Unit where
  exec ext2 := match m.run ext2.dev with
    | .ok _ dev => .ok () { ext2 with dev }
    | .err _ dev => .err e { ext2 with dev }
    | .stuck => .stuck

section OnDevice

variable {s : EXT2} {e : Err} {m : Prog Blkdev Unit Unit} {dev : Blkdev}

theorem onDevice_ok (h : m.run s.dev = .ok () dev) :
    (onDevice e m).run s = .ok () { s with dev } := by
  simp only [Prog.run, onDevice] at h ⊢
  rw [h]

theorem onDevice_err (h : m.run s.dev = .err () dev) :
    (onDevice e m).run s = .err e { s with dev } := by
  simp only [Prog.run, onDevice] at h ⊢
  rw [h]

theorem onDevice_stuck (h : m.run s.dev = .stuck) : (onDevice e m).run s = .stuck := by
  simp only [Prog.run, onDevice] at h ⊢
  rw [h]

end OnDevice

/-- `EXT2ReadBlock`. -/
def readBlock (ext2 : EXT2) (blkno : Nat) : Out Err Bytes :=
  if ext2.blockSize > 8192 then .err .bufferOverflow
  else Out.ofOption .readFailed (Device.read ext2.dev (ext2.blockOffset blkno) ext2.blockSize)

/-- `_ReadBlocks`, the bytes it appends. -/
def readBlocks (ext2 : EXT2) (blkno nblks : Nat) : Out Err Bytes :=
  Out.ofOption .readFailed
    (Device.read ext2.dev (ext2.blockOffset blkno) (u32 (nblks * ext2.blockSize)))

/-- `EXT2WriteBlock`. -/
def writeBlock (blkno : Nat) (block : Bytes) : Prog EXT2 Err Unit := do
  let ext2 ← Prog.get
  if block.length > ext2.blockSize then Prog.throw .bufferOverflow
  else onDevice .writeFailed (Device.write (ext2.blockOffset blkno) block)

/-- `_WriteSuperBlock`. -/
def writeSuperBlock : Prog EXT2 Err Unit := do
  let ext2 ← Prog.get
  onDevice .failed (Device.write 1024 ext2.sb.raw)

/-- `_WriteGroup`. -/
def writeGroup (grpno : Nat) : Prog EXT2 Err Unit := do
  let ext2 ← Prog.get
  let group ← Prog.read fun ext2 => ext2.group grpno
  onDevice .writeFailed
    (Device.write (ext2.blockOffset ext2.groupTable + grpno * 32) group.raw)

/-! ## Block numbers of an inode -/

/-- `_AppendDirectBlockNumbers`: the numbers up to the first zero. -/
def directBlockNumbers (blocks : List Nat) : List Nat := blocks.takeWhile (· ≠ 0)

/-- `_AppendIndirectBlockNumbers`. -/
def appendIndirectBlockNumbers (ext2 : EXT2) (blocks : List Nat) (includeBlockBlocks : Bool) :
    Out Err (List Nat) := do
  let own := if includeBlockBlocks then directBlockNumbers blocks else []
  let rest ← Out.gather (fun blockNo => do
    let block ← readBlock ext2 blockNo
    pure (directBlockNumbers (words block))) (directBlockNumbers blocks)
  pure (own ++ rest)

/-- `_AppendDoubleIndirectBlockNumbers`. -/
def appendDoubleIndirectBlockNumbers (ext2 : EXT2) (blocks : List Nat)
    (includeBlockBlocks : Bool) : Out Err (List Nat) := do
  let own := if includeBlockBlocks then directBlockNumbers blocks else []
  let rest ← Out.gather (fun blockNo => do
    let block ← readBlock ext2 blockNo
    appendIndirectBlockNumbers ext2 (words block) includeBlockBlocks) (directBlockNumbers blocks)
  pure (own ++ rest)

/-- One of the three indirect slots of an inode. -/
def loadSlot (ext2 : EXT2) (blockNo : Nat) (includeBlockBlocks : Bool)
    (append : List Nat → Out Err (List Nat)) : Out Err (List Nat) :=
  if blockNo = 0 then pure []
  else do
    let block ← readBlock ext2 blockNo
    let own := if includeBlockBlocks then [blockNo] else []
    let rest ← append (words block)
    pure (own ++ rest)

/-- `_LoadBlockNumbersFromInode`. -/
def loadBlockNumbersFromInode (ext2 : EXT2) (inode : Inode) (includeBlockBlocks : Bool) :
    Out Err (List Nat) := do
  let direct := directBlockNumbers (inode.iBlocks 0 12)
  let single ← loadSlot ext2 (inode.iBlock 12) includeBlockBlocks fun blocks =>
    pure (directBlockNumbers blocks)
  let double ← loadSlot ext2 (inode.iBlock 13) includeBlockBlocks fun blocks =>
    appendIndirectBlockNumbers ext2 blocks includeBlockBlocks
  let triple ← loadSlot ext2 (inode.iBlock 14) includeBlockBlocks fun blocks =>
    appendDoubleIndirectBlockNumbers ext2 blocks includeBlockBlocks
  pure (direct ++ single ++ double ++ triple)

/-! ## Bitmaps

The block bitmap and the inode bitmap of a group are read and written alike. -/

/-- `EXT2ReadBlockBitmap` and `EXT2readReadInodeBitmap`. The range check lets
`group_count` itself through. -/
def readBitmap (blkno : GroupDesc → Nat) (perGroup : SuperBlock → Nat) (ext2 : EXT2)
    (groupIndex : Nat) : Out Err Bytes :=
  if groupIndex > ext2.groupCount then .err .badGrpno
  else do
    let group ← ext2.group groupIndex
    let block ← readBlock ext2 (blkno group)
    pure (block.take (perGroup ext2.sb / 8))

/-- `EXT2WriteBlockBitmap` and `_WriteBlockBitmap` (the latter writes the inode
bitmap). -/
def writeBitmap (blkno : GroupDesc → Nat) (perGroup : SuperBlock → Nat) (groupIndex : Nat)
    (block : Bytes) : Prog EXT2 Err Unit := do
  let ext2 ← Prog.get
  if block.length ≠ perGroup ext2.sb / 8 then Prog.throw .badSize
  else if groupIndex > ext2.groupCount then Prog.throw .badGrpno
  else do
    let group ← Prog.read fun ext2 => ext2.group groupIndex
    writeBlock (blkno group) block

def readBlockBitmap : EXT2 → Nat → Out Err Bytes :=
  readBitmap GroupDesc.bgBlockBitmap SuperBlock.sBlocksPerGroup

def readInodeBitmap : EXT2 → Nat → Out Err Bytes :=
  readBitmap GroupDesc.bgInodeBitmap SuperBlock.sInodesPerGroup

def writeBlockBitmap : Nat → Bytes → Prog EXT2 Err Unit :=
  writeBitmap GroupDesc.bgBlockBitmap SuperBlock.sBlocksPerGroup

def writeInodeBitmap : Nat → Bytes → Prog EXT2 Err Unit :=
  writeBitmap GroupDesc.bgInodeBitmap SuperBlock.sInodesPerGroup

/-! ## Inodes -/

def inodeOffset (ext2 : EXT2) (group : GroupDesc) (ino : Nat) : Nat :=
  ext2.blockOffset group.bgInodeTable + u32 (ext2.inoToLino ino * ext2.sb.sInodeSize)

/-- `EXT2ReadInode`. The part of `EXT2Inode` past `s_inode_size` is not
initialised. -/
def readInode (ext2 : EXT2) (ino : Nat) : Out Err Inode :=
  if ino = 0 then .err .badIno
  else do
    let group ← ext2.group (ext2.inoToGrpno ino)
    let raw ← Out.ofOption .failed
      (Device.read ext2.dev (inodeOffset ext2 group ino) ext2.sb.sInodeSize)
    if h : raw.length ≤ 256 then
      pure ⟨raw ++ readMem ext2.uninit raw.length (256 - raw.length), by simp; omega⟩
    else .stuck

/-- `_WriteInode`. The number 0 fails the assertion on the reverse mapping. -/
def writeInode (ino : Nat) (inode : Inode) : Prog EXT2 Err Unit := do
  let ext2 ← Prog.get
  let group ← Prog.read fun ext2 => ext2.group (ext2.inoToGrpno ino)
  if ext2.makeIno (ext2.inoToGrpno ino) (ext2.inoToLino ino) ≠ ino then Prog.stuck
  else
    onDevice .failed
      (Device.write (inodeOffset ext2 group ino) (inode.raw.take ext2.sb.sInodeSize))

/-! ## Free counters -/

/-- Add `d` to `s_free_blocks_count`, a 32-bit field. -/
def addFreeBlocks (d : Int) (ext2 : EXT2) : EXT2 :=
  let count := ((ext2.sb.sFreeBlocksCount + d) % 2 ^ 32).toNat
  { ext2 with sb := ext2.sb.setFreeBlocksCount count }

def addFreeInodes (d : Int) (ext2 : EXT2) : EXT2 :=
  let count := ((ext2.sb.sFreeInodesCount + d) % 2 ^ 32).toNat
  { ext2 with sb := ext2.sb.setFreeInodesCount count }

/-- Add `d` to `bg_free_blocks_count` of a group, a 16-bit field. -/
def addGroupFreeBlocks (grpno : Nat) (d : Int) (ext2 : EXT2) : EXT2 :=
  let add := fun gd : GroupDesc =>
    gd.setFreeBlocksCount ((gd.bgFreeBlocksCount + d) % 2 ^ 16).toNat
  { ext2 with groups := ext2.groups.modify grpno add }

def addGroupFreeInodes (grpno : Nat) (d : Int) (ext2 : EXT2) : EXT2 :=
  let add := fun gd : GroupDesc =>
    gd.setFreeInodesCount ((gd.bgFreeInodesCount + d) % 2 ^ 16).toNat
  { ext2 with groups := ext2.groups.modify grpno add }

/-! ## Releasing and allocating -/

def checkBlockNumber (ext2 : EXT2) (blkno grpno lblkno : Nat) : Out Err Unit :=
  if ext2.makeBlkno grpno lblkno ≠ blkno then .err .badBlkno
  else if grpno > ext2.groupCount then .err .badGrpno
  else pure ()

/-- `_WriteGroubWithBitmap`. -/
def writeGroupWithBitmap (grpno : Nat) (bitmap : Bytes) : Prog EXT2 Err Unit := do
  writeGroup grpno
  writeBlockBitmap grpno bitmap

/-- The bitmap of `grpno`: the one in hand, or read after the one in hand has
been written. -/
def switchBitmap (inHand : Option (Nat × Bytes)) (grpno : Nat) : Prog EXT2 Err Bytes :=
  match inHand with
  | none => Prog.read fun ext2 => readBlockBitmap ext2 grpno
  | some (prev, bitmap) =>
    if prev = grpno then pure bitmap
    else do
      writeGroupWithBitmap prev bitmap
      Prog.read fun ext2 => readBlockBitmap ext2 grpno

/-- The loop of `_PutBlocks` over the sorted numbers. -/
def putBlocksLoop (inHand : Option (Nat × Bytes)) : List Nat → Prog EXT2 Err Unit
  | [] => pure ()
  | blkno :: rest => do
    let ext2 ← Prog.get
    let grpno := ext2.bloknoToGrpno blkno
    let lblkno := ext2.blknoToLblkno blkno
    Prog.read fun ext2 => checkBlockNumber ext2 blkno grpno lblkno
    let bitmap ← switchBitmap inHand grpno
    if !testBit bitmap lblkno then Prog.throw .sanityCheckFailed
    else do
      let bitmap := clearBit bitmap lblkno
      Prog.modify (addFreeBlocks 1)
      let _ ← Prog.read fun ext2 => ext2.group grpno
      Prog.modify (addGroupFreeBlocks grpno 1)
      if rest.isEmpty then writeGroupWithBitmap grpno bitmap else pure ()
      putBlocksLoop (some (grpno, bitmap)) rest

/-- `_PutBlocks`. -/
def putBlocks (blknos : List Nat) : Prog EXT2 Err Unit := do
  putBlocksLoop none (blknos.mergeSort (· ≤ ·))
  writeSuperBlock

/-- The search of `_GetBlock` and `_GetIno`: the first group whose first clear
bit has a number other than 0, with that bit set. -/
def searchFree (readBitmap : Nat → Out Err Bytes) (make : Nat → Nat → Nat) :
    List Nat → Out Err (Option (Nat × Bytes × Nat))
  | [] => pure none
  | grpno :: rest => do
    let bitmap ← readBitmap grpno
    match firstClear bitmap with
    | some i =>
      if make grpno i ≠ 0 then pure (some (grpno, setBit bitmap i, make grpno i))
      else searchFree readBitmap make rest
    | none => searchFree readBitmap make rest

/-- What an exhausted search returns: `err` is still `EXT2_ERR_FAILED` only when
there was no group to read a bitmap of. -/
def exhausted {α : Type} (a : α) : Prog EXT2 Err α := do
  let ext2 ← Prog.get
  if ext2.groupCount = 0 then Prog.throw .failed else pure a

/-- `_GetBlock`. -/
def getBlock : Prog EXT2 Err Nat := do
  let found ← Prog.read fun ext2 =>
    searchFree (readBlockBitmap ext2) ext2.makeBlkno (List.range ext2.groupCount)
  match found with
  | none => exhausted 0
  | some (grpno, bitmap, blkno) => do
    Prog.modify (addFreeBlocks (-1))
    writeSuperBlock
    Prog.modify (addGroupFreeBlocks grpno (-1))
    writeGroup grpno
    writeBlockBitmap grpno bitmap
    pure blkno

/-- `_GetIno`. -/
def getIno : Prog EXT2 Err Nat := do
  let found ← Prog.read fun ext2 =>
    searchFree (readInodeBitmap ext2) ext2.makeIno (List.range ext2.groupCount)
  match found with
  | none => exhausted 0
  | some (grpno, bitmap, ino) => do
    Prog.modify (addFreeInodes (-1))
    writeSuperBlock
    Prog.modify (addGroupFreeInodes grpno (-1))
    writeGroup grpno
    writeInodeBitmap grpno bitmap
    pure ino

end LsvmTools.Ext2.Blocks
