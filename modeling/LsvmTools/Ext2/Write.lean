import LsvmTools.Ext2.Dir

/-! # Writing file data and rewriting directories

Data goes to the first clear bits of the bitmaps, its block numbers to the inode
and to indirect blocks. A directory is rewritten whole: its records are copied
one after another into a new buffer, which then replaces its blocks. -/
namespace LsvmTools.Ext2.Write
open Lib.ByteString Lib.Program Volume Blocks Dir

/-! ## Data -/

/-- The number of blocks for `size` bytes; the sum is computed in 32 bits. -/
def blockCount (blksize size : Nat) : Nat := u32 (size + blksize - 1) / blksize

/-- The bytes for block `i` of `nblks`. -/
def dataBlock (blksize : Nat) (data : Bytes) (nblks i : Nat) : Bytes :=
  let rem := data.length % blksize
  (data.drop (i * blksize)).take (if i + 1 = nblks ∧ rem ≠ 0 then rem else blksize)

/-- The scan of one bitmap in `_WriteData`: the bitmap and the numbers of the
blocks written so far. -/
def writeDataScan (data : Bytes) (nblks grpno : Nat) (bitmap : Bytes) (blknos : List Nat) :
    List Nat → Prog EXT2 Err (Bytes × List Nat)
  | [] => pure (bitmap, blknos)
  | lblkno :: rest => do
    let ext2 ← Prog.get
    if blknos.length < nblks ∧ !testBit bitmap lblkno then
      let blkno := ext2.makeBlkno grpno lblkno
      writeBlock blkno (dataBlock ext2.blockSize data nblks blknos.length)
      Prog.modify (addFreeBlocks (-1))
      let _ ← Prog.read fun ext2 => ext2.group grpno
      Prog.modify (addGroupFreeBlocks grpno (-1))
      writeDataScan data nblks grpno (setBit bitmap lblkno) (blknos ++ [blkno]) rest
    else writeDataScan data nblks grpno bitmap blknos rest

/-- The loop of `_WriteData` over the groups. -/
def writeDataLoop (data : Bytes) (nblks : Nat) (blknos : List Nat) :
    List Nat → Prog EXT2 Err (List Nat)
  | [] => pure blknos
  | grpno :: rest =>
    if nblks ≤ blknos.length then pure blknos
    else do
      let bitmap ← Prog.read fun ext2 => readBlockBitmap ext2 grpno
      let (bitmap', blknos') ← writeDataScan data nblks grpno bitmap blknos
        (List.range (bitmap.length * 8))
      if blknos.length < blknos'.length then do
        writeGroup grpno
        writeBlockBitmap grpno bitmap'
      else pure ()
      writeDataLoop data nblks blknos' rest

/-- `_WriteData`. -/
def writeData (data : Bytes) : Prog EXT2 Err (List Nat) := do
  let ext2 ← Prog.get
  let nblks := blockCount ext2.blockSize data.length
  let blknos ← writeDataLoop data nblks [] (List.range ext2.groupCount)
  if blknos.length ≠ nblks then exhausted blknos
  else do
    writeSuperBlock
    pure blknos

/-! ## Block pointers -/

/-- `EXT2Block` data of a block that holds `ws` and is zero elsewhere. The array
has 8192 bytes. -/
def pointerBlock (blksize : Nat) (ws : List Nat) : Bytes :=
  (encWords ws ++ List.replicate (8192 - 4 * ws.length) 0).take blksize

/-- `_WriteSingleDirectBlockNumbers`, the number of the block written. -/
def writeSingleDirectBlockNumbers (blknos : List Nat) : Prog EXT2 Err Nat := do
  let ext2 ← Prog.get
  if blknos.isEmpty then Prog.throw .invalidParameter
  else if blknos.length > ext2.blockSize / 4 then Prog.throw .bufferOverflow
  else do
    let blkno ← getBlock
    writeBlock blkno (pointerBlock ext2.blockSize blknos)
    pure blkno

/-- Split into pieces of `n`, the last one possibly shorter. -/
def pieces (n : Nat) : Nat → List Nat → List (List Nat)
  | 0, _ => []
  | fuel + 1, l => if l.isEmpty then [] else l.take n :: pieces n fuel (l.drop n)

/-- Write every piece with `write` and collect the block numbers. -/
def writePieces (write : List Nat → Prog EXT2 Err Nat) : List (List Nat) → Prog EXT2 Err (List Nat)
  | [] => pure []
  | p :: ps => do
    let blkno ← write p
    let rest ← writePieces write ps
    pure (blkno :: rest)

/-- The array of block numbers in `EXT2Block` data has 2048 places. -/
def writeAllPieces (perPiece : Nat) (write : List Nat → Prog EXT2 Err Nat) (blknos : List Nat) :
    Prog EXT2 Err (List Nat) := do
  let ws ← writePieces write (pieces perPiece blknos.length blknos)
  if 2048 < ws.length then Prog.stuck else pure ws

/-- The common part of the double and the triple case of
`_WriteIndirectBlockNumbers`. -/
def writeIndirect (perPiece : Nat) (write : List Nat → Prog EXT2 Err Nat)
    (blknos : List Nat) : Prog EXT2 Err Nat := do
  let ext2 ← Prog.get
  let blkno ← getBlock
  let ws ← writeAllPieces perPiece write blknos
  writeBlock blkno (pointerBlock ext2.blockSize ws)
  pure blkno

/-- `_WriteIndirectBlockNumbers` with double indirection. -/
def writeDoubleIndirect (blknos : List Nat) : Prog EXT2 Err Nat := do
  let ext2 ← Prog.get
  let perBlock := ext2.blockSize / 4
  if blknos.isEmpty then Prog.throw .invalidParameter
  else if blknos.length > u32 (perBlock * perBlock) then Prog.throw .bufferOverflow
  else writeIndirect perBlock writeSingleDirectBlockNumbers blknos

/-- `_WriteIndirectBlockNumbers` with triple indirection. -/
def writeTripleIndirect (blknos : List Nat) : Prog EXT2 Err Nat := do
  let ext2 ← Prog.get
  let perBlock := ext2.blockSize / 4
  if blknos.isEmpty then Prog.throw .invalidParameter
  else writeIndirect (u32 (perBlock * perBlock)) writeDoubleIndirect blknos

/-- One indirect slot of `_UpdateInodeBlockPointers`: nothing is assigned when no
numbers are left. -/
def updateSlot (slot : Nat) (write : List Nat → Prog EXT2 Err Nat) (blknos : List Nat)
    (inode : Inode) : Prog EXT2 Err Inode :=
  if blknos.isEmpty then pure inode
  else do
    let blkno ← write blknos
    pure (inode.setBlocks slot [blkno])

/-- `_UpdateInodeBlockPointers`. Slots of `i_block` for which there is no number
keep what they hold. -/
def updateInodeBlockPointers (ino : Nat) (inode : Inode) (size : Nat) (blknos : List Nat) :
    Prog EXT2 Err Unit := do
  let ext2 ← Prog.get
  let perBlock := ext2.blockSize / 4
  let perDouble := u32 (perBlock * perBlock)
  let inode := (inode.setSize size).setBlocks 0 (blknos.take 12)
  let rest := blknos.drop 12
  let inode ← updateSlot 12 writeSingleDirectBlockNumbers (rest.take perBlock) inode
  let rest := rest.drop perBlock
  let inode ← updateSlot 13 writeDoubleIndirect (rest.take perDouble) inode
  let inode ← updateSlot 14 writeTripleIndirect (rest.drop perDouble) inode
  writeInode ino inode

/-! ## Scanning a directory -/

/-- `_CountDirectoryEntries`: the loop. A record length of 0 never ends it. -/
def countDirectoryEntriesFrom (mem : Bytes) (size : Nat) : Nat → Nat → Out Err Nat
  | 0, pos => if pos < size then .stuck else if pos = size then pure 0 else .err .extraneousData
  | fuel + 1, pos =>
    if size ≤ pos then (if pos = size then pure 0 else .err .extraneousData)
    else do
      let head ← headAt mem pos
      let n ← countDirectoryEntriesFrom mem size fuel (pos + head.recLen)
      pure (if head.nameLen ≠ 0 then n + 1 else n)

/-- `_CountDirectoryEntries`. -/
def countDirectoryEntries (ext2 : EXT2) (mem : Bytes) (size : Nat) : Out Err Nat :=
  if mem.isEmpty ∨ size = 0 then .err .invalidParameter
  else if size % ext2.blockSize ≠ 0 then .err .badMultiple
  else countDirectoryEntriesFrom mem size size 0

/-- `_CheckDirectoryEntries`: the loop. -/
def checkDirectoryEntriesFrom (blksize : Nat) (mem : Bytes) (size : Nat) :
    Nat → Nat → Out Err Unit
  | 0, pos => if pos < size then .stuck else if pos = size then pure () else .err .failed
  | fuel + 1, pos =>
    if size ≤ pos then (if pos = size then pure () else .err .failed)
    else do
      let head ← headAt mem pos
      if recSize head.nameLen ≠ head.recLen ∧ blksize - pos % blksize ≠ head.recLen then
        .err .failed
      else checkDirectoryEntriesFrom blksize mem size fuel (pos + head.recLen)

/-- `_CheckDirectoryEntries`. -/
def checkDirectoryEntries (ext2 : EXT2) (mem : Bytes) (size : Nat) : Out Err Unit :=
  if size % ext2.blockSize ≠ 0 then .err .failed
  else checkDirectoryEntriesFrom ext2.blockSize mem size size 0

/-- `_FindDirectoryEntry`: the loop, the offset of the record found. -/
def findDirectoryEntryFrom (name : Bytes) (mem : Bytes) (size : Nat) :
    Nat → Nat → Out Err (Option Nat)
  | 0, pos => if pos < size then .stuck else pure none
  | fuel + 1, pos =>
    if size ≤ pos then pure none
    else do
      let head ← headAt mem pos
      let tmp ← nameAt mem pos head.nameLen
      if tmp = name then pure (some pos)
      else findDirectoryEntryFrom name mem size fuel (pos + head.recLen)

/-- `_FindDirectoryEntry`. -/
def findDirectoryEntry (name : Bytes) (mem : Bytes) (size : Nat) : Out Err (Option Nat) :=
  findDirectoryEntryFrom name mem size size 0

/-! ## Rebuilding a directory -/

/-- The buffer a directory is rebuilt in: the bytes of the allocation, how far it
is filled, and the last record. -/
structure Packer where
  data : Bytes
  dest : Nat
  prev : Option Nat

namespace Packer

/-- An empty buffer of `size` bytes. -/
def init (size : Nat) : Packer := ⟨List.replicate size 0, 0, none⟩

/-- Lengthen the record at `prev` by `rem`, to end where the block does. -/
def extend (pk : Packer) (prev rem : Nat) : Out Err Packer :=
  if prev + 8 ≤ pk.data.length then
    pure { pk with
      data := put16 pk.data (prev + 4) (u16 (le16 pk.data (prev + 4) + rem))
      dest := pk.dest + rem }
  else .stuck

/-- Write a record of `recLen` bytes: zeroes, then `bytes` over them, then its
length. -/
def place (pk : Packer) (recLen : Nat) (bytes : Bytes) : Out Err Packer :=
  if pk.dest + recLen ≤ pk.data.length ∧ pk.dest + bytes.length ≤ pk.data.length then
    let data := splice pk.data pk.dest (List.replicate recLen 0)
    pure ⟨put16 (splice data pk.dest bytes) (pk.dest + 4) recLen, pk.dest + recLen, some pk.dest⟩
  else .stuck

/-- Append a record for a name of `nameLen` characters. There is no result where
the record does not fit the block and no record is before it. -/
def append (blksize : Nat) (pk : Packer) (nameLen : Nat) (bytes : Bytes) :
    Out Err (Option Packer) :=
  let recLen := recSize nameLen
  let offset := pk.dest % blksize
  if offset + recLen > blksize then
    match pk.prev with
    | none => pure none
    | some prev => do
      let pk ← pk.extend prev (blksize - offset)
      let pk ← pk.place recLen bytes
      pure (some pk)
  else do
    let pk ← pk.place recLen bytes
    pure (some pk)

/-- Set the final record to end at the end of its block. -/
def finish (blksize : Nat) (pk : Packer) : Out Err Packer :=
  match pk.prev with
  | none => pure pk
  | some prev => pk.extend prev (blksize - pk.dest % blksize)

end Packer

/-- The bytes `[pos, pos + n)` of a buffer. -/
def bytesAt (mem : Bytes) (pos n : Nat) : Out Err Bytes :=
  if pos + n ≤ mem.length then pure ((mem.drop pos).take n) else .stuck

/-- `_AppendDirectoryEntry`: of a record only its header and its name are
copied. -/
def appendDirectoryEntry (blksize : Nat) (pk : Packer) (mem : Bytes) (pos : Nat) :
    Out Err Packer := do
  let head ← headAt mem pos
  let bytes ← bytesAt mem pos (8 + head.nameLen)
  match ← pk.append blksize head.nameLen bytes with
  | some pk => pure pk
  | none => .err .failed

/-- The copying loop of `_IndexDirectoryToLinkedListDirectory`. -/
def copyEntries (blksize : Nat) (mem : Bytes) (size : Nat) :
    Nat → Nat → Packer → Out Err Packer
  | 0, pos, pk => if pos < size then .stuck else pure pk
  | fuel + 1, pos, pk =>
    if size ≤ pos then pure pk
    else do
      let head ← headAt mem pos
      let pk ← appendDirectoryEntry blksize pk mem pos
      copyEntries blksize mem size fuel (pos + head.recLen) pk

/-- `_IndexDirectoryToLinkedListDirectory` with an entry to add and none to
remove. -/
def indexDirectoryToLinkedListDirectory (ext2 : EXT2) (newEnt : Bytes) (mem : Bytes)
    (size : Nat) : Out Err Packer :=
  if mem.isEmpty ∨ size = 0 then .err .invalidParameter
  else do
    let pk ← copyEntries ext2.blockSize mem size size 0 (Packer.init size)
    let pk ← appendDirectoryEntry ext2.blockSize pk newEnt 0
    let pk ← pk.finish ext2.blockSize
    -- `*new_size` has 32 bits
    let newSize := u32 pk.dest
    checkDirectoryEntries ext2 pk.data newSize
    pure { pk with dest := newSize }

/-- The copying loop of `EXT2Rm`. It copies `sizeof(EXT2DirEntry) + name_len`
bytes of every record but the one at `ent`. -/
def rmEntries (blksize : Nat) (mem : Bytes) (size ent : Nat) :
    Nat → Nat → Packer → Out Err (Option Packer)
  | 0, pos, pk => if pos < size then .stuck else pure (some pk)
  | fuel + 1, pos, pk =>
    if size ≤ pos then pure (some pk)
    else do
      let head ← headAt mem pos
      if pos = ent then rmEntries blksize mem size ent fuel (pos + head.recLen) pk
      else do
        let bytes ← bytesAt mem pos (264 + head.nameLen)
        match ← pk.append blksize head.nameLen bytes with
        | some pk => rmEntries blksize mem size ent fuel (pos + head.recLen) pk
        | none => pure none

/-! ## Replacing the data of an inode -/

/-- `_UpdateInodeDataBlocks`. -/
def updateInodeDataBlocks (ino : Nat) (inode : Inode) (data : Bytes) (isDir : Bool) :
    Prog EXT2 Err Unit := do
  let blknos ← writeData data
  let count ← Prog.read fun ext2 =>
    if isDir then countDirectoryEntries ext2 data data.length else pure 0
  updateInodeBlockPointers ino (inode.setOsd1 (count + 1)) data.length blknos

end LsvmTools.Ext2.Write
