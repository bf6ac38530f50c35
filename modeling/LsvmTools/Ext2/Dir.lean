import LsvmTools.Ext2.Blocks
import LsvmTools.Strings

/-! # Files, directories and paths

A file is loaded into a buffer that may be longer than the file; a directory is
such a buffer read as a chain of records linked by `rec_len`. -/
namespace LsvmTools.Ext2.Dir
open Lib.ByteString Lib.Program Volume Blocks Strings

/-! ## Loading files -/

/-- The data pointer and the size that loading a file returns. The pointer is
`NULL` where `mem` is empty. -/
structure FileData where
  mem : Bytes
  size : Nat
deriving DecidableEq

/-- The maximal runs of consecutive block numbers: first number and length. -/
def runs : List Nat → List (Nat × Nat)
  | [] => []
  | blkno :: rest =>
    match runs rest with
    | (next, n) :: tail => if next = u32 (blkno + 1) then (blkno, n + 1) :: tail
        else (blkno, 1) :: (next, n) :: tail
    | [] => [(blkno, 1)]

/-- The loading loop. A failure of `_ReadBlocks` is not stored in `err`: nothing
is delivered, without an error. -/
def loadRuns (ext2 : EXT2) (buf : Buf) : List (Nat × Nat) → Out Err (Option Buf)
  | [] => pure (some buf)
  | (blkno, nblks) :: rest =>
    if nblks = 1 then do
      let block ← readBlock ext2 blkno
      loadRuns ext2 (buf.append block) rest
    else
      match readBlocks ext2 blkno nblks with
      | .ok bytes => loadRuns ext2 (buf.append bytes) rest
      | .err _ => pure none
      | .stuck => .stuck

/-- `EXT2LoadFileFromInode`. -/
def loadFileFromInode (ext2 : EXT2) (inode : Inode) : Out Err FileData := do
  let blknos ← loadBlockNumbersFromInode ext2 inode false
  match ← loadRuns ext2 Buf.empty (runs blknos) with
  | some buf => pure ⟨buf.memory ext2.uninit, inode.iSize⟩
  | none => pure ⟨[], 0⟩

/-! ## Directory records -/

/-- The fixed part of `EXT2DirEntry`. -/
structure Head where
  inode : Nat
  recLen : Nat
  nameLen : Nat
  fileType : Nat
deriving DecidableEq

/-- The header of the record at `pos`. -/
def headAt (mem : Bytes) (pos : Nat) : Out Err Head :=
  if pos + 8 ≤ mem.length then
    pure ⟨le32 mem pos, le16 mem (pos + 4), (byteAt mem (pos + 6)).toNat,
      (byteAt mem (pos + 7)).toNat⟩
  else .stuck

/-- The name of the record at `pos`, copied to a string. -/
def nameAt (mem : Bytes) (pos nameLen : Nat) : Out Err Bytes :=
  if pos + 8 + nameLen ≤ mem.length then pure (cstr ((mem.drop (pos + 8)).take nameLen))
  else .stuck

/-- The space a record with a name of this length takes. -/
def recSize (nameLen : Nat) : Nat := (8 + nameLen + 3) / 4 * 4

structure DirEnt where
  dIno : Nat
  dType : Nat
  dName : Bytes
deriving DecidableEq

/-- The `EXT2_DT_*` value for an `EXT2_FT_*` value. -/
def dirType : Nat → Nat
  | 1 => 8
  | 2 => 4
  | 3 => 2
  | 4 => 6
  | 5 => 1
  | 6 => 12
  | 7 => 10
  | _ => 0

/-- What repeated calls of `EXT2ReadDir` deliver from `pos` on. Every record moves
on by at least one byte, so `size` steps reach the end. -/
def readDirFrom (mem : Bytes) (size : Nat) : Nat → Nat → Out Err (List DirEnt)
  | 0, _ => pure []
  | fuel + 1, pos =>
    if size ≤ pos then pure []
    else do
      let head ← headAt mem pos
      if head.recLen = 0 then pure []
      else if head.nameLen = 0 then readDirFrom mem size fuel (pos + head.recLen)
      else do
        let name ← nameAt mem pos head.nameLen
        let rest ← readDirFrom mem size fuel (pos + head.recLen)
        pure (⟨head.inode, dirType head.fileType, name⟩ :: rest)

/-- All entries of an open directory. -/
def readDir (dir : FileData) : Out Err (List DirEnt) :=
  if dir.mem.isEmpty then pure [] else readDirFrom dir.mem dir.size dir.size 0

/-- `EXT2OpenDirIno`. -/
def openDirIno (ext2 : EXT2) (ino : Nat) : Out Err FileData :=
  if ino = 0 then .err .failed
  else Out.mapErr (fun _ => Err.failed) do
    let inode ← readInode ext2 ino
    if !inode.isDir then .err .failed else loadFileFromInode ext2 inode

/-- `EXT2ListDirInode`. -/
def listDirInode (ext2 : EXT2) (ino : Nat) : Out Err (List DirEnt) :=
  if ino = 0 then .err .invalidParameter
  else do
    let dir ← openDirIno ext2 ino
    readDir dir

/-- `_CountDirectoryEntriesIno`. -/
def countDirectoryEntriesIno (ext2 : EXT2) (ino : Nat) : Out Err Nat :=
  if ino = 0 then .err .invalidParameter
  else do
    let dir ← openDirIno ext2 ino
    let entries ← readDir dir
    pure entries.length

/-! ## Paths -/

/-- The entry for the next component of a path: only the last component may name
something that is not a directory. -/
def isMatch (last : Bool) (name : Bytes) (ent : DirEnt) : Bool :=
  (last || ent.dType = 4) && ent.dName = name

/-- The loop of `EXT2PathToIno` over the components. -/
def walk (ext2 : EXT2) (ino : Nat) : List Bytes → Out Err Nat
  | [] => pure ino
  | name :: rest => do
    let entries ← listDirInode ext2 ino
    match entries.find? (isMatch rest.isEmpty name) with
    | some ent => if ent.dIno = 0 then .err .fileNotFound else walk ext2 ent.dIno rest
    | none => .err .fileNotFound

/-- `EXT2PathToIno`. The root counts as one of the 32 elements. -/
def pathToIno (ext2 : EXT2) (path : Bytes) : Out Err Nat :=
  if 256 ≤ path.length then .err .pathTooLong
  else if path.head? ≠ some slash then .err .invalidParameter
  else if 32 < (strtok path).length + 1 then .err .bufferOverflow
  else walk ext2 2 (strtok path)

/-- `EXT2PathToInode`. -/
def pathToInode (ext2 : EXT2) (path : Bytes) : Out Err (Nat × Inode) := do
  let ino ← pathToIno ext2 path
  let inode ← readInode ext2 ino
  pure (ino, inode)

/-- `EXT2LoadFileFromPath`. -/
def loadFileFromPath (ext2 : EXT2) (path : Bytes) : Out Err FileData :=
  Out.mapErr (fun _ => Err.failed) do
    let (_, inode) ← pathToInode ext2 path
    loadFileFromInode ext2 inode

/-- `_SplitFullPath`: the directory and the last component. -/
def splitFullPath (path : Bytes) : Out Err (Bytes × Bytes) :=
  let base := afterLastSlash path
  let index := path.length - base.length - 1
  if path.head? ≠ some slash then .err .failed
  else if path = [slash] then pure ([slash], [slash])
  else if base.isEmpty then .err .failed
  else pure (if index = 0 then [slash] else path.take (min index 255), strlcpy base 256)

end LsvmTools.Ext2.Dir
