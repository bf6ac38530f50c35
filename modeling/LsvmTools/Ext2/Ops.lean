import LsvmTools.Ext2.Write

/-! # The operations that change a volume

`EXT2Trunc`, `EXT2Update`, `EXT2Rm`, `EXT2Put` and `EXT2MkDir`. Returning
normally is `EXT2_ERR_NONE`. A jump to `done` right after a successful call
leaves that call's `EXT2_ERR_NONE` in `err`, so it returns normally too. -/
namespace LsvmTools.Ext2.Ops
open Lib.ByteString Lib.Program Volume Blocks Dir Write

/-- `EXT2Trunc`. The refusal of a directory leaves `err` as it is. -/
def trunc (path : Bytes) : Prog EXT2 Err Unit := do
  let (dirname, _) ← Prog.read fun _ => splitFullPath path
  let _ ← Prog.read fun ext2 => pathToInode ext2 dirname
  let (fileIno, fileInode) ← Prog.read fun ext2 => pathToInode ext2 path
  let blknos ← Prog.read fun ext2 => loadBlockNumbersFromInode ext2 fileInode true
  if fileInode.isDir then pure ()
  else do
    putBlocks blknos
    writeInode fileIno ((fileInode.setSize 0).setBlocks 0 (List.replicate 15 0))
    writeSuperBlock

/-- `EXT2Update`. -/
def update (data path : Bytes) : Prog EXT2 Err Unit := do
  trunc path
  let (ino, inode) ← Prog.read fun ext2 => pathToInode ext2 path
  updateInodeDataBlocks ino inode data false

/-! ## Removing -/

/-- The part of `EXT2Rm` that looks at a directory to be removed: whether it holds
just two entries. The directory is looked up by its bare name. -/
def rmAllowed (ext2 : EXT2) (filename : Bytes) (fileType : Nat) : Out Err Bool :=
  if fileType ≠ 2 then pure true
  else do
    let (dirIno, _) ← pathToInode ext2 filename
    let count ← countDirectoryEntriesIno ext2 dirIno
    pure (count = 2)

/-- The part of `EXT2Rm` that builds the new directory: the bytes of it, or nothing
where the copying loop gives up. -/
def rmBuild (ext2 : EXT2) (blocks : FileData) (size ent : Nat) : Out Err (Option Bytes) := do
  match ← rmEntries ext2.blockSize blocks.mem size ent size 0 (Packer.init blocks.size) with
  | none => pure none
  | some pk => do
    let pk ← pk.finish ext2.blockSize
    checkDirectoryEntries ext2 pk.data pk.dest
    let _ ← countDirectoryEntries ext2 blocks.mem blocks.size
    let _ ← countDirectoryEntries ext2 pk.data pk.dest
    let newBlocks ← bytesAt pk.data 0 pk.dest
    pure (some newBlocks)

/-- `EXT2Rm`. -/
def rm (path : Bytes) : Prog EXT2 Err Unit := do
  trunc path
  let (dirname, filename) ← Prog.read fun _ => splitFullPath path
  let (ino, inode) ← Prog.read fun ext2 => pathToInode ext2 dirname
  let blocks ← Prog.read fun ext2 => loadFileFromInode ext2 inode
  let blknos ← Prog.read fun ext2 => loadBlockNumbersFromInode ext2 inode true
  match ← Prog.read fun _ => findDirectoryEntry filename blocks.mem blocks.size with
  | none => pure ()
  | some ent => do
    let head ← Prog.read fun _ => headAt blocks.mem ent
    let allowed ← Prog.read fun ext2 => rmAllowed ext2 filename head.fileType
    if !allowed then pure ()
    else do
      match ← Prog.read fun ext2 => rmBuild ext2 blocks inode.iSize ent with
      | none => pure ()
      | some newBlocks => do
        putBlocks blknos
        updateInodeDataBlocks ino inode newBlocks true

/-! ## Creating -/

/-- `_CreateFileInode`. The array of block numbers is `NULL` when it is empty. -/
def createFileInode (data : Bytes) (mode : Nat) (blknos : List Nat) (time : Nat) :
    Prog EXT2 Err Nat := do
  let ext2 ← Prog.get
  if blknos.isEmpty then Prog.throw .invalidParameter
  else do
    let inode := Inode.create mode data.length 1 (u32 (blknos.length * ext2.blockSize) / 512) time
    let ino ← getIno
    updateInodeBlockPointers ino inode data.length blknos
    pure ino

/-- A directory record: header and name. -/
def dirEntry (inode recLen nameLen fileType : Nat) (name : Bytes) : Bytes :=
  enc32 inode ++ enc16 recLen ++ [UInt8.ofNat nameLen, UInt8.ofNat fileType] ++ name

/-- The block of a new directory: `.` and `..`, the latter up to the end of the
block. Their type is `EXT2_DT_DIR`. -/
def dotBlock (blksize ino parentIno : Nat) : Bytes :=
  let dot1 := dirEntry ino 12 1 4 [46, 0, 0, 0]
  let dot2 := dirEntry parentIno (u16 (12 + (blksize - 24))) 2 4 [46, 46, 0, 0]
  (dot1 ++ dot2 ++ List.replicate (8192 - 24) 0).take blksize

/-- `_CreateDirInodeAndBlock`. -/
def createDirInodeAndBlock (parentIno mode time : Nat) : Prog EXT2 Err Nat := do
  let ext2 ← Prog.get
  if mode = 0 ∨ parentIno = 0 then Prog.throw .invalidParameter
  else do
    let inode := Inode.create mode ext2.blockSize 2 (ext2.blockSize / 512) time
    let ino ← getIno
    let blkno ← getBlock
    writeBlock blkno (dotBlock ext2.blockSize ino parentIno)
    updateInodeBlockPointers ino inode ext2.blockSize [blkno]
    pure ino

/-- The directory with an entry added, as `_AddDirectoryEntry` builds it. Nothing
is delivered where the number of entries did not grow by one. -/
def addBuild (ext2 : EXT2) (dirInode : Inode) (filename newEnt : Bytes) (blocks : FileData) :
    Out Err (Option Bytes) := do
  match ← findDirectoryEntry filename blocks.mem blocks.size with
  | some _ => .err .fileNotFound
  | none => do
    let pk ← indexDirectoryToLinkedListDirectory ext2 newEnt blocks.mem dirInode.iSize
    let count ← countDirectoryEntries ext2 blocks.mem blocks.size
    let newCount ← countDirectoryEntries ext2 pk.data pk.dest
    let newBlocks ← bytesAt pk.data 0 pk.dest
    pure (if u32 (count + 1) ≠ newCount then none else some newBlocks)

/-- `_AddDirectoryEntry`. -/
def addDirectoryEntry (dirIno : Nat) (dirInode : Inode) (filename newEnt : Bytes) :
    Prog EXT2 Err Unit := do
  let blocks ← Prog.read fun ext2 => loadFileFromInode ext2 dirInode
  let blknos ← Prog.read fun ext2 => loadBlockNumbersFromInode ext2 dirInode true
  match ← Prog.read fun ext2 => addBuild ext2 dirInode filename newEnt blocks with
  | none => pure ()
  | some newBlocks => do
    putBlocks blknos
    updateInodeDataBlocks dirIno dirInode newBlocks true

/-- The record for a new name. -/
def newEntry (ino fileType : Nat) (filename : Bytes) : Bytes :=
  let nameLen := filename.length % 256
  dirEntry ino (recSize nameLen) nameLen fileType filename

/-- The part of `EXT2Put` after an existing target has been dealt with. -/
def putNew (data : Bytes) (filename : Bytes) (mode time dirIno : Nat) (dirInode : Inode) :
    Prog EXT2 Err Unit := do
  let blknos ← writeData data
  let fileIno ← createFileInode data mode blknos time
  addDirectoryEntry dirIno dirInode filename (newEntry fileIno 1 filename)

/-- `EXT2Put`. An existing file that is not a directory ends it. -/
def put (data path : Bytes) (mode time : Nat) : Prog EXT2 Err Unit :=
  if data.isEmpty then Prog.throw .invalidParameter
  else if Inode.modeIsDir mode then Prog.throw .failed
  else do
    let (dirname, filename) ← Prog.read fun _ => splitFullPath path
    let (dirIno, dirInode) ← Prog.read fun ext2 => pathToInode ext2 dirname
    let ext2 ← Prog.get
    match pathToInode ext2 path with
    | .stuck => Prog.stuck
    | .err _ => putNew data filename mode time dirIno dirInode
    | .ok (_, fileInode) =>
      if !fileInode.isDir then pure ()
      else do
        rm path
        putNew data filename mode time dirIno dirInode

/-- `EXT2MkDir`. -/
def mkDir (path : Bytes) (mode time : Nat) : Prog EXT2 Err Unit :=
  if mode = 0 then Prog.throw .invalidParameter
  else if !Inode.modeIsDir mode then Prog.throw .invalidParameter
  else do
    let (dirname, basename) ← Prog.read fun _ => splitFullPath path
    let (dirIno, dirInode) ← Prog.read fun ext2 => pathToInode ext2 dirname
    let ext2 ← Prog.get
    match pathToInode ext2 path with
    | .stuck => Prog.stuck
    | .ok _ => pure ()
    | .err _ => do
      let baseIno ← createDirInodeAndBlock dirIno mode time
      addDirectoryEntry dirIno (dirInode.setLinksCount (dirInode.iLinksCount + 1)) basename
        (newEntry baseIno 2 basename)

end LsvmTools.Ext2.Ops
