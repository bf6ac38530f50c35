import LsvmTools.Lib.Loop
import LsvmTools.Strings

/-! # CPIO archives

The functions of `cpio.c` walk an archive by adding up entry sizes, which they read as
hexadecimal numbers into an `int`. An address is counted from the start of the
buffer that holds the archive; memory around the buffer has bytes too. -/
namespace LsvmTools.Cpio
open Lib.ByteString Lib.Program Lib.Loop Strings

/-! ## Integers -/

/-- A conversion to `int`. -/
@[irreducible] def toInt (x : Int) : Int := Int.bmod x (2 ^ 32)

/-- A conversion to `UINTN`. -/
@[irreducible] def toUintn (x : Int) : Int := x % 2 ^ 64

/-- The address that adding a `UINTN` leads to. -/
@[irreducible] def toPtr (x : Int) : Int := Int.bmod x (2 ^ 64)

/-- `_RoundUpToMultiple` of a `UINTN`. -/
def roundUpToMultiple (x m : Int) : Int := toInt (toUintn (x + (m - 1)) / m * m)

/-! ## Memory -/

/-- A buffer of the caller's. -/
structure Buffer where
  data : Bytes
  around : Int → UInt8
  size_lt : data.length < 2 ^ 63

namespace Buffer

def size (b : Buffer) : Int := b.data.length

def peek (b : Buffer) (i : Int) : UInt8 :=
  if 0 ≤ i ∧ i < b.size then byteAt b.data i.toNat else b.around i

def bytes (b : Buffer) (i : Int) (n : Nat) : Bytes := (List.range n).map fun k : Nat => b.peek (i + k)

/-- Whether the string at `i` compares equal (`strcmp`). -/
def strcmpEq (b : Buffer) : Int → Bytes → Bool
  | i, [] => b.peek i = 0
  | i, c :: cs => b.peek i = c && b.strcmpEq (i + 1) cs

/-- How many bytes at `i` the comparison reads. -/
def strcmpReads (b : Buffer) : Int → Bytes → Nat
  | _, [] => 1
  | i, c :: cs => if b.peek i = c then b.strcmpReads (i + 1) cs + 1 else 1

/-- The bytes of the string at `i`. -/
def strlen (b : Buffer) (i : Int) : Exec Unit Nat :=
  Exec.loop (fun n : Nat => pure (if b.peek (i + n) = 0 then .done n else .next (n + 1))) 0

def string (b : Buffer) (i : Int) : Exec Unit CStr := do
  let n ← b.strlen i
  pure ⟨cstr (b.bytes i n), noNul_cstr _⟩

end Buffer

/-- `Memcpy` into a buffer. -/
def memcpy (out : Bytes) (offset : Int) (d : Bytes) : Out Unit Bytes :=
  if 0 ≤ offset ∧ offset + d.length ≤ out.length then pure (splice out offset.toNat d) else .stuck

/-! ## Headers -/

structure CPIOHeader where
  magic : Bytes
  ino : Bytes
  mode : Bytes
  uid : Bytes
  gid : Bytes
  nlink : Bytes
  mtime : Bytes
  filesize : Bytes
  devmajor : Bytes
  devminor : Bytes
  rdevmajor : Bytes
  rdevminor : Bytes
  namesize : Bytes
  check : Bytes
deriving DecidableEq

def CPIOHeader.bytes (x : CPIOHeader) : Bytes :=
  x.magic ++ x.ino ++ x.mode ++ x.uid ++ x.gid ++ x.nlink ++ x.mtime ++ x.filesize ++
    x.devmajor ++ x.devminor ++ x.rdevmajor ++ x.rdevminor ++ x.namesize ++ x.check

/-- The header at `h`. -/
def Buffer.header (b : Buffer) (h : Int) : CPIOHeader where
  magic := b.bytes h 6
  ino := b.bytes (h + 6) 8
  mode := b.bytes (h + 14) 8
  uid := b.bytes (h + 22) 8
  gid := b.bytes (h + 30) 8
  nlink := b.bytes (h + 38) 8
  mtime := b.bytes (h + 46) 8
  filesize := b.bytes (h + 54) 8
  devmajor := b.bytes (h + 62) 8
  devminor := b.bytes (h + 70) 8
  rdevmajor := b.bytes (h + 78) 8
  rdevminor := b.bytes (h + 86) 8
  namesize := b.bytes (h + 94) 8
  check := b.bytes (h + 102) 8

def hexValue (c : UInt8) : Option Int :=
  if 48 ≤ c ∧ c ≤ 57 then some (c.toNat - 48)
  else if 65 ≤ c ∧ c ≤ 70 then some (c.toNat - 65 + 10)
  else none

/-- The loop of `_HexToInt`, from the last digit on. -/
def hexLoop : Bytes → Int → Int → Int
  | [], _, x => x
  | c :: cs, r, x => match hexValue c with
    | none => -1
    | some d => hexLoop cs (toInt (r * 16)) (toInt (x + toInt (r * d)))

/-- `_HexToInt`. -/
def hexToInt (str : Bytes) : Int := hexLoop str.reverse 1 0

/-- `_HexDigit`. -/
def hexDigit (x : Nat) : UInt8 := UInt8.ofNat (if x < 10 then 48 + x else 55 + x)

/-- `_IntToHex`. -/
def intToHex (x : UInt32) : Bytes :=
  [28, 24, 20, 16, 12, 8, 4, 0].map fun k => hexDigit (x.toNat / 2 ^ k % 16)

/-- `CPIOMatchMagicNumber`. -/
def cpioMatchMagicNumber (s : Bytes) : Bool := s = [48, 55, 48, 55, 48, 49]

/-- `_GetFileMode`. -/
def getFileMode (header : CPIOHeader) : Int := hexToInt header.mode

/-- `_GetFileSize`. -/
def getFileSize (header : CPIOHeader) : Int := hexToInt header.filesize

/-- `_GetNameSize`. -/
def getNameSize (header : CPIOHeader) : Int := hexToInt header.namesize

/-- `_GetName`. -/
def getName (h : Int) : Int := h + 110

/-- `CPIOTest`. -/
def cpioTest (b : Buffer) : Bool := 110 ≤ b.data.length && cpioMatchMagicNumber (b.header 0).magic

/-- `CPIOGetEntrySize`. -/
def cpioGetEntrySize (header : CPIOHeader) : Int :=
  let filesize := getFileSize header
  let namesize := getNameSize header
  if filesize = -1 then -1
  else if namesize = -1 then -1
  else toInt (roundUpToMultiple (toUintn (110 + namesize)) 4 +
    roundUpToMultiple (toUintn filesize) 4)

/-- The string `TRAILER!!!`. -/
def trailerName : CStr := ⟨[84, 82, 65, 73, 76, 69, 82, 33, 33, 33], by decide⟩

/-! ## The walk -/

/-- `CPIOCheckEntry`. -/
def cpioCheckEntry (b : Buffer) (h cpioEnd : Int) : Out Unit Unit :=
  let remaining := toInt (cpioEnd - h)
  let size := cpioGetEntrySize (b.header h)
  -- The comparison with `sizeof` is one of `UINTN`s.
  if 110 > toUintn remaining then .err ()
  else if !cpioMatchMagicNumber (b.header h).magic then .err ()
  else if size = -1 then .err ()
  else if size > remaining then .err ()
  else .ok ()

/-- `CPIONextHeader`: no header where this is the trailer. -/
def cpioNextHeader (b : Buffer) (h cpioEnd : Int) : Out Unit (Option Int) := do
  cpioCheckEntry b h cpioEnd
  if b.strcmpEq (getName h) trailerName.bytes then pure none
  else
    let size := cpioGetEntrySize (b.header h)
    if size = -1 then .err ()
    else
      cpioCheckEntry b (h + size) cpioEnd
      pure (some (h + size))

/-- Go on to the next header, with `s`; at the last one leave the loop, with `r`. -/
def advance {σ ρ : Type} (b : Buffer) (h cpioEnd : Int) (s : Int → σ) (r : ρ) :
    Out Unit (Step σ ρ) := do
  match ← cpioNextHeader b h cpioEnd with
  | some h' => pure (.next (s h'))
  | none => pure (.done r)

/-- The loop of `_FindHeader`. -/
def findHeaderRound (b : Buffer) (path : CStr) (h : Int) : Out Unit (Step Int (Option Int)) := do
  cpioCheckEntry b h b.size
  if b.strcmpEq (getName h) path.bytes then pure (.done (some h))
  else advance b h b.size id none

/-- `_FindHeader`. -/
def findHeader (b : Buffer) (path : CStr) : Exec Unit Int := do
  match ← Exec.loop (fun h => Exec.of (findHeaderRound b path h)) 0 with
  | some header => pure header
  | none => Exec.throw ()

/-! ## Adding a file -/

/-- `_ComputeHeaderSize`. -/
def computeHeaderSize (path : CStr) (fileSize : Int) : Int :=
  let size := toUintn (110 + (path.bytes.length + 1))
  let size := toUintn (roundUpToMultiple size 4)
  let size := toUintn (size + fileSize)
  toUintn (roundUpToMultiple size 4)

/-- `_ComputeTrailerSize`. -/
def computeTrailerSize : Int := toUintn (roundUpToMultiple (toUintn (110 + 11)) 4)

/-- The header of a new file. -/
def newHeader (trailer : CPIOHeader) (path : CStr) (fileSize : Int) (mode : UInt32) : CPIOHeader :=
  { trailer with
    ino := intToHex 0x12345678
    mode := intToHex mode
    uid := intToHex 0
    gid := intToHex 0
    nlink := intToHex 1
    mtime := intToHex 0x56734BA4
    filesize := intToHex (UInt32.ofNat fileSize.toNat)
    devmajor := intToHex 8
    devminor := intToHex 2
    rdevmajor := intToHex 0
    rdevminor := intToHex 0
    namesize := intToHex (UInt32.ofNat (path.bytes.length + 1))
    check := intToHex 0 }

/-- What a function that makes an archive delivers: its allocation and the size it
reports. -/
structure Made where
  out : Bytes
  size : Int
deriving DecidableEq

/-- The data of a new file: `Memcpy` of as many bytes as the size says. -/
def appendData (out : Bytes) (offset : Int) (fileData : Option Bytes) (fileSize : Int) :
    Out Unit Bytes :=
  match fileData with
  | none => pure out
  | some d => if fileSize = d.length then memcpy out offset d else .stuck

/-- The part of `CPIOAddFile` that fills the allocation. -/
def fillArchive (b : Buffer) (trailer : Int) (path : CStr) (fileData : Option Bytes)
    (fileSize : Int) (mode : UInt32) (out : Bytes) : Out Unit (Bytes × Int) := do
  -- A size below zero is a `UINTN` that no allocation has.
  if trailer < 0 then .stuck
  let out ← memcpy out 0 (b.bytes 0 trailer.toNat)
  let offset := toUintn trailer
  let out ← memcpy out offset (newHeader (b.header trailer) path fileSize mode).bytes
  let offset := toUintn (offset + 110)
  let out ← memcpy out offset (path.bytes ++ [0])
  let offset := toUintn (offset + (path.bytes.length + 1))
  let offset := toUintn (roundUpToMultiple offset 4)
  let out ← appendData out offset fileData fileSize
  let offset := if fileData.isSome then toUintn (offset + fileSize) else offset
  let offset := toUintn (roundUpToMultiple offset 4)
  let out ← memcpy out offset (b.header trailer).bytes
  let offset := toUintn (offset + 110)
  let out ← memcpy out offset (trailerName.bytes ++ [0])
  let offset := toUintn (offset + 11)
  let offset := toUintn (roundUpToMultiple offset 4)
  pure (out, toUintn (roundUpToMultiple offset 512))

variable (mem : Nat → Bool)

/-- `Calloc` of one object: its size is an `unsigned int`. -/
def calloc (size : Int) : Out Unit Bytes :=
  let n := u32 size.toNat
  if mem n then pure (List.replicate n 0) else .err ()

/-- `CPIOAddFile`. -/
def cpioAddFile (b : Buffer) (path : CStr) (fileData : Option Bytes) (fileSize : Int)
    (mode : UInt32) : Exec Unit Made :=
  if b.size = 0 then Exec.throw ()
  else do
    let trailer ← findHeader b trailerName
    let size := toUintn trailer
    let size := toUintn (size + computeHeaderSize path fileSize)
    let size := toUintn (size + computeTrailerSize)
    let size := toUintn (roundUpToMultiple size 512)
    let out ← calloc mem size
    let (out, offset) ← fillArchive b trailer path fileData fileSize mode out
    if offset ≠ size then Exec.throw () else pure ⟨out, size⟩

/-! ## Removing and reading files -/

/-- The variables of the loop of `CPIORemoveFile`. -/
structure Copy where
  header : Int
  out : Bytes
  offset : Int
  found : Bool

/-- The entry at the header is skipped where it is the one to remove, else copied. -/
def copyEntry (b : Buffer) (path : CStr) (s : Copy) : Out Unit Copy :=
  if b.strcmpEq (getName s.header) path.bytes then pure { s with found := true }
  else
    let size := cpioGetEntrySize (b.header s.header)
    if size < 0 then .stuck
    else do
      let out ← memcpy s.out s.offset (b.bytes s.header size.toNat)
      pure { s with
        out := out
        offset := toInt (s.offset + size) }

/-- The loop of `CPIORemoveFile`. -/
def removeRound (b : Buffer) (path : CStr) (s : Copy) : Out Unit (Step Copy Copy) := do
  cpioCheckEntry b s.header b.size
  let s ← copyEntry b path s
  advance b s.header b.size (fun h => { s with header := h }) s

/-- `CPIORemoveFile`. -/
def cpioRemoveFile (b : Buffer) (path : CStr) : Exec Unit Made :=
  if b.size = 0 then Exec.throw ()
  else do
    let _ ← findHeader b path
    let out ← calloc mem b.size
    let s ← Exec.loop (fun s => Exec.of (removeRound b path s)) ⟨0, out, 0, false⟩
    if !s.found then Exec.throw ()
    else pure ⟨s.out, toUintn (roundUpToMultiple (toUintn s.offset) 512)⟩

/-- `CPIOGetFile`. -/
def cpioGetFile (b : Buffer) (src : CStr) : Exec Unit Bytes :=
  if b.size = 0 then Exec.throw ()
  else do
    let h ← findHeader b src
    let fileSize := toUintn (getFileSize (b.header h))
    let headerSize := toUintn (110 + getNameSize (b.header h))
    let headerSize := toUintn (roundUpToMultiple headerSize 4)
    if fileSize = 0 then pure []
    else if !mem (u32 fileSize.toNat) then Exec.throw ()
    -- `Malloc` takes an `unsigned int`.
    else if u32 fileSize.toNat < fileSize.toNat then Exec.of .stuck
    else pure (b.bytes (h + headerSize) fileSize.toNat)

/-! ## Looking through an archive -/

/-- `CPIODumpFile`: the headers and names it prints. -/
def cpioDumpFile (b : Buffer) : Exec Unit (List (CPIOHeader × CStr)) :=
  if b.size < 110 then Exec.throw ()
  else Exec.loop (fun (h, printed) => do
    cpioCheckEntry b h b.size
    let name ← b.string (getName h)
    let printed := printed ++ [(b.header h, name)]
    advance b h b.size (fun h' => (h', printed)) printed) (0, [])

/-- The loop of `CPIOCheckFile`. -/
def checkFileRound (b : Buffer) (path : CStr) (h : Int) : Out Unit (Step Int Unit) := do
  cpioCheckEntry b h b.size
  if b.strcmpEq (getName h) path.bytes then .err ()
  else advance b h b.size id ()

/-- `CPIOCheckFile`. -/
def cpioCheckFile (b : Buffer) (path : CStr) : Exec Unit Unit :=
  if b.size < 110 then Exec.throw ()
  else Exec.loop (fun h => Exec.of (checkFileRound b path h)) 0

/-- The header of a file whose mode has a bit set (`CPIOIsFile`, `CPIOIsDir`). -/
def hasModeBit (bit : Nat) (b : Buffer) (path : CStr) : Exec Unit Bool :=
  if b.size = 0 then pure false
  else do
    match ← (findHeader b path).attempt with
    | none => pure false
    | some h => pure ((u32 (toUintn (getFileMode (b.header h))).toNat).testBit bit)

/-- `CPIOIsFile`, by `CPIO_MODE_IFREG`. -/
def cpioIsFile : Buffer → CStr → Exec Unit Bool := hasModeBit 15

/-- `CPIOIsDir`, by `CPIO_MODE_IFDIR`. -/
def cpioIsDir : Buffer → CStr → Exec Unit Bool := hasModeBit 14

/-- What `CPIOFindFilesByBaseName` does with a name. -/
def appendIfBaseName (baseName : CStr) (arr : StrArr) (path : CStr) : Out Unit StrArr :=
  if afterLastSlash path.bytes = baseName.bytes then Out.ofOption () (arr.append mem path)
  else pure arr

/-- `CPIOFindFilesByBaseName`. -/
def cpioFindFilesByBaseName (b : Buffer) (baseName : CStr) : Exec Unit StrArr :=
  if b.size < 110 then Exec.throw ()
  else Exec.loop (fun (h, arr) => do
    cpioCheckEntry b h b.size
    let path ← b.string (getName h)
    let arr ← appendIfBaseName mem baseName arr path
    advance b h b.size (fun h' => (h', arr)) arr) (0, StrArr.empty)

/-! ## Splitting -/

/-- A subfile: its address and size. -/
structure Subfile where
  data : Int
  size : Int
deriving DecidableEq

/-- The inner loop of `CPIOSplitFile`: the header and the size so far lead to the size
and whether this is an archive. -/
def subfileRound (b : Buffer) (cpioSize cpioEnd : Int) :
    Int × Int → Out Unit (Step (Int × Int) (Int × Bool))
  | (h, subfileSize) =>
    if !cpioMatchMagicNumber (b.header h).magic then pure (.done (cpioSize, false))
    else do
      cpioCheckEntry b h cpioEnd
      let subfileSize := toUintn (subfileSize + cpioGetEntrySize (b.header h))
      advance b h cpioEnd (fun h' => (h', subfileSize)) (subfileSize, true)

/-- The size of the subfile at `data`. -/
def subfileSize (b : Buffer) (data cpioSize : Int) : Exec Unit Int :=
  if cpioSize ≥ 110 then do
    let cpioEnd := toPtr (data + cpioSize)
    let (size, isCPIO) ← Exec.loop (fun s => Exec.of (subfileRound b cpioSize cpioEnd s)) (data, 0)
    if isCPIO then
      pure (toUintn (roundUpToMultiple (toUintn (roundUpToMultiple size 4)) 512))
    else pure size
  else pure cpioSize

/-- The variables of the outer loop of `CPIOSplitFile`. -/
structure Split where
  data : Int
  size : Int
  subfiles : List Subfile
deriving DecidableEq

/-- The outer loop of `CPIOSplitFile`. At most 8 (`CPIO_MAX_SUBFILES`) subfiles fit the
caller's array. -/
def splitRound (b : Buffer) (s : Split) : Exec Unit (Step Split (List Subfile)) :=
  if s.size = 0 then pure (.done s.subfiles)
  else if s.subfiles.length ≥ 8 then Exec.throw ()
  else do
    let size ← subfileSize b s.data s.size
    pure (.next ⟨toPtr (s.data + size), toUintn (s.size - size), s.subfiles ++ [⟨s.data, size⟩]⟩)

/-- `CPIOSplitFile`. -/
def cpioSplitFile (b : Buffer) : Exec Unit (List Subfile) :=
  if b.size = 0 then Exec.throw ()
  else Exec.loop (splitRound b) ⟨0, b.size, []⟩

end LsvmTools.Cpio
