import LsvmTools.BlockDevice

/-! # FAT volumes

A volume in memory is its parameter block, one copy of the file allocation table and the
root directory. `VFAT` carries what `VFATInit` establishes before it hands out a volume:
sectors of 512 bytes, a divisor that is not zero, the type that goes with the number of
clusters, and a table whose size is a 32-bit product. The numbers that `VFATInit` computes
from the parameter block and keeps are computed from it here where they are used. -/
namespace LsvmTools.Vfat.Volume
open Lib.ByteString Lib.Program BlockDevice

/-- Both are -1 in the source; `io` is the failure of a device access. -/
inductive Fail where
  | failed
  | io
deriving DecidableEq

/-- `VFATType`. -/
inductive FATType where
  | fat12
  | fat16
  | fat32
deriving DecidableEq

/-! ## Parameter block -/

/-- `VFATBPB`. -/
structure BPB where
  raw : Bytes
  size : raw.length = 512

namespace BPB

variable (bpb : BPB)

def bytsPerSec : Nat := le16 bpb.raw 11
def secPerClus : Nat := (byteAt bpb.raw 13).toNat
def resvdSecCnt : Nat := le16 bpb.raw 14
def numFATs : Nat := (byteAt bpb.raw 16).toNat
def rootEntCnt : Nat := le16 bpb.raw 17
def totSec16 : Nat := le16 bpb.raw 19
def fatSz16 : Nat := le16 bpb.raw 22
def totSec32 : Nat := le32 bpb.raw 32
def fatSz32 : Nat := le32 bpb.raw 36
def rootClus : Nat := le32 bpb.raw 44
def fsInfo : Nat := le16 bpb.raw 48

/-- `FATSz`. -/
def fatSz : Nat := if bpb.fatSz16 ≠ 0 then bpb.fatSz16 else bpb.fatSz32

/-- `TotSec`. -/
def totSec : Nat := if bpb.totSec16 ≠ 0 then bpb.totSec16 else bpb.totSec32

/-- `RootDirSectors`, for a divisor that is not zero. -/
def rootDirSectors : Nat := (bpb.rootEntCnt * 32 + (bpb.bytsPerSec - 1)) / bpb.bytsPerSec

/-- `FirstRootDirSecNum`. -/
def firstRootDirSecNum : Nat := u32 (bpb.resvdSecCnt + u32 (bpb.numFATs * bpb.fatSz))

/-- `FirstDataSector`. -/
def firstDataSector : Nat :=
  u32 (bpb.resvdSecCnt + u32 (bpb.numFATs * bpb.fatSz) + bpb.rootDirSectors)

/-- `DataSec`, a difference of 32-bit words. -/
def dataSec : Nat := u32 (bpb.totSec + 2 ^ 32 - bpb.firstDataSector)

/-- `CountOfClusters`, for a divisor that is not zero. -/
def countOfClusters : Nat := bpb.dataSec / bpb.secPerClus

/-- `ClusterSize`. -/
def clusterSize : Nat := bpb.secPerClus * bpb.bytsPerSec

/-- The type that goes with the number of clusters. -/
def fatType : FATType :=
  if bpb.countOfClusters < 4085 then .fat12
  else if bpb.countOfClusters < 65525 then .fat16
  else .fat32

end BPB

/-- `GetFATType`. A division by zero has no result. -/
def getFATType (bpb : BPB) : Out Fail FATType :=
  if bpb.bytsPerSec = 0 ∨ bpb.secPerClus = 0 then .stuck else .ok bpb.fatType

/-! ## Volume -/

/-- The loaded table. -/
structure Fat where
  data : Bytes
  size_lt : data.length < 2 ^ 32

/-- `VFAT`. -/
structure VFAT where
  bpb : BPB
  bytsPerSec_eq : bpb.bytsPerSec = 512
  secPerClus_ne : bpb.secPerClus ≠ 0
  fatType : FATType
  fatType_eq : fatType = bpb.fatType
  dev : Blkdev
  fat : Fat
  rootdir : Bytes

namespace VFAT

variable (vfat : VFAT)

def countOfClusters : Nat := vfat.bpb.countOfClusters

def clusterSize : Nat := vfat.bpb.clusterSize

/-- `rootdirClustno`. -/
def rootdirClustno : Nat := if vfat.fatType = .fat32 then vfat.bpb.rootClus else 0

theorem secPerClus_pos : 0 < vfat.bpb.secPerClus := Nat.pos_of_ne_zero vfat.secPerClus_ne

theorem clusterSize_eq : vfat.clusterSize = vfat.bpb.secPerClus * 512 := by
  rw [clusterSize, BPB.clusterSize, vfat.bytsPerSec_eq]

theorem clusterSize_pos : 0 < vfat.clusterSize := by
  rw [clusterSize_eq]
  exact Nat.mul_pos vfat.secPerClus_pos (by decide)

end VFAT

/-! ## Table entries -/

/-- `_GetFATOffset`, computed in 32 bits. -/
def fatOffset (ty : FATType) (clustno : Nat) : Nat :=
  match ty with
  | .fat12 => u32 (clustno + clustno / 2)
  | .fat16 => u32 (clustno * 2)
  | .fat32 => u32 (clustno * 4)

/-- The bytes that are accessed at the offset. -/
def width (ty : FATType) : Nat :=
  match ty with
  | .fat12 | .fat16 => 2
  | .fat32 => 4

/-- The entry in the bytes of the table. -/
def entryAt (ty : FATType) (data : Bytes) (clustno : Nat) : Nat :=
  match ty with
  | .fat12 =>
    let x := le16 data (fatOffset .fat12 clustno)
    if clustno % 2 = 1 then x / 16 else x % 4096
  | .fat16 => le16 data (fatOffset .fat16 clustno)
  | .fat32 => le32 data (fatOffset .fat32 clustno) % 2 ^ 28

/-- `GetFATEntry`. -/
def getFATEntry (vfat : VFAT) (clustno : Nat) : Out Fail Nat :=
  if fatOffset vfat.fatType clustno + width vfat.fatType ≤ vfat.fat.data.length then
    .ok (entryAt vfat.fatType vfat.fat.data clustno)
  else .stuck

/-- The bytes of the table with the entry replaced: a 12-bit entry keeps the half byte of
its neighbour, a 32-bit entry its top four bits. -/
def putEntry (ty : FATType) (data : Bytes) (clustno x : Nat) : Bytes :=
  match ty with
  | .fat12 =>
    let offset := fatOffset .fat12 clustno
    let r := le16 data offset
    if clustno % 2 = 1 then put16 data offset (r % 16 + x * 16)
    else put16 data offset (r / 4096 * 4096 + x % 4096)
  | .fat16 => put16 data (fatOffset .fat16 clustno) x
  | .fat32 =>
    let offset := fatOffset .fat32 clustno
    let r := le32 data offset
    put32 data offset (r / 2 ^ 28 * 2 ^ 28 + x % 2 ^ 28)

theorem length_putEntry {ty : FATType} {data : Bytes} {clustno : Nat}
    (h : fatOffset ty clustno + width ty ≤ data.length) (x : Nat) :
    (putEntry ty data clustno x).length = data.length := by
  cases ty with
  | fat12 =>
    unfold putEntry
    dsimp only
    split <;> exact length_put16 h
  | fat16 => exact length_put16 h
  | fat32 => exact length_put32 h

/-- `SetFATEntry`. -/
def setFATEntry (vfat : VFAT) (clustno x : Nat) : Out Fail VFAT :=
  if h : fatOffset vfat.fatType clustno + width vfat.fatType ≤ vfat.fat.data.length then
    .ok { vfat with fat := ⟨putEntry vfat.fatType vfat.fat.data clustno x, by
      rw [length_putEntry h]; exact vfat.fat.size_lt⟩ }
  else .stuck

/-- `GetEOC`. -/
def getEOC (vfat : VFAT) : Nat :=
  match vfat.fatType with
  | .fat12 => 0x0FF8
  | .fat16 => 0x0FF8
  | .fat32 => 0x0FFFFFF8

/-- The lowest number that `IsEOF` takes for an end marker. -/
@[irreducible] def eofMin (ty : FATType) : Nat :=
  match ty with
  | .fat12 => 0x0FF8
  | .fat16 => 0xFFF8
  | .fat32 => 0x0FFFFFF8

/-- `IsEOF`. -/
def isEOF (vfat : VFAT) (x : Nat) : Bool := eofMin vfat.fatType ≤ x

/-! ## Clusters -/

/-- `BlkdevRead` of a number of bytes that is a multiple of 512. -/
def blkdevRead (dev : Blkdev) (blkno size : Nat) : Out Fail Bytes :=
  if size = 0 then .ok [] else Out.ofOption .io (getN dev blkno (size / 512))

/-- `_FirstSectorOfCluster`. -/
def firstSectorOfCluster (vfat : VFAT) (n : Nat) : Nat :=
  u32 ((n + 2 ^ 32 - 2) * vfat.bpb.secPerClus + vfat.bpb.firstDataSector)

/-- `ReadCluster`: what is appended to the buffer. -/
def readCluster (vfat : VFAT) (clustno : Nat) : Out Fail Bytes :=
  blkdevRead vfat.dev (firstSectorOfCluster vfat clustno) vfat.clusterSize

/-! ## Small volumes -/

/-- A parameter block with one reserved sector, one table of `fatSz` sectors, 16 entries in
the root directory and one sector in a cluster. -/
def smallBpb (totSec fatSz : Nat) : BPB where
  raw := 0xE9 :: List.replicate 10 0 ++ enc16 512 ++ [1] ++ enc16 1 ++ [1] ++ enc16 16 ++
    enc16 totSec ++ [0] ++ enc16 fatSz ++ List.replicate 488 0
  size := by
    simp only [List.length_append, List.length_cons, List.length_replicate, length_enc16,
      List.length_nil]

/-- A device of `nblks` sectors of zeroes. -/
def zeroDevice (nblks : Nat) : Blkdev := ⟨nblks, fun _ => 0, fun _ => true, fun _ => true⟩

/-- An empty volume with 12-bit entries and four clusters. -/
def small12 : VFAT where
  bpb := smallBpb 7 1
  bytsPerSec_eq := by decide +kernel
  secPerClus_ne := by decide +kernel
  fatType := .fat12
  fatType_eq := by decide +kernel
  dev := zeroDevice 7
  fat := ⟨[0xF8, 0xFF, 0xFF] ++ List.replicate 509 0, by decide +kernel⟩
  rootdir := List.replicate 512 0

/-- An empty volume with 16-bit entries and 5000 clusters. -/
def small16 : VFAT where
  bpb := smallBpb 5022 20
  bytsPerSec_eq := by decide +kernel
  secPerClus_ne := by decide +kernel
  fatType := .fat16
  fatType_eq := by decide +kernel
  dev := zeroDevice 5022
  fat := ⟨[0xF8, 0xFF, 0xFF, 0xFF] ++ List.replicate 10236 0, by decide +kernel⟩
  rootdir := List.replicate 512 0

end LsvmTools.Vfat.Volume
