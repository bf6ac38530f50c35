import LsvmTools.Cpio

/-! # Hashing an EFI image

`ParseImage` lists the regions of an image that `HashImage` hashes. It takes every field
of the headers as it is: nothing is compared with the size of the image but the DOS header
and the end of the last section. -/
namespace LsvmTools.PeImage
open Lib.ByteString Lib.Program Cpio

/-! ## Headers -/

variable (b : Buffer)

def word16 (i : Int) : Nat := le16 (b.bytes i 2) 0

def word32 (i : Int) : Nat := le32 (b.bytes i 4) 0

/-- `EFI_IMAGE_DOS_SIGNATURE`. -/
def dosSignature : Nat := 0x5A4D

/-- `e_lfanew`, where the PE header stands. -/
def peHdrOffset : Nat := word32 b 60

/-- `FileHeader.NumberOfSections`. -/
def numberOfSections : Nat := word16 b (peHdrOffset b + 6)

/-- `FileHeader.SizeOfOptionalHeader`. -/
def sizeOfOptionalHeader : Nat := word16 b (peHdrOffset b + 20)

/-- `OptionalHeader.SizeOfHeaders`. -/
def sizeOfHeaders : Nat := word32 b (peHdrOffset b + 84)

/-- Where `OptionalHeader.CheckSum` stands. -/
def checkSum : Nat := peHdrOffset b + 88

/-- Where the security directory entry stands. -/
def secDir : Nat := peHdrOffset b + 168

/-- `sec_dir->VirtualAddress`. -/
def signatureAddress : Nat := word32 b (secDir b)

/-- `sec_dir->Size`. -/
def signatureSize : Nat := word32 b (secDir b + 4)

/-- What is used of an `EFI_IMAGE_SECTION_HEADER`. -/
structure Section where
  sizeOfRawData : Nat
  pointerToRawData : Nat
deriving DecidableEq

/-- The section headers, which start after the optional header. -/
def sectionTable : List Section :=
  (List.range (numberOfSections b)).map fun i =>
    let h := peHdrOffset b + 24 + sizeOfOptionalHeader b + 40 * i
    ⟨word32 b (h + 16 : Nat), word32 b (h + 20 : Nat)⟩

/-! ## Sorting -/

/-- `_compare`: the difference of two `UINT32` values as an `int`. -/
def compare (x y : Section) : Int := toInt ((x.pointerToRawData : Int) - y.pointerToRawData)

/-- The inner loop of the sort, with the section that has been moved on so far. -/
def bubble : Section → List Section → List Section
  | x, [] => [x]
  | x, y :: rest => if compare x y > 0 then y :: bubble x rest else x :: bubble y rest

def pass : List Section → List Section
  | [] => []
  | x :: rest => bubble x rest

/-- The section headers in the order of the hash. -/
def sortSections (sections : List Section) : List Section := pass^[sections.length - 1] sections

/-! ## Regions -/

structure Region where
  data : Int
  size : Int
deriving DecidableEq

structure Image where
  regions : List Region
  /-- The address and the size of the signature, where there is one. -/
  signature : Option (Int × Int)
deriving DecidableEq

variable (mem : Nat → Bool)

/-- `_AppendRegion`. -/
def appendRegion (regions : List Region) (data size : Int) : Out Unit (List Region) :=
  if mem (u32 (16 * (regions.length + 1))) then pure (regions ++ [⟨data, size⟩]) else .err ()

/-- `_ParseSignature`. -/
def parseSignature (address size : Nat) : Out Unit (Option (Int × Int)) :=
  if size = 0 then pure none
  else if word16 b (address + 6) ≠ 2 then .err ()
  else pure (some (address + 8, toUintn (word32 b address - 8)))

/-- Add a region for each section. -/
def appendSections : List Section → List Region → Out Unit (List Region)
  | [], regions => pure regions
  | x :: rest, regions =>
    if x.sizeOfRawData ≠ 0 then do
      let regions ← appendRegion mem regions x.pointerToRawData x.sizeOfRawData
      appendSections rest regions
    else appendSections rest regions

/-- Where what follows the final section starts. -/
def endOfSection (x : Section) : Nat := u32 (x.pointerToRawData + x.sizeOfRawData)

/-- Add a region for whatever follows the final section; there is none to look at in an
empty table. -/
def appendRest (sections : List Section) (regions : List Region) : Out Unit (List Region) :=
  match sections.getLast? with
  | none => .stuck
  | some x =>
    let offset := endOfSection x
    if offset < b.size then
      appendRegion mem regions offset (toUintn (b.size - signatureSize b - offset))
    else pure regions

/-- `ParseImage`. -/
def parseImage : Out Unit Image :=
  if b.size < 64 then .err ()
  else if word16 b 0 ≠ dosSignature then .err ()
  else do
    let regions ← appendRegion mem [] 0 (checkSum b)
    let signature ← parseSignature b (signatureAddress b) (signatureSize b)
    let regions ← appendRegion mem regions (checkSum b + 4) (secDir b - (checkSum b + 4))
    let regions ← appendRegion mem regions (secDir b + 8)
      (toUintn (sizeOfHeaders b - (secDir b + 8)))
    if !mem (u32 (40 * numberOfSections b)) then .err ()
    else
      let sections := sortSections (sectionTable b)
      let regions ← appendSections mem sections regions
      let regions ← appendRest b mem sections regions
      pure ⟨regions, signature⟩

/-! ## Hashing -/

/-- The contexts of a hash function: `SHA1Init`, `SHA1Update` and `SHA1Final`, say. -/
structure Sha (Ctx Hash : Type) where
  init : Option Ctx
  update : Ctx → Bytes → Option Ctx
  final : Ctx → Option Hash

/-- The memory of a region. -/
def regionBytes (r : Region) : Bytes := b.bytes r.data r.size.toNat

variable {Ctx Ctx' Hash Hash' : Type}

/-- The loop of `HashImage`. -/
def updateAll (sha1 : Sha Ctx Hash) (sha256 : Sha Ctx' Hash') :
    List Region → Ctx → Ctx' → Option (Ctx × Ctx')
  | [], c, c' => some (c, c')
  | r :: rest, c, c' => do
    let c ← sha1.update c (regionBytes b r)
    let c' ← sha256.update c' (regionBytes b r)
    updateAll sha1 sha256 rest c c'

/-- `HashImage`. -/
def hashImage (sha1 : Sha Ctx Hash) (sha256 : Sha Ctx' Hash') (image : Image) :
    Option (Hash × Hash') := do
  let c ← sha1.init
  let c' ← sha256.init
  let (c, c') ← updateAll b sha1 sha256 image.regions c c'
  let h ← sha1.final c
  let h' ← sha256.final c'
  pure (h, h')

/-- `ParseAndHashImage`. -/
def parseAndHashImage (sha1 : Sha Ctx Hash) (sha256 : Sha Ctx' Hash') : Out Unit (Hash × Hash') := do
  let image ← parseImage b mem
  Out.ofOption () (hashImage b sha1 sha256 image)

end LsvmTools.PeImage
