import LsvmTools.Lib.Rounds

/-! # Loading a PE image

`_FixupImage` of `lsvmload`, which copies an image to where it is to run, and relocates it. What
it checks of the headers keeps the copies inside both images, but `FileAlignment` may be zero,
and the relocations are checked with differences of pointers that count words. -/
namespace LsvmTools.PeLoader
open Lib.ByteString Lib.Program Lib.Loop Lib.Precondition Lib.Rounds

/-- The errors of `EFI_STATUS` that occur. -/
inductive EfiStatus where
  | unsupported
  | compromisedData
deriving DecidableEq

/-! ## Headers -/

/-- `EFI_IMAGE_DOS_SIGNATURE`. -/
def dosSignature : Nat := 0x5A4D

/-- `EFI_IMAGE_NT_SIGNATURE`. -/
def ntSignature : Nat := 0x4550

/-- `EFI_IMAGE_NT_OPTIONAL_HDR64_MAGIC`. -/
def optionalHdr64Magic : Nat := 0x20B

/-- `IMAGE_FILE_MACHINE_X64`. -/
def machineX64 : Nat := 0x8664

/-- `EFI_IMAGE_NUMBER_OF_DIRECTORY_ENTRIES`. -/
def numberOfDirectoryEntries : Nat := 16

/-- `EFI_IMAGE_DIRECTORY_ENTRY_BASERELOC`. -/
def directoryEntryBaseReloc : Nat := 5

/-- The name of a relocation section. -/
def relocName : Bytes := [0x2E, 0x72, 0x65, 0x6C, 0x6F, 0x63, 0, 0]

def le64 (d : Bytes) (off : Nat) : Nat := le32 d off + 2 ^ 32 * le32 d (off + 4)

def enc64 (v : Nat) : Bytes := enc32 v ++ enc32 (v / 2 ^ 32)

section Fields

variable (image : Bytes)

/-- `e_lfanew`, where the NT header stands. -/
def ntHeader : Nat := le32 image 60

/-- `FileHeader.NumberOfSections`. -/
def numberOfSections : Nat := le16 image (ntHeader image + 6)

/-- `FileHeader.SizeOfOptionalHeader`. -/
def sizeOfOptionalHeader : Nat := le16 image (ntHeader image + 20)

/-- `FileHeader.Characteristics` with `EFI_IMAGE_FILE_RELOCS_STRIPPED`. -/
def relocsStripped : Bool := le16 image (ntHeader image + 22) % 2 = 1

/-- `OptionalHeader.AddressOfEntryPoint`. -/
def addressOfEntryPoint : Nat := le32 image (ntHeader image + 40)

/-- `OptionalHeader.ImageBase`. -/
def imageBase : Nat := le64 image (ntHeader image + 48)

/-- `OptionalHeader.FileAlignment`. -/
def fileAlignment : Nat := le32 image (ntHeader image + 60)

/-- `OptionalHeader.SizeOfImage`. -/
def sizeOfImage : Nat := le32 image (ntHeader image + 80)

/-- `OptionalHeader.SizeOfHeaders`. -/
def sizeOfHeaders : Nat := le32 image (ntHeader image + 84)

/-- `OptionalHeader.NumberOfRvaAndSizes`. -/
def numberOfRvaAndSizes : Nat := le32 image (ntHeader image + 132)

/-- `relocDir->VirtualAddress`. -/
def relocAddress : Nat := le32 image (ntHeader image + 176)

/-- `relocDir->Size`. -/
def relocSize : Nat := le32 image (ntHeader image + 180)

/-- The end of the section headers. -/
def headersEnd : Nat := ntHeader image + 264 + 40 * numberOfSections image

/-- Where the header of the `i`th section stands, where the optional header has its size. -/
def sectionHeader (i : Nat) : Nat := ntHeader image + 264 + 40 * i

variable (s : Nat)

/-- `section->Name`. -/
def sectionName : Bytes := (image.drop s).take 8

/-- `section->Misc.VirtualSize`. -/
def virtualSize : Nat := le32 image (s + 8)

/-- `section->VirtualAddress`. -/
def virtualAddress : Nat := le32 image (s + 12)

/-- `section->SizeOfRawData`. -/
def sizeOfRawData : Nat := le32 image (s + 16)

/-- `section->PointerToRawData`. -/
def pointerToRawData : Nat := le32 image (s + 20)

/-- `section->Characteristics` with `EFI_IMAGE_SCN_MEM_DISCARDABLE`. -/
def discardable : Bool := le32 image (s + 36) / 2 ^ 25 % 2 = 1

/-- What of the section is in the file. -/
def baseSize : Nat := min (virtualSize image s) (sizeOfRawData image s)

end Fields

/-! ## `_GetHeaders` -/

/-- `CHKBOUNDS`: the address of the object is one in the region, or behind it. The sum of
pointers wraps, so that a negative size is one. -/
def chkBounds (regionSize object : Nat) (objectSize : Int) : Out EfiStatus Unit :=
  if (object : Int) + objectSize > regionSize then .err .compromisedData else .ok ()

/-- What does not hold is not supported. -/
def require (p : Prop) [Decidable p] : Out EfiStatus Unit :=
  if p then .ok () else .err .unsupported

section GetHeaders

variable (image : Bytes) (imageSize : Nat)

/-- The sections that `s` begins with have their data in the image. -/
def checkSections : Nat → Nat → Out EfiStatus Unit
  | 0, _ => .ok ()
  | n + 1, s => do
    demand (s + 24 ≤ image.length)
    chkBounds imageSize (pointerToRawData image s) (baseSize image s)
    checkSections n (s + 40)

/-- `_GetHeaders`. The copies that it makes are the fields of the image. -/
def getHeaders : Out EfiStatus Unit := do
  require (imageSize ≠ 0)
  chkBounds imageSize 0 64
  demand (64 ≤ image.length)
  require (le16 image 0 = dosSignature)
  chkBounds imageSize (ntHeader image) 40
  demand (ntHeader image + 2 ≤ image.length)
  require (le16 image (ntHeader image) = ntSignature)
  chkBounds imageSize (ntHeader image) 264
  demand (ntHeader image + 264 ≤ image.length)
  require (le16 image (ntHeader image + 24) = optionalHdr64Magic)
  require (le16 image (ntHeader image + 4) = machineX64)
  require (relocsStripped image = false)
  require (sizeOfImage image ≤ imageSize)
  require (numberOfRvaAndSizes image ≤ numberOfDirectoryEntries)
  require (sizeOfOptionalHeader image = 240)
  require (headersEnd image ≤ imageSize)
  demand (fileAlignment image ≠ 0)
  require ((headersEnd image + fileAlignment image - 1) / fileAlignment image *
    fileAlignment image = sizeOfHeaders image)
  chkBounds imageSize (relocAddress image) (relocSize image)
  chkBounds imageSize (sectionHeader image 0) 20
  checkSections image imageSize (numberOfSections image) (sectionHeader image 0)

end GetHeaders

/-! ## `_FixupImage` without relocations -/

/-- The memory of the image that is loaded. -/
structure NewImage (size : Nat) where
  bytes : Bytes
  length_eq : bytes.length = size

section NewImage

variable {size : Nat}

/-- `Calloc`. -/
def NewImage.zero (size : Nat) : NewImage size := ⟨List.replicate size 0, List.length_replicate⟩

theorem NewImage.length_store (m : NewImage size) {off : Nat} {b : Bytes}
    (h : off + b.length ≤ size) : (splice m.bytes off b).length = size := by
  rw [length_splice (by rw [m.length_eq]; exact h), m.length_eq]

/-- What is stored outside the image has no result. -/
def NewImage.store (m : NewImage size) (off : Nat) (b : Bytes) : Out EfiStatus (NewImage size) :=
  if h : off + b.length ≤ size then .ok ⟨splice m.bytes off b, m.length_store h⟩ else .stuck

/-- `Memcpy` from the image. -/
def NewImage.copy (m : NewImage size) (image : Bytes) (off src n : Nat) :
    Out EfiStatus (NewImage size) := do
  demand (src + n ≤ image.length)
  m.store off ((image.drop src).take n)

end NewImage

section Fixup

variable (image : Bytes)

abbrev Loading := NewImage (sizeOfImage image)

/-- The section is one of relocations, where the directory says. -/
def isRelocSection (s : Nat) : Bool :=
  sectionName image s = relocName && 0 < sizeOfRawData image s && 0 < virtualSize image s &&
    relocAddress image = virtualAddress image s && relocSize image = baseSize image s

/-- Copy what the file has of a section. -/
def copyData (s : Nat) (m : Loading image) : Out EfiStatus (Loading image) :=
  if 0 < sizeOfRawData image s then do
    chkBounds (sizeOfImage image) (pointerToRawData image s) (baseSize image s)
    m.copy image (virtualAddress image s) (pointerToRawData image s) (baseSize image s)
  else pure m

/-- Zero out the residual memory of a section. -/
def clearRest (s : Nat) (m : Loading image) : Out EfiStatus (Loading image) :=
  let rest := virtualSize image s - baseSize image s
  if 0 < rest then do
    chkBounds (sizeOfImage image) (virtualAddress image s + baseSize image s) rest
    m.store (virtualAddress image s + baseSize image s) (List.replicate rest 0)
  else pure m

/-- Discardable sections are skipped. -/
def copySection (s : Nat) (m : Loading image) : Out EfiStatus (Loading image) :=
  if discardable image s = true then pure m else copyData image s m >>= clearRest image s

/-- The loop over `n` sections; the result has the relocation section, if one was found. There
is no result where one is found twice, which leaves with the status of `_GetHeaders`. -/
def copySections : Nat → Nat → Option Nat → Loading image →
    Out EfiStatus (Option (Option Nat × Loading image))
  | 0, _, reloc, m => .ok (some (reloc, m))
  | n + 1, s, reloc, m => do
    demand (s + 16 ≤ image.length)
    chkBounds (sizeOfImage image) s 40
    chkBounds (sizeOfImage image) (virtualAddress image s) (virtualSize image s)
    demand (s + 40 ≤ image.length)
    if sectionName image s = relocName ∧ reloc.isSome then .ok none
    else do
      let m ← copySection image s m
      copySections n (s + 40) (if isRelocSection image s then some s else reloc) m

/-- Leave, with the status of `_GetHeaders`, where there is no relocation directory. -/
def keepCopy (address : UInt64) : Option (Option Nat × Loading image) →
    Out EfiStatus (Option (UInt64 × Option Nat × Loading image))
  | none => .ok none
  | some (reloc, m) =>
    if numberOfRvaAndSizes image ≤ directoryEntryBaseReloc then .ok none
    else .ok (some (address, reloc, m))

/-- `_FixupImage` in its memory, up to the relocations. -/
def copyTo (address : UInt64) : Out EfiStatus (Option (UInt64 × Option Nat × Loading image)) := do
  chkBounds (sizeOfImage image) 0 (sizeOfHeaders image)
  let m ← (NewImage.zero (sizeOfImage image)).copy image 0 0 (sizeOfHeaders image)
  chkBounds (sizeOfImage image) (relocAddress image) (relocSize image)
  let copied ← copySections image (numberOfSections image) (sectionHeader image 0) none m
  keepCopy image address copied

/-- `_FixupImage` up to the relocations. Without memory, too, it leaves with the status of
`_GetHeaders`. -/
def copyImage (imageSize : Nat) (calloc : Option UInt64) :
    Out EfiStatus (Option (UInt64 × Option Nat × Loading image)) := do
  getHeaders image imageSize
  match calloc with
  | none => .ok none
  | some address => copyTo image address

end Fixup

/-! ## `_ApplyRelocations` -/

section Relocations

variable {size : Nat}

/-- Change `n` bytes of the new image. -/
def NewImage.adjust (m : NewImage size) (off n : Nat) (f : Bytes → Bytes) :
    Out EfiStatus (NewImage size) := do
  chkBounds size off n
  demand (off + n ≤ size)
  m.store off (f ((m.bytes.drop off).take n))

/-- The cases of a relocation. -/
def relocate (offset tag target : Nat) (m : NewImage size) : Out EfiStatus (NewImage size) :=
  match tag with
  | 0 => pure m
  | 1 => m.adjust target 2 fun b => enc16 (le16 b 0 + u32 offset / 2 ^ 16)
  | 2 => m.adjust target 2 fun b => enc16 (le16 b 0 + offset)
  | 3 => m.adjust target 4 fun b => enc32 (le32 b 0 + offset)
  | 10 => m.adjust target 8 fun b => enc64 (le64 b 0 + offset)
  | _ => .err .unsupported

variable (image : Bytes) (offset : Nat)

/-- The loop over the words of a block, from `q` on. -/
def relocateWords (base : Nat) : Nat → Nat → NewImage size → Out EfiStatus (NewImage size)
  | 0, _, m => .ok m
  | n + 1, q, m => do
    demand (q + 2 ≤ image.length)
    let m ← relocate offset (le16 image q / 2 ^ 12) (base + le16 image q % 2 ^ 12) m
    relocateWords base n (q + 2) m

/-- `p->SizeOfBlock`. -/
def sizeOfBlock (p : Nat) : Nat := le32 image (p + 4)

/-- How many words a block has. -/
def blockWords (p : Nat) : Nat := (sizeOfBlock image p - 7) / 2

/-- A round of the loop over the blocks. The difference of pointers to words counts words. -/
def relocRound (dirSize pend : Nat) (t : Nat × NewImage size) :
    Out EfiStatus (Step (Nat × NewImage size) (NewImage size)) :=
  if t.1 < pend then do
    demand (t.1 + 8 ≤ image.length)
    chkBounds size (t.1 + 8) (((sizeOfBlock image t.1 : Int) - 8) / 2)
    require (sizeOfBlock image t.1 ≠ 0 ∧ sizeOfBlock image t.1 ≤ dirSize)
    let m ← relocateWords image offset (le32 image t.1) (blockWords image t.1) (t.1 + 8) t.2
    pure (.next (t.1 + sizeOfBlock image t.1, m))
  else pure (.done t.2)

end Relocations

section Fixup

variable (image : Bytes)

/-- The image with the address of the new image in `ImageBase`. -/
def withBase (address : UInt64) : Bytes :=
  splice image (ntHeader image + 48) (enc64 address.toNat)

/-- How far the image is from where it was linked for. -/
def relocOffset (address : UInt64) : Nat := u64 (address.toNat + 2 ^ 64 - imageBase image)

/-- `_ApplyRelocations` of the section at `s`. The difference of pointers to blocks counts
headers of blocks. -/
def applyRelocations (address : UInt64) (s : Nat) (m : Loading image) :
    Exec EfiStatus (Loading image) := do
  (demand (ntHeader image + 56 ≤ image.length) : Out EfiStatus Unit)
  let patched := withBase image address
  (demand (s + 24 ≤ image.length) : Out EfiStatus Unit)
  let p := pointerToRawData patched s
  chkBounds (sizeOfImage image) p (virtualSize patched s / 8 : Nat)
  if relocOffset image address = 0 then pure m
  else loop (relocRound patched (relocOffset image address) (relocSize patched)
    (p + virtualSize patched s)) (p, m)

/-- The image that is loaded, and where it is entered. -/
structure LoadedImage where
  address : UInt64
  bytes : Bytes
  entryPoint : Nat

/-- Set the entry point, which has to have room for a pointer. -/
def setEntryPoint (address : UInt64) (m : Loading image) :
    Out EfiStatus (Option LoadedImage) := do
  chkBounds (sizeOfImage image) (addressOfEntryPoint image) 8
  chkBounds (sizeOfImage image) 0 (sizeOfImage image)
  pure (some ⟨address, m.bytes, address.toNat + addressOfEntryPoint image⟩)

/-- What `_FixupImage` does with the copy. -/
def finishImage : Option (UInt64 × Option Nat × Loading image) →
    Exec EfiStatus (Option LoadedImage)
  | none => pure none
  | some (address, none, m) => setEntryPoint image address m
  | some (address, some s, m) =>
    if 0 < relocSize image then
      applyRelocations image address s m >>= fun m => setEntryPoint image address m
    else setEntryPoint image address m

/-- `_FixupImage` of an image of which `Exec` takes 32 bits of the size. `calloc` is where there
is memory, and the result is none where the status is a success but nothing is loaded. -/
def fixupImage (calloc : Option UInt64) : Exec EfiStatus (Option LoadedImage) := do
  let copied ← copyImage image (u32 image.length) calloc
  finishImage image copied

end Fixup

/-! ## The law -/

/-- For memory at any address, or none, the image is loaded without an access outside it or the
new image, and without a division by zero. -/
def LoadsSafely (image : Bytes) : Prop := ∀ calloc, Safe (fixupImage image calloc)

/-! ## What the checks let through -/

/-- The checks of `_GetHeaders` before it aligns the size of the headers. -/
structure Plausible (image : Bytes) (imageSize : Nat) : Prop where
  dosHeader : 64 ≤ imageSize
  dos : le16 image 0 = dosSignature
  ntHeaders : ntHeader image + 264 ≤ imageSize
  nt : le16 image (ntHeader image) = ntSignature
  magic : le16 image (ntHeader image + 24) = optionalHdr64Magic
  machine : le16 image (ntHeader image + 4) = machineX64
  relocs : relocsStripped image = false
  size : sizeOfImage image ≤ imageSize
  directory : numberOfRvaAndSizes image ≤ numberOfDirectoryEntries
  optional : sizeOfOptionalHeader image = 240
  sections : headersEnd image ≤ imageSize

/-- The checks of `_GetHeaders` and of `_FixupImage` before it copies the sections. -/
structure Accepted (image : Bytes) (imageSize : Nat) : Prop extends Plausible image imageSize where
  aligned : (headersEnd image + fileAlignment image - 1) / fileAlignment image *
    fileAlignment image = sizeOfHeaders image
  relocDir : relocAddress image + relocSize image ≤ imageSize
  firstSection : sectionHeader image 0 + 20 ≤ imageSize
  data : ∀ i < numberOfSections image, pointerToRawData image (sectionHeader image i) +
    baseSize image (sectionHeader image i) ≤ imageSize
  headers : sizeOfHeaders image ≤ sizeOfImage image
  newRelocDir : relocAddress image + relocSize image ≤ sizeOfImage image

/-- The checks of a section before it is copied. -/
structure SectionFits (image : Bytes) (s : Nat) : Prop where
  header : s + 40 ≤ sizeOfImage image
  memory : virtualAddress image s + virtualSize image s ≤ sizeOfImage image
  data : discardable image s = false → 0 < sizeOfRawData image s →
    pointerToRawData image s + baseSize image s ≤ sizeOfImage image

/-- The sections can be copied, the `k`th is the first relocation section, and no other section
of that name follows. -/
structure Relocated (image : Bytes) (k : Nat) : Prop where
  fits : ∀ i < numberOfSections image, SectionFits image (sectionHeader image i)
  index : k < numberOfSections image
  found : isRelocSection image (sectionHeader image k) = true
  first : ∀ i < k, isRelocSection image (sectionHeader image i) = false
  last : ∀ i, k < i → i < numberOfSections image →
    sectionName image (sectionHeader image i) ≠ relocName

/-- The relocation is of a known kind, and what it changes is in the new image. -/
def TargetFits (size tag target : Nat) : Prop :=
  match tag with
  | 0 => True
  | 1 => target + 2 ≤ size
  | 2 => target + 2 ≤ size
  | 3 => target + 4 ≤ size
  | 10 => target + 8 ≤ size
  | _ => False

/-- The same of the word at `q`. -/
def WordFits (image : Bytes) (size base q : Nat) : Prop :=
  TargetFits size (le16 image q / 2 ^ 12) (base + le16 image q % 2 ^ 12)

/-- What is checked of the block at `p` before its words are read. -/
structure BlockPasses (image : Bytes) (size p : Nat) : Prop where
  bounds : (p : Int) + 8 + ((sizeOfBlock image p : Int) - 8) / 2 ≤ size
  positive : sizeOfBlock image p ≠ 0
  directory : sizeOfBlock image p ≤ relocSize image

/-- The first `n` words of the block at `p` are relocated. -/
def WordsFit (image : Bytes) (size p n : Nat) : Prop :=
  ∀ i < n, WordFits image size (le32 image p) (p + 8 + 2 * i)

/-- The block at `p` is relocated, and the next one is at `p'`. -/
structure BlockFollows (image : Bytes) (size pend p p' : Nat) : Prop where
  before : p < pend
  passes : BlockPasses image size p
  words : WordsFit image size p (blockWords image p)
  next : p' = p + sizeOfBlock image p

/-- What is read of the block at `p` is in the image: its header, and each word to the first
that is refused. -/
def BlockInside (image : Bytes) (size p : Nat) : Prop :=
  p + 8 ≤ image.length ∧ (BlockPasses image size p → ∀ i < blockWords image p,
    WordsFit image size p i → p + 8 + 2 * i + 2 ≤ image.length)

/-- Each block that the loop comes to is in the image, if it comes to any. -/
def RelocsInside (image : Bytes) (address : UInt64) (s : Nat) : Prop :=
  let patched := withBase image address
  let p := pointerToRawData patched s
  let pend := p + virtualSize patched s
  p + virtualSize patched s / 8 ≤ sizeOfImage image → relocOffset image address ≠ 0 →
    ∀ p', Relation.ReflTransGen (BlockFollows patched (sizeOfImage image) pend) p p' →
      p' < pend → BlockInside patched (sizeOfImage image) p'

/-- What the loader needs: the size of the headers is not aligned to zero, and, where the
relocations are come to, their blocks are in the image. -/
structure Loadable (image : Bytes) : Prop where
  alignment : Plausible image (u32 image.length) → fileAlignment image ≠ 0
  relocs : Accepted image (u32 image.length) → directoryEntryBaseReloc < numberOfRvaAndSizes image →
    0 < relocSize image → ∀ k, Relocated image k →
      ∀ address, RelocsInside image address (sectionHeader image k)

section Rules

variable {image : Bytes} {imageSize size n s : Nat} {P : Prop} {m : NewImage size}

theorem meets_require {p : Prop} [Decidable p] :
    Meets (require p) (fun _ => P) ↔ (p → P) := by
  unfold require
  split
  · rename_i hp
    rw [meets_ok]
    exact (imp_iff_right hp).symm
  · rename_i hp
    rw [meets_err]
    exact (forall_prop_of_false hp).symm

theorem meets_chkBounds {object : Nat} {objectSize : Int} :
    Meets (chkBounds size object objectSize) (fun _ => P) ↔
      ((object : Int) + objectSize ≤ size → P) := by
  unfold chkBounds
  split
  · rename_i h
    rw [meets_err]
    exact (forall_prop_of_false (Int.not_le.mpr h)).symm
  · rename_i h
    rw [meets_ok]
    exact (imp_iff_right (Int.not_lt.mp h)).symm

theorem meets_bounds {object objectSize : Nat} :
    Meets (chkBounds size object objectSize) (fun _ => P) ↔ (object + objectSize ≤ size → P) := by
  rw [meets_chkBounds, ← Nat.cast_add, Int.ofNat_le]

theorem forall_lt_succ_left {p : Nat → Prop} :
    (∀ i < n + 1, p i) ↔ p 0 ∧ ∀ i < n, p (i + 1) := by
  constructor
  · intro h
    exact ⟨h 0 (Nat.succ_pos n), fun i hi => h (i + 1) (Nat.succ_lt_succ hi)⟩
  · rintro ⟨h0, h⟩ i hi
    cases i with
    | zero => exact h0
    | succ i => exact h i (Nat.lt_of_succ_lt_succ hi)

theorem meets_checkSections (h : s + 40 * n ≤ image.length) :
    Meets (checkSections image imageSize n s) (fun _ => P) ↔
      ((∀ i < n, pointerToRawData image (s + 40 * i) + baseSize image (s + 40 * i) ≤ imageSize) →
        P) := by
  induction n generalizing s with
  | zero => simp [checkSections, meets_ok]
  | succ n ih =>
    rw [checkSections, meets_bind, meets_demand, and_iff_right (by omega), meets_bind, meets_bounds,
      ih (by omega), forall_lt_succ_left, and_imp]
    simp only [Nat.mul_zero, Nat.add_zero, Nat.mul_add, Nat.mul_one, Nat.add_assoc,
      Nat.add_comm 40]

/-- `_GetHeaders` reads in the image, and goes on from a plausible image if its alignment is not
zero. -/
theorem meets_getHeaders (hsize : imageSize ≤ image.length) :
    Meets (getHeaders image imageSize) (fun _ => P) ↔
      (Plausible image imageSize → fileAlignment image ≠ 0 ∧
        ((headersEnd image + fileAlignment image - 1) / fileAlignment image *
            fileAlignment image = sizeOfHeaders image →
          relocAddress image + relocSize image ≤ imageSize →
          sectionHeader image 0 + 20 ≤ imageSize →
          (∀ i < numberOfSections image, pointerToRawData image (sectionHeader image i) +
            baseSize image (sectionHeader image i) ≤ imageSize) → P)) := by
  unfold getHeaders
  simp only [meets_bind, meets_require, meets_demand, meets_chkBounds]
  have hstart : sectionHeader image 0 = ntHeader image + 264 := rfl
  have htable : headersEnd image = sectionHeader image 0 + 40 * numberOfSections image := rfl
  constructor
  · intro h hp
    have h64 := hp.dosHeader
    have h264 := hp.ntHeaders
    have hend := hp.sections
    obtain ⟨-, h⟩ := h (by omega) (by omega)
    obtain ⟨-, h⟩ := h hp.dos (by omega)
    obtain ⟨-, h⟩ := h hp.nt (by omega)
    obtain ⟨halign, h⟩ := h hp.magic hp.machine hp.relocs hp.size hp.directory hp.optional hend
    refine ⟨halign, fun ha hr hf hs => ?_⟩
    exact (meets_checkSections (by omega)).mp (h ha (by omega) (by omega)) hs
  · intro h h0 h64
    refine ⟨by omega, fun hdos h40 => ⟨by omega, fun hnt h264 => ⟨by omega, ?_⟩⟩⟩
    intro hmagic hmachine hrelocs himage hdir hopt hend
    obtain ⟨halign, h⟩ := h ⟨by omega, hdos, by omega, hnt, hmagic, hmachine, hrelocs, himage,
      hdir, hopt, hend⟩
    refine ⟨halign, fun ha hr hf => ?_⟩
    exact (meets_checkSections (by omega)).mpr fun hs => h ha (by omega) (by omega) hs

/-! ### Copying -/

theorem meets_store {off : Nat} {b : Bytes} :
    Meets (m.store off b) (fun _ => P) ↔ off + b.length ≤ size ∧ P := by
  unfold NewImage.store
  split
  · rename_i h
    rw [meets_ok]
    exact (and_iff_right h).symm
  · rename_i h
    rw [meets_stuck]
    exact (iff_false_intro fun h' => h h'.1).symm

theorem meets_copy {off src k : Nat} (hsrc : src + k ≤ image.length) (hoff : off + k ≤ size) :
    Meets (m.copy image off src k) (fun _ => P) ↔ P := by
  have hlen : ((image.drop src).take k).length = k := by
    rw [List.length_take, List.length_drop]
    omega
  rw [NewImage.copy, meets_bind, meets_demand, meets_store, hlen, and_iff_right hsrc,
    and_iff_right hoff]

theorem baseSize_le : baseSize image s ≤ virtualSize image s := Nat.min_le_left _ _

theorem meets_copyData {m : Loading image} (hsize : sizeOfImage image ≤ image.length)
    (hmem : virtualAddress image s + virtualSize image s ≤ sizeOfImage image) :
    Meets (copyData image s m) (fun _ => P) ↔ ((0 < sizeOfRawData image s →
      pointerToRawData image s + baseSize image s ≤ sizeOfImage image) → P) := by
  have hbase : baseSize image s ≤ virtualSize image s := baseSize_le
  unfold copyData
  split
  · rename_i hraw
    rw [meets_bind, meets_bounds, imp_iff_right hraw]
    exact imp_congr_right fun hin => meets_copy (by omega) (by omega)
  · rename_i hraw
    rw [meets_pure, imp_iff_right fun h => absurd h hraw]

/-- What is cleared is in the new image already. -/
theorem meets_clearRest {m : Loading image}
    (hmem : virtualAddress image s + virtualSize image s ≤ sizeOfImage image) :
    Meets (clearRest image s m) (fun _ => P) ↔ P := by
  unfold clearRest
  dsimp only
  split
  · have hbase : baseSize image s ≤ virtualSize image s := baseSize_le
    have hin : virtualAddress image s + baseSize image s +
        (virtualSize image s - baseSize image s) ≤ sizeOfImage image := by omega
    rw [meets_bind, meets_bounds, meets_store, List.length_replicate, imp_iff_right hin,
      and_iff_right hin]
  · exact meets_pure

theorem meets_copySection {m : Loading image} (hsize : sizeOfImage image ≤ image.length)
    (hmem : virtualAddress image s + virtualSize image s ≤ sizeOfImage image) :
    Meets (copySection image s m) (fun _ => P) ↔ ((discardable image s = false →
      0 < sizeOfRawData image s →
        pointerToRawData image s + baseSize image s ≤ sizeOfImage image) → P) := by
  unfold copySection
  rw [meets_ite, meets_pure, meets_bind]
  simp only [meets_clearRest hmem, meets_copyData hsize hmem]
  cases discardable image s <;> simp

/-- What the loop over the sections finds, from a section on, if they can be copied. -/
def Finds (image : Bytes) : (n s : Nat) → (reloc found : Option Nat) → Prop
  | 0, _, reloc, found => found = reloc
  | n + 1, s, reloc, found =>
    SectionFits image s ∧ ¬ (sectionName image s = relocName ∧ reloc.isSome) ∧
      Finds image n (s + 40) (if isRelocSection image s then some s else reloc) found

theorem meets_copySections {m : Loading image} {reloc : Option Nat} {Q : Option Nat → Prop}
    (hsize : sizeOfImage image ≤ image.length) (htable : s + 40 * n ≤ image.length) :
    Meets (copySections image n s reloc m) (fun copied => ∀ x ∈ copied, Q x.1) ↔
      ∀ found, Finds image n s reloc found → Q found := by
  induction n generalizing s reloc m with
  | zero => simp [copySections, Finds, meets_ok]
  | succ n ih =>
    have hrest : ∀ m' : Loading image, Meets (copySections image n (s + 40)
        (if isRelocSection image s then some s else reloc) m') (fun copied => ∀ x ∈ copied, Q x.1) ↔
          ∀ found, Finds image n (s + 40) (if isRelocSection image s then some s else reloc)
            found → Q found := fun m' => ih (by omega)
    rw [copySections, meets_bind, meets_demand, and_iff_right (by omega), meets_bind,
      meets_chkBounds, meets_bind, meets_bounds, meets_bind, meets_demand, meets_ite, meets_ok,
      meets_bind]
    simp only [hrest]
    constructor
    · rintro h found ⟨hfits, hdup, hfinds⟩
      have hheader := hfits.header
      obtain ⟨-, -, h⟩ := h (by omega) hfits.memory
      exact (meets_copySection hsize hfits.memory).mp (h hdup) hfits.data found hfinds
    · intro h hheader hmem
      refine ⟨by omega, fun _ x hx => (by cases hx), fun hdup => ?_⟩
      refine (meets_copySection hsize hmem).mpr fun hdata found hfinds => ?_
      exact h found ⟨⟨by omega, hmem, hdata⟩, hdup, hfinds⟩

theorem finds_some_iff {k : Nat} {found : Option Nat} : Finds image n s (some k) found ↔
    found = some k ∧ ∀ i < n, SectionFits image (s + 40 * i) ∧
      sectionName image (s + 40 * i) ≠ relocName := by
  induction n generalizing s with
  | zero => simp [Finds]
  | succ n ih =>
    have hsucc : ∀ i, s + 40 * (i + 1) = s + 40 + 40 * i := fun i => by omega
    rw [Finds, forall_lt_succ_left]
    simp only [Option.isSome_some, and_true, Nat.mul_zero, Nat.add_zero, hsucc]
    constructor
    · rintro ⟨hfits, hname, hfinds⟩
      have hno : isRelocSection image s = false := by simp [isRelocSection, hname]
      rw [hno, if_neg (by decide)] at hfinds
      obtain ⟨hfound, hrest⟩ := ih.mp hfinds
      exact ⟨hfound, ⟨hfits, hname⟩, hrest⟩
    · rintro ⟨hfound, ⟨hfits, hname⟩, hrest⟩
      have hno : isRelocSection image s = false := by simp [isRelocSection, hname]
      rw [hno, if_neg (by decide)]
      exact ⟨hfits, hname, ih.mpr ⟨hfound, hrest⟩⟩

/-- The section that is found is the first, and the last of its name. -/
theorem finds_none_iff {t : Nat} : Finds image n s none (some t) ↔
    ∃ k < n, t = s + 40 * k ∧ (∀ i < n, SectionFits image (s + 40 * i)) ∧
      isRelocSection image (s + 40 * k) = true ∧
      (∀ i < k, isRelocSection image (s + 40 * i) = false) ∧
      ∀ i, k < i → i < n → sectionName image (s + 40 * i) ≠ relocName := by
  induction n generalizing s with
  | zero => simp [Finds]
  | succ n ih =>
    have hsucc : ∀ i, s + 40 * (i + 1) = s + 40 + 40 * i := fun i => by omega
    rw [Finds]
    simp only [Option.isSome_none, Bool.false_eq_true, and_false, not_false_eq_true, true_and,
      forall_lt_succ_left, hsucc, Nat.mul_zero, Nat.add_zero]
    cases hreloc : isRelocSection image s with
    | true =>
      rw [if_pos rfl, finds_some_iff]
      constructor
      · rintro ⟨hfits, hfound, hrest⟩
        refine ⟨0, Nat.succ_pos n, Option.some.inj hfound, ⟨hfits, fun i hi => (hrest i hi).1⟩,
          hreloc, fun i hi => absurd hi (Nat.not_lt_zero i), ?_⟩
        intro i h0 hi
        obtain ⟨j, rfl⟩ := Nat.exists_eq_succ_of_ne_zero (Nat.ne_of_gt h0)
        rw [Nat.succ_eq_add_one, hsucc]
        exact (hrest j (Nat.lt_of_succ_lt_succ hi)).2
      · rintro ⟨k, hk, ht, ⟨hfits, hrest⟩, hfound, hfirst, hlast⟩
        have hk0 : k = 0 := by
          by_contra hne
          have := hfirst 0 (Nat.pos_of_ne_zero hne)
          rw [Nat.mul_zero, Nat.add_zero, hreloc] at this
          cases this
        subst hk0
        refine ⟨hfits, congrArg some ht, fun i hi => ⟨hrest i hi, ?_⟩⟩
        rw [← hsucc]
        exact hlast (i + 1) (Nat.succ_pos i) (Nat.succ_lt_succ hi)
    | false =>
      rw [if_neg (by decide), ih]
      constructor
      · rintro ⟨hfits, k, hk, ht, hrest, hfound, hfirst, hlast⟩
        refine ⟨k + 1, Nat.succ_lt_succ hk, (hsucc k).symm ▸ ht, ⟨hfits, hrest⟩,
          (hsucc k).symm ▸ hfound, ?_, ?_⟩
        · intro i hi
          cases i with
          | zero => exact hreloc
          | succ i => rw [hsucc]; exact hfirst i (Nat.lt_of_succ_lt_succ hi)
        · intro i hk' hi
          obtain ⟨j, rfl⟩ := Nat.exists_eq_succ_of_ne_zero (Nat.ne_zero_of_lt hk')
          rw [Nat.succ_eq_add_one, hsucc]
          exact hlast j (Nat.lt_of_succ_lt_succ hk') (Nat.lt_of_succ_lt_succ hi)
      · rintro ⟨k, hk, ht, ⟨hfits, hrest⟩, hfound, hfirst, hlast⟩
        cases k with
        | zero => rw [Nat.mul_zero, Nat.add_zero, hreloc] at hfound; cases hfound
        | succ k =>
          rw [hsucc] at ht hfound
          refine ⟨hfits, k, Nat.lt_of_succ_lt_succ hk, ht, hrest, hfound, fun i hi => ?_, ?_⟩
          · rw [← hsucc]
            exact hfirst (i + 1) (Nat.succ_lt_succ hi)
          · intro i hk' hi
            rw [← hsucc]
            exact hlast (i + 1) (Nat.succ_lt_succ hk') (Nat.succ_lt_succ hi)

theorem relocated_of_finds {t : Nat}
    (h : Finds image (numberOfSections image) (sectionHeader image 0) none (some t)) :
    ∃ k, Relocated image k ∧ t = sectionHeader image k := by
  obtain ⟨k, hk, ht, hfits, hfound, hfirst, hlast⟩ := finds_none_iff.mp h
  exact ⟨k, ⟨hfits, hk, hfound, hfirst, hlast⟩, ht⟩

theorem Relocated.finds {k : Nat} (h : Relocated image k) : Finds image (numberOfSections image)
    (sectionHeader image 0) none (some (sectionHeader image k)) :=
  finds_none_iff.mpr ⟨k, h.index, rfl, h.fits, h.found, h.first, h.last⟩

/-- What the loader goes on with, if it comes to the relocations with a section. -/
def Given (image : Bytes) (Q : UInt64 → Nat → Prop)
    (copied : Option (UInt64 × Option Nat × Loading image)) : Prop :=
  ∀ address s m, copied = some (address, some s, m) → Q address s

theorem meets_keepCopy {address : UInt64} {Q : UInt64 → Nat → Prop}
    {copied : Option (Option Nat × Loading image)} :
    Meets (keepCopy image address copied) (Given image Q) ↔ ∀ x ∈ copied,
      directoryEntryBaseReloc < numberOfRvaAndSizes image → ∀ s, x.1 = some s → Q address s := by
  cases copied with
  | none =>
    refine iff_of_true (meets_ok.mpr ?_) ?_
    · rintro _ _ _ ⟨⟩
    · rintro _ ⟨⟩
  | some x =>
    obtain ⟨reloc, m⟩ := x
    unfold keepCopy
    rw [meets_ite, meets_ok, meets_ok, Nat.not_le]
    constructor
    · rintro ⟨-, h⟩ _ ⟨⟩ hdir s rfl
      exact h hdir address s m rfl
    · intro h
      refine ⟨fun _ => ?_, fun hdir => ?_⟩
      · rintro _ _ _ ⟨⟩
      · rintro address' s m ⟨⟩
        exact h _ rfl hdir s rfl

theorem meets_copyTo {address : UInt64} {Q : UInt64 → Nat → Prop}
    (himage : sizeOfImage image ≤ image.length)
    (htable : sectionHeader image 0 + 40 * numberOfSections image ≤ image.length) :
    Meets (copyTo image address) (Given image Q) ↔
      (sizeOfHeaders image ≤ sizeOfImage image →
        relocAddress image + relocSize image ≤ sizeOfImage image →
          directoryEntryBaseReloc < numberOfRvaAndSizes image →
            ∀ k, Relocated image k → Q address (sectionHeader image k)) := by
  unfold copyTo
  rw [meets_bind, meets_bounds, Nat.zero_add]
  refine imp_congr_right fun hheaders => ?_
  simp only [meets_bind, meets_bounds, meets_keepCopy, @meets_copySections image _ _ _ none
    (fun found => directoryEntryBaseReloc < numberOfRvaAndSizes image → ∀ s, found = some s →
      Q address s) himage htable]
  rw [meets_copy (by omega) (by omega)]
  refine imp_congr_right fun _ => ?_
  constructor
  · intro h hdir k hk
    exact h _ hk.finds hdir _ rfl
  · rintro h _ hfinds hdir s rfl
    obtain ⟨k, hk, rfl⟩ := relocated_of_finds hfinds
    exact h hdir k hk

/-- `_FixupImage` reads and writes where it may before the relocations, if it does not divide by
zero. -/
theorem meets_copyImage {calloc : Option UInt64} {Q : UInt64 → Nat → Prop}
    (hsize : imageSize ≤ image.length) :
    Meets (copyImage image imageSize calloc) (Given image Q) ↔
      (Plausible image imageSize → fileAlignment image ≠ 0 ∧
        (Accepted image imageSize → directoryEntryBaseReloc < numberOfRvaAndSizes image →
          ∀ address, calloc = some address → ∀ k, Relocated image k →
            Q address (sectionHeader image k))) := by
  unfold copyImage
  rw [meets_bind, meets_getHeaders hsize]
  refine forall_congr' fun hp => and_congr_right fun _ => ?_
  have himage : sizeOfImage image ≤ image.length := Nat.le_trans hp.size hsize
  have htable : sectionHeader image 0 + 40 * numberOfSections image ≤ image.length :=
    Nat.le_trans hp.sections hsize
  cases calloc with
  | none =>
    refine iff_of_true (fun _ _ _ _ => meets_ok.mpr ?_) ?_
    · rintro _ _ _ ⟨⟩
    · rintro _ _ _ ⟨⟩
  | some address =>
    rw [meets_copyTo himage htable]
    constructor
    · rintro h ha hdir _ ⟨⟩ k hk
      exact h ha.aligned ha.relocDir ha.firstSection ha.data ha.headers ha.newRelocDir hdir k hk
    · intro h haligned hreloc hfirst hdata hheaders hnew hdir k hk
      exact h ⟨hp, haligned, hreloc, hfirst, hdata, hheaders, hnew⟩ hdir address rfl k hk

/-! ### Relocating -/

theorem meets_adjust {off k : Nat} {f : Bytes → Bytes} (hf : ∀ b, (f b).length = k) :
    Meets (m.adjust off k f) (fun _ => P) ↔ (off + k ≤ size → P) := by
  unfold NewImage.adjust
  rw [meets_bind, meets_bounds]
  refine imp_congr_right fun hin => ?_
  rw [meets_bind, meets_demand, meets_store, hf, and_iff_right hin, and_iff_right hin]

theorem meets_relocate {offset tag target : Nat} :
    Meets (relocate offset tag target m) (fun _ => P) ↔ (TargetFits size tag target → P) := by
  unfold relocate TargetFits
  split
  · rw [meets_pure, imp_iff_right trivial]
  · exact meets_adjust fun _ => rfl
  · exact meets_adjust fun _ => rfl
  · exact meets_adjust fun _ => rfl
  · exact meets_adjust fun _ => rfl
  · exact meets_err.trans (iff_true_intro False.elim).symm

theorem meets_relocateWords {offset base q : Nat} :
    Meets (relocateWords image offset base n q m) (fun _ => P) ↔
      (∀ i < n, (∀ j < i, WordFits image size base (q + 2 * j)) → q + 2 * i + 2 ≤ image.length) ∧
        ((∀ i < n, WordFits image size base (q + 2 * i)) → P) := by
  induction n generalizing q m with
  | zero => simp [relocateWords, meets_ok]
  | succ n ih =>
    have hsucc : ∀ i, q + 2 * (i + 1) = q + 2 + 2 * i := fun i => by omega
    rw [relocateWords, meets_bind, meets_demand, meets_bind]
    simp only [ih]
    rw [meets_relocate]
    simp only [forall_lt_succ_left, hsucc, Nat.mul_zero, Nat.add_zero, Nat.not_lt_zero,
      false_imp_iff, implies_true, true_imp_iff, and_imp]
    constructor
    · rintro ⟨hin, h⟩
      exact ⟨⟨hin, fun i hi hw => (h hw).1 i hi⟩, fun hw => (h hw).2⟩
    · rintro ⟨⟨hin, hreads⟩, hp⟩
      exact ⟨hin, fun hw => ⟨fun i hi => hreads i hi hw, hp hw⟩⟩

end Rules

section Round

variable {image : Bytes} {size offset pend : Nat} {t u : Nat × NewImage size}

/-- A round relocates the block, if it can, and goes on behind it. -/
theorem meets_relocRound {P : Prop} {Q : Step (Nat × NewImage size) (NewImage size) → Prop}
    (hp : t.1 < pend) (hq : ∀ m, Q (.next (t.1 + sizeOfBlock image t.1, m)) ↔ P) :
    Meets (relocRound image offset (relocSize image) pend t) Q ↔
      BlockInside image size t.1 ∧
        (BlockPasses image size t.1 → WordsFit image size t.1 (blockWords image t.1) → P) := by
  have hpasses : BlockPasses image size t.1 ↔
      ((t.1 + 8 : Nat) : Int) + ((sizeOfBlock image t.1 : Int) - 8) / 2 ≤ size ∧
        sizeOfBlock image t.1 ≠ 0 ∧ sizeOfBlock image t.1 ≤ relocSize image :=
    ⟨fun h => ⟨by exact_mod_cast h.bounds, h.positive, h.directory⟩,
      fun h => ⟨by exact_mod_cast h.1, h.2.1, h.2.2⟩⟩
  unfold relocRound BlockInside
  rw [if_pos hp, meets_bind, meets_demand, meets_bind, meets_chkBounds, meets_bind, meets_require,
    meets_bind]
  simp only [meets_pure, hq]
  rw [meets_relocateWords, ← and_imp, ← hpasses, and_assoc]
  exact and_congr_right fun _ => forall_and

theorem relocRound_returns : relocRound image offset (relocSize image) pend t ≠ .stuck ↔
    (t.1 < pend → BlockInside image size t.1) := by
  by_cases hp : t.1 < pend
  · rw [← meets_true, meets_relocRound (P := True) hp fun _ => Iff.rfl, imp_iff_right hp]
    exact and_iff_left fun _ _ => trivial
  · rw [relocRound, if_neg hp]
    exact iff_of_true (fun h => by cases h) fun h => absurd h hp

theorem follows_of_next (h : Next (relocRound image offset (relocSize image) pend) t u) :
    BlockFollows image size pend t.1 u.1 := by
  have hp : t.1 < pend := by
    by_contra hp
    rw [Next, relocRound, if_neg hp] at h
    cases h
  have hin := relocRound_returns.mp (fun hs => by rw [Next, hs] at h; cases h) hp
  have hmeets := (@meets_relocRound image size offset pend t
    (BlockFollows image size pend t.1 (t.1 + sizeOfBlock image t.1))
    (fun r => ∀ u, r = .next u → BlockFollows image size pend t.1 u.1) hp fun m =>
      ⟨fun h => h _ rfl, fun h u hu => by cases hu; exact h⟩).mpr
        ⟨hin, fun hpass hwords => ⟨hp, hpass, hwords, rfl⟩⟩
  exact hmeets.ok _ h u rfl

theorem next_of_follows {p' : Nat} (hin : BlockInside image size t.1)
    (h : BlockFollows image size pend t.1 p') :
    ∃ u, Next (relocRound image offset (relocSize image) pend) t u ∧ u.1 = p' := by
  have hnext := (@meets_relocRound image size offset pend t True (fun r => ∃ u, r = .next u ∧
    u.1 = p') h.before fun m => iff_of_true ⟨_, rfl, h.next.symm⟩ trivial).mpr
      ⟨hin, fun _ _ => trivial⟩
  obtain ⟨r, hr, u, rfl, hu⟩ := ok_of_meets hnext fun hno =>
    ((meets_relocRound h.before fun _ => Iff.rfl).mp hno).2 h.passes h.words
  exact ⟨u, hr, hu⟩

end Round

section Fixup

variable {image : Bytes} {address : UInt64} {s : Nat} {m : Loading image}

/-- The relocations are applied safely exactly where the blocks that the loop comes to are in
the image. -/
theorem safe_applyRelocations : Safe (applyRelocations image address s m) ↔
    ntHeader image + 56 ≤ image.length ∧ s + 24 ≤ image.length ∧
      RelocsInside image address s := by
  unfold applyRelocations RelocsInside
  dsimp only
  refine safe_of_bind.trans (meets_demand.trans (and_congr_right fun _ => ?_))
  refine safe_of_bind.trans (meets_demand.trans (and_congr_right fun _ => ?_))
  refine safe_of_bind.trans (meets_bounds.trans (imp_congr_right fun _ => ?_))
  split
  · rename_i h0
    exact iff_of_true (safe_of.mpr fun h => by cases h) fun h => absurd h0 h
  · rename_i h0
    rw [imp_iff_right h0, safe_loop_iff
      (fun t => pointerToRawData (withBase image address) s +
        virtualSize (withBase image address) s - t.1) fun t u hu => ?_]
    · exact returns_iff_walk Prod.fst (fun t => relocRound_returns) (fun t u => follows_of_next)
        fun t p hfine h => next_of_follows (hfine h.before) h
    · have h := follows_of_next hu
      have hlt := h.before
      have hpos := h.passes.positive
      rw [h.next]
      omega

theorem setEntryPoint_returns : setEntryPoint image address m ≠ .stuck := by
  unfold setEntryPoint
  rw [← meets_true, meets_bind, meets_chkBounds]
  intro _
  rw [meets_bind, meets_chkBounds]
  intro _
  exact meets_pure.mpr trivial

theorem safe_finishImage {copied : Option (UInt64 × Option Nat × Loading image)} :
    Safe (finishImage image copied) ↔ Given image (fun address s => 0 < relocSize image →
      ntHeader image + 56 ≤ image.length ∧ s + 24 ≤ image.length ∧ RelocsInside image address s)
        copied := by
  cases copied with
  | none =>
    refine iff_of_true (safe_of.mpr fun h => by cases h) ?_
    rintro _ _ _ ⟨⟩
  | some x =>
    obtain ⟨address, reloc, m⟩ := x
    cases reloc with
    | none =>
      refine iff_of_true (safe_of.mpr setEntryPoint_returns) ?_
      rintro _ _ _ ⟨⟩
    | some s =>
      have hgiven : Given image (fun address s => 0 < relocSize image →
          ntHeader image + 56 ≤ image.length ∧ s + 24 ≤ image.length ∧
            RelocsInside image address s) (some (address, some s, m)) ↔
          (0 < relocSize image → ntHeader image + 56 ≤ image.length ∧ s + 24 ≤ image.length ∧
            RelocsInside image address s) :=
        ⟨fun h => h address s m rfl, fun h _ _ _ heq => by cases heq; exact h⟩
      rw [hgiven, finishImage]
      split
      · rename_i hpos
        rw [imp_iff_right hpos, ← safe_applyRelocations (m := m)]
        exact safe_bind_of fun _ => setEntryPoint_returns
      · rename_i hpos
        exact iff_of_true (safe_of.mpr setEntryPoint_returns) fun h => absurd h hpos

end Fixup

/-- The loader is safe exactly for an image whose size of headers is not aligned to zero and
whose relocations are in it. -/
theorem loaded_safely_iff (image : Bytes) : LoadsSafely image ↔ Loadable image := by
  have hsize : u32 image.length ≤ image.length := u32_le _
  have hsafe : ∀ calloc, Safe (fixupImage image calloc) ↔ _ := fun calloc => by
    unfold fixupImage
    refine safe_of_bind.trans ?_
    simp only [safe_finishImage]
    exact meets_copyImage hsize
  constructor
  · intro h
    refine ⟨fun hp => (((hsafe none).mp (h none)) hp).1, ?_⟩
    intro ha hdir hpos k hk address
    have hmeets := ((hsafe (some address)).mp (h _) ha.toPlausible).2
    exact (hmeets ha hdir address rfl k hk hpos).2.2
  · intro h calloc
    refine (hsafe calloc).mpr fun hp => ⟨h.alignment hp, ?_⟩
    intro ha hdir address _ k hk hpos
    have hnt := hp.ntHeaders
    have hheader := (hk.fits k hk.index).header
    have himage := hp.size
    exact ⟨by omega, by omega, h.relocs ha hdir hpos k hk address⟩

/-! ## An image without an alignment -/

/-- The headers of an image without sections, of which `FileAlignment` is zero. -/
def unaligned : Bytes :=
  [0x4D, 0x5A] ++ List.replicate 58 0 ++ [64, 0, 0, 0] ++ [0x50, 0x45, 0, 0, 0x64, 0x86] ++
    List.replicate 14 0 ++ [240, 0, 0, 0, 0x0B, 0x02] ++ List.replicate 238 0

/-- The size of the headers is divided by zero. -/
theorem unaligned_divides : ¬ ∀ image, LoadsSafely image := by
  intro h
  have hstuck : getHeaders unaligned (u32 unaligned.length) = .stuck := by decide +kernel
  refine (h unaligned none).returns (Exec.Ends.bind_stuck ?_ _)
  refine Exec.ends_of.mpr ?_
  rw [copyImage, hstuck]
  rfl

end LsvmTools.PeLoader
