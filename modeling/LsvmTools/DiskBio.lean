import LsvmTools.Blkdev

/-! # The hooks of the boot disk

`diskbio.c` replaces `ReadBlocks` and `WriteBlocks` of the boot disk. A table of regions
says which blocks are served by something else: a copy in memory or another
`EFI_BLOCK_IO`. Block numbers are `UINT64`, so counting on from the last one leads to 0. -/
namespace LsvmTools.DiskBio
open Lib.ByteString Lib.Program Lib.Sectors Blkdev

/-! ## Status codes -/

abbrev EfiStatus := UInt64

/-- `EFI_UNSUPPORTED`. -/
def unsupported : EfiStatus := 0x8000000000000003

/-- `EFI_WRITE_PROTECTED`. -/
def writeProtected : EfiStatus := 0x8000000000000008

/-! ## Regions -/

/-- The functions of an `EFI_BLOCK_IO`, which take the size of the buffer in bytes. -/
structure Bio (σ : Type) where
  readBlocks : Nat → Nat → Prog σ EfiStatus Bytes
  writeBlocks : Nat → Bytes → Prog σ EfiStatus Unit

/-- What holds the blocks of a region, `blocks` or `bio`. -/
inductive Backing (ρ : Type) where
  | blocks (data : Nat → Sector)
  | bio (s : ρ)

/-- Where a region lies and how it may be used. -/
structure Slot where
  firstLBA : Nat
  lastLBA : Nat
  numBlocks : Nat
  readOnly : Bool

structure Region (ρ : Type) extends Slot where
  backing : Backing ρ

/-- `MAX_REGIONS`. -/
def maxRegions : Nat := 8

/-- The regions and the two places that hold the size of the disk:
`lastUsableLBA` of the GPT header, and `LastBlock` of the disk, if it is open. -/
structure Table (ρ : Type) where
  regions : List (Region ρ)
  lastUsableLBA : Nat
  lastBlock : Option Nat

variable {σ ρ : Type}

/-- `AddRegion`. Before the disk is open there is no `LastBlock` to set. -/
def addRegion (tab : Table ρ) (firstLBA lastLBA numBlocks : Nat) (readOnly : Bool)
    (blocks : Option (Nat → Sector)) (bio : Option ρ) : Out Unit (Table ρ) :=
  if tab.regions.length = maxRegions then .err ()
  else
    let backing : Option (Backing ρ) := match blocks, bio with
      | some data, none => some (.blocks data)
      | none, some s => some (.bio s)
      | _, _ => none
    match backing with
    | none => .err ()
    | some backing =>
      let regions := tab.regions ++ [⟨⟨firstLBA, lastLBA, numBlocks, readOnly⟩, backing⟩]
      if lastLBA > tab.lastUsableLBA then
        match tab.lastBlock with
        | some _ => .ok ⟨regions, lastLBA, some lastLBA⟩
        | none => .stuck
      else .ok { tab with regions }

def Slot.has (slot : Slot) (lba : Nat) : Bool := slot.firstLBA ≤ lba && lba ≤ slot.lastLBA

/-- `_FindRegion`: where in the table the first region with the block is. -/
def findRegion (regions : List (Region ρ)) (lba : Nat) : Option Nat :=
  regions.findIdx? fun reg => reg.has lba

/-! ## The state -/

structure World (σ ρ : Type) where
  /-- `globals.enableIOHooks`. -/
  enableIOHooks : Bool
  /-- The disk below the hooks. -/
  disk : σ
  regions : List (Region ρ)
  /-- The writes requested from the disk so far: their first block and size in bytes. -/
  requests : List (Nat × Nat)

/-- A call of the disk below the hooks. -/
def onDisk {α : Type} (m : Prog σ EfiStatus α) : Prog (World σ ρ) EfiStatus α where
  exec w := match m.run w.disk with
    | .ok a disk => .ok a { w with disk }
    | .err e disk => .err e { w with disk }
    | .stuck => .stuck

/-- A write to the disk below the hooks. -/
def writeDisk (disk : Bio σ) (lba : Nat) (buffer : Bytes) : Prog (World σ ρ) EfiStatus Unit := do
  Prog.modify fun w => { w with requests := w.requests ++ [(lba, buffer.length)] }
  onDisk (disk.writeBlocks lba buffer)

/-- Something done with the `k`-th region. -/
def onRegion {α : Type} (k : Nat) (m : Prog (Region ρ) EfiStatus α) :
    Prog (World σ ρ) EfiStatus α where
  exec w := match w.regions[k]? with
    | none => .stuck
    | some reg => match m.run reg with
      | .ok a reg' => .ok a { w with regions := w.regions.set k reg' }
      | .err e reg' => .err e { w with regions := w.regions.set k reg' }
      | .stuck => .stuck

/-- A call of the `EFI_BLOCK_IO` of a region. -/
def onBio {α : Type} (s : ρ) (m : Prog ρ EfiStatus α) : Prog (Region ρ) EfiStatus α where
  exec reg := match m.run s with
    | .ok a t => .ok a { reg with backing := .bio t }
    | .err e t => .err e { reg with backing := .bio t }
    | .stuck => .stuck

/-- The hooks are off during the call and as they were before after it; an error other
than `EFI_WRITE_PROTECTED` is reported as `EFI_UNSUPPORTED`. -/
def withoutHooks {α : Type} (m : Prog (World σ ρ) EfiStatus α) : Prog (World σ ρ) EfiStatus α where
  exec w := match m.run { w with enableIOHooks := false } with
    | .ok a t => .ok a { t with enableIOHooks := w.enableIOHooks }
    | .err e t => .err e { t with enableIOHooks := w.enableIOHooks }
    | .stuck => .stuck

/-- A call whose error leads to `done` with the status that was set at the start. -/
def orUnsupported {ω α : Type} (m : Prog ω EfiStatus α) : Prog ω EfiStatus α where
  exec s := match m.run s with
    | .ok a t => .ok a t
    | .err _ t => .err unsupported t
    | .stuck => .stuck

section

variable {ω α : Type} {m : Prog ω EfiStatus α} {a : α} {s t : ω}

theorem orUnsupported_ok : (orUnsupported m).run s = .ok a t ↔ m.run s = .ok a t := by
  show (match m.run s with
    | .ok a t => Res.ok a t
    | .err _ t => .err unsupported t
    | .stuck => .stuck) = _ ↔ _
  cases m.run s <;> simp

end

theorem onBio_ok {α : Type} {m : Prog ρ EfiStatus α} {s : ρ} {reg reg' : Region ρ} {a : α} :
    (onBio s m).run reg = .ok a reg' ↔
      ∃ t, m.run s = .ok a t ∧ reg' = { reg with backing := .bio t } := by
  show (match m.run s with
    | .ok a t => Res.ok a { reg with backing := .bio t }
    | .err e t => .err e { reg with backing := .bio t }
    | .stuck => .stuck) = _ ↔ _
  cases m.run s <;> simp [eq_comm]

theorem onDisk_ok {α : Type} {m : Prog σ EfiStatus α} {w w' : World σ ρ} {a : α} :
    (onDisk m).run w = .ok a w' ↔ ∃ t, m.run w.disk = .ok a t ∧ w' = { w with disk := t } := by
  show (match m.run w.disk with
    | .ok a disk => Res.ok a { w with disk }
    | .err e disk => .err e { w with disk }
    | .stuck => .stuck) = _ ↔ _
  cases m.run w.disk <;> simp [eq_comm]

theorem onRegion_ok {α : Type} {m : Prog (Region ρ) EfiStatus α} {k : Nat} {w w' : World σ ρ}
    {a : α} {reg : Region ρ} (hk : w.regions[k]? = some reg) :
    (onRegion k m).run w = .ok a w' ↔
      ∃ reg', m.run reg = .ok a reg' ∧ w' = { w with regions := w.regions.set k reg' } := by
  show (match w.regions[k]? with
    | none => Res.stuck
    | some reg => match m.run reg with
      | .ok a reg' => .ok a { w with regions := w.regions.set k reg' }
      | .err e reg' => .err e { w with regions := w.regions.set k reg' }
      | .stuck => .stuck) = _ ↔ _
  simp only [hk]
  cases m.run reg <;> simp [eq_comm]

theorem onRegion_err {α : Type} {m : Prog (Region ρ) EfiStatus α} {k : Nat} {w w' : World σ ρ}
    {e : EfiStatus} {reg : Region ρ} (hk : w.regions[k]? = some reg) :
    (onRegion k m).run w = .err e w' ↔
      ∃ reg', m.run reg = .err e reg' ∧ w' = { w with regions := w.regions.set k reg' } := by
  show (match w.regions[k]? with
    | none => Res.stuck
    | some reg => match m.run reg with
      | .ok a reg' => .ok a { w with regions := w.regions.set k reg' }
      | .err e reg' => .err e { w with regions := w.regions.set k reg' }
      | .stuck => .stuck) = _ ↔ _
  simp only [hk]
  cases m.run reg <;> simp [eq_comm]

theorem orUnsupported_err {ω α : Type} {m : Prog ω EfiStatus α} {e : EfiStatus} {s t : ω} :
    (orUnsupported m).run s = .err e t ↔ e = unsupported ∧ ∃ e', m.run s = .err e' t := by
  show (match m.run s with
    | .ok a t => Res.ok a t
    | .err _ t => .err unsupported t
    | .stuck => .stuck) = _ ↔ _
  cases m.run s <;> simp [eq_comm]

theorem onBio_err {α : Type} {m : Prog ρ EfiStatus α} {s : ρ} {reg reg' : Region ρ}
    {e : EfiStatus} : (onBio s m).run reg = .err e reg' ↔
      ∃ t, m.run s = .err e t ∧ reg' = { reg with backing := .bio t } := by
  show (match m.run s with
    | .ok a t => Res.ok a { reg with backing := .bio t }
    | .err e t => .err e { reg with backing := .bio t }
    | .stuck => .stuck) = _ ↔ _
  cases m.run s <;> simp [eq_comm]

theorem onDisk_err {α : Type} {m : Prog σ EfiStatus α} {w w' : World σ ρ} {e : EfiStatus} :
    (onDisk m).run w = .err e w' ↔ ∃ t, m.run w.disk = .err e t ∧ w' = { w with disk := t } := by
  show (match m.run w.disk with
    | .ok a disk => Res.ok a { w with disk }
    | .err e disk => .err e { w with disk }
    | .stuck => .stuck) = _ ↔ _
  cases m.run w.disk <;> simp [eq_comm]

theorem withoutHooks_err {α : Type} {m : Prog (World σ ρ) EfiStatus α} {w w' : World σ ρ}
    {e : EfiStatus} : (withoutHooks m).run w = .err e w' ↔
      ∃ t, m.run { w with enableIOHooks := false } = .err e t ∧
        w' = { t with enableIOHooks := w.enableIOHooks } := by
  show (match m.run { w with enableIOHooks := false } with
    | .ok a t => Res.ok a { t with enableIOHooks := w.enableIOHooks }
    | .err e t => .err e { t with enableIOHooks := w.enableIOHooks }
    | .stuck => .stuck) = _ ↔ _
  cases m.run { w with enableIOHooks := false } <;> simp [eq_comm]

theorem withoutHooks_ok {α : Type} {m : Prog (World σ ρ) EfiStatus α} {w w' : World σ ρ} {a : α} :
    (withoutHooks m).run w = .ok a w' ↔
      ∃ t, m.run { w with enableIOHooks := false } = .ok a t ∧
        w' = { t with enableIOHooks := w.enableIOHooks } := by
  show (match m.run { w with enableIOHooks := false } with
    | .ok a t => Res.ok a { t with enableIOHooks := w.enableIOHooks }
    | .err e t => .err e { t with enableIOHooks := w.enableIOHooks }
    | .stuck => .stuck) = _ ↔ _
  cases m.run { w with enableIOHooks := false } <;> simp [eq_comm]

/-! ## Reading -/

/-- One block of a region. -/
def readBlock (bio : Bio ρ) (localLBA : Nat) : Prog (Region ρ) EfiStatus Bytes := do
  let reg ← Prog.get
  match reg.backing with
  | .bio s => orUnsupported (onBio s (bio.readBlocks localLBA 512))
  | .blocks data =>
    pure (if localLBA < reg.numBlocks then (data localLBA).bytes else List.replicate 512 0)

/-- The loop over the blocks of a region: what was read, the next block and how many bytes
remain. Every round but the last reads up to 512 bytes. -/
def readRegion (bio : Bio ρ) : Nat → Nat → Nat → Prog (Region ρ) EfiStatus (Bytes × Nat × Nat)
  | 0, _, _ => Prog.stuck
  | fuel + 1, i, rem => do
    let reg ← Prog.get
    if i ≤ reg.lastLBA ∧ 0 < rem then do
      let block ← readBlock bio (u64 (i + 2 ^ 64 - reg.firstLBA))
      let n := min 512 rem
      let rest ← readRegion bio fuel (u64 (i + 1)) (rem - n)
      pure (block.take n ++ rest.1, rest.2)
    else pure ([], i, rem)

/-- What is read from the region of the first block, if any. -/
def readFront (bio : Bio ρ) (regions : List (Region ρ)) (lba bufferSize : Nat) :
    Prog (World σ ρ) EfiStatus (Bytes × Nat × Nat) :=
  match findRegion regions lba with
  | some k => onRegion k (readRegion bio (bufferSize + 1) lba bufferSize)
  | none => pure ([], lba, bufferSize)

/-- `_EFI_BLOCK_IO_ReadBlocksHook`. -/
def readBlocksHook (disk : Bio σ) (bio : Bio ρ) (lba bufferSize : Nat) :
    Prog (World σ ρ) EfiStatus Bytes := do
  let w ← Prog.get
  if !w.enableIOHooks then onDisk (disk.readBlocks lba bufferSize)
  else withoutHooks do
    let front ← readFront bio w.regions lba bufferSize
    if front.2.2 = 0 then pure front.1
    else do
      let back ← orUnsupported (onDisk (disk.readBlocks front.2.1 front.2.2))
      pure (front.1 ++ back)

/-! ## Writing -/

/-- One block of a region. -/
def writeBlock (bio : Bio ρ) (localLBA : Nat) (block : Sector) : Prog (Region ρ) EfiStatus Unit := do
  let reg ← Prog.get
  match reg.backing with
  | .bio s => orUnsupported (onBio s (bio.writeBlocks localLBA block.bytes))
  | .blocks data =>
    if localLBA < reg.numBlocks then
      Prog.modify fun reg => { reg with backing := .blocks (Function.update data localLBA block) }
    else pure ()

/-- The loop over the blocks of a region: the next block and what remains to be written.
A last block that is not full is filled up with zeros. -/
def writeRegion (bio : Bio ρ) : Nat → Nat → Bytes → Prog (Region ρ) EfiStatus (Nat × Bytes)
  | 0, _, _ => Prog.stuck
  | fuel + 1, i, buffer => do
    let reg ← Prog.get
    if i ≤ reg.lastLBA ∧ 0 < buffer.length then do
      writeBlock bio (u64 (i + 2 ^ 64 - reg.firstLBA)) (Sector.ofBytes buffer)
      writeRegion bio fuel (u64 (i + 1)) (buffer.drop 512)
    else pure (i, buffer)

/-- What is written to the region of the first block, if any. -/
def writeFront (bio : Bio ρ) (regions : List (Region ρ)) (lba : Nat) (buffer : Bytes) :
    Prog (World σ ρ) EfiStatus (Nat × Bytes) :=
  match findRegion regions lba with
  | some k => onRegion k do
    let reg ← Prog.get
    if reg.readOnly then Prog.throw writeProtected
    else writeRegion bio (buffer.length + 1) lba buffer
  | none => pure (lba, buffer)

/-- `_EFI_BLOCK_IO_WriteBlocksHook`. -/
def writeBlocksHook (disk : Bio σ) (bio : Bio ρ) (lba : Nat) (buffer : Bytes) :
    Prog (World σ ρ) EfiStatus Unit := do
  let w ← Prog.get
  if !w.enableIOHooks then writeDisk disk lba buffer
  else withoutHooks do
    let rest ← writeFront bio w.regions lba buffer
    if rest.2.length = 0 then pure ()
    else orUnsupported (writeDisk disk rest.1 rest.2)

end LsvmTools.DiskBio
