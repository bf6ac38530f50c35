import LsvmTools.Ext2.Blocks

/-! # Consistency check

`EXT2Check` leaves through one exit whatever it finds: what it returns is the
error variable, and that was last set by a bitmap or an inode it read. -/
namespace LsvmTools.Ext2.Check
open Lib.ByteString Lib.Program Volume Blocks

/-- The totals over the groups of one kind of bitmap: the sum of the group
counters, the number of bits and the number of bits set, all 32-bit. -/
structure Totals where
  nfree : Nat
  n : Nat
  nused : Nat
deriving DecidableEq

def Totals.clear (t : Totals) : Nat := u32 (t.n + 2 ^ 32 - t.nused)

def bitmapTotals (read : Nat → Out Err Bytes) (free : Nat → Out Err Nat) (t : Totals) :
    List Nat → Out Err Totals
  | [] => pure t
  | i :: rest => do
    let count ← free i
    let bitmap ← read i
    bitmapTotals read free ⟨u32 (t.nfree + count), u32 (t.n + bitmap.length * 8),
      u32 (t.nused + countBitsN bitmap)⟩ rest

def blockTotals (ext2 : EXT2) : Out Err Totals :=
  bitmapTotals (readBlockBitmap ext2) (fun i => do pure (← ext2.group i).bgFreeBlocksCount)
    ⟨0, 0, 0⟩ (List.range ext2.groupCount)

def inodeTotals (ext2 : EXT2) : Out Err Totals :=
  bitmapTotals (readInodeBitmap ext2) (fun i => do pure (← ext2.group i).bgFreeInodesCount)
    ⟨0, 0, 0⟩ (List.range ext2.groupCount)

/-- Inodes that the loop skips, by their place in the group. -/
def reserved (lino : Nat) : Bool := decide (lino + 1 < 11) && decide (lino + 1 ≠ 2)

/-- The tests on one inode. -/
def inodeOk (inode : Inode) : Bool := inode.iMode ≠ 0 && (inode.iSize = 0 || inode.iBlock 0 ≠ 0)

/-- The loop over the inodes of a group: the number of bits set, or nothing where
an inode fails its tests. -/
def checkInodes (ext2 : EXT2) (grpno : Nat) (bitmap : Bytes) (mbits : Nat) :
    List Nat → Out Err (Option Nat)
  | [] => pure (some mbits)
  | lino :: rest =>
    if !testBit bitmap lino then checkInodes ext2 grpno bitmap mbits rest
    else if reserved lino then checkInodes ext2 grpno bitmap (u32 (mbits + 1)) rest
    else do
      let inode ← readInode ext2 (ext2.makeIno grpno lino)
      if !inodeOk inode then pure none
      else checkInodes ext2 grpno bitmap (u32 (mbits + 1)) rest

/-- The loop over the groups: the bits counted in the bitmaps and in the scans. -/
def checkGroups (ext2 : EXT2) (nbits mbits : Nat) : List Nat → Out Err (Option (Nat × Nat))
  | [] => pure (some (nbits, mbits))
  | grpno :: rest => do
    let bitmap ← readInodeBitmap ext2 grpno
    match ← checkInodes ext2 grpno bitmap mbits (List.range ext2.sb.sInodesPerGroup) with
    | none => pure none
    | some mbits => checkGroups ext2 (u32 (nbits + countBitsN bitmap)) mbits rest

/-- The common exit after a test that failed: nothing was stored in `err` since the
last read, if there was one. -/
def leave (ext2 : EXT2) : Out Err Unit :=
  if ext2.groupCount = 0 then .err .failed else pure ()

/-- `EXT2Check`. -/
def check (ext2 : EXT2) : Out Err Unit := do
  let blocks ← blockTotals ext2
  if ext2.sb.sFreeBlocksCount ≠ blocks.nfree then leave ext2
  else if ext2.sb.sFreeBlocksCount ≠ blocks.clear then leave ext2
  else do
    let inodes ← inodeTotals ext2
    if ext2.sb.sFreeInodesCount ≠ inodes.clear then leave ext2
    else if ext2.sb.sFreeInodesCount ≠ inodes.nfree then leave ext2
    else do
      match ← checkGroups ext2 0 0 (List.range ext2.groupCount) with
      | none => leave ext2
      | some (nbits, mbits) => if nbits ≠ mbits then leave ext2 else pure ()

end LsvmTools.Ext2.Check
