import LsvmTools.Ext2.Ops

/-! # Where things are on a volume

`Geo` collects the numbers that say where the parts of a volume lie; no
operation changes them. The parts an operation reads or writes are `Cell`s. On a
volume whose metadata areas do not overlap, different cells are disjoint ranges
of the device, so writing one leaves every other one as it was. -/
namespace LsvmTools.Ext2.Layout
open Lib.ByteString Lib.Program BlockDevice Volume Blocks

structure Geo where
  blockSize : Nat
  groupCount : Nat
  blocksCount : Nat
  firstDataBlock : Nat
  blocksPerGroup : Nat
  inodesPerGroup : Nat
  inodeSize : Nat
  blockBitmap : List Nat
  inodeBitmap : List Nat
  inodeTable : List Nat

def geo (ext2 : EXT2) : Geo where
  blockSize := ext2.blockSize
  groupCount := ext2.groupCount
  blocksCount := ext2.sb.sBlocksCount
  firstDataBlock := ext2.sb.sFirstDataBlock
  blocksPerGroup := ext2.sb.sBlocksPerGroup
  inodesPerGroup := ext2.sb.sInodesPerGroup
  inodeSize := ext2.sb.sInodeSize
  blockBitmap := ext2.groups.map GroupDesc.bgBlockBitmap
  inodeBitmap := ext2.groups.map GroupDesc.bgInodeBitmap
  inodeTable := ext2.groups.map GroupDesc.bgInodeTable

/-! ## Areas and cells -/

/-- The metadata areas: everything up to the group table (boot record and
superblock), the group table, and the bitmaps and inode table of each group. -/
inductive Area where
  | super
  | groups
  | blockBitmap (g : Nat)
  | inodeBitmap (g : Nat)
  | inodeTable (g : Nat)

inductive Cell where
  | super
  | group (g : Nat)
  | blockBitmap (g : Nat)
  | inodeBitmap (g : Nat)
  | inode (ino : Nat)
  | block (b : Nat)
deriving DecidableEq

/-- Two ranges of the device have no byte in common. -/
def Apart (off len off' len' : Nat) : Prop := off + len ≤ off' ∨ off' + len' ≤ off

instance (a b c d : Nat) : Decidable (Apart a b c d) := inferInstanceAs (Decidable (_ ∨ _))

namespace Geo

variable (G : Geo)

def groupTable : Nat := if G.blockSize = 1024 then 2 else 1

/-- The group of an inode and its place there. -/
def inoGroup (ino : Nat) : Nat := (ino - 1) / G.inodesPerGroup
def inoPlace (ino : Nat) : Nat := (ino - 1) % G.inodesPerGroup

/-- The group of a block and its place there. -/
def blkGroup (b : Nat) : Nat := (b - G.firstDataBlock) / G.blocksPerGroup
def blkPlace (b : Nat) : Nat := (b - G.firstDataBlock) % G.blocksPerGroup

/-- The block at a place of a group. -/
def blkAt (g l : Nat) : Nat := g * G.blocksPerGroup + l + G.firstDataBlock

/-- The blocks that the bitmaps have a bit for. -/
def Covered (b : Nat) : Prop :=
  G.firstDataBlock ≤ b ∧ b < G.firstDataBlock + G.groupCount * G.blocksPerGroup

instance (b : Nat) : Decidable (G.Covered b) := inferInstanceAs (Decidable (_ ∧ _))

/-- The inode at a place of a group. -/
def inoAt (g l : Nat) : Nat := g * G.inodesPerGroup + l + 1

def areaValid : Area → Prop
  | .super | .groups => True
  | .blockBitmap g | .inodeBitmap g | .inodeTable g => g < G.groupCount

def areaOff : Area → Nat
  | .super => 0
  | .groups => G.groupTable * G.blockSize
  | .blockBitmap g => G.blockBitmap.getD g 0 * G.blockSize
  | .inodeBitmap g => G.inodeBitmap.getD g 0 * G.blockSize
  | .inodeTable g => G.inodeTable.getD g 0 * G.blockSize

def areaLen : Area → Nat
  | .super => G.groupTable * G.blockSize
  | .groups => G.groupCount * 32
  | .blockBitmap _ | .inodeBitmap _ => G.blockSize
  | .inodeTable _ => G.inodesPerGroup * G.inodeSize

/-- A block that can hold file data: on the volume and outside the metadata. -/
structure IsData (b : Nat) : Prop where
  first : G.firstDataBlock ≤ b
  pos : 0 < b
  lt : b < G.blocksCount
  apart : ∀ a, G.areaValid a → Apart (G.areaOff a) (G.areaLen a) (b * G.blockSize) G.blockSize

/-- The inode numbers of the volume. -/
def InoValid (ino : Nat) : Prop := 0 < ino ∧ ino ≤ G.groupCount * G.inodesPerGroup

instance (ino : Nat) : Decidable (G.InoValid ino) := inferInstanceAs (Decidable (_ ∧ _))

def cellValid : Cell → Prop
  | .super => True
  | .group g | .blockBitmap g | .inodeBitmap g => g < G.groupCount
  | .inode ino => G.InoValid ino
  | .block b => G.IsData b

def cellOff : Cell → Nat
  | .super => 1024
  | .group g => G.groupTable * G.blockSize + g * 32
  | .blockBitmap g => G.blockBitmap.getD g 0 * G.blockSize
  | .inodeBitmap g => G.inodeBitmap.getD g 0 * G.blockSize
  | .inode ino =>
    G.inodeTable.getD (G.inoGroup ino) 0 * G.blockSize + G.inoPlace ino * G.inodeSize
  | .block b => b * G.blockSize

def cellLen : Cell → Nat
  | .super => 1024
  | .group _ => 32
  | .blockBitmap _ => G.blocksPerGroup / 8
  | .inodeBitmap _ => G.inodesPerGroup / 8
  | .inode _ => G.inodeSize
  | .block _ => G.blockSize

/-- The geometry of a well-formed volume of at most 2^32 bytes, which is what the
32-bit product in `BlockOffset` can address. -/
structure Sound : Prop where
  blockSize_ge : 1024 ≤ G.blockSize
  blockSize_le : G.blockSize ≤ 8192
  blockSize_dvd : 1024 ∣ G.blockSize
  groupCount_pos : 0 < G.groupCount
  blockBitmap_length : G.blockBitmap.length = G.groupCount
  inodeBitmap_length : G.inodeBitmap.length = G.groupCount
  inodeTable_length : G.inodeTable.length = G.groupCount
  blocksPerGroup_pos : 0 < G.blocksPerGroup
  blocksPerGroup_dvd : 8 ∣ G.blocksPerGroup
  blocksPerGroup_le : G.blocksPerGroup / 8 ≤ G.blockSize
  inodesPerGroup_pos : 0 < G.inodesPerGroup
  inodesPerGroup_dvd : 8 ∣ G.inodesPerGroup
  inodesPerGroup_le : G.inodesPerGroup / 8 ≤ G.blockSize
  inodeSize_ge : 128 ≤ G.inodeSize
  inodeSize_le : G.inodeSize ≤ 256
  groups_cover : G.firstDataBlock + G.groupCount * G.blocksPerGroup < 2 ^ 32
  inodes_cover : G.groupCount * G.inodesPerGroup < 2 ^ 32
  volume_le : G.blocksCount * G.blockSize ≤ 2 ^ 32
  areas_inside : ∀ a, G.areaValid a → G.areaOff a + G.areaLen a ≤ G.blocksCount * G.blockSize
  areas_apart : ∀ a b, G.areaValid a → G.areaValid b → a ≠ b →
    Apart (G.areaOff a) (G.areaLen a) (G.areaOff b) (G.areaLen b)

end Geo

theorem Apart.symm {a b c d : Nat} (h : Apart a b c d) : Apart c d a b := Or.symm h

theorem Apart.mono {a b c d a' b' c' d' : Nat} (h : Apart a b c d) (h1 : a ≤ a')
    (h2 : a' + b' ≤ a + b) (h3 : c ≤ c') (h4 : c' + d' ≤ c + d) : Apart a' b' c' d' := by
  unfold Apart at h ⊢; omega

/-! ## Cells are disjoint -/

/-- The area of a metadata cell. -/
def cellArea (G : Geo) : Cell → Area
  | .super => .super
  | .group _ => .groups
  | .blockBitmap g => .blockBitmap g
  | .inodeBitmap g => .inodeBitmap g
  | .inode ino => .inodeTable (G.inoGroup ino)
  | .block _ => .super

variable {G : Geo}

theorem groupTable_le (hG : G.Sound) : 2048 ≤ G.groupTable * G.blockSize := by
  have h1 := hG.blockSize_ge
  have h2 := hG.blockSize_dvd
  unfold Geo.groupTable
  split
  · omega
  · omega

theorem inoGroup_lt {ino : Nat} (h : G.InoValid ino) : G.inoGroup ino < G.groupCount := by
  have h1 := h.1
  have h2 := h.2
  exact Nat.div_lt_of_lt_mul (by rw [Nat.mul_comm]; omega)

theorem inoPlace_lt (hG : G.Sound) (ino : Nat) : G.inoPlace ino < G.inodesPerGroup :=
  Nat.mod_lt _ hG.inodesPerGroup_pos

/-- An inode is determined by its group and its place. -/
theorem ino_eq {i j : Nat} (hi : 0 < i) (hj : 0 < j) (hg : G.inoGroup i = G.inoGroup j)
    (hp : G.inoPlace i = G.inoPlace j) : i = j := by
  have h1 := Nat.div_add_mod (i - 1) G.inodesPerGroup
  have h2 := Nat.div_add_mod (j - 1) G.inodesPerGroup
  unfold Geo.inoGroup at hg
  unfold Geo.inoPlace at hp
  rw [hg, hp, h2] at h1
  omega

/-- A metadata cell lies in its area. -/
theorem cell_in_area (hG : G.Sound) {c : Cell} (hc : G.cellValid c) (hm : ∀ b, c ≠ .block b) :
    G.areaValid (cellArea G c) ∧ G.areaOff (cellArea G c) ≤ G.cellOff c ∧
      G.cellOff c + G.cellLen c ≤ G.areaOff (cellArea G c) + G.areaLen (cellArea G c) := by
  cases c with
  | super =>
    have := groupTable_le hG
    refine ⟨trivial, Nat.zero_le _, ?_⟩
    simp only [cellArea, Geo.cellOff, Geo.cellLen, Geo.areaOff, Geo.areaLen]
    omega
  | group g =>
    have hg : g < G.groupCount := hc
    refine ⟨trivial, Nat.le_add_right _ _, ?_⟩
    simp only [cellArea, Geo.cellOff, Geo.cellLen, Geo.areaOff, Geo.areaLen]
    omega
  | blockBitmap g =>
    have := hG.blocksPerGroup_le
    refine ⟨hc, Nat.le_refl _, ?_⟩
    simp only [cellArea, Geo.cellOff, Geo.cellLen, Geo.areaOff, Geo.areaLen]
    omega
  | inodeBitmap g =>
    have := hG.inodesPerGroup_le
    refine ⟨hc, Nat.le_refl _, ?_⟩
    simp only [cellArea, Geo.cellOff, Geo.cellLen, Geo.areaOff, Geo.areaLen]
    omega
  | inode ino =>
    refine ⟨inoGroup_lt hc, Nat.le_add_right _ _, ?_⟩
    have h1 : (G.inoPlace ino + 1) * G.inodeSize ≤ G.inodesPerGroup * G.inodeSize :=
      Nat.mul_le_mul_right _ (inoPlace_lt hG ino)
    simp only [cellArea, Geo.cellOff, Geo.cellLen, Geo.areaOff, Geo.areaLen]
    rw [Nat.add_one_mul] at h1
    omega
  | block b => exact absurd rfl (hm b)

/-- Multiples of `n` that differ are at least `n` apart. -/
theorem apart_of_ne {i j : Nat} (n off : Nat) (h : i ≠ j) :
    Apart (off + i * n) n (off + j * n) n := by
  have hs : ∀ k l : Nat, k < l → off + k * n + n ≤ off + l * n := by
    intro k l hkl
    have := Nat.mul_le_mul_right n (Nat.succ_le_of_lt hkl)
    rw [Nat.succ_mul] at this
    omega
  rcases Nat.lt_or_gt_of_ne h with h | h
  · exact .inl (hs i j h)
  · exact .inr (hs j i h)

theorem block_apart {b b' : Nat} (h : b ≠ b') :
    Apart (b * G.blockSize) G.blockSize (b' * G.blockSize) G.blockSize := by
  simpa using apart_of_ne G.blockSize 0 h

theorem meta_apart (hG : G.Sound) {c c' : Cell} (hc : G.cellValid c) (hc' : G.cellValid c')
    (hm : ∀ b, c ≠ .block b) (hm' : ∀ b, c' ≠ .block b) (hne : c ≠ c') :
    Apart (G.cellOff c) (G.cellLen c) (G.cellOff c') (G.cellLen c') := by
  obtain ⟨hv, h1, h2⟩ := cell_in_area hG hc hm
  obtain ⟨hv', h1', h2'⟩ := cell_in_area hG hc' hm'
  by_cases ha : cellArea G c = cellArea G c'
  · cases c <;> cases c' <;> simp only [cellArea, reduceCtorEq, Area.blockBitmap.injEq,
      Area.inodeBitmap.injEq, Area.inodeTable.injEq] at ha
    · exact absurd rfl hne
    · exact absurd rfl (hm' _)
    · rename_i g g'
      exact apart_of_ne 32 _ fun h => hne (by rw [h])
    · exact absurd (by rw [ha]) hne
    · exact absurd (by rw [ha]) hne
    · rename_i i j
      simp only [Geo.cellOff, Geo.cellLen, ha]
      exact apart_of_ne _ _ fun h => hne (by rw [ino_eq hc.1 hc'.1 ha h])
    · exact absurd rfl (hm _)
    · exact absurd rfl (hm _)
  · exact (hG.areas_apart _ _ hv hv' ha).mono h1 h2 h1' h2'

theorem block_meta_apart (hG : G.Sound) {b : Nat} {c : Cell} (hb : G.IsData b)
    (hc : G.cellValid c) (hm : ∀ b, c ≠ .block b) :
    Apart (G.cellOff c) (G.cellLen c) (b * G.blockSize) G.blockSize := by
  obtain ⟨hv, h1, h2⟩ := cell_in_area hG hc hm
  exact (hb.apart _ hv).mono h1 h2 (Nat.le_refl _) (Nat.le_refl _)

theorem cells_apart (hG : G.Sound) {c c' : Cell} (hc : G.cellValid c) (hc' : G.cellValid c')
    (hne : c ≠ c') : Apart (G.cellOff c) (G.cellLen c) (G.cellOff c') (G.cellLen c') := by
  by_cases hb : ∃ b, c = .block b
  · obtain ⟨b, rfl⟩ := hb
    by_cases hb' : ∃ b', c' = .block b'
    · obtain ⟨b', rfl⟩ := hb'
      exact block_apart fun h => hne (by rw [h])
    · exact (block_meta_apart hG hc hc' fun b' h => hb' ⟨b', h⟩).symm
  · by_cases hb' : ∃ b', c' = .block b'
    · obtain ⟨b', rfl⟩ := hb'
      exact block_meta_apart hG hc' hc fun b' h => hb ⟨b', h⟩
    · exact meta_apart hG hc hc' (fun b h => hb ⟨b, h⟩) (fun b h => hb' ⟨b, h⟩) hne

/-- A cell ends inside the volume. -/
theorem cell_inside (hG : G.Sound) {c : Cell} (hc : G.cellValid c) :
    G.cellOff c + G.cellLen c ≤ G.blocksCount * G.blockSize := by
  by_cases hb : ∃ b, c = .block b
  · obtain ⟨b, rfl⟩ := hb
    have h := Nat.mul_le_mul_right G.blockSize (show b + 1 ≤ G.blocksCount from hc.lt)
    rw [Nat.add_one_mul] at h
    exact h
  · obtain ⟨hv, h1, h2⟩ := cell_in_area hG hc fun b h => hb ⟨b, h⟩
    exact Nat.le_trans h2 (hG.areas_inside _ hv)

end LsvmTools.Ext2.Layout
