import LsvmTools.Ext2.Content

/-! # What the accesses do

On a sound volume no access fails: a read delivers the bytes of its cell, and a
write is a `put`. -/
namespace LsvmTools.Ext2.Access
open Lib.ByteString Lib.Program BlockDevice Volume Blocks Layout Content

variable {s : EXT2}

/-! ## The device -/

theorem volume_size (hs : Shape s) :
    (geo s).blocksCount * s.blockSize / 512 * 512 = (geo s).blocksCount * (geo s).blockSize := by
  obtain ⟨k, hk⟩ := hs.geo.blockSize_dvd
  have hb : s.blockSize = 1024 * k := hk
  have h : (geo s).blocksCount * s.blockSize = 512 * ((geo s).blocksCount * (2 * k)) := by
    rw [hb]; ring
  change _ = (geo s).blocksCount * s.blockSize
  rw [h]; omega

theorem onDevice_write (hs : Shape s) (e : Err) {off : Nat} {d : Bytes}
    (h : off + d.length ≤ (geo s).blocksCount * (geo s).blockSize) :
    (onDevice e (Device.write off d)).run s = .ok () { s with dev := s.dev.store off d } := by
  have h1 := volume_size hs
  have h2 := hs.geo.volume_le
  exact onDevice_ok (Device.write_eq hs.dev (show off + d.length ≤ _ * 512 by omega) (by omega))

theorem device_read (hs : Shape s) {off n : Nat}
    (h : off + n ≤ (geo s).blocksCount * (geo s).blockSize) (hn : n < 2 ^ 32) :
    Device.read s.dev off n = some (readMem s.dev.data off n) := by
  have h1 := volume_size hs
  have h2 := hs.geo.volume_le
  exact Device.read_eq hs.dev (by omega) (by omega) hn

/-- `BlockOffset` does not wrap on the volume. -/
theorem blockOffset_eq {b : Nat} (h : b * s.blockSize < 2 ^ 32) :
    s.blockOffset b = b * (geo s).blockSize := u32_of_lt h

theorem mul_lt_of_block {b : Nat} (hb : b < (geo s).blocksCount) :
    b * (geo s).blockSize + (geo s).blockSize ≤ (geo s).blocksCount * (geo s).blockSize := by
  have h := Nat.mul_le_mul_right (geo s).blockSize (show b + 1 ≤ (geo s).blocksCount from hb)
  rwa [Nat.add_one_mul] at h

theorem offset_lt (hs : Shape s) {b n : Nat} (hn : 0 < n)
    (h : b * (geo s).blockSize + n ≤ (geo s).blocksCount * (geo s).blockSize) :
    b * s.blockSize < 2 ^ 32 := by
  have h1 := hs.geo.volume_le
  change b * (geo s).blockSize < 2 ^ 32
  omega

/-! ## Blocks -/

theorem blockSize_le (hs : Shape s) : ¬ s.blockSize > 8192 := by
  have h : s.blockSize ≤ 8192 := hs.geo.blockSize_le
  omega

theorem blockSize_pos (s : EXT2) : 0 < s.blockSize := s.sb.blockSize_pos

/-- Any block of the volume can be read. -/
theorem readBlock_eq (hs : Shape s) {b : Nat}
    (h : b * (geo s).blockSize + (geo s).blockSize ≤ (geo s).blocksCount * (geo s).blockSize) :
    readBlock s b = .ok (readMem s.dev.data (b * (geo s).blockSize) (geo s).blockSize) := by
  have hp := hs.geo.blockSize_ge
  have hl := hs.geo.blockSize_le
  unfold readBlock
  rw [if_neg (blockSize_le hs), blockOffset_eq (offset_lt hs (by omega) h)]
  change Out.ofOption _ (Device.read _ _ (geo s).blockSize) = _
  rw [device_read hs h (by omega)]
  rfl

theorem readBlock_data (hs : Shape s) {b : Nat} (hb : (geo s).IsData b) :
    readBlock s b = .ok ((view s).block b) := by
  rw [readBlock_eq hs (mul_lt_of_block hb.lt), view_block hb]
  rfl

theorem length_block {b : Nat} (hb : (geo s).IsData b) :
    ((view s).block b).length = s.blockSize := by
  rw [view_block hb]
  simp only [load, length_readMem, Geo.cellLen]
  rfl

theorem writeBlock_data (hs : Shape s) {b : Nat} (hb : (geo s).IsData b) {d : Bytes}
    (hd : d.length ≤ s.blockSize) : (writeBlock b d).run s = .ok () (put s (.block b) d) := by
  have h := mul_lt_of_block hb.lt
  have hd' : d.length ≤ (geo s).blockSize := hd
  have hp := hs.geo.blockSize_ge
  unfold writeBlock
  rw [Prog.get_bind, if_neg (by omega), blockOffset_eq (offset_lt hs (by omega) h),
    onDevice_write hs _ (by omega)]
  rfl

/-! ## Superblock and group table -/

theorem group_get (hs : Shape s) {g : Nat} (hg : g < (geo s).groupCount) :
    ∃ gd, s.groups[g]? = some gd ∧ s.group g = .ok gd ∧
      gd.bgBlockBitmap = (geo s).blockBitmap.getD g 0 ∧
      gd.bgInodeBitmap = (geo s).inodeBitmap.getD g 0 ∧
      gd.bgInodeTable = (geo s).inodeTable.getD g 0 := by
  have h1 := hs.geo.blockBitmap_length
  have h2 : s.groups.length = (geo s).groupCount := by simpa [geo] using h1
  have hg' : g < s.groups.length := by omega
  refine ⟨s.groups[g], by simp [hg'], by simp [EXT2.group, Out.index, hg'], ?_, ?_, ?_⟩ <;>
    simp [geo, hg']

theorem writeSuperBlock_run (hs : Shape s) :
    writeSuperBlock.run s = .ok () (put s .super s.sb.raw) := by
  have h := cell_inside hs.geo (c := .super) trivial
  have hl := s.sb.size
  simp only [Geo.cellOff, Geo.cellLen] at h
  unfold writeSuperBlock
  rw [Prog.get_bind, onDevice_write hs _ (by omega)]
  rfl

theorem writeGroup_run (hs : Shape s) {g : Nat} (hg : g < (geo s).groupCount) :
    ∃ gd, s.groups[g]? = some gd ∧ (writeGroup g).run s = .ok () (put s (.group g) gd.raw) := by
  obtain ⟨gd, hgd, hgr, -⟩ := group_get hs hg
  refine ⟨gd, hgd, ?_⟩
  have h := cell_inside hs.geo (c := .group g) hg
  have hp := hs.geo.blockSize_ge
  have hl := gd.size
  simp only [Geo.cellOff, Geo.cellLen] at h
  unfold writeGroup
  have hgr' : (Prog.read fun ext2 : EXT2 => ext2.group g).run s = .ok gd s := Prog.read_ok hgr
  rw [Prog.get_bind, Prog.bind_ok hgr',
    blockOffset_eq (offset_lt hs (n := g * 32 + 32) (by omega) (by
      change (geo s).groupTable * _ + _ ≤ _; omega)),
    onDevice_write hs _ (by change (geo s).groupTable * _ + _ + _ ≤ _; omega)]
  rfl

/-! ## Bitmaps -/

section Bitmaps

variable {blkno : GroupDesc → Nat} {perGroup : SuperBlock → Nat} {c : Nat → Cell}

/-- The facts about one kind of bitmap that reading and writing it needs. -/
structure BitmapCell (s : EXT2) (blkno : GroupDesc → Nat) (perGroup : SuperBlock → Nat)
    (c : Nat → Cell) (g : Nat) (gd : GroupDesc) : Prop where
  valid : (geo s).cellValid (c g)
  off : (geo s).cellOff (c g) = blkno gd * (geo s).blockSize
  len : (geo s).cellLen (c g) = perGroup s.sb / 8
  len_le : perGroup s.sb / 8 ≤ (geo s).blockSize
  inside : blkno gd * (geo s).blockSize + (geo s).blockSize ≤
    (geo s).blocksCount * (geo s).blockSize

theorem readBitmap_eq (hs : Shape s) {g : Nat} (hg : g < (geo s).groupCount) {gd : GroupDesc}
    (hgd : s.group g = .ok gd) (h : BitmapCell s blkno perGroup c g gd) :
    readBitmap blkno perGroup s g = .ok (load s (c g)) := by
  have hg' : ¬ g > s.groupCount := Nat.not_lt.mpr (Nat.le_of_lt hg)
  unfold readBitmap
  rw [if_neg hg', hgd, Out.ok_bind, readBlock_eq hs h.inside, Out.ok_bind, Out.pure_eq,
    readMem_take, Nat.min_eq_left h.len_le, load, h.off, h.len]

theorem writeBitmap_run (hs : Shape s) {g : Nat} (hg : g < (geo s).groupCount) {gd : GroupDesc}
    (hgd : s.group g = .ok gd) (h : BitmapCell s blkno perGroup c g gd) {bm : Bytes}
    (hbm : bm.length = (geo s).cellLen (c g)) :
    (writeBitmap blkno perGroup g bm).run s = .ok () (put s (c g) bm) := by
  have hg' : ¬ g > s.groupCount := Nat.not_lt.mpr (Nat.le_of_lt hg)
  have hl := h.len_le
  have hi := h.inside
  have hp := hs.geo.blockSize_ge
  rw [h.len] at hbm
  have hbs : ¬ bm.length > s.blockSize := by
    change ¬ bm.length > (geo s).blockSize; omega
  unfold writeBitmap writeBlock
  rw [Prog.get_bind, if_neg (by simp [hbm]), if_neg hg',
    Prog.bind_ok (Prog.read_ok (f := fun ext2 : EXT2 => ext2.group g) hgd), Prog.get_bind,
    if_neg hbs, blockOffset_eq (offset_lt hs (by omega) hi), onDevice_write hs _ (by omega),
    ← h.off]
  rfl

end Bitmaps

theorem blockBitmap_cell (hs : Shape s) {g : Nat} (hg : g < (geo s).groupCount) :
    ∃ gd, s.group g = .ok gd ∧
      BitmapCell s GroupDesc.bgBlockBitmap SuperBlock.sBlocksPerGroup .blockBitmap g gd := by
  obtain ⟨gd, -, hgr, hb, -, -⟩ := group_get hs hg
  have hi := hs.geo.areas_inside (.blockBitmap g) hg
  exact ⟨gd, hgr, hg, by rw [hb]; rfl, rfl, hs.geo.blocksPerGroup_le, by rw [hb]; exact hi⟩

theorem inodeBitmap_cell (hs : Shape s) {g : Nat} (hg : g < (geo s).groupCount) :
    ∃ gd, s.group g = .ok gd ∧
      BitmapCell s GroupDesc.bgInodeBitmap SuperBlock.sInodesPerGroup .inodeBitmap g gd := by
  obtain ⟨gd, -, hgr, -, hb, -⟩ := group_get hs hg
  have hi := hs.geo.areas_inside (.inodeBitmap g) hg
  exact ⟨gd, hgr, hg, by rw [hb]; rfl, rfl, hs.geo.inodesPerGroup_le, by rw [hb]; exact hi⟩

theorem readBlockBitmap_eq (hs : Shape s) {g : Nat} (hg : g < (geo s).groupCount) :
    readBlockBitmap s g = .ok (load s (.blockBitmap g)) := by
  obtain ⟨gd, hgr, hc⟩ := blockBitmap_cell hs hg
  exact readBitmap_eq hs hg hgr hc

theorem readInodeBitmap_eq (hs : Shape s) {g : Nat} (hg : g < (geo s).groupCount) :
    readInodeBitmap s g = .ok (load s (.inodeBitmap g)) := by
  obtain ⟨gd, hgr, hc⟩ := inodeBitmap_cell hs hg
  exact readBitmap_eq hs hg hgr hc

theorem writeBlockBitmap_run (hs : Shape s) {g : Nat} (hg : g < (geo s).groupCount) {bm : Bytes}
    (hbm : bm.length = (geo s).blocksPerGroup / 8) :
    (writeBlockBitmap g bm).run s = .ok () (put s (.blockBitmap g) bm) := by
  obtain ⟨gd, hgr, hc⟩ := blockBitmap_cell hs hg
  exact writeBitmap_run hs hg hgr hc hbm

theorem writeInodeBitmap_run (hs : Shape s) {g : Nat} (hg : g < (geo s).groupCount) {bm : Bytes}
    (hbm : bm.length = (geo s).inodesPerGroup / 8) :
    (writeInodeBitmap g bm).run s = .ok () (put s (.inodeBitmap g) bm) := by
  obtain ⟨gd, hgr, hc⟩ := inodeBitmap_cell hs hg
  exact writeBitmap_run hs hg hgr hc hbm

/-! ## Inodes -/

theorem inoToGrpno_eq {i : Nat} (hi : 0 < i) : s.inoToGrpno i = (geo s).inoGroup i :=
  if_neg (Nat.pos_iff_ne_zero.mp hi)

theorem inoToLino_eq {i : Nat} (hi : 0 < i) : s.inoToLino i = (geo s).inoPlace i :=
  if_neg (Nat.pos_iff_ne_zero.mp hi)

theorem inodeOffset_eq (hs : Shape s) {i : Nat} (hi : (geo s).InoValid i) {gd : GroupDesc}
    (hgd : gd.bgInodeTable = (geo s).inodeTable.getD ((geo s).inoGroup i) 0) :
    inodeOffset s gd i = (geo s).cellOff (.inode i) := by
  have h := cell_inside hs.geo (c := .inode i) hi
  have h1 := hs.geo.volume_le
  have h2 := hs.geo.inodeSize_ge
  simp only [Geo.cellOff, Geo.cellLen] at h
  unfold inodeOffset
  rw [hgd, blockOffset_eq (by change _ * (geo s).blockSize < _; omega), inoToLino_eq hi.1,
    u32_of_lt (show (geo s).inoPlace i * s.sb.sInodeSize < 2 ^ 32 by
      change _ * (geo s).inodeSize < _; omega)]
  rfl

theorem readInode_eq (hs : Shape s) {i : Nat} (hi : (geo s).InoValid i) :
    readInode s i = .ok ((view s).inode i) := by
  obtain ⟨gd, -, hgr, -, -, ht⟩ := group_get hs (inoGroup_lt hi)
  have h := cell_inside hs.geo (c := .inode i) hi
  have h2 := hs.geo.inodeSize_le
  unfold readInode
  rw [if_neg (Nat.pos_iff_ne_zero.mp hi.1), inoToGrpno_eq hi.1, hgr, Out.ok_bind,
    inodeOffset_eq hs hi ht, device_read (n := s.sb.sInodeSize) hs h
      (Nat.lt_of_le_of_lt (show s.sb.sInodeSize ≤ 256 from h2) (by decide))]
  simp only [Out.ofOption, Out.ok_bind, length_readMem]
  rw [dif_pos (show s.sb.sInodeSize ≤ 256 from h2), view_inode hi]
  simp only [Out.pure_eq, inodeOf, Out.ok.injEq, Inode.mk.injEq]
  have hl : (load s (.inode i)).length = s.sb.sInodeSize := by
    simp only [load, length_readMem]; rfl
  have h3 : s.sb.sInodeSize ≤ 256 := h2
  rw [List.take_of_length_le (by simp [hl]; omega), hl]
  rfl

/-- Reading back the number of an inode of the volume gives the inode. -/
theorem makeIno_eq (hs : Shape s) {i : Nat} (hi : (geo s).InoValid i) :
    s.makeIno (s.inoToGrpno i) (s.inoToLino i) = i := by
  have h1 := Nat.div_add_mod (i - 1) (geo s).inodesPerGroup
  have h2 := hs.geo.inodes_cover
  have h3 := hi.1
  have h4 := hi.2
  rw [Nat.mul_comm] at h1
  have h5 : u32 ((geo s).inoGroup i * (geo s).inodesPerGroup) =
      (geo s).inoGroup i * (geo s).inodesPerGroup := u32_of_lt (by unfold Geo.inoGroup; omega)
  rw [inoToGrpno_eq hi.1, inoToLino_eq hi.1]
  unfold EXT2.makeIno
  change u32 (u32 (_ * (geo s).inodesPerGroup) + _) = _
  rw [h5]
  unfold Geo.inoGroup Geo.inoPlace
  rw [u32_of_lt (by omega)]
  omega

theorem writeInode_run (hs : Shape s) {i : Nat} (hi : (geo s).InoValid i) (n : Inode) :
    (writeInode i n).run s = .ok () (put s (.inode i) (n.raw.take s.sb.sInodeSize)) := by
  obtain ⟨gd, -, hgr, -, -, ht⟩ := group_get hs (inoGroup_lt hi)
  have h := cell_inside hs.geo (c := .inode i) hi
  have hl : (n.raw.take s.sb.sInodeSize).length = (geo s).cellLen (.inode i) := by
    rw [List.length_take, n.size]
    exact Nat.min_eq_left s.sb.inodeSize_le
  unfold writeInode
  rw [Prog.get_bind, Prog.bind_ok (Prog.read_ok (f := fun ext2 : EXT2 =>
      ext2.group (ext2.inoToGrpno i)) (by rw [inoToGrpno_eq hi.1]; exact hgr)),
    if_neg (by simp [makeIno_eq hs hi]), inodeOffset_eq hs hi ht, onDevice_write hs _ (by omega)]
  rfl

end LsvmTools.Ext2.Access
