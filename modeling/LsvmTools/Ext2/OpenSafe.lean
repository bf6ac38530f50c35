import LsvmTools.Ext2.Alloc
import LsvmTools.Ext2.Open

/-! # Opening an arbitrary image

`EXT2New` divides by fields of the superblock and shifts by one without a test of their values,
and the functions that index the array of group descriptors test the index with `>` or not at
all. `Safe` says that neither goes wrong: what C leaves undefined is never reached. It holds
exactly of the images whose superblock keeps the divisors, the shift and the indices in range. -/
namespace LsvmTools.Ext2.OpenSafe
open Lib.ByteString Lib.Program BlockDevice Volume Blocks Dir Layout Alloc Open DeviceExact

/-- The inode number `ino` stands in an entry of some directory of the volume. -/
def Found (s : EXT2) (ino : Nat) : Prop :=
  ∃ dir entries, listDirInode s dir = .ok entries ∧ ∃ e ∈ entries, e.dIno = ino

/-- A volume whose group descriptors are only accessed inside their array. -/
structure Indexed (s : EXT2) : Prop where
  inodes : ∀ ino, Found s ino → readInode s ino ≠ .stuck
  blocks : ∀ blknos : List Nat, (∀ b ∈ blknos, b < 2 ^ 32) → (putBlocks blknos).run s ≠ .stuck
  bitmaps : ∀ b, b < 2 ^ 32 → readBlockBitmap s (s.bloknoToGrpno b) ≠ .stuck

/-- Opening the device and using what is opened reaches no undefined behaviour, and the
descriptors there are have indices below `group_count`. -/
structure Safe (dev : Blkdev) (uninit : Nat → UInt8) : Prop where
  opens : ext2New dev uninit ≠ .stuck
  below : ∀ s, ext2New dev uninit = .ok s → ∀ g, s.group g ≠ .stuck → g < s.groupCount
  indexed : ∀ s, ext2New dev uninit = .ok s → Indexed s

/-- The superblock has a shift and divisors that are defined, and its root inode is in a group
of the table. -/
def Openable (dev : Blkdev) : Prop :=
  ∀ raw, Device.read dev baseOffset 1024 = some raw → rejected raw = none →
    le32 raw 24 < 21 ∧ 0 < le32 raw 32 ∧ ∀ groups, readGroups dev raw = some groups →
      0 < le32 raw 40 ∧ 1 / le32 raw 40 < groups.length

/-- Inode numbers in directories belong to groups of the table, and no block number to the
group right behind the last one. -/
structure InRange (s : EXT2) : Prop where
  inodes : ∀ ino, Found s ino → ino = 0 ∨ s.inoToGrpno ino < s.groups.length
  blocks : ∀ b, b < 2 ^ 32 →
    s.bloknoToGrpno b < s.groups.length ∨ s.groupCount < s.bloknoToGrpno b

variable {s t : EXT2}

/-! ## Single accesses -/

theorem ofOption_returns {α : Type} (e : Err) (x : Option α) : Out.ofOption e x ≠ .stuck := by
  cases x <;> exact fun h => nomatch h

theorem bind_returns {α β : Type} {x : Out Err α} {k : α → Out Err β} (hx : x ≠ .stuck)
    (hk : ∀ a, x = .ok a → k a ≠ .stuck) : (x >>= k) ≠ .stuck := by
  cases h : x with
  | ok a => exact hk a h
  | err e => exact fun h => nomatch h
  | stuck => exact absurd h hx

theorem group_returns {grpno : Nat} : s.group grpno ≠ .stuck ↔ grpno < s.groups.length := by
  unfold EXT2.group Out.index
  by_cases h : grpno < s.groups.length
  · rw [List.getElem?_eq_getElem h]
    exact ⟨fun _ => h, fun _ h' => nomatch h'⟩
  · rw [List.getElem?_eq_none (by omega)]
    exact ⟨fun h' => absurd rfl h', fun h' => absurd h' h⟩

theorem group_stuck {grpno : Nat} (h : s.groups.length ≤ grpno) : s.group grpno = .stuck := by
  by_contra hne
  have := group_returns.mp hne
  omega

/-- `EXT2ReadInode` needs no more than a group in the table. -/
theorem readInode_returns {ino : Nat} :
    readInode s ino ≠ .stuck ↔ ino = 0 ∨ s.inoToGrpno ino < s.groups.length := by
  unfold readInode
  by_cases h0 : ino = 0
  · rw [if_pos h0]
    exact ⟨fun _ => .inl h0, fun _ h => nomatch h⟩
  rw [if_neg h0]
  by_cases hg : s.inoToGrpno ino < s.groups.length
  · refine ⟨fun _ => .inr hg, fun _ => bind_returns (group_returns.mpr hg) fun group _ => ?_⟩
    refine bind_returns (ofOption_returns _ _) fun raw hraw => ?_
    -- as many bytes as `s_inode_size` says, which the superblock bounds
    have hle : raw.length ≤ 256 := by
      have hsize := s.sb.inodeSize_le
      cases hr : Device.read s.dev (inodeOffset s group ino) s.sb.sInodeSize with
      | none =>
        rw [hr] at hraw
        cases hraw
      | some b =>
        rw [hr] at hraw
        cases hraw
        rw [length_read (Nat.lt_of_le_of_lt hsize (by decide)) hr]
        exact hsize
    rw [dif_pos hle]
    exact fun h => nomatch h
  · rw [group_stuck (by omega)]
    refine ⟨fun h => absurd rfl h, fun h => ?_⟩
    rcases h with h | h
    · exact absurd h h0
    · exact absurd h hg

theorem readBlock_returns (s : EXT2) (blkno : Nat) : readBlock s blkno ≠ .stuck := by
  unfold readBlock
  split
  · exact fun h => nomatch h
  · exact ofOption_returns _ _

/-- `EXT2ReadBlockBitmap` lets `group_count` itself through to the table. -/
theorem readBlockBitmap_returns {g : Nat} :
    readBlockBitmap s g ≠ .stuck ↔ g < s.groups.length ∨ s.groupCount < g := by
  unfold readBlockBitmap readBitmap
  by_cases hc : g > s.groupCount
  · rw [if_pos hc]
    exact ⟨fun _ => .inr hc, fun _ h => nomatch h⟩
  rw [if_neg hc]
  by_cases hg : g < s.groups.length
  · refine ⟨fun _ => .inl hg, fun _ => bind_returns (group_returns.mpr hg) fun group _ => ?_⟩
    exact bind_returns (readBlock_returns _ _) fun block _ h => nomatch h
  · rw [group_stuck (by omega)]
    refine ⟨fun h => absurd rfl h, fun h => ?_⟩
    rcases h with h | h
    · exact absurd h hg
    · exact absurd h hc

/-! ## Releasing blocks

No write changes the geometry of the volume, so the indices that were in range at the start are
in range in every round. -/

theorem grpno_congr (h : geo t = geo s) (b : Nat) : t.bloknoToGrpno b = s.bloknoToGrpno b := by
  have hfirst : t.sb.sFirstDataBlock = s.sb.sFirstDataBlock := congrArg Geo.firstDataBlock h
  have hper : t.sb.sBlocksPerGroup = s.sb.sBlocksPerGroup := congrArg Geo.blocksPerGroup h
  unfold EXT2.bloknoToGrpno
  rw [hfirst, hper]

theorem groups_congr (h : geo t = geo s) : t.groups.length = s.groups.length := by
  have hm := congrArg (fun G => G.blockBitmap.length) h
  simpa only [geo, List.length_map] using hm

theorem groupCount_congr (h : geo t = geo s) : t.groupCount = s.groupCount :=
  congrArg Geo.groupCount h

theorem writePartialBlock_returns (dev : Blkdev) (blkno offset : Nat) (data : Bytes) :
    (Device.writePartialBlock blkno offset data).run dev ≠ .stuck := by
  unfold Device.writePartialBlock
  split
  · exact fun h => nomatch h
  refine (Prog.Ends.bind (Q := fun _ _ => True) (R := fun _ _ => True) (E := fun _ => True)
    (Prog.Ends.read ?_ (fun _ _ => trivial) trivial) fun blk dev1 _ => ?_).returns
  · cases getN dev blkno 1 <;> exact fun h => nomatch h
  · refine Prog.Ends.bind (Q := fun _ _ => True) (Prog.Ends.intro (fun _ _ _ => trivial)
      (fun _ _ _ => trivial) ?_) fun _ _ _ => trivial
    unfold BlockDevice.put Prog.run
    dsimp only
    split <;> exact fun h => nomatch h

theorem write_returns (dev : Blkdev) (offset : Nat) (data : Bytes) :
    (Device.write offset data).run dev ≠ .stuck := by
  have hpart : ∀ blkno offset data (dev : Blkdev), Prog.Ends
      (Device.writePartialBlock blkno offset data) dev (fun _ _ => True) fun _ => True :=
    fun _ _ _ dev => Prog.Ends.intro (fun _ _ _ => trivial) (fun _ _ _ => trivial)
      (writePartialBlock_returns dev _ _ _)
  rw [write_bind]
  refine (Prog.Ends.bind (Q := fun _ _ => True) (R := fun _ _ => True) (E := fun _ => True) ?_
    fun n dev1 _ => ?_).returns
  · split
    · exact hpart _ _ _ _
    · trivial
  unfold writeRest
  refine Prog.Ends.bind (Q := fun _ _ => True) (Prog.Ends.intro (fun _ _ _ => trivial)
    (fun _ _ _ => trivial) ?_) fun _ dev2 _ => ?_
  · unfold BlockDevice.put Prog.run
    dsimp only
    split <;> exact fun h => nomatch h
  · exact Prog.Ends.bind (hpart _ _ _ _) fun _ _ _ => trivial

/-- The program ends, and the volume has the same geometry. -/
def Keeps {α : Type} (m : Prog EXT2 Err α) (s : EXT2) : Prop :=
  Prog.Ends m s (fun _ t => geo t = geo s) fun _ => True

theorem onDevice_keeps {e : Err} {m : Prog Blkdev Unit Unit} (h : m.run s.dev ≠ .stuck) :
    Keeps (onDevice e m) s := by
  unfold Keeps Prog.Ends
  cases hm : m.run s.dev with
  | ok _ _ =>
    rw [onDevice_ok hm]
    rfl
  | err _ _ =>
    rw [onDevice_err hm]
    trivial
  | stuck => exact absurd hm h

theorem writeSuperBlock_keeps : Keeps writeSuperBlock s :=
  Prog.Ends.get (onDevice_keeps (write_returns _ _ _))

theorem writeBlock_keeps (blkno : Nat) (block : Bytes) : Keeps (writeBlock blkno block) s := by
  refine Prog.Ends.get ?_
  split
  · exact Prog.Ends.throw trivial
  · exact onDevice_keeps (write_returns _ _ _)

theorem writeGroup_keeps {g : Nat} (hg : g < s.groups.length) : Keeps (writeGroup g) s := by
  refine Prog.Ends.get ?_
  refine Prog.Ends.bind (Q := fun _ t => t = s) (Prog.Ends.read (group_returns.mpr hg)
    (fun _ _ => rfl) trivial) fun group t ht => ?_
  subst ht
  exact onDevice_keeps (write_returns _ _ _)

theorem writeBlockBitmap_keeps {g : Nat} (hg : g < s.groups.length) (block : Bytes) :
    Keeps (writeBlockBitmap g block) s := by
  unfold writeBlockBitmap writeBitmap
  refine Prog.Ends.get ?_
  split
  · exact Prog.Ends.throw trivial
  split
  · exact Prog.Ends.throw trivial
  refine Prog.Ends.bind (Q := fun _ t => t = s) (Prog.Ends.read (group_returns.mpr hg)
    (fun _ _ => rfl) trivial) fun group t ht => ?_
  subst ht
  exact writeBlock_keeps _ _

theorem writeGroupWithBitmap_keeps {g : Nat} (hg : g < s.groups.length) (bitmap : Bytes) :
    Keeps (writeGroupWithBitmap g bitmap) s := by
  refine Prog.Ends.bind (writeGroup_keeps hg) fun _ t ht => ?_
  refine (writeBlockBitmap_keeps (by rwa [groups_congr ht]) bitmap).mono (fun _ u hu => ?_)
    fun _ h => h
  exact hu.trans ht

theorem readBlockBitmap_keeps {g : Nat} (hg : g < s.groups.length) :
    Keeps (Prog.read fun ext2 => readBlockBitmap ext2 g) s :=
  Prog.Ends.read (readBlockBitmap_returns.mpr (.inl hg)) (fun _ _ => rfl) trivial

theorem switchBitmap_keeps {g : Nat} (hg : g < s.groups.length) {inHand : Option (Nat × Bytes)}
    (hp : ∀ p ∈ inHand, p.1 < s.groups.length) : Keeps (switchBitmap inHand g) s := by
  cases inHand with
  | none => exact readBlockBitmap_keeps hg
  | some p =>
    obtain ⟨prev, bitmap⟩ := p
    unfold switchBitmap
    dsimp only
    split
    · exact Prog.Ends.pure rfl
    refine Prog.Ends.bind (writeGroupWithBitmap_keeps (hp _ rfl) bitmap) fun _ t ht => ?_
    refine (readBlockBitmap_keeps (by rwa [groups_congr ht])).mono (fun _ u hu => ?_) fun _ h => h
    exact hu.trans ht

theorem addGroupFreeBlocks_geo (g : Nat) (d : Int) :
    geo (addGroupFreeBlocks g d (addFreeBlocks d s)) = geo s :=
  Eq.trans (b := geo (addFreeBlocks d s)) (geo_modify_group _ _ fun _ =>
    ⟨setFree_keeps (by decide) (by decide) (by decide),
      setFree_keeps (by decide) (by decide) (by decide),
      setFree_keeps (by decide) (by decide) (by decide)⟩) (geo_setCounter _ _ _)

/-- The numbers that pass `_CheckBlockNumber` index the table where no number belongs to the
group behind the last. -/
theorem checkBlockNumber_range {b g l : Nat} (hr : g < s.groups.length ∨ s.groupCount < g)
    (h : checkBlockNumber s b g l = .ok ()) : g < s.groups.length := by
  unfold checkBlockNumber at h
  split at h
  · cases h
  split at h
  · cases h
  · rename_i hg
    exact hr.resolve_right hg

theorem checkBlockNumber_returns (b g l : Nat) : checkBlockNumber s b g l ≠ .stuck := by
  unfold checkBlockNumber
  split
  · exact fun h => nomatch h
  split <;> exact fun h => nomatch h

theorem putBlocksLoop_keeps : ∀ (blknos : List Nat) {s : EXT2} {inHand : Option (Nat × Bytes)},
    (∀ b ∈ blknos, s.bloknoToGrpno b < s.groups.length ∨ s.groupCount < s.bloknoToGrpno b) →
    (∀ p ∈ inHand, p.1 < s.groups.length) → Keeps (putBlocksLoop inHand blknos) s := by
  intro blknos
  induction blknos with
  | nil => exact fun _ _ => Prog.Ends.pure rfl
  | cons b rest ih =>
    intro s inHand hr hp
    unfold putBlocksLoop
    refine Prog.Ends.get ?_
    refine Prog.Ends.bind (Q := fun _ t => t = s ∧ s.bloknoToGrpno b < s.groups.length)
      (Prog.Ends.read (checkBlockNumber_returns _ _ _)
        (fun _ h => ⟨rfl, checkBlockNumber_range (hr b (List.mem_cons_self ..)) h⟩) trivial)
      fun _ t ht => ?_
    obtain ⟨rfl, hg⟩ := ht
    refine Prog.Ends.bind (switchBitmap_keeps hg hp) fun bitmap u hu => ?_
    split
    · exact Prog.Ends.throw trivial
    refine Prog.Ends.modify ?_
    have hgu : t.bloknoToGrpno b < u.groups.length := by rwa [groups_congr hu]
    refine Prog.Ends.bind (Q := fun _ v => v = addFreeBlocks 1 u)
      (Prog.Ends.read (group_returns.mpr hgu) (fun _ _ => rfl) trivial) fun _ v hv => ?_
    subst hv
    refine Prog.Ends.modify ?_
    have hgeo := (addGroupFreeBlocks_geo (s := u) (t.bloknoToGrpno b) 1).trans hu
    generalize addGroupFreeBlocks (t.bloknoToGrpno b) 1 (addFreeBlocks 1 u) = w at hgeo ⊢
    have hgw : t.bloknoToGrpno b < w.groups.length := by rwa [groups_congr hgeo]
    have hnext : ∀ x : EXT2, geo x = geo t →
        Prog.Ends (putBlocksLoop (some (t.bloknoToGrpno b, clearBit bitmap (t.blknoToLblkno b)))
          rest) x (fun _ y => geo y = geo t) fun _ => True := by
      intro x hx
      refine (ih ?_ ?_).mono (fun _ y hy => Eq.trans hy hx) fun _ h => h
      · intro c hc
        rw [grpno_congr hx, groups_congr hx, groupCount_congr hx]
        exact hr c (List.mem_cons_of_mem _ hc)
      · intro p hp
        cases hp
        rwa [groups_congr hx]
    split
    · refine Prog.Ends.bind (writeGroupWithBitmap_keeps hgw _) fun _ x hx => ?_
      exact hnext x (hx.trans hgeo)
    · exact hnext w hgeo

theorem putBlocks_returns {blknos : List Nat} (h : ∀ b ∈ blknos,
    s.bloknoToGrpno b < s.groups.length ∨ s.groupCount < s.bloknoToGrpno b) :
    (putBlocks blknos).run s ≠ .stuck := by
  have hloop : Keeps (putBlocksLoop none (blknos.mergeSort (· ≤ ·))) s :=
    putBlocksLoop_keeps _ (fun b hb => h b (List.mem_mergeSort.mp hb)) fun p hp => by cases hp
  refine (Prog.Ends.bind (R := fun _ _ => True) hloop fun _ t _ => ?_).returns
  exact writeSuperBlock_keeps.mono (fun _ _ _ => trivial) fun _ h => h

theorem indexed_iff : Indexed s ↔ InRange s := by
  constructor
  · intro h
    exact ⟨fun ino hf => readInode_returns.mp (h.inodes ino hf),
      fun b hb => readBlockBitmap_returns.mp (h.bitmaps b hb)⟩
  · intro h
    exact ⟨fun ino hf => readInode_returns.mpr (h.inodes ino hf),
      fun blknos hb => putBlocks_returns fun b hm => h.blocks b (hb b hm),
      fun b hb => readBlockBitmap_returns.mpr (h.blocks b hb)⟩

/-! ## Opening -/

/-- The table has no more descriptors than there are groups, so an index inside it is below
`group_count`. -/
theorem readGroups_le {dev : Blkdev} {raw : Bytes} {groups : List GroupDesc}
    (h : readGroups dev raw = some groups) : groups.length ≤ rawGroupCount raw := by
  obtain ⟨b, hb, rfl⟩ := Option.map_eq_some_iff.mp h
  have hsize := u32_lt (rawGroupCount raw * 32)
  have hle := u32_le (rawGroupCount raw * 32)
  have hlen := length_read hsize hb
  have hcount : (groupDescs b).length = b.length / 32 := by
    rw [groupDescs, List.length_map, List.length_range]
  omega

theorem openVolume_groups {dev : Blkdev} {uninit : Nat → UInt8} {raw : Bytes}
    (h : openVolume dev uninit raw = .ok s) : s.groups.length ≤ s.groupCount := by
  unfold openVolume at h
  split at h
  · cases hg : readGroups dev raw with
    | none =>
      rw [hg] at h
      cases h
    | some groups =>
      rw [hg] at h
      dsimp only at h
      split at h
      · unfold openRoot at h
        split at h
        · rw [← Out.ok.inj h]
          exact readGroups_le hg
        · cases h
        · cases h
      · cases h
  · cases h

theorem ext2New_groups {dev : Blkdev} {uninit : Nat → UInt8} (h : ext2New dev uninit = .ok s) :
    s.groups.length ≤ s.groupCount := by
  unfold ext2New at h
  split at h
  · cases h
  split at h
  · cases h
  · exact openVolume_groups h

theorem openRoot_returns : openRoot s ≠ .stuck ↔ 1 / s.sb.sInodesPerGroup < s.groups.length := by
  have hroot := @readInode_returns s rootIno
  have hgrp : s.inoToGrpno rootIno = 1 / s.sb.sInodesPerGroup := if_neg (by decide)
  rw [hgrp] at hroot
  unfold openRoot
  cases h : readInode s rootIno with
  | ok _ =>
    rw [h] at hroot
    exact ⟨fun _ => (hroot.mp fun h => nomatch h).resolve_left (by decide), fun _ h => nomatch h⟩
  | err _ =>
    rw [h] at hroot
    exact ⟨fun _ => (hroot.mp fun h => nomatch h).resolve_left (by decide), fun _ h => nomatch h⟩
  | stuck =>
    rw [h] at hroot
    exact ⟨fun h => absurd rfl h, fun h => absurd rfl (hroot.mpr (.inr h))⟩

/-- A superblock that passes the tests has the magic number and an inode size that fits. -/
theorem rejected_none {raw : Bytes} (h : rejected raw = none) :
    le16 raw 56 = 0xEF53 ∧ le16 raw 88 ≤ 256 := by
  unfold rejected at h
  split at h
  · cases h
  · rename_i hmagic
    split at h
    · cases h
    split at h
    · cases h
    · exact ⟨Decidable.not_not.mp hmagic, by omega⟩

theorem openVolume_returns {dev : Blkdev} {uninit : Nat → UInt8} {raw : Bytes}
    (hlen : raw.length = 1024) (hrej : rejected raw = none) :
    openVolume dev uninit raw ≠ .stuck ↔ le32 raw 24 < 21 ∧ 0 < le32 raw 32 ∧
      ∀ groups, readGroups dev raw = some groups →
        0 < le32 raw 40 ∧ 1 / le32 raw 40 < groups.length := by
  obtain ⟨hmagic, hsize⟩ := rejected_none hrej
  unfold openVolume
  by_cases h : raw.length = 1024 ∧ le16 raw 56 = 0xEF53 ∧ le16 raw 88 ≤ 256 ∧ le32 raw 24 < 21 ∧
      0 < le32 raw 32
  · rw [dif_pos h]
    cases hg : readGroups dev raw with
    | none =>
      refine ⟨fun _ => ⟨h.2.2.2.1, h.2.2.2.2, fun groups he => ?_⟩, fun _ h => nomatch h⟩
      cases he
    | some groups =>
      dsimp only
      by_cases hi : 0 < le32 raw 40
      · rw [dif_pos hi, openRoot_returns]
        refine ⟨fun hroot => ⟨h.2.2.2.1, h.2.2.2.2, fun groups' he => ?_⟩, fun hall => ?_⟩
        · cases he
          exact ⟨hi, hroot⟩
        · exact (hall.2.2 groups rfl).2
      · rw [dif_neg hi]
        exact ⟨fun hne => absurd rfl hne, fun hall => absurd (hall.2.2 groups rfl).1 hi⟩
  · rw [dif_neg h]
    refine ⟨fun hne => absurd rfl hne, fun hall => absurd ?_ h⟩
    exact ⟨hlen, hmagic, hsize, hall.1, hall.2.1⟩

theorem ext2New_returns {dev : Blkdev} {uninit : Nat → UInt8} :
    ext2New dev uninit ≠ .stuck ↔ Openable dev := by
  unfold ext2New Openable
  cases hr : Device.read dev baseOffset 1024 with
  | none =>
    refine ⟨fun _ raw h => ?_, fun _ h => nomatch h⟩
    cases h
  | some raw =>
    have hlen : raw.length = 1024 := length_read (by decide) hr
    dsimp only
    cases hrej : rejected raw with
    | some e =>
      refine ⟨fun _ raw' h hn => ?_, fun _ h => nomatch h⟩
      cases h
      rw [hrej] at hn
      cases hn
    | none =>
      dsimp only
      rw [openVolume_returns hlen hrej]
      refine ⟨fun h raw' he _ => ?_, fun h => h raw rfl hrej⟩
      cases he
      exact h

end LsvmTools.Ext2.OpenSafe
