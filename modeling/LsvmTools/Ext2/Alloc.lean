import LsvmTools.Ext2.Access

/-! # Releasing and allocating

What `_PutBlocks`, `_GetBlock`, `_GetIno` and `_WriteData` do to the view of a
sound volume. -/
namespace LsvmTools.Ext2.Alloc
open Lib.ByteString Lib.Program BlockDevice Volume Blocks Write Layout Content Access

/-- `t` is a sound volume with the geometry of `s` and holds `v`. -/
structure Becomes (s t : EXT2) (v : View) : Prop where
  same : Same s t
  shape : Shape t
  holds : view t = v

variable {s t u : EXT2}

theorem Becomes.refl (hs : Shape s) : Becomes s s (view s) := ⟨.refl s, hs, rfl⟩

theorem Becomes.trans {v w : View} (h : Becomes s t v) (h' : Becomes t u w) : Becomes s u w :=
  ⟨h.same.trans h'.same, h'.shape, h'.holds⟩

/-- A step that keeps the view. -/
theorem Becomes.of_same (hs : Shape s) (h : Same s t) (hv : view t = view s) :
    Becomes s t (view s) :=
  ⟨h, hs.of_same h fun b hb => .inl (by rwa [hv] at hb), hv⟩

/-! ## Counters -/

theorem geo_setCounter (off v : Nat) (h : off = 12 ∨ off = 16) :
    geo { s with sb := s.sb.setCounter off v h } = geo s := by
  have hl : off + (enc32 v).length ≤ s.sb.raw.length := by
    rw [s.sb.size, length_enc32]; omega
  have keep32 : ∀ i, (i + 4 ≤ 12 ∨ 20 ≤ i) →
      le32 (s.sb.setCounter off v h).raw i = le32 s.sb.raw i :=
    fun i hi => le32_splice hl (by rw [length_enc32]; omega)
  have keep16 : ∀ i, (i + 2 ≤ 12 ∨ 20 ≤ i) →
      le16 (s.sb.setCounter off v h).raw i = le16 s.sb.raw i :=
    fun i hi => le16_splice hl (by rw [length_enc32]; omega)
  simp only [geo, EXT2.blockSize, EXT2.groupCount, SuperBlock.blockSize, SuperBlock.groupCount,
    SuperBlock.sBlocksCount, SuperBlock.sLogBlockSize, SuperBlock.sBlocksPerGroup,
    SuperBlock.sFirstDataBlock, SuperBlock.sInodesPerGroup, SuperBlock.sInodeSize,
    keep32 4 (by omega), keep32 20 (by omega), keep32 24 (by omega), keep32 32 (by omega),
    keep32 40 (by omega), keep16 88 (by omega)]

theorem geo_modify_group (g : Nat) (f : GroupDesc → GroupDesc)
    (hf : ∀ gd, (f gd).bgBlockBitmap = gd.bgBlockBitmap ∧ (f gd).bgInodeBitmap = gd.bgInodeBitmap ∧
      (f gd).bgInodeTable = gd.bgInodeTable) :
    geo { s with groups := s.groups.modify g f } = geo s := by
  have hm : ∀ p : GroupDesc → Nat, (∀ gd, p (f gd) = p gd) →
      (s.groups.modify g f).map p = s.groups.map p := by
    intro p hp
    apply List.ext_getElem (by simp)
    intro i h1 h2
    simp only [List.getElem_map, List.getElem_modify]
    split
    · exact hp _
    · rfl
  simp only [geo, hm _ fun gd => (hf gd).1, hm _ fun gd => (hf gd).2.1, hm _ fun gd => (hf gd).2.2]
  rfl

theorem same_of_geo (hg : geo t = geo s) (hd : t.dev = s.dev) (hu : t.uninit = s.uninit) :
    Same s t := ⟨hg, hu, fun k h => by rwa [hd]⟩

theorem becomes_of_geo (hs : Shape s) (hg : geo t = geo s) (hd : t.dev = s.dev)
    (hu : t.uninit = s.uninit) : Becomes s t (view s) :=
  .of_same hs (same_of_geo hg hd hu) (view_congr hg hu (by rw [hd]))

theorem addFreeBlocks_becomes (hs : Shape s) (d : Int) :
    Becomes s (addFreeBlocks d s) (view s) :=
  becomes_of_geo hs (geo_setCounter _ _ _) rfl rfl

theorem addFreeInodes_becomes (hs : Shape s) (d : Int) :
    Becomes s (addFreeInodes d s) (view s) :=
  becomes_of_geo hs (geo_setCounter _ _ _) rfl rfl

theorem setFree_keeps {gd : GroupDesc} {off v : Nat} (h : 12 ≤ off) (h' : off + 2 ≤ 32) {i : Nat}
    (hi : i + 4 ≤ 12) : le32 (put16 gd.raw off v) i = le32 gd.raw i :=
  le32_splice (by rw [gd.size]; exact h') (by omega)

theorem addGroupFreeBlocks_becomes (hs : Shape s) (g : Nat) (d : Int) :
    Becomes s (addGroupFreeBlocks g d s) (view s) :=
  becomes_of_geo hs (geo_modify_group _ _ fun _ => ⟨setFree_keeps (by decide) (by decide)
    (by decide), setFree_keeps (by decide) (by decide) (by decide),
    setFree_keeps (by decide) (by decide) (by decide)⟩) rfl rfl

theorem addGroupFreeInodes_becomes (hs : Shape s) (g : Nat) (d : Int) :
    Becomes s (addGroupFreeInodes g d s) (view s) :=
  becomes_of_geo hs (geo_modify_group _ _ fun _ => ⟨setFree_keeps (by decide) (by decide)
    (by decide), setFree_keeps (by decide) (by decide) (by decide),
    setFree_keeps (by decide) (by decide) (by decide)⟩) rfl rfl

/-! ## Writes that keep the view -/

theorem writeSuperBlock_spec (hs : Shape s) :
    Prog.Runs writeSuperBlock s fun _ t => Becomes s t (view s) :=
  ⟨(), _, writeSuperBlock_run hs, .of_same hs (same_put _ _ _)
    (view_put_super hs.geo (Nat.le_of_eq s.sb.size))⟩

theorem writeGroup_spec (hs : Shape s) {g : Nat} (hg : g < (geo s).groupCount) :
    Prog.Runs (writeGroup g) s fun _ t => Becomes s t (view s) := by
  obtain ⟨gd, -, hr⟩ := writeGroup_run hs hg
  exact ⟨(), _, hr, .of_same hs (same_put _ _ _) (view_put_group hs.geo hg (Nat.le_of_eq gd.size))⟩

/-! ## Block numbers and bits -/

variable {G : Geo}

theorem blkPlace_lt (hG : G.Sound) (b : Nat) : G.blkPlace b < G.blocksPerGroup :=
  Nat.mod_lt _ hG.blocksPerGroup_pos

theorem blkAt_group_place {b : Nat} (hb : G.Covered b) :
    G.blkAt (G.blkGroup b) (G.blkPlace b) = b := by
  have h := Nat.div_add_mod (b - G.firstDataBlock) G.blocksPerGroup
  have h1 := hb.1
  rw [Nat.mul_comm] at h
  unfold Geo.blkAt Geo.blkGroup Geo.blkPlace
  omega

theorem blkGroup_blkAt {g l : Nat} (hl : l < G.blocksPerGroup) : G.blkGroup (G.blkAt g l) = g := by
  unfold Geo.blkGroup Geo.blkAt
  rw [Nat.add_sub_cancel, Nat.mul_comm, Nat.mul_add_div (by omega), Nat.div_eq_of_lt hl,
    Nat.add_zero]

theorem blkPlace_blkAt {g l : Nat} (hl : l < G.blocksPerGroup) : G.blkPlace (G.blkAt g l) = l := by
  unfold Geo.blkPlace Geo.blkAt
  rw [Nat.add_sub_cancel, Nat.mul_comm, Nat.mul_add_mod, Nat.mod_eq_of_lt hl]

theorem covered_blkAt {g l : Nat} (hg : g < G.groupCount) (hl : l < G.blocksPerGroup) :
    G.Covered (G.blkAt g l) := by
  have h := Nat.mul_le_mul_right G.blocksPerGroup (Nat.succ_le_of_lt hg)
  rw [Nat.succ_mul] at h
  unfold Geo.Covered Geo.blkAt
  omega

theorem makeBlkno_eq (hs : Shape s) {g l : Nat} (hg : g < (geo s).groupCount)
    (hl : l < (geo s).blocksPerGroup) : s.makeBlkno g l = (geo s).blkAt g l := by
  have h := covered_blkAt hg hl
  have hc := hs.geo.groups_cover
  have h2 := h.2
  unfold EXT2.makeBlkno
  unfold Geo.blkAt at h2 ⊢
  change u32 (u32 (g * (geo s).blocksPerGroup) + (l + (geo s).firstDataBlock)) = _
  rw [u32_of_lt (n := g * (geo s).blocksPerGroup) (by omega), u32_of_lt (by omega)]
  omega

theorem length_blockBitmap (s : EXT2) (g : Nat) :
    (load s (.blockBitmap g)).length = (geo s).blocksPerGroup / 8 := length_readMem _ _ _

theorem length_inodeBitmap (s : EXT2) (g : Nat) :
    (load s (.inodeBitmap g)).length = (geo s).inodesPerGroup / 8 := length_readMem _ _ _

theorem blockBitmap_bits (hs : Shape s) : (geo s).blocksPerGroup / 8 * 8 = (geo s).blocksPerGroup :=
  Nat.div_mul_cancel hs.geo.blocksPerGroup_dvd

theorem inodeBitmap_bits (hs : Shape s) : (geo s).inodesPerGroup / 8 * 8 = (geo s).inodesPerGroup :=
  Nat.div_mul_cancel hs.geo.inodesPerGroup_dvd

theorem used_covered {b : Nat} (hb : (geo s).Covered b) :
    (view s).used b = testBit (load s (.blockBitmap ((geo s).blkGroup b))) ((geo s).blkPlace b) :=
  if_pos hb

theorem used_not_covered {b : Nat} (hb : ¬ (geo s).Covered b) : (view s).used b = true :=
  if_neg hb

theorem used_blkAt {g l : Nat} (hg : g < (geo s).groupCount) (hl : l < (geo s).blocksPerGroup) :
    (view s).used ((geo s).blkAt g l) = testBit (load s (.blockBitmap g)) l := by
  rw [used_covered (covered_blkAt hg hl), blkGroup_blkAt hl, blkPlace_blkAt hl]

theorem covered_of_free {b : Nat} (h : (view s).used b = false) : (geo s).Covered b := by
  by_contra hc
  rw [used_not_covered hc] at h
  cases h

/-! ## Searching for a clear bit -/

theorem firstClear_some {bm : Bytes} {i : Nat} (h : firstClear bm = some i) :
    i < bm.length * 8 ∧ testBit bm i = false := by
  have h1 := List.mem_of_find?_eq_some h
  have h2 := List.find?_some h
  exact ⟨List.mem_range.mp h1, by simpa using h2⟩

theorem firstClear_none {bm : Bytes} (h : firstClear bm = none) {i : Nat}
    (hi : i < bm.length * 8) : testBit bm i = true := by
  have h1 := List.find?_eq_none.mp h i (List.mem_range.mpr hi)
  simpa using h1

/-- The search delivers the first clear bit whose number is not 0, or there is
none in any of the groups. -/
theorem searchFree_spec {rd : Nat → Out Err Bytes} {make : Nat → Nat → Nat} {bm : Nat → Bytes}
    {gs : List Nat} (hrd : ∀ g ∈ gs, rd g = .ok (bm g))
    (hmake : ∀ g ∈ gs, ∀ i, firstClear (bm g) = some i → make g i ≠ 0) :
    (searchFree rd make gs = .ok none ∧ ∀ g ∈ gs, firstClear (bm g) = none) ∨
    ∃ g ∈ gs, ∃ i, firstClear (bm g) = some i ∧
      searchFree rd make gs = .ok (some (g, setBit (bm g) i, make g i)) := by
  induction gs with
  | nil => exact .inl ⟨rfl, by simp⟩
  | cons g gs ih =>
    have hg := hrd g (by simp)
    cases hf : firstClear (bm g) with
    | some i =>
      refine .inr ⟨g, by simp, i, hf, ?_⟩
      simp only [searchFree, hg, Out.ok_bind, hf]
      rw [if_pos (hmake g (by simp) i hf)]
      rfl
    | none =>
      have hstep : searchFree rd make (g :: gs) = searchFree rd make gs := by
        simp only [searchFree, hg, Out.ok_bind, hf]
      rw [hstep]
      rcases ih (fun x hx => hrd x (by simp [hx])) (fun x hx => hmake x (by simp [hx])) with h | h
      · exact .inl ⟨h.1, by simpa [hf] using h.2⟩
      · obtain ⟨g', hg', i, hi, hr⟩ := h
        exact .inr ⟨g', by simp [hg'], i, hi, hr⟩

theorem exhausted_run {α : Type} (hs : Shape s) (a : α) : (exhausted a).run s = .ok a s := by
  have h : s.groupCount ≠ 0 := Nat.pos_iff_ne_zero.mp hs.geo.groupCount_pos
  unfold exhausted
  rw [Prog.get_bind, if_neg h]
  rfl

/-- `_WriteGroup` and `EXT2WriteBlockBitmap` after changes to the bitmap. -/
theorem writeBlockBitmap_spec (hs : Shape s) {g : Nat} (hg : g < (geo s).groupCount) {bm : Bytes}
    (hbm : bm.length = (geo s).blocksPerGroup / 8)
    (hc : ∀ l, l < (geo s).blocksPerGroup → testBit bm l = false →
      (geo s).IsData ((geo s).blkAt g l)) :
    Prog.Runs (writeBlockBitmap g bm) s fun _ t => Becomes s t { view s with
      used := fun x =>
        if (geo s).Covered x ∧ (geo s).blkGroup x = g then testBit bm ((geo s).blkPlace x)
        else (view s).used x } := by
  have hv := view_put_blockBitmap hs.geo hg hbm
  refine ⟨(), _, writeBlockBitmap_run hs hg hbm, same_put _ _ _, hs.of_same (same_put _ _ _) ?_, hv⟩
  intro b hb
  rw [hv] at hb
  by_cases hx : (geo s).Covered b ∧ (geo s).blkGroup b = g
  · simp only [hx, and_self, if_true] at hb
    have := hc _ (blkPlace_lt hs.geo b) hb
    rw [← hx.2, blkAt_group_place hx.1] at this
    exact .inr this
  · simp only [hx, if_false] at hb
    exact .inl hb

theorem blkPlace_eq_iff {g l x : Nat} (hl : l < G.blocksPerGroup) (hx : G.Covered x)
    (hg : G.blkGroup x = g) : G.blkPlace x = l ↔ x = G.blkAt g l := by
  constructor
  · intro h; rw [← h, ← hg, blkAt_group_place hx]
  · intro h; rw [h, blkPlace_blkAt hl]

theorem used_setBit (hs : Shape s) {g l : Nat} (hg : g < (geo s).groupCount)
    (hl : l < (geo s).blocksPerGroup) :
    (fun x => if (geo s).Covered x ∧ (geo s).blkGroup x = g then
      testBit (setBit (load s (.blockBitmap g)) l) ((geo s).blkPlace x) else (view s).used x) =
    fun x => if x = (geo s).blkAt g l then true else (view s).used x := by
  have hb := blockBitmap_bits hs
  have hbit : l < (load s (.blockBitmap g)).length * 8 := by rw [length_blockBitmap]; omega
  funext x
  by_cases hx : (geo s).Covered x ∧ (geo s).blkGroup x = g
  · rw [if_pos hx, testBit_setBit hbit, used_covered hx.1, hx.2]
    by_cases hxl : x = (geo s).blkAt g l
    · rw [if_pos hxl, (blkPlace_eq_iff hl hx.1 hx.2).mpr hxl, decide_eq_true rfl, Bool.true_or]
    · rw [if_neg hxl, decide_eq_false (mt (blkPlace_eq_iff hl hx.1 hx.2).mp hxl), Bool.false_or]
  · rw [if_neg hx, if_neg]
    rintro rfl
    exact hx ⟨covered_blkAt hg hl, blkGroup_blkAt hl⟩

/-- `_GetBlock` marks a free block as used and delivers its number, or there is no
free block and it delivers 0. -/
theorem getBlock_spec (hs : Shape s) : Prog.Runs getBlock s fun b t =>
    (b ≠ 0 ∧ (view s).used b = false ∧ Becomes s t ((view s).setUsed b true)) ∨
    (b = 0 ∧ t = s ∧ ∀ x, (view s).used x = true) := by
  have hbits := blockBitmap_bits hs
  have hlen := length_blockBitmap s
  have hfree : ∀ g ∈ List.range s.groupCount, ∀ i, firstClear (load s (.blockBitmap g)) = some i →
      g < (geo s).groupCount ∧ i < (geo s).blocksPerGroup ∧
        s.makeBlkno g i = (geo s).blkAt g i ∧ (view s).used ((geo s).blkAt g i) = false := by
    intro g hg i hi
    obtain ⟨h1, h2⟩ := firstClear_some hi
    rw [hlen, hbits] at h1
    have hg' := List.mem_range.mp hg
    exact ⟨hg', h1, makeBlkno_eq hs hg' h1, by rw [used_blkAt hg' h1]; exact h2⟩
  have hsearch := @searchFree_spec (readBlockBitmap s) s.makeBlkno
    (fun g => load s (.blockBitmap g)) (List.range s.groupCount)
    (fun g hg => readBlockBitmap_eq hs (List.mem_range.mp hg)) (by
      intro g hg i hi
      obtain ⟨-, -, hm, hu⟩ := hfree g hg i hi
      rw [hm]
      exact Nat.pos_iff_ne_zero.mp (hs.clear _ hu).pos)
  unfold getBlock
  rcases hsearch with ⟨hr, hnone⟩ | ⟨g, hg, i, hi, hr⟩
  · refine Prog.Runs.read hr ⟨0, s, exhausted_run hs 0, .inr ⟨rfl, rfl, fun x => ?_⟩⟩
    by_contra hx
    have hx := Bool.eq_false_iff.mpr hx
    have hc := covered_of_free hx
    have hf := firstClear_none (hnone _ (List.mem_range.mpr (covered_group hc)))
      (i := (geo s).blkPlace x) (by
        have := blkPlace_lt hs.geo x
        rw [hlen]; omega)
    rw [used_covered hc, hf] at hx
    cases hx
  · obtain ⟨hg', hil, hm, hu⟩ := hfree g hg i hi
    refine Prog.Runs.read hr ?_
    refine Prog.Runs.modify ?_
    have h1 := addFreeBlocks_becomes hs (-1)
    refine Prog.Runs.bind (writeSuperBlock_spec h1.shape) fun _ s2 h2 => ?_
    refine Prog.Runs.modify ?_
    have h3 := addGroupFreeBlocks_becomes h2.shape g (-1)
    have h13 := (h1.trans (h2.trans h3))
    refine Prog.Runs.bind (writeGroup_spec h3.shape (by rw [h13.same.geo]; exact hg'))
      fun _ s4 h4 => ?_
    have h14 : Becomes s s4 (view s) := by
      have := h13.trans h4
      rwa [h3.holds, h2.holds, h1.holds] at this
    refine Prog.Runs.bind (writeBlockBitmap_spec h14.shape (by rw [h14.same.geo]; exact hg')
      (by rw [length_setBit, hlen, h14.same.geo]) ?_) fun _ s5 h5 => ?_
    · intro l hl hb
      rw [h14.same.geo] at hl ⊢
      apply hs.clear
      rw [testBit_setBit (by rw [hlen]; omega)] at hb
      rw [used_blkAt hg' hl]
      simp only [Bool.or_eq_false_iff] at hb
      exact hb.2
    · refine Prog.Runs.pure (.inl ⟨?_, ?_, ?_⟩)
      · rw [hm]; exact Nat.pos_iff_ne_zero.mp (hs.clear _ hu).pos
      · rw [hm]; exact hu
      · have h := h14.trans h5
        rw [h14.holds, h14.same.geo, used_setBit hs hg' hil] at h
        rw [hm]
        exact h

/-! ## Inode numbers -/

theorem inoGroup_inoAt {g l : Nat} (hl : l < G.inodesPerGroup) : G.inoGroup (G.inoAt g l) = g := by
  unfold Geo.inoGroup Geo.inoAt
  rw [Nat.add_sub_cancel, Nat.mul_comm, Nat.mul_add_div (by omega), Nat.div_eq_of_lt hl,
    Nat.add_zero]

theorem inoPlace_inoAt {g l : Nat} (hl : l < G.inodesPerGroup) : G.inoPlace (G.inoAt g l) = l := by
  unfold Geo.inoPlace Geo.inoAt
  rw [Nat.add_sub_cancel, Nat.mul_comm, Nat.mul_add_mod, Nat.mod_eq_of_lt hl]

theorem inoValid_inoAt {g l : Nat} (hg : g < G.groupCount) (hl : l < G.inodesPerGroup) :
    G.InoValid (G.inoAt g l) := by
  have h := Nat.mul_le_mul_right G.inodesPerGroup (Nat.succ_le_of_lt hg)
  rw [Nat.succ_mul] at h
  unfold Geo.InoValid Geo.inoAt
  omega

theorem makeIno_inoAt (hs : Shape s) {g l : Nat} (hg : g < (geo s).groupCount)
    (hl : l < (geo s).inodesPerGroup) : s.makeIno g l = (geo s).inoAt g l := by
  have h := (inoValid_inoAt hg hl).2
  have hc := hs.geo.inodes_cover
  unfold EXT2.makeIno
  unfold Geo.inoAt at h ⊢
  change u32 (u32 (g * (geo s).inodesPerGroup) + (l + 1)) = _
  rw [u32_of_lt (n := g * (geo s).inodesPerGroup) (by omega), u32_of_lt (by omega)]
  omega

theorem iused_valid {i : Nat} (hi : (geo s).InoValid i) :
    (view s).iused i =
      testBit (load s (.inodeBitmap ((geo s).inoGroup i))) ((geo s).inoPlace i) := if_pos hi

theorem iused_inoAt {g l : Nat} (hg : g < (geo s).groupCount) (hl : l < (geo s).inodesPerGroup) :
    (view s).iused ((geo s).inoAt g l) = testBit (load s (.inodeBitmap g)) l := by
  rw [iused_valid (inoValid_inoAt hg hl), inoGroup_inoAt hl, inoPlace_inoAt hl]

theorem inoValid_of_free {i : Nat} (h : (view s).iused i = false) : (geo s).InoValid i := by
  by_contra hc
  have : (view s).iused i = true := if_neg hc
  rw [this] at h
  cases h

theorem iused_setBit (hs : Shape s) {g l : Nat} (hg : g < (geo s).groupCount)
    (hl : l < (geo s).inodesPerGroup) :
    (fun x => if (geo s).InoValid x ∧ (geo s).inoGroup x = g then
      testBit (setBit (load s (.inodeBitmap g)) l) ((geo s).inoPlace x) else (view s).iused x) =
    fun x => if x = (geo s).inoAt g l then true else (view s).iused x := by
  have hb := inodeBitmap_bits hs
  have hbit : l < (load s (.inodeBitmap g)).length * 8 := by rw [length_inodeBitmap]; omega
  funext x
  by_cases hx : (geo s).InoValid x ∧ (geo s).inoGroup x = g
  · have he : (geo s).inoPlace x = l ↔ x = (geo s).inoAt g l := by
      constructor
      · intro h
        exact ino_eq hx.1.1 (inoValid_inoAt hg hl).1 (by rw [inoGroup_inoAt hl, hx.2])
          (by rw [inoPlace_inoAt hl, h])
      · intro h; rw [h, inoPlace_inoAt hl]
    rw [if_pos hx, testBit_setBit hbit, iused_valid hx.1, hx.2]
    by_cases hxl : x = (geo s).inoAt g l
    · rw [if_pos hxl, he.mpr hxl, decide_eq_true rfl, Bool.true_or]
    · rw [if_neg hxl, decide_eq_false (mt he.mp hxl), Bool.false_or]
  · rw [if_neg hx, if_neg]
    rintro rfl
    exact hx ⟨inoValid_inoAt hg hl, inoGroup_inoAt hl⟩

theorem writeInodeBitmap_spec (hs : Shape s) {g : Nat} (hg : g < (geo s).groupCount) {bm : Bytes}
    (hbm : bm.length = (geo s).inodesPerGroup / 8) :
    Prog.Runs (writeInodeBitmap g bm) s fun _ t => Becomes s t { view s with
      iused := fun x =>
        if (geo s).InoValid x ∧ (geo s).inoGroup x = g then testBit bm ((geo s).inoPlace x)
        else (view s).iused x } := by
  have hv := view_put_inodeBitmap hs.geo hg hbm
  exact ⟨(), _, writeInodeBitmap_run hs hg hbm, same_put _ _ _,
    hs.of_same (same_put _ _ _) fun b hb => .inl (by rw [hv] at hb; exact hb), hv⟩

/-- `_GetIno` marks a free inode as used and delivers its number, or there is no
free inode and it delivers 0. -/
theorem getIno_spec (hs : Shape s) : Prog.Runs getIno s fun i t =>
    (i ≠ 0 ∧ (view s).iused i = false ∧ Becomes s t ((view s).setIused i true)) ∨
    (i = 0 ∧ t = s ∧ ∀ x, (view s).iused x = true) := by
  have hbits := inodeBitmap_bits hs
  have hlen := length_inodeBitmap s
  have hfree : ∀ g ∈ List.range s.groupCount, ∀ i, firstClear (load s (.inodeBitmap g)) = some i →
      g < (geo s).groupCount ∧ i < (geo s).inodesPerGroup ∧
        s.makeIno g i = (geo s).inoAt g i ∧ (view s).iused ((geo s).inoAt g i) = false := by
    intro g hg i hi
    obtain ⟨h1, h2⟩ := firstClear_some hi
    rw [hlen, hbits] at h1
    have hg' := List.mem_range.mp hg
    exact ⟨hg', h1, makeIno_inoAt hs hg' h1, by rw [iused_inoAt hg' h1]; exact h2⟩
  have hsearch := @searchFree_spec (readInodeBitmap s) s.makeIno
    (fun g => load s (.inodeBitmap g)) (List.range s.groupCount)
    (fun g hg => readInodeBitmap_eq hs (List.mem_range.mp hg)) (by
      intro g hg i hi
      obtain ⟨-, -, hm, hu⟩ := hfree g hg i hi
      rw [hm]
      exact Nat.pos_iff_ne_zero.mp (inoValid_of_free hu).1)
  unfold getIno
  rcases hsearch with ⟨hr, hnone⟩ | ⟨g, hg, i, hi, hr⟩
  · refine Prog.Runs.read hr ⟨0, s, exhausted_run hs 0, .inr ⟨rfl, rfl, fun x => ?_⟩⟩
    by_contra hx
    have hx := Bool.eq_false_iff.mpr hx
    have hc := inoValid_of_free hx
    have hf := firstClear_none (hnone _ (List.mem_range.mpr (inoGroup_lt hc)))
      (i := (geo s).inoPlace x) (by
        have := inoPlace_lt hs.geo x
        rw [hlen]; omega)
    rw [iused_valid hc, hf] at hx
    cases hx
  · obtain ⟨hg', hil, hm, hu⟩ := hfree g hg i hi
    refine Prog.Runs.read hr ?_
    refine Prog.Runs.modify ?_
    have h1 := addFreeInodes_becomes hs (-1)
    refine Prog.Runs.bind (writeSuperBlock_spec h1.shape) fun _ s2 h2 => ?_
    refine Prog.Runs.modify ?_
    have h3 := addGroupFreeInodes_becomes h2.shape g (-1)
    have h13 := (h1.trans (h2.trans h3))
    refine Prog.Runs.bind (writeGroup_spec h3.shape (by rw [h13.same.geo]; exact hg'))
      fun _ s4 h4 => ?_
    have h14 : Becomes s s4 (view s) := by
      have := h13.trans h4
      rwa [h3.holds, h2.holds, h1.holds] at this
    refine Prog.Runs.bind (writeInodeBitmap_spec h14.shape (by rw [h14.same.geo]; exact hg')
      (by rw [length_setBit, hlen, h14.same.geo])) fun _ s5 h5 => ?_
    refine Prog.Runs.pure (.inl ⟨?_, ?_, ?_⟩)
    · rw [hm]; exact Nat.pos_iff_ne_zero.mp (inoValid_of_free hu).1
    · rw [hm]; exact hu
    · have h := h14.trans h5
      rw [h14.holds, h14.same.geo, iused_setBit hs hg' hil] at h
      rw [hm]
      exact h

/-! ## Releasing blocks -/

/-- Which blocks are in use when the bitmap of one group is in hand. -/
def usedInHand (s : EXT2) (inHand : Option (Nat × Bytes)) (old : Nat → Bool) (x : Nat) : Bool :=
  match inHand with
  | none => old x
  | some (g, bm) =>
    if (geo s).Covered x ∧ (geo s).blkGroup x = g then testBit bm ((geo s).blkPlace x) else old x

theorem bloknoToGrpno_eq (hs : Shape s) {b : Nat} (hb : (geo s).Covered b) :
    s.bloknoToGrpno b = (geo s).blkGroup b ∧ s.blknoToLblkno b = (geo s).blkPlace b := by
  have h1 := hb.1
  have h2 := hb.2
  have h3 := hs.geo.groups_cover
  have hn : ¬ (s.sb.sFirstDataBlock ≠ 0 ∧ b = 0) := by
    change ¬ ((geo s).firstDataBlock ≠ 0 ∧ b = 0); omega
  have hd : u64 (b + 2 ^ 64 - s.sb.sFirstDataBlock) = b - (geo s).firstDataBlock := by
    unfold u64
    change (b + 2 ^ 64 - (geo s).firstDataBlock) % 2 ^ 64 = _
    omega
  have hg := covered_group hb
  have hp := blkPlace_lt hs.geo b
  have hle := Nat.mul_le_mul hs.geo.groupCount_pos (Nat.le_refl (geo s).blocksPerGroup)
  have hge := Nat.mul_le_mul (Nat.le_refl (geo s).groupCount) hs.geo.blocksPerGroup_pos
  unfold EXT2.bloknoToGrpno EXT2.blknoToLblkno
  simp only [hn, if_false, hd]
  exact ⟨u32_of_lt (show (geo s).blkGroup b < 2 ^ 32 by omega),
    u32_of_lt (show (geo s).blkPlace b < 2 ^ 32 by omega)⟩

theorem checkBlockNumber_ok (hs : Shape s) {b : Nat} (hb : (geo s).Covered b) :
    checkBlockNumber s b ((geo s).blkGroup b) ((geo s).blkPlace b) = .ok () := by
  have hg := covered_group hb
  have hg' : ¬ (geo s).blkGroup b > s.groupCount := Nat.not_lt.mpr (Nat.le_of_lt hg)
  unfold checkBlockNumber
  rw [makeBlkno_eq hs hg (blkPlace_lt hs.geo b), blkAt_group_place hb, if_neg (by simp),
    if_neg hg']
  rfl

/-- A volume whose bitmap of one group is in hand: all the bits say together is
sound. -/
structure InHand (s : EXT2) (inHand : Option (Nat × Bytes)) : Prop where
  group : ∀ g bm, inHand = some (g, bm) → g < (geo s).groupCount ∧
    bm.length = (geo s).blocksPerGroup / 8
  clear : ∀ x, usedInHand s inHand (view s).used x = false → (geo s).IsData x

theorem writeGroupWithBitmap_spec (hs : Shape s) {g : Nat} {bm : Bytes}
    (h : InHand s (some (g, bm))) :
    Prog.Runs (writeGroupWithBitmap g bm) s fun _ t => Becomes s t { view s with
      used := usedInHand s (some (g, bm)) (view s).used } := by
  obtain ⟨hg, hl⟩ := h.group g bm rfl
  unfold writeGroupWithBitmap
  refine Prog.Runs.bind (writeGroup_spec hs hg) fun _ s1 h1 => ?_
  have hg1 := h1.same.geo
  refine (writeBlockBitmap_spec h1.shape (by rw [hg1]; exact hg) (by rw [hg1]; exact hl) ?_).mono
    fun _ t h2 => ?_
  · intro l hl' hb
    rw [hg1] at hl' ⊢
    apply h.clear
    simp only [usedInHand]
    rw [if_pos ⟨covered_blkAt hg hl', blkGroup_blkAt hl'⟩, blkPlace_blkAt hl']
    exact hb
  · have := h1.trans h2
    rw [hg1, h1.holds] at this
    exact this

theorem usedInHand_congr (hg : geo t = geo s) (ih : Option (Nat × Bytes)) (old : Nat → Bool) :
    usedInHand t ih old = usedInHand s ih old := by
  funext x
  unfold usedInHand
  rw [hg]

theorem usedInHand_load (s : EXT2) (g : Nat) :
    usedInHand s (some (g, load s (.blockBitmap g))) (view s).used = (view s).used := by
  funext x
  by_cases hx : (geo s).Covered x ∧ (geo s).blkGroup x = g
  · simp only [usedInHand]
    rw [if_pos hx, used_covered hx.1, hx.2]
  · simp only [usedInHand]
    rw [if_neg hx]

theorem usedInHand_clearBit (hs : Shape s) {b : Nat} (hb : (geo s).Covered b) {bm : Bytes}
    (hl : bm.length = (geo s).blocksPerGroup / 8) (old : Nat → Bool) :
    usedInHand s (some ((geo s).blkGroup b, clearBit bm ((geo s).blkPlace b))) old =
      fun x => usedInHand s (some ((geo s).blkGroup b, bm)) old x && decide (x ≠ b) := by
  have hbits := blockBitmap_bits hs
  have hp := blkPlace_lt hs.geo b
  have hbit : (geo s).blkPlace b < bm.length * 8 := by omega
  funext x
  simp only [usedInHand]
  by_cases hx : (geo s).Covered x ∧ (geo s).blkGroup x = (geo s).blkGroup b
  · have he := blkPlace_eq_iff hp hx.1 hx.2
    rw [blkAt_group_place hb] at he
    rw [if_pos hx, if_pos hx, testBit_clearBit hbit, Bool.and_comm]
    simp [he]
  · rw [if_neg hx, if_neg hx, decide_eq_true (p := x ≠ b), Bool.and_true]
    rintro rfl
    exact hx ⟨hb, rfl⟩

theorem switchBitmap_spec (hs : Shape s) {ih : Option (Nat × Bytes)} (h : InHand s ih) {g : Nat}
    (hg : g < (geo s).groupCount) :
    Prog.Runs (switchBitmap ih g) s fun bm t =>
      (∃ w, Becomes s t { view s with used := w }) ∧ bm.length = (geo s).blocksPerGroup / 8 ∧
        usedInHand t (some (g, bm)) (view t).used = usedInHand s ih (view s).used := by
  rcases ih with _ | ⟨g', bm'⟩
  · exact ⟨load s (.blockBitmap g), s, Prog.read_ok (readBlockBitmap_eq hs hg),
      ⟨_, Becomes.refl hs⟩, length_blockBitmap s g, usedInHand_load s g⟩
  · by_cases he : g' = g
    · subst he
      refine ⟨bm', s, ?_, ⟨_, Becomes.refl hs⟩, (h.group _ _ rfl).2, rfl⟩
      unfold switchBitmap
      simp only [if_true, Prog.run_pure]
    · unfold switchBitmap
      simp only [he, if_false]
      refine Prog.Runs.bind (writeGroupWithBitmap_spec hs h) fun _ t ht => ?_
      have hgt := ht.same.geo
      refine ⟨load t (.blockBitmap g), t, Prog.read_ok (readBlockBitmap_eq ht.shape
        (by rw [hgt]; exact hg)), ⟨_, ht⟩, by rw [length_blockBitmap, hgt], ?_⟩
      rw [usedInHand_load, ht.holds]

/-- `_PutBlocks`: the loop. Each number is cleared in the bitmap in hand; the last
one writes it. -/
theorem putBlocksLoop_spec {bs : List Nat} (hne : bs ≠ []) :
    ∀ {s : EXT2} (_ : Shape s) {ih : Option (Nat × Bytes)} (_ : InHand s ih) (_ : bs.Nodup)
      (_ : ∀ b ∈ bs, (geo s).Covered b ∧ (geo s).IsData b ∧
        usedInHand s ih (view s).used b = true),
    Prog.Runs (putBlocksLoop ih bs) s fun _ t => Becomes s t { view s with
      used := fun x => usedInHand s ih (view s).used x && decide (x ∉ bs) } := by
  induction bs with
  | nil => exact absurd rfl hne
  | cons b rest ihr =>
    intro s hs ih h hnd hall
    obtain ⟨hcov, hdata, hcur⟩ := hall b (by simp)
    have hg := covered_group hcov
    obtain ⟨hgrp, hplc⟩ := bloknoToGrpno_eq hs hcov
    unfold putBlocksLoop
    refine Prog.Runs.get ?_
    simp only [hgrp, hplc]
    refine Prog.Runs.read (checkBlockNumber_ok hs hcov) ?_
    refine Prog.Runs.bind (switchBitmap_spec hs h hg) fun bm s1 ⟨⟨w, h1⟩, hlen, hcur1⟩ => ?_
    have hg1 := h1.same.geo
    have hbit : testBit bm ((geo s).blkPlace b) = true := by
      rw [← hcur1] at hcur
      simp only [usedInHand, hg1, hcov, and_self, if_true] at hcur
      exact hcur
    simp only [hbit, Bool.not_true, Bool.false_eq_true, if_false]
    refine Prog.Runs.modify ?_
    have h2 := addFreeBlocks_becomes h1.shape 1
    have hg2 : geo (addFreeBlocks 1 s1) = geo s := h2.same.geo.trans hg1
    obtain ⟨gd, -, hgd, -⟩ := group_get h2.shape (g := (geo s).blkGroup b) (by rw [hg2]; exact hg)
    refine Prog.Runs.read hgd ?_
    refine Prog.Runs.modify ?_
    have h3 := h2.trans (addGroupFreeBlocks_becomes h2.shape ((geo s).blkGroup b) 1)
    generalize addGroupFreeBlocks ((geo s).blkGroup b) 1 (addFreeBlocks 1 s1) = s3 at h3 ⊢
    have hg3 : geo s3 = geo s := h3.same.geo.trans hg1
    have hcur3 : usedInHand s3 (some ((geo s).blkGroup b, clearBit bm ((geo s).blkPlace b)))
        (view s3).used = fun x => usedInHand s ih (view s).used x && decide (x ≠ b) := by
      rw [usedInHand_congr hg3, usedInHand_clearBit hs hcov hlen, h3.holds, h2.holds, ← hcur1,
        usedInHand_congr hg1]
    have hin : InHand s3 (some ((geo s).blkGroup b, clearBit bm ((geo s).blkPlace b))) := by
      constructor
      · rintro g' bm' he
        simp only [Option.some.injEq, Prod.mk.injEq] at he
        obtain ⟨rfl, rfl⟩ := he
        rw [hg3, length_clearBit]
        exact ⟨hg, hlen⟩
      · intro x hx
        rw [hg3]
        rw [hcur3] at hx
        by_cases hxb : x = b
        · rw [hxb]; exact hdata
        · simp only [hxb, ne_eq, not_false_eq_true, decide_true, Bool.and_true] at hx
          exact h.clear x hx
    have hv3 : ∀ f, { view s3 with used := f } = { view s with used := f } := by
      intro f
      rw [h3.holds, h2.holds, h1.holds]
    by_cases hr : rest = []
    · subst hr
      simp only [List.isEmpty_nil, if_true]
      refine Prog.Runs.bind (writeGroupWithBitmap_spec h3.shape hin) fun _ t ht => ?_
      have hall := h1.trans (h3.trans ht)
      rw [hcur3, hv3] at hall
      exact Prog.Runs.pure (by simpa using hall)
    · have hrf : rest.isEmpty = false := by
        cases rest with
        | nil => exact absurd rfl hr
        | cons => rfl
      simp only [hrf, Bool.false_eq_true, if_false]
      refine (ihr hr h3.shape hin (List.nodup_cons.mp hnd).2 ?_).mono fun _ u hu => ?_
      · intro x hx
        obtain ⟨hc, hd, hu⟩ := hall x (by simp [hx])
        have hxb : x ≠ b := by rintro rfl; exact (List.nodup_cons.mp hnd).1 hx
        rw [hg3, hcur3]
        exact ⟨hc, hd, by simp [hu, hxb]⟩
      · have hall := h1.trans (h3.trans hu)
        rw [hcur3, hv3] at hall
        have he : ∀ x, (usedInHand s ih (view s).used x && decide (x ≠ b) && decide (x ∉ rest)) =
            (usedInHand s ih (view s).used x && decide (x ∉ b :: rest)) := by
          intro x; simp [Bool.and_assoc]
        simp only [he] at hall
        exact hall

/-- `_PutBlocks` clears the bits of used blocks that differ. -/
theorem putBlocks_spec (hs : Shape s) {bs : List Nat} (hnd : bs.Nodup)
    (hall : ∀ b ∈ bs, (geo s).IsData b ∧ (geo s).Covered b ∧ (view s).used b = true) :
    Prog.Runs (putBlocks bs) s fun _ t => Becomes s t { view s with
      used := fun x => (view s).used x && decide (x ∉ bs) } := by
  have hp := List.mergeSort_perm bs (fun a b => decide (a ≤ b))
  unfold putBlocks
  refine Prog.Runs.bind (Q := fun _ t => Becomes s t { view s with
      used := fun x => (view s).used x && decide (x ∉ bs) }) ?_ fun _ t ht => ?_
  · by_cases he : bs = []
    · subst he
      refine ⟨(), s, by simp [putBlocksLoop], ?_⟩
      simpa using Becomes.refl hs
    · refine (@putBlocksLoop_spec _ (fun h => he (List.nil_perm.mp (h ▸ hp))) _ hs none
        ⟨(by simp), fun x hx => hs.clear x hx⟩ (hp.nodup_iff.mpr hnd) ?_).mono fun _ t ht => ?_
      · intro b hb
        obtain ⟨h1, h2, h3⟩ := hall b (hp.mem_iff.mp hb)
        exact ⟨h2, h1, h3⟩
      · simpa [usedInHand, hp.mem_iff] using ht
  · refine (writeSuperBlock_spec ht.shape).mono fun _ u hu => ?_
    have := ht.trans hu
    rwa [ht.holds] at this

/-! ## Writing data to free blocks -/

/-- The blocks `bs` with `f i`, `f (i + 1)`, … stored at their start. -/
def storeAll (block : Nat → Bytes) (f : Nat → Bytes) : Nat → List Nat → Nat → Bytes
  | _, [] => block
  | i, b :: bs =>
    storeAll (fun x => if x = b then splice (block b) 0 (f i) else block x) f (i + 1) bs

/-- The view with the blocks `bs` taken into use and filled. -/
def alloc (v : View) (f : Nat → Bytes) (i : Nat) (bs : List Nat) : View :=
  { v with
    block := storeAll v.block f i bs
    used := fun x => decide (x ∈ bs) || v.used x }

theorem storeAll_append (block f : Nat → Bytes) (i : Nat) (bs cs : List Nat) :
    storeAll block f i (bs ++ cs) = storeAll (storeAll block f i bs) f (i + bs.length) cs := by
  induction bs generalizing block i with
  | nil => rfl
  | cons b bs ih =>
    simp only [List.cons_append, storeAll, ih, List.length_cons]
    congr 1; omega

theorem storeAll_of_not_mem {block f : Nat → Bytes} {i : Nat} {bs : List Nat} {x : Nat}
    (h : x ∉ bs) : storeAll block f i bs x = block x := by
  induction bs generalizing block i with
  | nil => rfl
  | cons b bs ih =>
    simp only [List.mem_cons, not_or] at h
    rw [storeAll, ih h.2, if_neg h.1]

theorem storeAll_getElem {block f : Nat → Bytes} {i : Nat} {bs : List Nat} (hnd : bs.Nodup)
    {k : Nat} (hk : k < bs.length) :
    storeAll block f i bs bs[k] = splice (block bs[k]) 0 (f (i + k)) := by
  induction bs generalizing block i k with
  | nil => simp at hk
  | cons b bs ih =>
    obtain ⟨hb, hnd⟩ := List.nodup_cons.mp hnd
    cases k with
    | zero => rw [List.getElem_cons_zero, storeAll, storeAll_of_not_mem hb, if_pos rfl]; rfl
    | succ k =>
      have hk' : k < bs.length := by simpa using hk
      have hne : bs[k] ≠ b := fun h => hb (h ▸ List.getElem_mem hk')
      rw [List.getElem_cons_succ, storeAll, ih hnd hk', if_neg hne]
      congr 2; omega

theorem alloc_append (v : View) (f : Nat → Bytes) (i : Nat) (bs cs : List Nat) :
    alloc (alloc v f i bs) f (i + bs.length) cs = alloc v f i (bs ++ cs) := by
  simp only [alloc, storeAll_append, View.mk.injEq, true_and, and_true]
  funext x
  simp only [List.mem_append, Bool.decide_or]
  rw [← Bool.or_assoc, Bool.or_comm (decide (x ∈ cs))]

theorem alloc_nil (v : View) (f : Nat → Bytes) (i : Nat) : alloc v f i [] = v := by
  simp [alloc, storeAll]

theorem length_dataBlock (blksize : Nat) (data : Bytes) (nblks i : Nat) (h : 0 < blksize) :
    (dataBlock blksize data nblks i).length ≤ blksize := by
  have hm := Nat.mod_lt data.length h
  simp only [dataBlock, List.length_take]
  split <;> omega

/-- `_WriteData`: the scan of one group takes the clear bits in order until there
are enough blocks. -/
theorem writeDataScan_spec {data : Bytes} {nblks g : Nat} {ls : List Nat} :
    ∀ {s : EXT2} (_ : Shape s) (_ : g < (geo s).groupCount) {bm : Bytes} {acc : List Nat}
      (_ : bm.length = (geo s).blocksPerGroup / 8) (_ : acc.length ≤ nblks) (_ : ls.Nodup)
      (_ : ∀ l ∈ ls, l < (geo s).blocksPerGroup ∧
        testBit bm l = (view s).used ((geo s).blkAt g l)),
    Prog.Runs (writeDataScan data nblks g bm acc ls) s fun r t =>
      ∃ new : List Nat, new.Nodup ∧ (∀ l ∈ new, l ∈ ls ∧ testBit bm l = false) ∧
        r.2 = acc ++ new.map ((geo s).blkAt g) ∧ r.1.length = bm.length ∧
        (∀ j, testBit r.1 j = (decide (j ∈ new) || testBit bm j)) ∧
        Becomes s t { view s with
          block := storeAll (view s).block (dataBlock s.blockSize data nblks) acc.length
            (new.map ((geo s).blkAt g)) } ∧
        r.2.length ≤ nblks ∧ (r.2.length = nblks ∨ ∀ l ∈ ls, testBit r.1 l = true) := by
  induction ls with
  | nil =>
    intro s hs hg bm acc hbm hacc _ _
    exact Prog.Runs.pure ⟨[], by simp, by simp, by simp, rfl, by simp,
      by simpa [storeAll] using Becomes.refl hs, hacc, .inr (by simp)⟩
  | cons l ls ih =>
    intro s hs hg bm acc hbm hacc hnd hls
    obtain ⟨hl, hused⟩ := hls l (by simp)
    obtain ⟨hl_not, hnd⟩ := List.nodup_cons.mp hnd
    have hbits := blockBitmap_bits hs
    have hlt : l < bm.length * 8 := by omega
    unfold writeDataScan
    refine Prog.Runs.get ?_
    by_cases hc : acc.length < nblks ∧ (!testBit bm l) = true
    · simp only [hc, and_self, if_true]
      have hclear : testBit bm l = false := by simpa using hc.2
      have hdata : (geo s).IsData ((geo s).blkAt g l) := hs.clear _ (by rw [← hused]; exact hclear)
      have hdl : (dataBlock s.blockSize data nblks acc.length).length ≤ s.blockSize :=
        length_dataBlock _ _ _ _ (blockSize_pos s)
      rw [makeBlkno_eq hs hg hl]
      have hput := view_put_block hs.geo hdata
        (b := dataBlock s.blockSize data nblks acc.length) hdl
      have h1 : Becomes s (put s (.block ((geo s).blkAt g l))
          (dataBlock s.blockSize data nblks acc.length)) _ :=
        ⟨same_put _ _ _, hs.of_same (same_put _ _ _) fun b hb => .inl (by rw [hput] at hb; exact hb),
          hput⟩
      refine Prog.Runs.ok (writeBlock_data hs hdata hdl) ?_
      refine Prog.Runs.modify ?_
      have h2 := addFreeBlocks_becomes h1.shape (-1)
      have h12 := h1.trans h2
      rw [h1.holds] at h12
      obtain ⟨gd, -, hgd, -⟩ := group_get h2.shape (g := g) (by rw [h12.same.geo]; exact hg)
      refine Prog.Runs.read hgd ?_
      refine Prog.Runs.modify ?_
      have h3 := h12.trans (addGroupFreeBlocks_becomes h2.shape g (-1))
      rw [h12.holds] at h3
      generalize addGroupFreeBlocks g (-1) (addFreeBlocks (-1) _) = s3 at h3 ⊢
      have hg3 := h3.same.geo
      have hb3 : s3.blockSize = s.blockSize := congrArg Geo.blockSize hg3
      refine (ih h3.shape (by rw [hg3]; exact hg) (by rw [length_setBit, hg3]; exact hbm)
        (by simp; omega) hnd ?_).mono fun r t hr => ?_
      · intro x hx
        obtain ⟨hxl, hxu⟩ := hls x (by simp [hx])
        have hne : x ≠ l := by rintro rfl; exact hl_not hx
        rw [hg3, h3.holds]
        exact ⟨hxl, by rw [testBit_setBit hlt, decide_eq_false hne, Bool.false_or, hxu]; rfl⟩
      · obtain ⟨new, hn1, hn2, hr2, hr1, hbit, hbec, hle, hend⟩ := hr
        rw [hg3, hb3, h3.holds] at hbec
        rw [hg3] at hr2
        have hln : l ∉ new := fun h => hl_not (hn2 l h).1
        refine ⟨l :: new, List.nodup_cons.mpr ⟨hln, hn1⟩, ?_, ?_, ?_, ?_, ?_, hle, ?_⟩
        · intro x hx
          rcases List.mem_cons.mp hx with rfl | hx
          · exact ⟨by simp, hclear⟩
          · obtain ⟨h1, h2⟩ := hn2 x hx
            rw [testBit_setBit hlt] at h2
            simp only [Bool.or_eq_false_iff] at h2
            exact ⟨by simp [h1], h2.2⟩
        · rw [hr2]; simp
        · rw [hr1, length_setBit]
        · intro j
          rw [hbit, testBit_setBit hlt]
          by_cases hj : j = l <;> simp [hj]
        · have := h3.trans hbec
          simpa [storeAll, View.setBlock] using this
        · refine hend.imp id fun h x hx => ?_
          rcases List.mem_cons.mp hx with rfl | hx
          · rw [hbit, testBit_setBit hlt]; simp
          · exact h x hx
    · simp only [hc, if_false]
      refine (ih hs hg hbm hacc hnd fun x hx => hls x (by simp [hx])).mono fun r t hr => ?_
      obtain ⟨new, hn1, hn2, hr2, hr1, hbit, hbec, hle, hend⟩ := hr
      refine ⟨new, hn1, fun x hx => ⟨by simp [(hn2 x hx).1], (hn2 x hx).2⟩, hr2, hr1, hbit, hbec,
        hle, ?_⟩
      by_cases hacc' : acc.length < nblks
      · have hset : testBit bm l = true := by
          by_contra h
          exact hc ⟨hacc', by simpa using h⟩
        refine hend.imp id fun h x hx => ?_
        rcases List.mem_cons.mp hx with rfl | hx
        · rw [hbit, hset, Bool.or_true]
        · exact h x hx
      · left
        rw [hr2] at hle ⊢
        simp only [List.length_append] at hle ⊢
        omega

/-- A bitmap with the places `new` added says that the blocks there are used. -/
theorem used_of_bits {g : Nat} (hg : g < (geo s).groupCount) {new : List Nat}
    (hn : ∀ l ∈ new, l < (geo s).blocksPerGroup) {bm : Bytes}
    (hb : ∀ j, testBit bm j = (decide (j ∈ new) || testBit (load s (.blockBitmap g)) j)) (x : Nat) :
    (if (geo s).Covered x ∧ (geo s).blkGroup x = g then testBit bm ((geo s).blkPlace x)
      else (view s).used x) = (decide (x ∈ new.map ((geo s).blkAt g)) || (view s).used x) := by
  by_cases hx : (geo s).Covered x ∧ (geo s).blkGroup x = g
  · have hm : (geo s).blkPlace x ∈ new ↔ x ∈ new.map ((geo s).blkAt g) := by
      rw [List.mem_map]
      constructor
      · intro h; exact ⟨_, h, by rw [← hx.2, blkAt_group_place hx.1]⟩
      · rintro ⟨l, hl, rfl⟩; rwa [blkPlace_blkAt (hn l hl)]
    rw [if_pos hx, hb, used_covered hx.1, hx.2]
    simp only [hm]
  · rw [if_neg hx, decide_eq_false, Bool.false_or]
    rw [List.mem_map]
    rintro ⟨l, hl, rfl⟩
    exact hx ⟨covered_blkAt hg (hn l hl), blkGroup_blkAt (hn l hl)⟩

/-- `_WriteData`: one round of the loop over the groups. -/
theorem writeDataGroup_spec (hs : Shape s) {data : Bytes} {nblks g : Nat}
    (hg : g < (geo s).groupCount) {acc : List Nat} (hacc : acc.length ≤ nblks)
    {k : List Nat → Prog EXT2 Err (List Nat)} {R : List Nat → EXT2 → Prop}
    (hk : ∀ new t, new.Nodup → (∀ b ∈ new, (view s).used b = false ∧ (geo s).blkGroup b = g) →
      Becomes s t (alloc (view s) (dataBlock s.blockSize data nblks) acc.length new) →
      (acc ++ new).length ≤ nblks →
      ((acc ++ new).length = nblks ∨
        ∀ l, l < (geo s).blocksPerGroup → (view t).used ((geo s).blkAt g l) = true) →
      Prog.Runs (k (acc ++ new)) t R) :
    Prog.Runs (do
      let bitmap ← Prog.read fun ext2 => readBlockBitmap ext2 g
      let (bitmap', acc') ← writeDataScan data nblks g bitmap acc (List.range (bitmap.length * 8))
      if acc.length < acc'.length then do
        writeGroup g
        writeBlockBitmap g bitmap'
      else pure ()
      k acc') s R := by
  have hlen := length_blockBitmap s g
  have hbits := blockBitmap_bits hs
  refine Prog.Runs.read (readBlockBitmap_eq hs hg) ?_
  refine Prog.Runs.bind (writeDataScan_spec hs hg hlen hacc List.nodup_range ?_) ?_
  · intro l hl
    rw [hlen, hbits] at hl
    have hl' := List.mem_range.mp hl
    exact ⟨hl', (used_blkAt hg hl').symm⟩
  rintro ⟨bm, acc'⟩ s1 ⟨new, hnd, hnew, rfl, hlb, hbit, h1, hle, hend⟩
  have hg1 := h1.same.geo
  have hnl : ∀ l ∈ new, l < (geo s).blocksPerGroup := by
    intro l hl
    have := (hnew l hl).1
    rwa [hlen, hbits, List.mem_range] at this
  have hinj : (new.map ((geo s).blkAt g)).Nodup := by
    refine hnd.map_on fun a ha b hb h => ?_
    rw [← blkPlace_blkAt (G := geo s) (g := g) (hnl a ha), h, blkPlace_blkAt (hnl b hb)]
  have hfree : ∀ b ∈ new.map ((geo s).blkAt g),
      (view s).used b = false ∧ (geo s).blkGroup b = g := by
    intro b hb
    obtain ⟨l, hl, rfl⟩ := List.mem_map.mp hb
    rw [used_blkAt hg (hnl l hl)]
    exact ⟨(hnew l hl).2, blkGroup_blkAt (hnl l hl)⟩
  have hfull : (∀ l ∈ List.range ((load s (.blockBitmap g)).length * 8), testBit bm l = true) →
      ∀ l, l < (geo s).blocksPerGroup →
        (decide ((geo s).blkAt g l ∈ new.map ((geo s).blkAt g)) ||
          (view s).used ((geo s).blkAt g l)) = true := by
    intro h l hl
    rw [← used_of_bits hg hnl hbit, if_pos ⟨covered_blkAt hg hl, blkGroup_blkAt hl⟩,
      blkPlace_blkAt hl]
    exact h l (by rw [hlen, hbits]; exact List.mem_range.mpr hl)
  simp only [List.length_append, List.length_map, Nat.lt_add_right_iff_pos]
  by_cases hn : 0 < new.length
  · simp only [hn, if_true]
    refine Prog.Runs.bind (writeGroup_spec h1.shape (by rw [hg1]; exact hg)) fun _ s2 h2 => ?_
    have h12 := h1.trans h2
    rw [h1.holds] at h12
    refine Prog.Runs.bind (writeBlockBitmap_spec h2.shape (by rw [h12.same.geo]; exact hg)
      (by rw [h12.same.geo]; exact hlb.trans hlen) ?_) fun _ s3 h3 => ?_
    · intro l hl hb
      rw [h12.same.geo] at hl ⊢
      apply hs.clear
      rw [hbit, Bool.or_eq_false_iff] at hb
      rw [used_blkAt hg hl]
      exact hb.2
    · have h13 := h12.trans h3
      rw [h12.same.geo, h12.holds] at h13
      simp only [used_of_bits hg hnl hbit] at h13
      refine hk _ s3 hinj hfree h13 (by simpa using hle) (hend.imp (by simp) fun h l hl => ?_)
      rw [h13.holds]
      exact hfull h l hl
  · have hnil : new = [] := List.eq_nil_of_length_eq_zero (by omega)
    subst hnil
    simp only [List.map_nil, List.append_nil, storeAll] at h1 hk hle hend hfull ⊢
    simp only [List.length_nil, Nat.lt_irrefl, if_false]
    have := hk [] s1 List.nodup_nil (by simp) (by rw [alloc_nil]; exact h1) (by simpa using hle)
      (hend.imp (by simp) fun h l hl => by rw [h1.holds]; exact hfull h l hl)
    simpa using this

theorem writeDataLoop_spec {data : Bytes} {nblks : Nat} {gs : List Nat} :
    ∀ {s : EXT2} (_ : Shape s) (_ : ∀ g ∈ gs, g < (geo s).groupCount) (_ : gs.Nodup)
      {acc : List Nat} (_ : acc.length ≤ nblks),
    Prog.Runs (writeDataLoop data nblks acc gs) s fun r t =>
      ∃ new : List Nat, r = acc ++ new ∧ new.Nodup ∧
        (∀ b ∈ new, (view s).used b = false ∧ (geo s).blkGroup b ∈ gs) ∧
        Becomes s t (alloc (view s) (dataBlock s.blockSize data nblks) acc.length new) ∧
        r.length ≤ nblks ∧ (r.length = nblks ∨ ∀ g ∈ gs, ∀ l, l < (geo s).blocksPerGroup →
          (view t).used ((geo s).blkAt g l) = true) := by
  induction gs with
  | nil =>
    intro s hs _ _ acc hacc
    exact Prog.Runs.pure ⟨[], by simp, by simp, by simp, by rw [alloc_nil]; exact .refl hs, hacc,
      .inr (by simp)⟩
  | cons g gs ih =>
    intro s hs hgs hnd acc hacc
    obtain ⟨hgn, hnd⟩ := List.nodup_cons.mp hnd
    unfold writeDataLoop
    by_cases hfull : nblks ≤ acc.length
    · rw [if_pos hfull]
      exact Prog.Runs.pure ⟨[], by simp, by simp, by simp, by rw [alloc_nil]; exact .refl hs, hacc,
        .inl (by omega)⟩
    · rw [if_neg hfull]
      refine writeDataGroup_spec hs (hgs g (by simp)) hacc (k := fun r => writeDataLoop data nblks r gs)
        fun new t hn hfree h1 hle hend => ?_
      have hg1 := h1.same.geo
      have hb1 : t.blockSize = s.blockSize := congrArg Geo.blockSize hg1
      refine (ih h1.shape (fun x hx => by rw [hg1]; exact hgs x (by simp [hx])) hnd hle).mono
        fun r u hr => ?_
      obtain ⟨new', rfl, hn', hfree', h2, hle', hend'⟩ := hr
      rw [hg1] at hfree' hend'
      have hdis : ∀ b ∈ new', b ∉ new := fun b hb h => hgn ((hfree b h).2 ▸ (hfree' b hb).2)
      have h12 := h1.trans h2
      rw [h1.holds, hb1, List.length_append, alloc_append] at h12
      refine ⟨new ++ new', by simp, hn.append hn' fun b hb hb' => hdis b hb' hb, ?_, h12, hle', ?_⟩
      · intro b hb
        rcases List.mem_append.mp hb with hb | hb
        · exact ⟨(hfree b hb).1, by simp [(hfree b hb).2]⟩
        · have h := hfree' b hb
          rw [h1.holds] at h
          exact ⟨(Bool.or_eq_false_iff.mp h.1).2, by simp [h.2]⟩
      · rcases hend' with h | h
        · exact .inl h
        · rcases hend with hf | hf
          · left
            simp only [List.length_append] at hle' hf ⊢
            omega
          · right
            intro x hx l hl
            rcases List.mem_cons.mp hx with rfl | hx
            · have := hf l hl
              rw [h1.holds] at this
              rw [h12.holds]
              simp only [alloc, List.mem_append, Bool.decide_or] at this ⊢
              rw [Bool.or_assoc, Bool.or_comm (decide (_ ∈ new')), ← Bool.or_assoc, this,
                Bool.true_or]
            · exact h x hx l hl

/-- `_WriteData` takes free blocks into use and fills them: as many as the data
needs, or all there are. -/
theorem writeData_spec (hs : Shape s) (data : Bytes) :
    Prog.Runs (writeData data) s fun bs t =>
      bs.Nodup ∧ (∀ b ∈ bs, (view s).used b = false) ∧
        Becomes s t (alloc (view s)
          (dataBlock s.blockSize data (blockCount s.blockSize data.length)) 0 bs) ∧
        bs.length ≤ blockCount s.blockSize data.length ∧
        (bs.length = blockCount s.blockSize data.length ∨ ∀ x, (view t).used x = true) := by
  unfold writeData
  refine Prog.Runs.get ?_
  refine Prog.Runs.bind (writeDataLoop_spec hs (fun g hg => List.mem_range.mp hg) List.nodup_range
    (Nat.zero_le _)) fun r t hr => ?_
  obtain ⟨bs, hbs, hnd, hfree, h1, hle, hend⟩ := hr
  rw [List.nil_append] at hbs
  subst hbs
  rw [List.length_nil] at h1
  have hall : (∀ g ∈ List.range s.groupCount, ∀ l, l < (geo s).blocksPerGroup →
      (view t).used ((geo s).blkAt g l) = true) → ∀ x, (view t).used x = true := by
    intro h x
    by_contra hx
    have hc := covered_of_free (Bool.eq_false_iff.mpr hx)
    rw [h1.same.geo] at hc
    have := h _ (List.mem_range.mpr (covered_group hc)) _ (blkPlace_lt hs.geo x)
    rw [blkAt_group_place hc] at this
    exact hx this
  by_cases hn : r.length = blockCount s.blockSize data.length
  · rw [if_neg (by simpa using hn)]
    refine Prog.Runs.bind (writeSuperBlock_spec h1.shape) fun _ u hu => ?_
    have h2 := h1.trans hu
    rw [h1.holds] at h2
    exact Prog.Runs.pure ⟨hnd, fun b hb => (hfree b hb).1, h2, hle, .inl hn⟩
  · rw [if_pos (by simpa using hn)]
    exact ⟨r, t, exhausted_run h1.shape r, hnd, fun b hb => (hfree b hb).1, h1, hle,
      .inr (hall (hend.resolve_left hn))⟩

end LsvmTools.Ext2.Alloc
