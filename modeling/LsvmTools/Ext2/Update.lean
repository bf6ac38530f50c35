import LsvmTools.Ext2.Pointers

/-! # Rewriting the data of an inode

What `_UpdateInodeBlockPointers` and `_UpdateInodeDataBlocks` do to the view of a
sound volume. -/
namespace LsvmTools.Ext2.Update
open Lib.ByteString Lib.Program BlockDevice Volume Blocks Write Layout Content Access Alloc Pointers

variable {s t u : EXT2}

/-! ## The writers -/

theorem square_le {q : Nat} (hq : q ≤ 2048) : u32 (q * q) = q * q :=
  u32_of_lt (Nat.lt_of_le_of_lt (Nat.mul_le_mul hq hq) (by decide))

/-- The pointer blocks for `bs` below a double and below a triple indirect slot. -/
def doubleNeed (q : Nat) (bs : List Nat) : Nat :=
  1 + ((pieces q bs.length bs).map fun _ => 1).sum

def tripleNeed (q : Nat) (bs : List Nat) : Nat :=
  1 + ((pieces (q * q) bs.length bs).map (doubleNeed q)).sum

theorem writeDouble_spec {B : Nat} (h1 : 1024 ≤ B) (h2 : B ≤ 8192) :
    WriterSpec B 1 (B / 4 * (B / 4)) (doubleNeed (B / 4)) writeDoubleIndirect := by
  intro s hs hB bs hne hlen hst
  have hemp : bs.isEmpty = false := by
    cases bs with
    | nil => exact absurd rfl hne
    | cons => rfl
  unfold writeDoubleIndirect
  refine Prog.Runs.get ?_
  rw [hemp, if_neg (by decide), hB, square_le (by omega), if_neg (by omega)]
  exact writeIndirect_spec (writeSingle_spec B) (by omega) (Nat.le_refl _) s hs hB bs hne hlen hst

theorem writeTriple_spec {B : Nat} (h1 : 1024 ≤ B) (h2 : B ≤ 8192) :
    WriterSpec B 2 (B / 4 * (B / 4 * (B / 4))) (tripleNeed (B / 4)) writeTripleIndirect := by
  intro s hs hB bs hne hlen hst
  have hemp : bs.isEmpty = false := by
    cases bs with
    | nil => exact absurd rfl hne
    | cons => rfl
  have hq : 0 < B / 4 := by omega
  unfold writeTripleIndirect
  refine Prog.Runs.get ?_
  rw [hemp, if_neg (by decide), hB, square_le (by omega)]
  exact writeIndirect_spec (writeDouble_spec h1 h2) (Nat.mul_pos hq hq) (Nat.le_refl _) s hs hB bs
    hne hlen hst

/-! ## One indirect slot -/

/-- The pointer blocks for `bs` when nothing is written for an empty list. -/
def needOpt (need : List Nat → Nat) (bs : List Nat) : Nat := if bs.isEmpty then 0 else need bs

/-- The slot of `n` says that its inode owns `bs` and, on the way to them, `ext`. -/
def SlotStored (blk : Nat → Bytes) (k slot : Nat) (n : Inode) (bs ext : List Nat) : Prop :=
  ∀ blk', (∀ e ∈ ext, blk' e = blk e) → slotBlocks blk' false k (n.iBlock slot) = bs ∧
    (slotBlocks blk' true k (n.iBlock slot)).Perm (ext ++ bs)

theorem updateSlot_spec {B k cap slot : Nat} {need : List Nat → Nat}
    {write : List Nat → Prog EXT2 Err Nat} (hw : WriterSpec B k cap need write) (hslot : slot < 15)
    (hs : Shape s) (hB : s.blockSize = B) {bs : List Nat} (hlen : bs.length ≤ cap)
    (hst : Storable bs) (n : Inode) :
    Prog.Runs (updateSlot slot write bs n) s fun n' t => ∃ ext, Grows s t ext ∧
      n'.iMode = n.iMode ∧ n'.iSize = n.iSize ∧ (∀ j, j ≠ slot → n'.iBlock j = n.iBlock j) ∧
      ((ext.length = needOpt need bs ∧ ((bs = [] → n.iBlock slot = 0) →
          SlotStored (view t).block k slot n' bs ext)) ∨
        (ext.length < needOpt need bs ∧ Full t)) := by
  unfold updateSlot
  cases bs with
  | nil =>
    refine Prog.Runs.pure ⟨[], .refl hs, rfl, rfl, fun _ _ => rfl, .inl ⟨rfl, fun h0 blk' _ => ?_⟩⟩
    rw [h0 rfl]
    simp [slotBlocks]
  | cons x xs =>
    rw [List.isEmpty_cons, if_neg (by decide)]
    refine Prog.Runs.bind (hw s hs hB (x :: xs) (by simp) hlen hst) ?_
    rintro b t ⟨ext, hg, hres⟩
    refine Prog.Runs.pure ⟨ext, hg, by simp, by simp, fun j hj => ?_, ?_⟩
    · exact Inode.setBlocks_iBlock_of_not (by simp; omega)
    · refine hres.imp ?_ id
      rintro ⟨hl, hstores⟩
      refine ⟨hl, fun _ blk' hblk => ?_⟩
      have hb := hg.storable hs b hstores.mem
      have hslotb : (n.setBlocks slot [b]).iBlock slot = b :=
        Inode.setBlocks_iBlock (k := 0) (by simp; omega) (by simp) (by simpa using hb.2)
      rw [hslotb]
      unfold slotBlocks
      rw [if_neg (Nat.pos_iff_ne_zero.mp hb.1), if_neg (Nat.pos_iff_ne_zero.mp hb.1)]
      exact ⟨by simpa using hstores.leaves blk' hblk, by simpa using hstores.all blk' hblk⟩

/-! ## The pointers of an inode -/

/-- The pointer blocks of a file with the data blocks `bs`. -/
def indirectNeed (q : Nat) (bs : List Nat) : Nat :=
  needOpt (fun _ => 1) ((bs.drop 12).take q) +
    needOpt (doubleNeed q) (((bs.drop 12).drop q).take (q * q)) +
    needOpt (tripleNeed q) (((bs.drop 12).drop q).drop (q * q))

/-- No indirect slot keeps an old block number when `len` new numbers are stored. -/
def StaleFree (q : Nat) (n : Inode) (len : Nat) : Prop :=
  (len ≤ 12 → n.iBlock 12 = 0) ∧ (len ≤ 12 + q → n.iBlock 13 = 0) ∧
    (len ≤ 12 + q + q * q → n.iBlock 14 = 0)

/-- The old block numbers that stay in direct slots. -/
def staleDirect (n : Inode) (len : Nat) : List Nat :=
  if len < 12 then directBlockNumbers (n.iBlocks len (12 - len)) else []

/-- The inode owns `bs`, the stale blocks of `old` and the pointer blocks `ext`. -/
structure Points (blk : Nat → Bytes) (n : Inode) (bs stale ext : List Nat) : Prop where
  leaves : ∀ blk', (∀ e ∈ ext, blk' e = blk e) → blocksOf blk' n false = bs ++ stale
  all : ∀ blk', (∀ e ∈ ext, blk' e = blk e) → (blocksOf blk' n true).Perm (ext ++ (bs ++ stale))

theorem directBlockNumbers_append {a b : List Nat} (h : ∀ x ∈ a, x ≠ 0) :
    directBlockNumbers (a ++ b) = a ++ directBlockNumbers b := by
  unfold directBlockNumbers
  exact List.takeWhile_append_of_pos fun x hx => by simpa using h x hx

theorem direct_of_setBlocks {n n' : Inode} {bs : List Nat} (hst : Storable bs)
    (hn : ∀ j, j < 12 → n'.iBlock j = (n.setBlocks 0 (bs.take 12)).iBlock j) :
    directBlockNumbers (n'.iBlocks 0 12) = bs.take 12 ++ staleDirect n bs.length := by
  have hl : (bs.take 12).length = min 12 bs.length := List.length_take
  have hlt : ∀ w ∈ bs.take 12, w < 2 ^ 32 := fun w hw => (hst w (List.mem_of_mem_take hw)).2
  have h1 : n'.iBlocks 0 12 = (n.setBlocks 0 (bs.take 12)).iBlocks 0 12 :=
    Inode.iBlocks_congr fun j _ hj => hn j (by omega)
  have h2 := Inode.iBlocks_append (n := n.setBlocks 0 (bs.take 12)) 0 (bs.take 12).length
    (12 - (bs.take 12).length)
  rw [show (bs.take 12).length + (12 - (bs.take 12).length) = 12 by omega] at h2
  rw [h1, h2, Inode.setBlocks_iBlocks (by omega) hlt, Nat.zero_add,
    directBlockNumbers_append fun x hx =>
      Nat.pos_iff_ne_zero.mp (hst x (List.mem_of_mem_take hx)).1]
  congr 1
  rw [Inode.iBlocks_congr (m := n) fun j hj _ => Inode.setBlocks_iBlock_of_not (by omega), hl]
  unfold staleDirect
  split
  · rw [Nat.min_eq_right (by omega)]
  · rw [Nat.min_eq_left (by omega)]; rfl

theorem SlotStored.transfer {blk blk2 : Nat → Bytes} {k slot : Nat} {n n2 : Inode}
    {bs ext : List Nat} (h : SlotStored blk k slot n bs ext) (hblk : ∀ e ∈ ext, blk2 e = blk e)
    (hn : n2.iBlock slot = n.iBlock slot) : SlotStored blk2 k slot n2 bs ext := by
  intro blk' h'
  rw [hn]
  exact h blk' fun e he => (h' e he).trans (hblk e he)

/-- What the direct slots and the three indirect ones store, put together. A list that is cut off
before slot 12 leaves nothing for the later slots. -/
theorem points_of_slots {blk : Nat → Bytes} {n n' : Inode} {q : Nat}
    {bs ext1 ext2 ext3 : List Nat}
    (hdir : directBlockNumbers (n'.iBlocks 0 12) = bs.take 12 ++ staleDirect n bs.length)
    (h1 : SlotStored blk 0 12 n' ((bs.drop 12).take q) ext1)
    (h2 : SlotStored blk 1 13 n' (((bs.drop 12).drop q).take (q * q)) ext2)
    (h3 : SlotStored blk 2 14 n' (((bs.drop 12).drop q).drop (q * q)) ext3) :
    Points blk n' bs (staleDirect n bs.length) (ext1 ++ ext2 ++ ext3) := by
  have hagree : ∀ blk' : Nat → Bytes, (∀ e ∈ ext1 ++ ext2 ++ ext3, blk' e = blk e) →
      (∀ e ∈ ext1, blk' e = blk e) ∧ (∀ e ∈ ext2, blk' e = blk e) ∧
        (∀ e ∈ ext3, blk' e = blk e) := fun blk' h =>
    ⟨fun e he => h e (by simp [he]), fun e he => h e (by simp [he]), fun e he => h e (by simp [he])⟩
  have hcut : bs.take 12 ++ staleDirect n bs.length ++ (bs.drop 12).take q ++
      ((bs.drop 12).drop q).take (q * q) ++ ((bs.drop 12).drop q).drop (q * q) =
        bs ++ staleDirect n bs.length := by
    have hparts : (bs.drop 12).take q ++ (((bs.drop 12).drop q).take (q * q) ++
        ((bs.drop 12).drop q).drop (q * q)) = bs.drop 12 := by
      rw [List.take_append_drop, List.take_append_drop]
    rw [List.append_assoc, List.append_assoc, hparts]
    by_cases hb : bs.length < 12
    · rw [List.drop_eq_nil_of_le (by omega), List.append_nil, List.take_of_length_le (by omega)]
    · have : staleDirect n bs.length = [] := if_neg hb
      rw [this, List.append_nil, List.append_nil, List.take_append_drop]
  constructor
  · intro blk' hblk
    obtain ⟨ha1, ha2, ha3⟩ := hagree blk' hblk
    unfold blocksOf
    rw [hdir, (h1 blk' ha1).1, (h2 blk' ha2).1, (h3 blk' ha3).1]
    exact hcut
  · intro blk' hblk
    obtain ⟨ha1, ha2, ha3⟩ := hagree blk' hblk
    unfold blocksOf
    rw [hdir, ← hcut]
    have hp := (((List.Perm.refl (bs.take 12 ++ staleDirect n bs.length)).append
      (h1 blk' ha1).2).append (h2 blk' ha2).2).append (h3 blk' ha3).2
    refine hp.trans ?_
    simp only [List.append_assoc]
    rw [List.perm_iff_count]
    intro a
    simp only [List.count_append]
    omega

theorem updateInodeBlockPointers_spec (hs : Shape s) {ino : Nat} (hino : (geo s).InoValid ino)
    {bs : List Nat} (hst : Storable bs)
    (hlen : bs.length ≤ 12 + s.blockSize / 4 + s.blockSize / 4 * (s.blockSize / 4) +
      s.blockSize / 4 * (s.blockSize / 4 * (s.blockSize / 4))) (n : Inode) (size : Nat) :
    Prog.Runs (updateInodeBlockPointers ino n size bs) s fun _ t => ∃ mid ext n',
      Grows s mid ext ∧ Becomes mid t ((view mid).setInode ino (trim s n')) ∧
      n'.iMode = n.iMode ∧ n'.iSize = u32 size ∧
      ((ext.length = indirectNeed (s.blockSize / 4) bs ∧
          (StaleFree (s.blockSize / 4) n bs.length →
            Points (view mid).block n' bs (staleDirect n bs.length) ext)) ∨
        (ext.length < indirectNeed (s.blockSize / 4) bs ∧ Full mid)) := by
  obtain ⟨hb1, hb2, -⟩ := blockSize_bounds hs
  have hsq := square_le (q := s.blockSize / 4) (by omega)
  generalize hq : s.blockSize / 4 = q at hlen hsq ⊢
  have hsub : ∀ l : List Nat, l ⊆ bs → Storable l := fun l hl x hx => hst x (hl hx)
  have hs12 : (bs.drop 12).take q ⊆ bs :=
    List.Subset.trans (List.take_subset _ _) (List.drop_subset _ _)
  have hs13 : ((bs.drop 12).drop q).take (q * q) ⊆ bs :=
    List.Subset.trans (List.take_subset _ _)
      (List.Subset.trans (List.drop_subset _ _) (List.drop_subset _ _))
  have hs14 : ((bs.drop 12).drop q).drop (q * q) ⊆ bs :=
    List.Subset.trans (List.drop_subset _ _)
      (List.Subset.trans (List.drop_subset _ _) (List.drop_subset _ _))
  unfold updateInodeBlockPointers
  refine Prog.Runs.get ?_
  simp only [hq, hsq]
  have hB : s.blockSize = s.blockSize := rfl
  have hlen1 : ((bs.drop 12).take q).length ≤ s.blockSize / 4 := by
    rw [hq]; exact List.length_take_le _ _
  refine Prog.Runs.bind (updateSlot_spec (writeSingle_spec s.blockSize) (by decide) hs rfl
    hlen1 (hsub _ hs12) _)
    fun n1 t1 ⟨ext1, hg1, hm1, hz1, hk1, hr1⟩ => ?_
  have hB1 : t1.blockSize = s.blockSize := congrArg Geo.blockSize hg1.same.geo
  have hlen2 : (((bs.drop 12).drop q).take (q * q)).length ≤
      s.blockSize / 4 * (s.blockSize / 4) := by
    rw [hq]; exact List.length_take_le _ _
  refine Prog.Runs.bind (updateSlot_spec (writeDouble_spec hb1 hb2) (by decide) hg1.shape hB1
    hlen2 (hsub _ hs13) _) fun n2 t2 ⟨ext2, hg2, hm2, hz2, hk2, hr2⟩ => ?_
  have hB2 : t2.blockSize = s.blockSize := (congrArg Geo.blockSize hg2.same.geo).trans hB1
  have hlen3 : (((bs.drop 12).drop q).drop (q * q)).length ≤
      s.blockSize / 4 * (s.blockSize / 4 * (s.blockSize / 4)) := by
    simp only [List.length_drop, hq]; omega
  refine Prog.Runs.bind (updateSlot_spec (writeTriple_spec hb1 hb2) (by decide) hg2.shape hB2
    hlen3 (hsub _ hs14) _) fun n3 t3 ⟨ext3, hg3, hm3, hz3, hk3, hr3⟩ => ?_
  rw [hq] at hr2 hr3
  have hg12 := hg1.trans hg2
  have hg13 := hg12.trans hg3
  have hino3 : (geo t3).InoValid ino := by rw [hg13.same.geo]; exact hino
  have hsz : t3.sb.sInodeSize = s.sb.sInodeSize := congrArg Geo.inodeSize hg13.same.geo
  have htrim : trim t3 n3 = trim s n3 := by
    unfold trim
    rw [hg13.same.uninit, hsz]
  have hput := view_put_inode hg13.shape.geo hino3 n3
  refine ⟨(), _, writeInode_run hg13.shape hino3 n3, t3, ext1 ++ ext2 ++ ext3, n3, hg13,
    ⟨same_put _ _ _, hg13.shape.of_same (same_put _ _ _) fun b hb =>
      .inl (by rw [hput] at hb; exact hb), by rw [hput, htrim]⟩, by simp [hm3, hm2, hm1],
    by simp [hz3, hz2, hz1], ?_⟩
  simp only [List.length_append, indirectNeed]
  rcases hr1 with ⟨hl1, hp1⟩ | ⟨hl1, hf1⟩
  · rcases hr2 with ⟨hl2, hp2⟩ | ⟨hl2, hf2⟩
    · rcases hr3 with ⟨hl3, hp3⟩ | ⟨hl3, hf3⟩
      · refine .inl ⟨by omega, fun ⟨h12, h13, h14⟩ => ?_⟩
        have hold : ∀ j, 12 ≤ j → ((n.setSize size).setBlocks 0 (bs.take 12)).iBlock j =
            n.iBlock j := by
          intro j hj
          rw [Inode.setBlocks_iBlock_of_not (by rw [List.length_take]; omega)]
          simp
        have hst1 := hp1 fun he => by
          rw [hold 12 (by omega)]
          apply h12
          have := congrArg List.length he
          simp only [List.length_take, List.length_drop, List.length_nil] at this
          omega
        have hst2 := hp2 fun he => by
          rw [hk1 13 (by decide), hold 13 (by omega)]
          apply h13
          have := congrArg List.length he
          simp only [List.length_take, List.length_drop, List.length_nil] at this
          have hqq : 0 < q * q := Nat.mul_pos (by omega) (by omega)
          omega
        have hst3 := hp3 fun he => by
          rw [hk2 14 (by decide), hk1 14 (by decide), hold 14 (by omega)]
          apply h14
          have := congrArg List.length he
          simp only [List.length_drop, List.length_nil] at this
          omega
        have hdir : directBlockNumbers (n3.iBlocks 0 12) =
            bs.take 12 ++ staleDirect (n.setSize size) bs.length := by
          refine direct_of_setBlocks hst fun j hj => ?_
          rw [hk3 j (by omega), hk2 j (by omega), hk1 j (by omega)]
        have hstale : staleDirect (n.setSize size) bs.length = staleDirect n bs.length := by
          unfold staleDirect
          rw [Inode.iBlocks_congr (m := n) fun j _ _ => by simp]
        have e12 : n3.iBlock 12 = n1.iBlock 12 := by rw [hk3 12 (by decide), hk2 12 (by decide)]
        have e13 : n3.iBlock 13 = n2.iBlock 13 := hk3 13 (by decide)
        have hs1 := hst1.transfer
          (fun e he => (hg2.trans hg3).block_of_used (hg1.used_of_mem he)) e12
        have hs2 := hst2.transfer (fun e he => hg3.block_of_used (hg2.used_of_mem he)) e13
        rw [hstale] at hdir
        exact points_of_slots hdir hs1 hs2 hst3
      · exact .inr ⟨by omega, hf3⟩
    · have := hg3.of_full hf2
      subst this
      exact .inr ⟨by rw [List.length_nil]; omega, hg3.full hf2⟩
  · have := hg2.of_full hf1
    subst this
    have hf2 := hg2.full hf1
    have := hg3.of_full hf2
    subst this
    exact .inr ⟨by rw [List.length_nil]; omega, hg3.full hf2⟩

end LsvmTools.Ext2.Update
