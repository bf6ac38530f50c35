import LsvmTools.Ext2.Update

/-! # The content of a file

Loading a file delivers the content of its data blocks, in order; after
`_WriteData` and `_UpdateInodeBlockPointers` these begin with the data written. -/
namespace LsvmTools.Ext2.Files
open Lib.ByteString Lib.Program BlockDevice Strings Volume Blocks Dir Write Layout Content Access
open Alloc Pointers Update

variable {s t u : EXT2}

/-! ## Runs of blocks -/

theorem runs_spec (bs : List Nat) (h : ∀ b ∈ bs, b + 1 < 2 ^ 32) :
    ((runs bs).flatMap fun r => List.range' r.1 r.2) = bs ∧ ∀ r ∈ runs bs, 0 < r.2 := by
  induction bs with
  | nil => exact ⟨rfl, by simp [runs]⟩
  | cons b bs ih =>
    obtain ⟨h1, h2⟩ := ih fun x hx => h x (by simp [hx])
    have hb : u32 (b + 1) = b + 1 := u32_of_lt (h b (by simp))
    unfold runs
    cases hr : runs bs with
    | nil =>
      rw [hr] at h1
      simp only [List.flatMap_nil] at h1
      simp [← h1]
    | cons r rs =>
      obtain ⟨next, n⟩ := r
      rw [hr] at h1 h2
      simp only [List.flatMap_cons] at h1
      simp only [hb]
      split
      · rename_i hn
        subst hn
        refine ⟨?_, ?_⟩
        · rw [List.flatMap_cons, List.range'_succ, List.cons_append, h1]
        · intro r hr'
          rcases List.mem_cons.mp hr' with rfl | hr'
          · exact Nat.succ_pos _
          · exact h2 r (by simp [hr'])
      · refine ⟨?_, ?_⟩
        · simp [h1]
        · intro r hr'
          rcases List.mem_cons.mp hr' with rfl | hr'
          · exact Nat.one_pos
          · exact h2 r hr'

/-- The buffer after the loading loop. -/
def loadBuf (blk : Nat → Bytes) : Buf → List (Nat × Nat) → Buf
  | buf, [] => buf
  | buf, (b, n) :: rest => loadBuf blk (buf.append ((List.range' b n).flatMap blk)) rest

/-- What loading a file delivers, as a function of the content of the blocks. -/
def fileData (blk : Nat → Bytes) (uninit : Nat → UInt8) (n : Inode) : FileData :=
  ⟨(loadBuf blk Buf.empty (runs (blocksOf blk n false))).memory uninit, n.iSize⟩

theorem append_bytes (buf : Buf) (d : Bytes) : (buf.append d).bytes = buf.bytes ++ d := by
  unfold Buf.append
  split
  · rename_i h; rw [List.isEmpty_iff.mp h, List.append_nil]
  · rfl

theorem loadBuf_bytes (blk : Nat → Bytes) (buf : Buf) (rs : List (Nat × Nat)) :
    (loadBuf blk buf rs).bytes =
      buf.bytes ++ (rs.flatMap fun r => List.range' r.1 r.2).flatMap blk := by
  induction rs generalizing buf with
  | nil => simp [loadBuf]
  | cons r rs ih => simp [loadBuf, ih, append_bytes]

/-- The memory begins with the content of the blocks. -/
theorem fileData_mem (blk : Nat → Bytes) (uninit : Nat → UInt8) (n : Inode)
    (h : ∀ b ∈ blocksOf blk n false, b + 1 < 2 ^ 32) :
    ∃ slack, (fileData blk uninit n).mem = (blocksOf blk n false).flatMap blk ++ slack := by
  unfold fileData Buf.memory
  simp only []
  rw [loadBuf_bytes, (runs_spec _ h).1]
  exact ⟨_, rfl⟩

theorem loadBuf_congr {blk blk' : Nat → Bytes} (buf : Buf) {rs : List (Nat × Nat)}
    (h : ∀ b ∈ rs.flatMap fun r => List.range' r.1 r.2, blk' b = blk b) :
    loadBuf blk' buf rs = loadBuf blk buf rs := by
  induction rs generalizing buf with
  | nil => rfl
  | cons r rs ih =>
    simp only [List.flatMap_cons, List.mem_append] at h
    simp only [loadBuf]
    rw [List.flatMap_congr fun b hb => h b (.inl hb), ih _ fun b hb => h b (.inr hb)]

/-- Only the owned blocks matter. -/
theorem fileData_congr {blk blk' : Nat → Bytes} (uninit : Nat → UInt8) {n : Inode}
    (hb : ∀ b ∈ blocksOf blk n false, b + 1 < 2 ^ 32)
    (h : ∀ b ∈ blocksOf blk n true, blk' b = blk b) :
    fileData blk' uninit n = fileData blk uninit n := by
  unfold fileData
  rw [blocksOf_congr false h, loadBuf_congr]
  intro b hm
  rw [(runs_spec _ hb).1] at hm
  exact h b (blocksOf_subset _ _ hm)

/-! ## Loading -/

theorem readMem_blocks (m : Nat → UInt8) (B b n : Nat) :
    readMem m (b * B) (n * B) = (List.range' b n).flatMap fun x => readMem m (x * B) B := by
  induction n generalizing b with
  | zero => simp
  | succ n ih =>
    rw [Nat.add_one_mul, Nat.add_comm (n * B), readMem_append, List.range'_succ, List.flatMap_cons,
      ← ih, Nat.add_one_mul]

theorem readBlocks_data (hs : Shape s) {b n : Nat} (hn : 0 < n)
    (h : ∀ x ∈ List.range' b n, (geo s).IsData x) :
    readBlocks s b n = .ok ((List.range' b n).flatMap (view s).block) := by
  have hb := h b (by rw [List.mem_range'_1]; omega)
  have hlast := h (b + (n - 1)) (by rw [List.mem_range'_1]; omega)
  have h1 := mul_lt_of_block hlast.lt
  have h2 := hs.geo.volume_le
  have h3 := Nat.mul_le_mul_right (geo s).blockSize hb.pos
  have h4 : (b + (n - 1)) * (geo s).blockSize + (geo s).blockSize =
      b * (geo s).blockSize + n * (geo s).blockSize := by
    rw [← Nat.add_one_mul, ← Nat.add_mul]
    congr 1; omega
  have h5 := hs.geo.blockSize_ge
  have h6 := Nat.mul_le_mul_right (geo s).blockSize hn
  have hu : u32 (n * s.blockSize) = n * (geo s).blockSize :=
    u32_of_lt (by change n * (geo s).blockSize < _; omega)
  unfold readBlocks
  rw [blockOffset_eq (by change b * (geo s).blockSize < _; omega), hu,
    device_read hs (by omega) (by omega), readMem_blocks]
  simp only [Out.ofOption, Out.ok.injEq]
  exact List.flatMap_congr fun x hx => (view_block (h x hx)).symm

theorem loadRuns_eq (hs : Shape s) {rs : List (Nat × Nat)}
    (h : ∀ b ∈ rs.flatMap fun r => List.range' r.1 r.2, (geo s).IsData b)
    (hp : ∀ r ∈ rs, 0 < r.2) (buf : Buf) :
    loadRuns s buf rs = .ok (some (loadBuf (view s).block buf rs)) := by
  induction rs generalizing buf with
  | nil => rfl
  | cons r rs ih =>
    obtain ⟨b, n⟩ := r
    simp only [List.flatMap_cons, List.mem_append] at h
    have ihr := ih (fun x hx => h x (.inr hx)) fun r hr => hp r (by simp [hr])
    unfold loadRuns loadBuf
    by_cases hn : n = 1
    · subst hn
      rw [if_pos rfl, readBlock_data hs (h b (.inl (by simp))), Out.ok_bind, ihr]
      simp
    · rw [if_neg hn, readBlocks_data hs (hp (b, n) (by simp)) fun x hx => h x (.inl hx)]
      exact ihr _

theorem loadFile_eq (hs : Shape s) {n : Inode}
    (h : ∀ b ∈ blocksOf (view s).block n true, (geo s).IsData b) :
    loadFileFromInode s n = .ok (fileData (view s).block s.uninit n) := by
  have hb : ∀ b ∈ blocksOf (view s).block n false, (geo s).IsData b :=
    fun b hb => h b (blocksOf_subset _ _ hb)
  have hlt : ∀ b ∈ blocksOf (view s).block n false, b + 1 < 2 ^ 32 := by
    intro b hm
    have h1 := mul_lt_of_block (hb b hm).lt
    have h2 := hs.geo.volume_le
    have h3 := hs.geo.blockSize_ge
    have h4 := Nat.mul_le_mul_left (b + 1) h3
    rw [← Nat.add_one_mul] at h1
    omega
  unfold loadFileFromInode
  rw [loadBlockNumbers_eq hs false h, Out.ok_bind,
    loadRuns_eq hs (by rw [(runs_spec _ hlt).1]; exact hb) (runs_spec _ hlt).2]
  rfl

/-! ## Written data -/

/-- With the right number of blocks, the blocks written begin with the data. -/
theorem flatMap_dataBlocks {B : Nat} (hB : 0 < B) {data : Bytes} {nblks : Nat}
    (hn : nblks = (data.length + B - 1) / B) {c : Nat → Bytes} {bs : List Nat} {i : Nat}
    (hi : i + bs.length = nblks)
    (hc : ∀ k (hk : k < bs.length), ∃ old : Bytes, old.length = B ∧
      c bs[k] = splice old 0 (dataBlock B data nblks (i + k))) :
    ∃ tail, bs.flatMap c = data.drop (i * B) ++ tail := by
  have hdm := Nat.div_add_mod (data.length + B - 1) B
  have hml := Nat.mod_lt (data.length + B - 1) hB
  rw [← hn] at hdm
  induction bs generalizing i with
  | nil =>
    refine ⟨[], ?_⟩
    have hi' : i = nblks := by simpa using hi
    rw [List.flatMap_nil, List.append_nil, List.drop_eq_nil_of_le]
    rw [hi', Nat.mul_comm]
    omega
  | cons b bs ih =>
    obtain ⟨old, hold, hcb⟩ := hc 0 (by simp)
    rw [List.getElem_cons_zero, Nat.add_zero] at hcb
    by_cases hbs : bs = []
    · subst hbs
      have hi' : i + 1 = nblks := by simpa using hi
      have hrest : (data.drop (i * B)).length ≤ B := by
        rw [List.length_drop]
        have : B * nblks = i * B + B := by rw [← hi', Nat.mul_comm, Nat.add_one_mul]
        omega
      have hblock : dataBlock B data nblks i = data.drop (i * B) := by
        unfold dataBlock
        simp only []
        apply List.take_of_length_le
        split
        · rename_i hr
          have h1 := Nat.div_add_mod data.length B
          have h2 := Nat.mod_lt data.length hB
          rw [List.length_drop]
          have h3 : data.length / B ≤ i := by
            have h4 : data.length < (i + 1) * B ∨ (i + 1) * B ≤ data.length := Nat.lt_or_ge _ _
            rcases h4 with h4 | h4
            · exact Nat.le_of_lt_succ ((Nat.div_lt_iff_lt_mul hB).mpr h4)
            · exfalso
              rw [hi', Nat.mul_comm] at h4
              have h5 : data.length = B * nblks := by omega
              rw [h5, Nat.mul_mod_right] at hr
              exact hr.2 rfl
          have h6 := Nat.mul_le_mul_left B h3
          rw [Nat.mul_comm i B]
          omega
        · exact hrest
      refine ⟨old.drop (data.drop (i * B)).length, ?_⟩
      simp only [List.flatMap_cons, List.flatMap_nil, List.append_nil]
      rw [hcb, hblock, splice, List.take_zero, List.nil_append, Nat.zero_add]
    · have hpos : 0 < bs.length := List.length_pos_iff.mpr hbs
      have hlt : i + 1 < nblks := by rw [List.length_cons] at hi; omega
      have hlen : (i + 1) * B ≤ data.length := by
        have h1 := Nat.mul_le_mul_right B (show i + 2 ≤ nblks by omega)
        rw [Nat.mul_comm nblks B] at h1
        have h2 : (i + 2) * B = (i + 1) * B + B := by rw [← Nat.add_one_mul]
        omega
      have hblock : dataBlock B data nblks i = (data.drop (i * B)).take B := by
        unfold dataBlock
        simp only []
        rw [if_neg (by omega)]
      have hbl : ((data.drop (i * B)).take B).length = old.length := by
        rw [List.length_take, List.length_drop, hold]
        rw [Nat.add_one_mul] at hlen
        omega
      obtain ⟨tail, ht⟩ := ih (i := i + 1) (by rw [List.length_cons] at hi; omega)
        fun k hk => by
          obtain ⟨old, h1, h2⟩ := hc (k + 1) (by simpa using hk)
          refine ⟨old, h1, ?_⟩
          rw [List.getElem_cons_succ] at h2
          rw [h2]
          congr 2; omega
      refine ⟨tail, ?_⟩
      rw [List.flatMap_cons, hcb, hblock, splice_all hbl, ht, ← List.append_assoc, Nat.add_one_mul,
        ← List.drop_drop, List.take_append_drop]

end LsvmTools.Ext2.Files
