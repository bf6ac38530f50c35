import LsvmTools.Ext2.Device

/-! # Which ranges are accessed exactly

The three parts of a range go to the sectors whose numbers are what is left of the true ones
in 32 bits. So `_Write` writes a range, and nothing but it, where every part that is not
empty starts below sector 2^32. -/
namespace LsvmTools.Ext2.DeviceExact
open Lib.ByteString Lib.Program BlockDevice Device

/-! ## The three parts -/

/-- The bytes before the first sector boundary. -/
def headLen (offset size : Nat) : Nat :=
  if offset % 512 = 0 then 0 else min (512 - offset % 512) size

/-- The sector where the whole sectors start. -/
def bodySector (offset : Nat) : Nat := (offset + 511) / 512

/-- How many whole sectors there are. -/
def bodyCount (offset size : Nat) : Nat := (size - headLen offset size) / 512

/-- The bytes after the last whole sector. -/
def tailLen (offset size : Nat) : Nat := (size - headLen offset size) % 512

/-- No part that has bytes starts at a sector number that 32 bits cannot hold. -/
def Addressable (offset size : Nat) : Prop :=
  (headLen offset size ≠ 0 → offset / 512 < 2 ^ 32) ∧
    (bodyCount offset size ≠ 0 → bodySector offset < 2 ^ 32) ∧
    (tailLen offset size ≠ 0 → bodySector offset + bodyCount offset size < 2 ^ 32)

instance (offset size : Nat) : Decidable (Addressable offset size) :=
  inferInstanceAs (Decidable (_ ∧ _))

/-- An array of `N` sectors, all of which can be accessed. -/
structure Plain (dev : Blkdev) (N : Nat) : Prop where
  size : dev.nblks = N
  readable : ∀ i, dev.readable i = true
  writable : ∀ i, dev.writable i = true

theorem Plain.sound {dev : Blkdev} {N : Nat} (h : Plain dev N) : Sound dev N :=
  ⟨Nat.le_of_eq h.size.symm, fun i _ => h.readable i, fun i _ => h.writable i⟩

/-- Writing the range and reading it back delivers the data, and no other byte changes. -/
def Exact (N offset size : Nat) : Prop :=
  ∀ dev data, Plain dev N → data.length = size →
    ∃ dev', (write offset data).run dev = .ok () dev' ∧
      (Prog.read fun dev => Out.ofOption () (read dev offset size)).run dev' = .ok data dev' ∧
      ∀ a, ¬ (offset ≤ a ∧ a < offset + size) → dev'.data a = dev.data a

/-! ## Runs -/

theorem u32_add (a b : Nat) : u32 (u32 a + b) = u32 (a + b) := by unfold u32; omega

variable {dev : Blkdev} {N offset size : Nat}

theorem headLen_le (offset size : Nat) : headLen offset size ≤ size := by
  unfold headLen
  split
  · exact Nat.zero_le _
  · exact Nat.min_le_right _ _

/-- The parts make up the range. -/
theorem parts (offset size : Nat) :
    headLen offset size + bodyCount offset size * 512 + tailLen offset size = size := by
  have h := headLen_le offset size
  unfold bodyCount tailLen
  omega

/-- Where the whole sectors are, if there is anything after the head. -/
theorem bodySector_eq (h : headLen offset size < size) :
    bodySector offset * 512 = offset + headLen offset size := by
  unfold headLen at h ⊢
  unfold bodySector
  split at h
  · rename_i h0
    rw [if_pos h0]
    omega
  · rename_i h0
    rw [if_neg h0]
    omega

/-- The number of the first whole sector as `_Read` and `_Write` count it. -/
theorem bodySector_count (offset : Nat) :
    (if offset % 512 ≠ 0 then u32 (u32 (offset / 512) + 1) else u32 (offset / 512)) =
      u32 (bodySector offset) := by
  unfold bodySector
  by_cases h : offset % 512 = 0
  · rw [if_neg (not_not_intro h)]
    congr 1
    omega
  · rw [if_pos h, u32_add]
    congr 1
    omega

theorem body_inside (hfit : offset + size ≤ 512 * N) :
    bodySector offset + bodyCount offset size ≤ N := by
  have hp := parts offset size
  by_cases h : headLen offset size < size
  · have hb := bodySector_eq h
    omega
  · have hz : bodyCount offset size = 0 := by
      unfold bodyCount
      rw [Nat.sub_eq_zero_of_le (Nat.le_of_not_lt h)]
    have hb : bodySector offset * 512 ≤ 512 * N ∨ bodySector offset ≤ N := by
      unfold bodySector
      omega
    omega

theorem tail_inside (hfit : offset + size ≤ 512 * N) (ht : tailLen offset size ≠ 0) :
    bodySector offset + bodyCount offset size < N := by
  have hp := parts offset size
  have hb := bodySector_eq (show headLen offset size < size by omega)
  omega

/-- `_Write` once `n` bytes of the data have gone to an unaligned head. -/
def writeRest (offset : Nat) (data : Bytes) (n : Nat) : Prog Blkdev Unit Unit := do
  let blkno := if offset % 512 ≠ 0 then u32 (u32 (offset / 512) + 1) else u32 (offset / 512)
  let rest := data.drop n
  let nblocks := rest.length / 512
  put blkno nblocks (rest.take (nblocks * 512))
  let _ ← writePartialBlock (u32 (blkno + nblocks)) 0 (rest.drop (nblocks * 512))
  pure ()

theorem write_bind (offset : Nat) (data : Bytes) : write offset data =
    (if offset % 512 ≠ 0 then writePartialBlock (u32 (offset / 512)) offset data else pure 0) >>=
      fun n => writeRest offset data n := by
  by_cases h : offset % 512 ≠ 0
  · simp only [write, writeRest, if_pos h]
  · simp only [write, writeRest, if_neg h]

/-- What `_Write` does to a device that the range fits in. -/
theorem write_run {data : Bytes} (h : Sound dev N) (hfit : offset + data.length ≤ 512 * N) :
    (write offset data).run dev = .ok () (((dev.store (u32 (offset / 512) * 512 + offset % 512)
      (data.take (headLen offset data.length))).store (u32 (bodySector offset) * 512)
      ((data.drop (headLen offset data.length)).take (bodyCount offset data.length * 512))).store
      (u32 (bodySector offset + bodyCount offset data.length) * 512)
      (data.drop (headLen offset data.length + bodyCount offset data.length * 512))) := by
  have hp := parts offset data.length
  have hbody := body_inside hfit
  have hlen : (data.drop (headLen offset data.length)).length / 512 =
      bodyCount offset data.length := by rw [List.length_drop]; rfl
  have hhead : (if offset % 512 ≠ 0 then writePartialBlock (u32 (offset / 512)) offset data
      else pure 0).run dev = .ok (headLen offset data.length)
        (dev.store (u32 (offset / 512) * 512 + offset % 512)
          (data.take (headLen offset data.length))) := by
    unfold headLen
    by_cases h0 : offset % 512 = 0
    · rw [if_neg (not_not_intro h0), if_pos h0, List.take_zero, store_nil]
      rfl
    · have hlt : data.length ≠ 0 → u32 (offset / 512) < N := by
        intro hne
        have hle := u32_le (offset / 512)
        omega
      rw [if_pos h0, if_neg h0]
      exact writePartialBlock_eq h hlt
  have hb := u32_le (bodySector offset)
  have ht := u32_le (bodySector offset + bodyCount offset data.length)
  rw [write_bind, Prog.bind_ok hhead]
  unfold writeRest
  dsimp only
  rw [bodySector_count, hlen, u32_add]
  rw [Prog.bind_ok (put_eq (h.store _ _) (by omega) (by
      rw [List.length_take, List.length_drop]
      omega)), List.drop_drop]
  have hrest : (data.drop (headLen offset data.length + bodyCount offset data.length * 512)).length =
      tailLen offset data.length := by
    rw [List.length_drop]
    omega
  have htail : tailLen offset data.length < 512 := Nat.mod_lt _ (by decide)
  rw [Prog.bind_ok (writePartialBlock_zero ((h.store _ _).store _ _) (fun hne => by
      rw [hrest] at hne
      have hlt := tail_inside hfit hne
      omega) (by omega))]
  rfl

/-- `_Read` once the unaligned head has been read. -/
def readRest (dev : Blkdev) (offset size : Nat) (head : Bytes) : Option Bytes := do
  let blkno := if offset % 512 ≠ 0 then u32 (u32 (offset / 512) + 1) else u32 (offset / 512)
  let rem := u32 size - head.length
  let nblocks := rem / 512
  let body ← getN dev blkno nblocks
  let tail ← readPartialBlock dev (u32 (blkno + nblocks)) 0 (rem - nblocks * 512)
  some (head ++ body ++ tail)

theorem read_bind (dev : Blkdev) (offset size : Nat) : Device.read dev offset size =
    (if offset % 512 ≠ 0 then readPartialBlock dev (u32 (offset / 512)) offset (u32 size)
      else some []).bind fun head => readRest dev offset size head := by
  by_cases h : offset % 512 ≠ 0
  · simp only [Device.read, readRest, if_pos h]
    rfl
  · simp only [Device.read, readRest, if_neg h]
    rfl

/-- What `_Read` delivers from a device that the range fits in. -/
theorem read_run (h : Sound dev N) (hsize : size < 2 ^ 32) (hfit : offset + size ≤ 512 * N) :
    read dev offset size = some (readMem dev.data (u32 (offset / 512) * 512 + offset % 512)
        (headLen offset size) ++
      readMem dev.data (u32 (bodySector offset) * 512) (bodyCount offset size * 512) ++
      readMem dev.data (u32 (bodySector offset + bodyCount offset size) * 512)
        (tailLen offset size)) := by
  have hp := parts offset size
  have hbody := body_inside hfit
  have hhead : (if offset % 512 ≠ 0 then readPartialBlock dev (u32 (offset / 512)) offset size
      else some []) = some (readMem dev.data (u32 (offset / 512) * 512 + offset % 512)
        (headLen offset size)) := by
    unfold headLen
    by_cases h0 : offset % 512 = 0
    · rw [if_neg (not_not_intro h0), if_pos h0, readMem_zero]
    · have hlt : size ≠ 0 → u32 (offset / 512) < N := by
        intro hne
        have hle := u32_le (offset / 512)
        omega
      rw [if_pos h0, if_neg h0]
      exact readPartialBlock_eq h hlt
  have hb := u32_le (bodySector offset)
  have ht := u32_le (bodySector offset + bodyCount offset size)
  have htail : tailLen offset size < 512 := Nat.mod_lt _ (by decide)
  have hcount : (size - headLen offset size) / 512 = bodyCount offset size := rfl
  have hrem : size - headLen offset size - bodyCount offset size * 512 = tailLen offset size := by
    omega
  rw [read_bind, u32_of_lt hsize, hhead, Option.bind_some]
  unfold readRest
  dsimp only
  rw [bodySector_count, u32_of_lt hsize]
  simp only [Option.bind_eq_bind, length_readMem, hcount, hrem, u32_add]
  rw [getN_eq h (by omega), Option.bind_some, readPartialBlock_zero h (fun hne => by
    have hlt := tail_inside hfit hne
    omega) htail, Option.bind_some]

/-- Whole sectors are read as they are. -/
theorem read_sectors (dev : Blkdev) {i n : Nat} (hi : i < 2 ^ 32) (hn : n * 512 < 2 ^ 32) :
    Device.read dev (i * 512) (n * 512) = getN dev i n := by
  have hmod : ¬ i * 512 % 512 ≠ 0 := by
    rw [Nat.mul_mod_left]
    exact fun h => h rfl
  have hdiv : u32 (i * 512 / 512) = i := by
    rw [Nat.mul_div_cancel i (by decide), u32_of_lt hi]
  have hcount : u32 (n * 512) / 512 = n := by
    rw [u32_of_lt hn, Nat.mul_div_cancel n (by decide)]
  have hrest : u32 (n * 512) - n * 512 = 0 := by rw [u32_of_lt hn, Nat.sub_self]
  rw [read_bind, if_neg hmod, Option.bind_some]
  unfold readRest
  dsimp only
  rw [if_neg hmod, hdiv, List.length_nil, Nat.sub_zero, hcount, hrest]
  cases getN dev i n with
  | none => rfl
  | some b =>
    show some ([] ++ b ++ []) = some b
    rw [List.nil_append, List.append_nil]

/-! ## Calls that succeed

Whatever sectors of a device cannot be accessed: a call that succeeds does what it does on the
device without faults. -/

/-- The device with `k` more sectors and no fault. -/
def faultless (k : Nat) (dev : Blkdev) : Blkdev :=
  ⟨dev.nblks + k, dev.data, fun _ => true, fun _ => true⟩

section Faultless

variable {dev dev' : Blkdev} {k : Nat} {α β : Type}

theorem sound_faultless (k : Nat) (dev : Blkdev) : Sound (faultless k dev) (dev.nblks + k) :=
  ⟨Nat.le_refl _, fun _ _ => rfl, fun _ _ => rfl⟩

theorem getN_faultless {blkno n : Nat} {b : Bytes} (h : getN dev blkno n = some b) :
    getN (faultless k dev) blkno n = some b := by
  unfold getN at h ⊢
  split at h
  · rename_i hin
    rw [if_pos ⟨by show blkno + n ≤ dev.nblks + k; omega, by simp [faultless]⟩]
    exact h
  · cases h

theorem readPartialBlock_faultless {blkno offset size : Nat} {b : Bytes}
    (h : readPartialBlock dev blkno offset size = some b) :
    readPartialBlock (faultless k dev) blkno offset size = some b := by
  unfold readPartialBlock at h ⊢
  split
  · rename_i h0
    rwa [if_pos h0] at h
  · rename_i h0
    rw [if_neg h0] at h
    obtain ⟨blk, hblk, h⟩ := Option.bind_eq_some_iff.mp h
    exact Option.bind_eq_some_iff.mpr ⟨blk, getN_faultless hblk, h⟩

theorem read_faultless {offset size : Nat} {b : Bytes} (h : Device.read dev offset size = some b) :
    Device.read (faultless k dev) offset size = some b := by
  rw [read_bind] at h ⊢
  obtain ⟨head, hhead, h⟩ := Option.bind_eq_some_iff.mp h
  obtain ⟨body, hbody, h⟩ := Option.bind_eq_some_iff.mp h
  obtain ⟨tail, htail, h⟩ := Option.bind_eq_some_iff.mp h
  refine Option.bind_eq_some_iff.mpr ⟨head, ?_, Option.bind_eq_some_iff.mpr ⟨body,
    getN_faultless hbody, Option.bind_eq_some_iff.mpr ⟨tail, readPartialBlock_faultless htail, h⟩⟩⟩
  split
  · rename_i h0
    rw [if_pos h0] at hhead
    exact readPartialBlock_faultless hhead
  · rename_i h0
    rwa [if_neg h0] at hhead

/-- What `_Read` delivers is what is there. -/
theorem read_some {offset size : Nat} {b : Bytes} (h : Device.read dev offset size = some b)
    (ho : offset + size < 2 ^ 40) (hs : size < 2 ^ 32) : b = readMem dev.data offset size := by
  have h1 := read_faultless (k := 2 ^ 40) h
  rw [read_eq (sound_faultless _ dev) (by omega) (by omega) hs, Option.some.injEq] at h1
  exact h1.symm

/-- What `m` does when it succeeds, it does on the device without faults. -/
def Mirrored (k : Nat) (m : Prog Blkdev Unit α) : Prop :=
  ∀ dev a dev', m.run dev = .ok a dev' →
    m.run (faultless k dev) = .ok a (faultless k dev') ∧ dev' = { dev with data := dev'.data }

theorem Mirrored.pure (a : α) : Mirrored k (Pure.pure a : Prog Blkdev Unit α) := by
  intro dev b dev' h
  cases h
  exact ⟨rfl, rfl⟩

theorem Mirrored.bind {m : Prog Blkdev Unit α} {f : α → Prog Blkdev Unit β} (hm : Mirrored k m)
    (hf : ∀ a, Mirrored k (f a)) : Mirrored k (m >>= f) := by
  intro dev b dev' h
  obtain ⟨a, mid, h1, h2⟩ := Prog.bind_eq_ok.mp h
  obtain ⟨hm1, hd1⟩ := hm dev a mid h1
  obtain ⟨hm2, hd2⟩ := hf a mid b dev' h2
  refine ⟨by rw [Prog.bind_ok hm1, hm2], ?_⟩
  rw [hd2, hd1]

theorem get_mirrored (blkno : Nat) : Mirrored k (get blkno) := by
  intro dev b dev' h
  obtain ⟨hg, rfl⟩ := Prog.read_eq_ok.mp h
  refine ⟨Prog.read_ok ?_, rfl⟩
  cases hb : getN dev' blkno 1 with
  | none => rw [hb] at hg; cases hg
  | some x =>
    rw [hb] at hg
    rw [getN_faultless hb]
    exact hg

theorem put_mirrored (blkno n : Nat) (data : Bytes) : Mirrored k (put blkno n data) := by
  intro dev u dev' h
  simp only [Prog.run, put, putN] at h ⊢
  by_cases hin : blkno + n ≤ dev.nblks ∧ (List.range' blkno n).all dev.writable = true
  · rw [if_pos hin] at h
    obtain ⟨-, rfl⟩ := by simpa using h
    rw [if_pos ⟨by show blkno + n ≤ dev.nblks + k; omega, by simp [faultless]⟩]
    exact ⟨rfl, rfl⟩
  · rw [if_neg hin] at h
    cases h

theorem writePartialBlock_mirrored (blkno offset : Nat) (data : Bytes) :
    Mirrored k (writePartialBlock blkno offset data) := by
  unfold writePartialBlock
  split
  · exact .pure 0
  · exact .bind (get_mirrored blkno) fun blk => .bind (put_mirrored _ _ _) fun _ => .pure _

theorem write_mirrored (offset : Nat) (data : Bytes) : Mirrored k (write offset data) := by
  rw [write_bind]
  refine .bind ?_ fun n => ?_
  · split
    · exact writePartialBlock_mirrored _ _ _
    · exact .pure 0
  · unfold writeRest
    exact .bind (put_mirrored _ _ _) fun _ => .bind (writePartialBlock_mirrored _ _ _) fun _ =>
      .pure ()

/-- What `_Write` has written is what is there, and nothing else has changed. -/
theorem write_done {offset : Nat} {data : Bytes} {u : Unit}
    (h : (write offset data).run dev = .ok u dev') (ho : offset + data.length < 2 ^ 40) :
    dev' = dev.store offset data := by
  obtain ⟨h1, hd⟩ := write_mirrored (k := 2 ^ 40) offset data dev u dev' h
  rw [write_eq (sound_faultless _ dev) (by omega) (by omega)] at h1
  have h2 : dev'.data = writeMem dev.data offset data := by
    injection h1 with _ h1
    exact (congrArg Blkdev.data h1).symm
  rw [hd, h2]
  rfl

end Faultless

/-! ## What is read has the size asked for -/

theorem length_getN {blkno n : Nat} {b : Bytes} (h : getN dev blkno n = some b) :
    b.length = n * 512 := by
  unfold getN at h
  split at h
  · rw [← Option.some.inj h, length_readMem]
  · cases h

theorem length_readPartialBlock {blkno offset size : Nat} {b : Bytes}
    (h : readPartialBlock dev blkno offset size = some b) :
    b.length = min (512 - offset % 512) size := by
  unfold readPartialBlock at h
  split at h
  · rename_i h0
    rw [← Option.some.inj h, h0, Nat.min_zero]
    rfl
  · obtain ⟨blk, hblk, hb⟩ := Option.bind_eq_some_iff.mp h
    have hlen := length_getN hblk
    rw [← Option.some.inj hb, List.length_take, List.length_drop, hlen]
    omega

theorem length_read {b : Bytes} (hsize : size < 2 ^ 32) (h : Device.read dev offset size = some b) :
    b.length = size := by
  rw [read_bind, u32_of_lt hsize] at h
  obtain ⟨head, hhead, hrest⟩ := Option.bind_eq_some_iff.mp h
  have hle : head.length ≤ size := by
    split at hhead
    · rw [length_readPartialBlock hhead]
      exact Nat.min_le_right _ _
    · rw [← Option.some.inj hhead]
      exact Nat.zero_le _
  unfold readRest at hrest
  rw [u32_of_lt hsize] at hrest
  obtain ⟨body, hbody, hrest⟩ := Option.bind_eq_some_iff.mp hrest
  obtain ⟨tail, htail, hb⟩ := Option.bind_eq_some_iff.mp hrest
  have hbl := length_getN hbody
  have htl := length_readPartialBlock htail
  rw [← Option.some.inj hb, List.length_append, List.length_append, hbl, htl]
  omega

/-! ## Exactness -/

/-- Storing nothing may happen anywhere. -/
theorem store_at {a b : Nat} {d : Bytes} (dev : Blkdev) (h : d ≠ [] → a = b) :
    dev.store a d = dev.store b d := by
  cases d with
  | nil => rw [store_nil, store_nil]
  | cons x d => rw [h (List.cons_ne_nil _ _)]

theorem readMem_at {a b n : Nat} (m : Nat → UInt8) (h : n ≠ 0 → a = b) :
    readMem m a n = readMem m b n := by
  cases n with
  | zero => rfl
  | succ n => rw [h (Nat.succ_ne_zero n)]

theorem headLen_pos (h : headLen offset size ≠ 0) : offset % 512 ≠ 0 := by
  intro h0
  exact h (if_pos h0)

/-- The true places of the three parts. -/
theorem places (hadd : Addressable offset size) :
    (headLen offset size ≠ 0 → u32 (offset / 512) * 512 + offset % 512 = offset) ∧
      (bodyCount offset size ≠ 0 →
        u32 (bodySector offset) * 512 = offset + headLen offset size) ∧
      (tailLen offset size ≠ 0 → u32 (bodySector offset + bodyCount offset size) * 512 =
        offset + (headLen offset size + bodyCount offset size * 512)) := by
  obtain ⟨h1, h2, h3⟩ := hadd
  have hp := parts offset size
  refine ⟨fun h => ?_, fun h => ?_, fun h => ?_⟩
  · have hu := u32_of_lt (h1 h)
    omega
  · have hu := u32_of_lt (h2 h)
    have hb := bodySector_eq (show headLen offset size < size by omega)
    rw [hu, hb]
  · have hu := u32_of_lt (h3 h)
    have hb := bodySector_eq (show headLen offset size < size by omega)
    rw [hu, Nat.add_mul, hb, Nat.add_assoc]

theorem exact_of_addressable (hsize : size < 2 ^ 32) (hfit : offset + size ≤ 512 * N)
    (hadd : Addressable offset size) : Exact N offset size := by
  intro dev data hplain hlen
  subst hlen
  obtain ⟨h1, h2, h3⟩ := places hadd
  have hp := parts offset data.length
  have hhead : (data.take (headLen offset data.length)).length = headLen offset data.length :=
    List.length_take_of_le (headLen_le _ _)
  have hbody : ((data.drop (headLen offset data.length)).take
      (bodyCount offset data.length * 512)).length = bodyCount offset data.length * 512 := by
    rw [List.length_take, List.length_drop]
    omega
  have htail : (data.drop (headLen offset data.length + bodyCount offset data.length * 512)).length =
      tailLen offset data.length := by
    rw [List.length_drop]
    omega
  have hnil : ∀ {d : Bytes} {n : Nat}, d.length = n → n = 0 → d = [] := fun h h0 =>
    List.length_eq_zero_iff.mp (h.trans h0)
  have hdev : (write offset data).run dev = .ok () (dev.store offset data) := by
    rw [write_run hplain.sound hfit]
    have e1 := store_at dev fun hne => h1 fun h0 => hne (hnil hhead h0)
    have e2 := fun dev => store_at dev fun hne => h2 fun h0 =>
      hne (hnil hbody (by rw [h0, Nat.zero_mul]))
    have e3 := fun dev => store_at dev fun hne => h3 fun h0 => hne (hnil htail h0)
    rw [e1, e2, e3]
    have hwhole : data.take (headLen offset data.length) ++
        (data.drop (headLen offset data.length)).take (bodyCount offset data.length * 512) =
          data.take (headLen offset data.length + bodyCount offset data.length * 512) := by
      rw [List.take_add]
    have hmid : (data.take (headLen offset data.length +
        bodyCount offset data.length * 512)).length =
          headLen offset data.length + bodyCount offset data.length * 512 :=
      List.length_take_of_le (by omega)
    conv in offset + headLen offset data.length => rw [← hhead]
    rw [store_append, hwhole]
    conv in offset + (headLen offset data.length + _) => rw [← hmid]
    rw [store_append, List.take_append_drop]
  have hread : read (dev.store offset data) offset data.length = some data := by
    rw [read_run (hplain.sound.store _ _) hsize hfit, readMem_at _ h1, readMem_at _ fun hne =>
      h2 fun h0 => hne (by rw [h0, Nat.zero_mul]), readMem_at _ h3, ← readMem_append,
      ← readMem_append, hp, store_data, readMem_writeMem]
  refine ⟨_, hdev, Prog.read_ok ?_, fun a ha => if_neg ha⟩
  rw [hread]
  rfl

/-! ## Inexactness -/

/-- Sectors full of zeros. -/
def blank (N : Nat) : Blkdev := ⟨N, fun _ => 0, fun _ => true, fun _ => true⟩

theorem plain_blank (N : Nat) : Plain (blank N) N := ⟨rfl, fun _ => rfl, fun _ => rfl⟩

/-- Storing ones leaves ones where they are, and puts some. -/
theorem store_ones {d : Bytes} (hd : ∀ b ∈ d, b = 1) {off a : Nat}
    (h : dev.data a = 1 ∨ (off ≤ a ∧ a < off + d.length)) : (dev.store off d).data a = 1 := by
  rw [store_data]
  by_cases hin : off ≤ a ∧ a < off + d.length
  · have hlt : a - off < d.length := by omega
    rw [writeMem, if_pos hin, byteAt_eq_getElem hlt]
    exact hd _ (List.getElem_mem hlt)
  · rw [writeMem, if_neg hin]
    exact h.resolve_right hin

/-- A number that 32 bits cannot hold loses at least 2^32. -/
theorem u32_wrap {n : Nat} (h : ¬ n < 2 ^ 32) : u32 n + 2 ^ 32 ≤ n := by
  unfold u32
  omega

theorem not_exact (hsize : size < 2 ^ 32) (hfit : offset + size ≤ 512 * N)
    (hadd : ¬ Addressable offset size) : ¬ Exact N offset size := by
  intro hexact
  obtain ⟨dev', hrun, -, houtside⟩ := hexact (blank N) (List.replicate size 1) (plain_blank N)
    List.length_replicate
  have hp := parts offset size
  have hle := headLen_le offset size
  have hones : ∀ b ∈ List.replicate size (1 : UInt8), b = 1 := fun b hb =>
    List.eq_of_mem_replicate hb
  have hlen : (List.replicate size (1 : UInt8)).length = size := List.length_replicate
  rw [write_run (plain_blank N).sound (by rw [hlen]; exact hfit), hlen] at hrun
  have hdev := ((Res.ok.injEq _ _ _ _).mp hrun).2
  subst hdev
  -- no byte outside the range may have become a one
  have hzero : ∀ a, ¬ (offset ≤ a ∧ a < offset + size) → ¬ _ = (1 : UInt8) := fun a ha h1 =>
    absurd (show (0 : UInt8) = 1 from (houtside a ha).symm.trans h1) (by decide)
  have ones_take : ∀ d : Bytes, (∀ b ∈ d, b = 1) → ∀ n, ∀ b ∈ d.take n, b = 1 :=
    fun d hd n b hb => hd b (List.mem_of_mem_take hb)
  have ones_drop : ∀ n, ∀ b ∈ (List.replicate size (1 : UInt8)).drop n, b = 1 :=
    fun n b hb => hones b (List.mem_of_mem_drop hb)
  have ones_head := ones_take _ hones (headLen offset size)
  have ones_body := ones_take _ (ones_drop (headLen offset size)) (bodyCount offset size * 512)
  have ones_tail := ones_drop (headLen offset size + bodyCount offset size * 512)
  unfold Addressable at hadd
  by_cases h1 : headLen offset size ≠ 0 → offset / 512 < 2 ^ 32
  · by_cases h2 : bodyCount offset size ≠ 0 → bodySector offset < 2 ^ 32
    · have h3 : ¬ (tailLen offset size ≠ 0 →
          bodySector offset + bodyCount offset size < 2 ^ 32) := fun h3 => hadd ⟨h1, h2, h3⟩
      obtain ⟨hne, hge⟩ := Classical.not_imp.mp h3
      have hw := u32_wrap hge
      have hb := bodySector_eq (show headLen offset size < size by omega)
      refine hzero (u32 (bodySector offset + bodyCount offset size) * 512) (by omega)
        (store_ones ones_tail (.inr ⟨Nat.le_refl _, ?_⟩))
      rw [List.length_drop, hlen]
      omega
    · obtain ⟨hne, hge⟩ := Classical.not_imp.mp h2
      have hw := u32_wrap hge
      have hb := bodySector_eq (show headLen offset size < size by omega)
      refine hzero (u32 (bodySector offset) * 512) (by omega) (store_ones ones_tail (.inl
        (store_ones ones_body (.inr ⟨Nat.le_refl _, ?_⟩))))
      rw [List.length_take, List.length_drop, hlen]
      omega
  · obtain ⟨hne, hge⟩ := Classical.not_imp.mp h1
    have hw := u32_wrap hge
    refine hzero (u32 (offset / 512) * 512 + offset % 512) (by omega) (store_ones ones_tail (.inl
      (store_ones ones_body (.inl (store_ones ones_head (.inr ⟨Nat.le_refl _, ?_⟩))))))
    rw [List.length_take, hlen]
    omega

/-- A range is accessed exactly where none of its parts starts at a sector number that wraps. -/
theorem exact_iff (hsize : size < 2 ^ 32) (hfit : offset + size ≤ 512 * N) :
    Exact N offset size ↔ Addressable offset size := by
  constructor
  · intro hexact
    by_contra hadd
    exact not_exact hsize hfit hadd hexact
  · exact exact_of_addressable hsize hfit

/-- A range inside one sector. -/
theorem exact_inside : Exact 4 700 200 := (exact_iff (by decide) (by decide)).2 (by decide)

/-- The first byte behind 2 TiB. -/
theorem byte_misplaced : ¬ ∀ N offset size, size < 2 ^ 32 → offset + size ≤ 512 * N →
    Exact N offset size := by
  intro h
  refine @not_exact (2 ^ 32 + 1) (2 ^ 41) 1 (by norm_num) (by norm_num) ?_
    (h _ _ _ (by norm_num) (by norm_num))
  decide

end LsvmTools.Ext2.DeviceExact
