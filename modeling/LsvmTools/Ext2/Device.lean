import LsvmTools.BlockDevice

/-! # Byte-addressed access over sectors

`_Read` and `_Write` split a byte range into an unaligned head, whole sectors
and a partial tail. On sectors that can be accessed they read and write exactly
the range. -/
namespace LsvmTools.Ext2.Device
open Lib.ByteString Lib.Program BlockDevice

/-- `_ReadPartialBlock`. -/
def readPartialBlock (dev : Blkdev) (blkno offset size : Nat) : Option Bytes :=
  if size = 0 then some []
  else do
    let blk ← getN dev blkno 1
    let off := offset % 512
    let len := min (512 - off) size
    some ((blk.drop off).take len)

/-- `_WritePartialBlock`: the number of bytes written. -/
def writePartialBlock (blkno offset : Nat) (data : Bytes) : Prog Blkdev Unit Nat :=
  if data.length = 0 then pure 0
  else do
    let blk ← get blkno
    let off := offset % 512
    let len := min (512 - off) data.length
    put blkno 1 (splice blk off (data.take len))
    pure len

/-- `_Read`. The sector number and the remaining size are 32-bit variables. -/
def read (dev : Blkdev) (offset size : Nat) : Option Bytes := do
  let blkno := u32 (offset / 512)
  let rem := u32 size
  let head ← if offset % 512 ≠ 0 then readPartialBlock dev blkno offset rem else some []
  let blkno := if offset % 512 ≠ 0 then u32 (blkno + 1) else blkno
  let rem := rem - head.length
  let nblocks := rem / 512
  let body ← getN dev blkno nblocks
  let tail ← readPartialBlock dev (u32 (blkno + nblocks)) 0 (rem - nblocks * 512)
  some (head ++ body ++ tail)

/-- `_Write`. -/
def write (offset : Nat) (data : Bytes) : Prog Blkdev Unit Unit := do
  let blkno := u32 (offset / 512)
  let n ← if offset % 512 ≠ 0 then writePartialBlock blkno offset data else pure 0
  let blkno := if offset % 512 ≠ 0 then u32 (blkno + 1) else blkno
  let rest := data.drop n
  let nblocks := rest.length / 512
  put blkno nblocks (rest.take (nblocks * 512))
  let _ ← writePartialBlock (u32 (blkno + nblocks)) 0 (rest.drop (nblocks * 512))
  pure ()

/-! ## Exactness on accessible sectors -/

variable {dev : Blkdev} {k : Nat}

/-- Where the sectors after an unaligned head and `n` whole ones start. -/
theorem tail_offset {offset d : Nat} (n : Nat) (h : offset % 512 + d = 512) :
    (offset / 512 + 1 + n) * 512 = offset + (d + n * 512) := by omega

theorem readPartialBlock_eq (h : Sound dev k) {blkno offset size : Nat}
    (hb : size ≠ 0 → blkno < k) :
    readPartialBlock dev blkno offset size = some (readMem dev.data
      (blkno * 512 + offset % 512) (min (512 - offset % 512) size)) := by
  unfold readPartialBlock
  split
  · rename_i h0; simp [h0, readMem]
  · rename_i h0
    rw [getN_eq h (by have := hb h0; omega)]
    have hm : offset % 512 < 512 := Nat.mod_lt _ (by decide)
    simp only [Option.bind_eq_bind, Option.bind_some, readMem_drop, readMem_take, Nat.one_mul]
    congr 2; omega

/-- The tail of a range starts at a sector boundary. -/
theorem readPartialBlock_zero (h : Sound dev k) {blkno size : Nat} (hb : size ≠ 0 → blkno < k)
    (hs : size < 512) :
    readPartialBlock dev blkno 0 size = some (readMem dev.data (blkno * 512) size) := by
  rw [readPartialBlock_eq h hb, Nat.zero_mod, Nat.add_zero, Nat.min_eq_right (by omega)]

/-- `_Read` delivers exactly the bytes of the range. -/
theorem read_eq (h : Sound dev k) {offset size : Nat} (hr : offset + size ≤ k * 512)
    (ho : offset / 512 + size / 512 + 2 < 2 ^ 32) (hs : size < 2 ^ 32) :
    read dev offset size = some (readMem dev.data offset size) := by
  unfold read
  rw [u32_of_lt hs, u32_of_lt (show offset / 512 < 2 ^ 32 by omega)]
  by_cases ha : offset % 512 = 0
  · simp only [ha, ne_eq, not_true_eq_false, if_false, Option.bind_eq_bind, Option.bind_some,
      List.length_nil, Nat.sub_zero, List.nil_append]
    rw [u32_of_lt (by omega), getN_eq h (by omega), Option.bind_some,
      readPartialBlock_zero h (by omega) (by omega), Option.bind_some]
    congr 1
    have he : size = size / 512 * 512 + (size - size / 512 * 512) := by omega
    rw [he, readMem_append, ← he]
    congr 2 <;> omega
  · simp only [ha, ne_eq, not_false_eq_true, if_true, Option.bind_eq_bind]
    rw [readPartialBlock_eq h (by omega), Option.bind_some, length_readMem,
      u32_of_lt (show offset / 512 + 1 < 2 ^ 32 by omega)]
    generalize hd : min (512 - offset % 512) size = d
    have hq : (size - d) / 512 ≤ size / 512 := Nat.div_le_div_right (by omega)
    rw [u32_of_lt (by omega), getN_eq h (by omega), Option.bind_some,
      readPartialBlock_zero h (by omega) (by omega), Option.bind_some]
    congr 1
    generalize hn : (size - d) / 512 = n at hq ⊢
    have h1 : offset / 512 * 512 + offset % 512 = offset := by omega
    rw [h1]
    have he : size = d + n * 512 + (size - d - n * 512) := by omega
    rw [he, readMem_append, readMem_append, ← he]
    rcases Nat.eq_or_lt_of_le (show d ≤ size by omega) with hds | hds
    · have hz : n = 0 := by rw [← hn, hds, Nat.sub_self]
      have hr : size - d - 0 * 512 = 0 := by omega
      subst hz
      simp only [hr, Nat.zero_mul, readMem_zero]
    · have h2 : (offset / 512 + 1) * 512 = offset + d := by omega
      rw [h2, tail_offset n (show offset % 512 + d = 512 by omega)]

theorem writePartialBlock_eq (h : Sound dev k) {blkno offset : Nat} {data : Bytes}
    (hb : data.length ≠ 0 → blkno < k) :
    (writePartialBlock blkno offset data).run dev =
      .ok (min (512 - offset % 512) data.length) (dev.store (blkno * 512 + offset % 512)
        (data.take (min (512 - offset % 512) data.length))) := by
  unfold writePartialBlock
  split
  · rename_i h0; simp [h0, store_nil]
  · rename_i h0
    have hk := hb h0
    have hm : offset % 512 < 512 := Nat.mod_lt _ (by decide)
    have hl : offset % 512 + (data.take (min (512 - offset % 512) data.length)).length ≤ 512 := by
      rw [List.length_take]; omega
    rw [Prog.bind_ok (get_eq h hk),
      Prog.bind_ok (put_eq h (by omega) (by rw [length_splice (by simpa using hl)]; simp)),
      store_splice hl]
    rfl

theorem writePartialBlock_zero (h : Sound dev k) {blkno : Nat} {data : Bytes}
    (hb : data.length ≠ 0 → blkno < k) (hs : data.length < 512) :
    (writePartialBlock blkno 0 data).run dev = .ok data.length (dev.store (blkno * 512) data) := by
  rw [writePartialBlock_eq h hb, Nat.zero_mod, Nat.add_zero, Nat.min_eq_right (by omega),
    List.take_length]

/-- `_Write` changes exactly the bytes of the range. -/
theorem write_eq (h : Sound dev k) {offset : Nat} {data : Bytes}
    (hr : offset + data.length ≤ k * 512)
    (ho : offset / 512 + data.length / 512 + 2 < 2 ^ 32) :
    (write offset data).run dev = .ok () (dev.store offset data) := by
  unfold write
  rw [u32_of_lt (show offset / 512 < 2 ^ 32 by omega)]
  by_cases ha : offset % 512 = 0
  · simp only [ha, ne_eq, not_true_eq_false, if_false, Prog.pure_bind, List.drop_zero]
    have hl : (data.drop (data.length / 512 * 512)).length = data.length % 512 := by
      rw [List.length_drop]; omega
    rw [u32_of_lt (show offset / 512 + data.length / 512 < 2 ^ 32 by omega),
      Prog.bind_ok (put_eq h (show offset / 512 + data.length / 512 ≤ k by omega)
        (by rw [List.length_take]; omega)),
      Prog.bind_ok (writePartialBlock_zero (h.store _ _)
        (show _ → offset / 512 + data.length / 512 < k by omega) (by omega))]
    have h1 : offset / 512 * 512 = offset := by omega
    have h2 : (data.take (data.length / 512 * 512)).length = data.length / 512 * 512 :=
      List.length_take_of_le (by omega)
    rw [Nat.add_mul, h1]
    conv in offset + _ => rw [← h2]
    rw [store_append, List.take_append_drop]
    rfl
  · simp only [ha, ne_eq, not_false_eq_true, if_true]
    rw [Prog.bind_ok (writePartialBlock_eq h (by omega)),
      u32_of_lt (show offset / 512 + 1 < 2 ^ 32 by omega)]
    generalize hd : min (512 - offset % 512) data.length = d
    have hl : (data.drop d).length = data.length - d := List.length_drop
    have hq : (data.drop d).length / 512 ≤ data.length / 512 := Nat.div_le_div_right (by omega)
    generalize hn : (data.drop d).length / 512 = n at hq ⊢
    have hl2 : ((data.drop d).drop (n * 512)).length = (data.length - d) % 512 := by
      rw [List.length_drop]; omega
    rw [u32_of_lt (show offset / 512 + 1 + n < 2 ^ 32 by omega),
      Prog.bind_ok (put_eq (h.store _ _) (show offset / 512 + 1 + n ≤ k by omega)
        (by rw [List.length_take]; omega)),
      Prog.bind_ok (writePartialBlock_zero ((h.store _ _).store _ _)
        (show _ → offset / 512 + 1 + n < k by omega) (by omega))]
    have h1 : offset / 512 * 512 + offset % 512 = offset := by omega
    rw [h1]
    rcases Nat.eq_or_lt_of_le (show d ≤ data.length by omega) with hds | hds
    · have hz : data.drop d = [] := List.drop_eq_nil_of_le (by omega)
      rw [hz, List.take_nil, List.drop_nil, store_nil, store_nil, hds, List.take_length]
      rfl
    · have hd1 : offset % 512 + d = 512 := by omega
      have h2 : (data.take d).length = d := List.length_take_of_le (by omega)
      have h3 : (data.take d ++ (data.drop d).take (n * 512)).length = d + n * 512 := by
        rw [List.length_append, h2, List.length_take_of_le (by omega)]
      rw [tail_offset n hd1, ← h3, show (offset / 512 + 1) * 512 = offset + d by omega]
      conv in offset + d => rw [← h2]
      rw [store_append, store_append, List.append_assoc, List.take_append_drop,
        List.take_append_drop]
      rfl

end LsvmTools.Ext2.Device
