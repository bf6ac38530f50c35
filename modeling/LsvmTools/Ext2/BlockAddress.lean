import LsvmTools.Ext2.Layout
import LsvmTools.Ext2.Open

/-! # Where the blocks of a volume are

`BlockOffset` multiplies 32-bit numbers into 32 bits. Blocks are where their numbers say, and
apart from each other, on the volumes whose last block starts below 2^32 bytes. -/
namespace LsvmTools.Ext2.BlockAddress
open Lib.ByteString Lib.Program BlockDevice Volume Blocks Layout Open DeviceExact

/-- A block is written at its number times the block size, no two blocks touch, and the LBA of
a block is where it starts. -/
structure Addresses (s : EXT2) : Prop where
  writes : ∀ b, b < s.sb.sBlocksCount → ∀ block : Bytes, block.length = s.blockSize →
    (writeBlock b block).run s = .ok () { s with dev := s.dev.store (b * s.blockSize) block } ∨
      (writeBlock b block).run s = .err .writeFailed s
  apart : ∀ b b', b < s.sb.sBlocksCount → b' < s.sb.sBlocksCount → b ≠ b' →
    Apart (s.blockOffset b) s.blockSize (s.blockOffset b') s.blockSize
  lba : ∀ b, b < s.sb.sBlocksCount → blknoToLBA s b = b * s.blockSize / 512

variable {s : EXT2}

/-! ## Writing whole sectors -/

/-- A block has whole sectors. -/
theorem blockSize_sectors (s : EXT2) : ∃ k, s.blockSize = 512 * k :=
  ⟨2 * 2 ^ s.sb.sLogBlockSize, by unfold EXT2.blockSize SuperBlock.blockSize; ring⟩

/-- A range of whole sectors is written in one piece or not at all. -/
theorem write_sectors {dev : Blkdev} {i n : Nat} {data : Bytes} (hi : i < 2 ^ 32)
    (hlen : data.length = n * 512) : (Device.write (i * 512) data).run dev =
      match putN dev i n data with
      | some dev' => .ok () dev'
      | none => .err () dev := by
  have hmod : ¬ i * 512 % 512 ≠ 0 := by
    rw [Nat.mul_mod_left]
    exact fun h => h rfl
  have hdiv : u32 (i * 512 / 512) = i := by
    rw [Nat.mul_div_cancel i (by decide), u32_of_lt hi]
  have hcount : n * 512 / 512 = n := Nat.mul_div_cancel n (by decide)
  have hall : data.take (n * 512) = data := List.take_of_length_le (Nat.le_of_eq hlen)
  have hnone : data.drop (n * 512) = [] := List.drop_eq_nil_of_le (Nat.le_of_eq hlen)
  rw [write_bind, if_neg hmod, Prog.pure_bind]
  unfold writeRest
  dsimp only
  rw [if_neg hmod, hdiv, List.drop_zero, hlen, hcount, hall, hnone]
  have hput : (put i n data).run dev = match putN dev i n data with
      | some dev' => .ok () dev'
      | none => .err () dev := rfl
  cases hp : putN dev i n data with
  | none =>
    rw [hp] at hput
    exact Prog.bind_err hput _
  | some dev' =>
    rw [hp] at hput
    rw [Prog.bind_ok hput]
    rfl

/-- `EXT2WriteBlock` of a whole block whose offset does not wrap. -/
theorem writeBlock_run {b : Nat} (hb : b * s.blockSize < 2 ^ 32) {block : Bytes}
    (hlen : block.length = s.blockSize) :
    (writeBlock b block).run s = .ok () { s with dev := s.dev.store (b * s.blockSize) block } ∨
      (writeBlock b block).run s = .err .writeFailed s := by
  obtain ⟨k, hk⟩ := blockSize_sectors s
  have hpos : 0 < s.blockSize := s.sb.blockSize_pos
  have hoff : s.blockOffset b = b * k * 512 := by
    rw [EXT2.blockOffset, u32_of_lt hb, hk]
    ring
  have hsector : b * k < 2 ^ 32 := by
    rw [hk] at hb
    have hle : b * k ≤ b * (512 * k) := Nat.mul_le_mul_left b (by omega)
    omega
  have hwhole : block.length = k * 512 := by rw [hlen, hk, Nat.mul_comm]
  have hrun := @write_sectors s.dev _ _ _ hsector hwhole
  have hplace : b * s.blockSize = b * k * 512 := by
    rw [hk]
    ring
  have htake : block.take (k * 512) = block := List.take_of_length_le (Nat.le_of_eq hwhole)
  unfold writeBlock
  rw [Prog.get_bind, if_neg (by omega), hoff, hplace]
  unfold putN at hrun
  by_cases hgo : b * k + k ≤ s.dev.nblks ∧ (List.range' (b * k) k).all s.dev.writable
  · rw [if_pos hgo, htake] at hrun
    exact .inl (onDevice_ok hrun)
  · rw [if_neg hgo] at hrun
    exact .inr (onDevice_err hrun)

/-! ## The whole volume -/

/-- Distinct multiples of the block size are apart. -/
theorem addresses_of_small (h : (s.sb.sBlocksCount - 1) * s.blockSize < 2 ^ 32) : Addresses s := by
  have hoff : ∀ b, b < s.sb.sBlocksCount → b * s.blockSize < 2 ^ 32 := fun b hb =>
    Nat.lt_of_le_of_lt (Nat.mul_le_mul_right _ (by omega)) h
  refine ⟨fun b hb block hlen => writeBlock_run (hoff b hb) hlen, fun b b' hb hb' hne => ?_,
    fun b hb => ?_⟩
  · rw [EXT2.blockOffset, EXT2.blockOffset, u32_of_lt (hoff b hb), u32_of_lt (hoff b' hb')]
    exact block_apart (G := geo s) hne
  · rw [blknoToLBA, EXT2.blockOffset, u32_of_lt (hoff b hb)]

/-- Past 2^32 bytes the LBA of the last block is that of another one. -/
theorem lba_wraps {b : Nat} (hb : ¬ b * s.blockSize < 2 ^ 32) :
    blknoToLBA s b ≠ b * s.blockSize / 512 := by
  have hw := u32_wrap hb
  intro heq
  unfold blknoToLBA EXT2.blockOffset at heq
  omega

/-- The blocks of a volume are where their numbers say exactly where the last one starts below
2^32 bytes. -/
theorem addresses_iff (s : EXT2) :
    Addresses s ↔ (s.sb.sBlocksCount - 1) * s.blockSize < 2 ^ 32 := by
  constructor
  · intro h
    by_contra hlast
    have hpos : 0 < s.sb.sBlocksCount := by
      by_contra h0
      rw [Nat.eq_zero_of_not_pos h0, Nat.zero_sub, Nat.zero_mul] at hlast
      exact hlast (by decide)
    exact lba_wraps hlast (h.lba _ (by omega))
  · exact addresses_of_small

/-- A volume of 4 GiB and one block of 1024 bytes. -/
def large : Out OpenErr EXT2 := ext2New (image (superBlock 4194305 0 4294967295)) fun _ => 0

theorem large_opens : ∃ s, large = .ok s ∧ s.sb.sBlocksCount = 4194305 ∧ s.blockSize = 1024 := by
  have h : large.passes (fun s => s.sb.sBlocksCount = 4194305 ∧ s.blockSize = 1024) = true := by
    decide +kernel
  obtain ⟨s, hs, hp⟩ := Out.of_passes h
  exact ⟨s, hs, of_decide_eq_true hp⟩

/-- Block 4194304 of such a volume is written where block 0 is. -/
theorem last_block_misplaced :
    ¬ ∀ dev uninit s, ext2New dev uninit = .ok s → Addresses s := by
  intro h
  obtain ⟨s, hs, hcount, hsize⟩ := large_opens
  refine lba_wraps (s := s) (b := 4194304) ?_ ((h _ _ s hs).lba _ (by rw [hcount]; norm_num))
  rw [hsize]
  norm_num

end LsvmTools.Ext2.BlockAddress
