import LsvmTools.Blkdev

/-! # The block device in memory

`BlkdevFromMemory` makes a block device of a buffer. Its test of the range adds and
multiplies in 64 bits and compares with `>=`. -/
namespace LsvmTools.MemBlkdev
open Lib.ByteString Lib.Program Lib.Sectors Blkdev

/-- The bytes `[off, off + n)`. -/
def range (mem : Bytes) (off n : Nat) : Bytes := (mem.drop off).take n

/-- `_GetN` of a buffer of `size` bytes. -/
def memGetN (size : Nat) (blkno : UInt64) (nblocks : Nat) : Prog Bytes Unit Bytes :=
  let offset := u64 (blkno.toNat * 512)
  let toRead := u64 (nblocks * 512)
  if size ≤ u64 (offset + toRead) then Prog.throw ()
  else Prog.read fun mem =>
    if offset + toRead ≤ mem.length then .ok (range mem offset toRead) else .stuck

/-- `_PutN`. -/
def memPutN (size : Nat) (blkno : UInt64) (nblocks : Nat) (data : Bytes) :
    Prog Bytes Unit Unit :=
  let offset := u64 (blkno.toNat * 512)
  let toWrite := u64 (nblocks * 512)
  if size ≤ u64 (offset + toWrite) then Prog.throw ()
  else do
    let mem ← Prog.get
    if offset + toWrite ≤ mem.length ∧ toWrite ≤ data.length then
      Prog.set (splice mem offset (data.take toWrite))
    else Prog.stuck

def memDevice (size : Nat) : Device UInt64 Bytes Sector where
  getN b n := do
    let data ← memGetN size b n
    pure (split data n)
  putN b ds := memPutN size b ds.length (concat ds)

/-- `BlkdevFromMemory`: there is no device for an empty buffer. -/
def blkdevFromMemory (data : Bytes) : Option (Device UInt64 Bytes Sector) :=
  if data.length = 0 then none else some (memDevice data.length)

/-! ## What is claimed of the device -/

/-- The call succeeds where `fits`, and fails where not. -/
def Decides {α : Type} (fits : Prop) (m : Prog Bytes Unit α) (mem : Bytes) : Prop :=
  (fits → ∃ a t, m.run mem = .ok a t) ∧ (¬ fits → ∃ t, m.run mem = .err () t)

/-- `GetN` and `PutN` of `n` blocks from `b` on are accepted exactly where these are among
the first `nblks` ones. -/
def RangeChecked (dev : Device UInt64 Bytes Sector) (mem : Bytes) (nblks : Nat) (b n : UInt64) :
    Prop :=
  Decides (b.toNat + n.toNat ≤ nblks) (dev.getN b n.toNat) mem ∧
    ∀ ds, ds.length = n.toNat → Decides (b.toNat + n.toNat ≤ nblks) (dev.putN b ds) mem

/-- What `BlkdevWrite` writes, `BlkdevRead` reads, and nothing else changes. -/
def WritesBack (dev : Device UInt64 Bytes Sector) (mem : Bytes) (b : UInt64) (data : Bytes) :
    Prop :=
  ∃ mem', (blkdevWrite dev b data).run mem = .ok () mem' ∧
    (blkdevRead dev b data.length).run mem' = .ok data mem' ∧
    mem'.length = mem.length ∧
    ∀ i, i < b.toNat * 512 ∨ b.toNat * 512 + data.length ≤ i → byteAt mem' i = byteAt mem i

/-! ## Bytes of a range -/

variable {mem data : Bytes} {off n i size : Nat}

theorem length_range (h : off + n ≤ mem.length) : (range mem off n).length = n := by
  unfold range
  rw [List.length_take, List.length_drop]; omega

theorem byteAt_range (h : i < n) : byteAt (range mem off n) i = byteAt mem (off + i) := by
  rw [range, byteAt_take, if_pos h, byteAt_drop]

theorem ofBytes_of_length {b : Bytes} (hb : b.length = 512) : (Sector.ofBytes b).bytes = b := by
  have h := ofBytes_append ⟨b, hb⟩ []
  rw [List.append_nil] at h
  rw [h]

/-- The blocks of a buffer, one after another, are the buffer. -/
theorem concat_split (h : n * 512 ≤ data.length) : concat (split data n) = data.take (n * 512) := by
  induction n generalizing data with
  | zero => simp [split, concat]
  | succ n ih =>
    have hrest : n * 512 ≤ (data.drop 512).length := by
      rw [List.length_drop]
      exact Nat.le_sub_of_add_le (by rwa [Nat.succ_mul] at h)
    have hlen : (data.take 512).length = 512 := by
      rw [List.length_take]
      exact Nat.min_eq_left (by omega)
    have hhead : Sector.ofBytes data = ⟨data.take 512, hlen⟩ := by
      conv_lhs => rw [← List.take_append_drop 512 data]
      exact ofBytes_append ⟨data.take 512, hlen⟩ _
    rw [split, hhead, concat, List.flatMap_cons, Nat.succ_mul, Nat.add_comm, List.take_add]
    exact congrArg (data.take 512 ++ ·) (ih hrest)

theorem length_split (data : Bytes) (n : Nat) : (split data n).length = n := by
  induction n generalizing data with
  | zero => rfl
  | succ n ih => rw [split, List.length_cons, ih]

theorem range_splice (h : off + data.length ≤ mem.length) :
    range (splice mem off data) off data.length = data := by
  refine ext_byteAt (length_range (by rw [length_splice h]; exact h)) fun i hi => ?_
  rw [length_range (by rw [length_splice h]; exact h)] at hi
  rw [byteAt_range hi, byteAt_splice h, if_pos (by omega), Nat.add_sub_cancel_left]

/-- A range read in two parts. -/
theorem range_add (mem : Bytes) (off a b : Nat) :
    range mem off (a + b) = range mem off a ++ range mem (off + a) b := by
  unfold range
  rw [List.take_add, List.drop_drop]

theorem take_range (mem : Bytes) (off a b : Nat) : (range mem off (a + b)).take a = range mem off a := by
  unfold range
  rw [List.take_take, Nat.min_eq_left (Nat.le_add_right a b)]

/-! ## Single calls -/

/-- The sum of the products, modulo 2^64, is that of the block numbers modulo 2^55. -/
theorem sum_eq (b n : Nat) : u64 (u64 (b * 512) + u64 (n * 512)) = (b + n) % 2 ^ 55 * 512 := by
  unfold u64
  rw [← Nat.add_mod, ← Nat.add_mul, show (2 : Nat) ^ 64 = 2 ^ 55 * 512 by norm_num]
  exact Nat.mul_mod_mul_right 512 (b + n) (2 ^ 55)

theorem u64_of_lt {n : Nat} (h : n < 2 ^ 64) : u64 n = n := by
  unfold u64
  exact Nat.mod_eq_of_lt h

/-- A buffer of whole blocks that the address space has room for. -/
structure Whole (mem : Bytes) (nblks : Nat) : Prop where
  length : mem.length = nblks * 512
  fits : nblks < 2 ^ 55

variable {nblks : Nat} {b : UInt64}

theorem Whole.products (hn : nblks < 2 ^ 55) (h : b.toNat + n ≤ nblks) :
    u64 (b.toNat * 512) = b.toNat * 512 ∧ u64 (n * 512) = n * 512 ∧
      u64 (u64 (b.toNat * 512) + u64 (n * 512)) = (b.toNat + n) * 512 := by
  refine ⟨u64_of_lt (by omega), u64_of_lt (by omega), ?_⟩
  rw [sum_eq, Nat.mod_eq_of_lt (by omega)]

theorem getN_inside (hm : Whole mem nblks) (h : b.toNat + n < nblks) :
    ((memDevice (nblks * 512)).getN b n).run mem =
      .ok (split (range mem (b.toNat * 512) (n * 512)) n) mem := by
  obtain ⟨h1, h2, h3⟩ := Whole.products hm.fits (Nat.le_of_lt h)
  have hlen := hm.length
  have hget : (memGetN (nblks * 512) b n).run mem =
      .ok (range mem (b.toNat * 512) (n * 512)) mem := by
    unfold memGetN
    dsimp only
    rw [h3, h1, h2, if_neg (by omega)]
    exact Prog.read_ok (if_pos (by omega))
  exact Prog.bind_ok hget _

theorem putN_inside (hm : Whole mem nblks) {ds : List Sector} (h : b.toNat + ds.length < nblks) :
    ((memDevice (nblks * 512)).putN b ds).run mem =
      .ok () (splice mem (b.toNat * 512) (concat ds)) := by
  obtain ⟨h1, h2, h3⟩ := Whole.products hm.fits (Nat.le_of_lt h)
  have hlen := hm.length
  have hds := length_concat ds
  change (memPutN (nblks * 512) b ds.length (concat ds)).run mem = _
  unfold memPutN
  dsimp only
  rw [h3, h1, h2, if_neg (by omega), Prog.get_bind, if_pos (by omega), List.take_of_length_le (by omega),
    Prog.run_set]

/-- The test refuses what it sees end at or behind the end of the buffer. -/
theorem getN_refused (h : nblks ≤ (b.toNat + n) % 2 ^ 55) :
    ((memDevice (nblks * 512)).getN b n).run mem = .err () mem := by
  refine Prog.bind_err (m := memGetN (nblks * 512) b n) ?_ _
  unfold memGetN
  dsimp only
  rw [sum_eq, if_pos (Nat.mul_le_mul_right 512 h), Prog.run_throw]

theorem putN_refused {ds : List Sector} (h : nblks ≤ (b.toNat + ds.length) % 2 ^ 55) :
    ((memDevice (nblks * 512)).putN b ds).run mem = .err () mem := by
  change (memPutN (nblks * 512) b ds.length (concat ds)).run mem = _
  unfold memPutN
  dsimp only
  rw [sum_eq, if_pos (Nat.mul_le_mul_right 512 h), Prog.run_throw]

/-- Where the test is passed, the call is no failure. -/
theorem getN_passed (h : (b.toNat + n) % 2 ^ 55 < nblks) (t : Bytes) :
    ((memDevice (nblks * 512)).getN b n).run mem ≠ .err () t := by
  change (memGetN (nblks * 512) b n >>= fun data => pure (split data n)).run mem ≠ _
  unfold memGetN
  dsimp only
  rw [sum_eq, if_neg (by omega)]
  intro he
  rcases Prog.bind_eq_err.mp he with he | ⟨data, u, -, he⟩
  · obtain ⟨he, -⟩ := Prog.read_eq_err.mp he
    split at he <;> cases he
  · cases he

/-- The calls are decided as they should unless the run ends exactly at the end of the
device, or runs past it and its end wraps around to a block of the device. -/
theorem rangeChecked_iff (hm : Whole mem nblks) (b n : UInt64) :
    RangeChecked (memDevice (nblks * 512)) mem nblks b n ↔
      b.toNat + n.toNat < nblks ∨
        nblks < b.toNat + n.toNat ∧ nblks ≤ (b.toNat + n.toNat) % 2 ^ 55 := by
  have hfits := hm.fits
  constructor
  · rintro ⟨⟨haccept, hreject⟩, -⟩
    by_cases hle : b.toNat + n.toNat ≤ nblks
    · by_cases hlt : b.toNat + n.toNat < nblks
      · exact .inl hlt
      · obtain ⟨a, t, hok⟩ := haccept hle
        rw [getN_refused (by rw [Nat.mod_eq_of_lt (by omega)]; omega)] at hok
        cases hok
    · refine .inr ⟨by omega, Nat.le_of_not_lt fun hlt => ?_⟩
      obtain ⟨t, herr⟩ := hreject hle
      exact getN_passed hlt t herr
  · rintro (hlt | ⟨hgt, hmod⟩)
    · refine ⟨⟨fun _ => ⟨_, _, getN_inside hm hlt⟩, fun hn => absurd (Nat.le_of_lt hlt) hn⟩,
        fun ds hds => ⟨fun _ => ⟨_, _, putN_inside hm (by rw [hds]; exact hlt)⟩,
          fun hn => absurd (Nat.le_of_lt hlt) hn⟩⟩
    · refine ⟨⟨fun hle => absurd hle (by omega), fun _ => ⟨_, getN_refused hmod⟩⟩,
        fun ds hds => ⟨fun hle => absurd hle (by omega),
          fun _ => ⟨_, putN_refused (by rw [hds]; exact hmod)⟩⟩⟩

/-! ## Reading and writing bytes -/

section Wrappers

variable {σ : Type} {dev : Device UInt64 σ Sector} {k r : Nat}

theorem blocks_whole (hn : n < 2 ^ 55) : u64 (n * 512 + 512 - 1) / 512 = n := by
  rw [u64_of_lt (by omega)]
  omega

theorem blocks_partial (hr : 0 < r) (hr' : r < 512) (hk : k + 1 < 2 ^ 55) :
    u64 (k * 512 + r + 512 - 1) / 512 = k + 1 := by
  rw [u64_of_lt (by omega)]
  omega

theorem blkdevWrite_whole (hd : data.length = n * 512) (h0 : 0 < n) (hn : n < 2 ^ 55) :
    blkdevWrite dev b data = dev.putN b (split data n) := by
  unfold blkdevWrite
  dsimp only
  rw [hd, blocks_whole hn, if_neg (by omega), if_pos (Nat.mul_mod_left n 512)]

theorem blkdevRead_whole (h0 : 0 < n) (hn : n < 2 ^ 55) :
    blkdevRead dev b (n * 512) = dev.getN b n >>= fun ds => pure (concat ds) := by
  unfold blkdevRead
  dsimp only
  rw [blocks_whole hn, if_neg (by omega), if_pos (Nat.mul_mod_left n 512)]

theorem blkdevWrite_partial (hd : data.length = k * 512 + r) (hr : 0 < r) (hr' : r < 512)
    (hk : k + 1 < 2 ^ 55) :
    blkdevWrite dev b data = (do
      dev.putN b (split data k)
      let block ← dev.getN (Addr.nth b k) 1
      dev.putN (Addr.nth b k)
        [Sector.ofBytes (splice (concat block) 0 (data.drop (k * 512)))]) := by
  unfold blkdevWrite
  dsimp only
  rw [hd, blocks_partial hr hr' hk, if_neg (by omega), if_neg (by omega), Nat.add_sub_cancel]

theorem blkdevRead_partial (hr : 0 < r) (hr' : r < 512) (hk : k + 1 < 2 ^ 55) :
    blkdevRead dev b (k * 512 + r) = (do
      let ds ← dev.getN b k
      let block ← dev.getN (Addr.nth b k) 1
      pure (concat ds ++ (concat block).take r)) := by
  unfold blkdevRead
  dsimp only
  rw [ blocks_partial hr hr' hk, if_neg (by omega), if_neg (by omega), Nat.add_sub_cancel,
    Nat.add_sub_cancel_left]

theorem blkdevWrite_nil (hd : data.length = 0) : blkdevWrite dev b data = pure () := by
  have h0 : u64 (0 + 512 - 1) / 512 = 0 := by rw [u64_of_lt (by decide)]
  unfold blkdevWrite
  dsimp only
  rw [hd, h0, if_pos rfl]

theorem blkdevRead_zero : blkdevRead dev b 0 = pure [] := by
  have h0 : u64 (0 + 512 - 1) / 512 = 0 := by rw [u64_of_lt (by decide)]
  unfold blkdevRead
  dsimp only
  rw [h0, if_pos rfl]

end Wrappers

theorem nth_toNat {k : Nat} (h : b.toNat + k < 2 ^ 64) :
    (Addr.nth b k : UInt64).toNat = b.toNat + k := by
  have hk : k < 2 ^ 64 := by omega
  rw [nth_eq, UInt64.toNat_add, UInt64.toNat_ofNat_of_lt' hk, Nat.mod_eq_of_lt h]

/-- The size of data is 0, a number of whole blocks, or ends inside a block. -/
theorem size_cases (size : Nat) :
    size = 0 ∨ (∃ n, 0 < n ∧ size = n * 512) ∨ ∃ k r, 0 < r ∧ r < 512 ∧ size = k * 512 + r := by
  by_cases h0 : size = 0
  · exact .inl h0
  · by_cases hw : size % 512 = 0
    · exact .inr (.inl ⟨size / 512, by omega, by omega⟩)
    · exact .inr (.inr ⟨size / 512, size % 512, by omega, by omega, by omega⟩)

theorem Whole.splice (hm : Whole mem nblks) (h : off + data.length ≤ nblks * 512) :
    Whole (splice mem off data) nblks :=
  ⟨by rw [length_splice (by rw [hm.length]; exact h)]; exact hm.length, hm.fits⟩

/-- Writing the first blocks, and then a block with the rest put into what it held, writes
the data. -/
theorem splice_partial {k r : Nat} (hd : data.length = k * 512 + r) (hr : r < 512)
    (h : off + k * 512 + 512 ≤ mem.length) :
    let mem1 := splice mem off (data.take (k * 512))
    splice mem1 (off + k * 512)
      (splice (range mem1 (off + k * 512) 512) 0 (data.drop (k * 512))) =
      splice mem off data := by
  intro mem1
  have hl1 : (data.take (k * 512)).length = k * 512 := by
    rw [List.length_take]
    exact Nat.min_eq_left (by omega)
  have hl2 : (data.drop (k * 512)).length = r := by
    rw [List.length_drop, hd, Nat.add_sub_cancel_left]
  have hin1 : off + (data.take (k * 512)).length ≤ mem.length := by omega
  have hm1 : mem1.length = mem.length := length_splice hin1
  have hblock : (range mem1 (off + k * 512) 512).length = 512 := length_range (by omega)
  have hinb : 0 + (data.drop (k * 512)).length ≤ (range mem1 (off + k * 512) 512).length := by
    omega
  have hlast := length_splice hinb
  have hin2 : off + k * 512 + (splice (range mem1 (off + k * 512) 512) 0
      (data.drop (k * 512))).length ≤ mem1.length := by omega
  have hin : off + data.length ≤ mem.length := by omega
  refine ext_byteAt (by rw [length_splice hin2, length_splice hin, hm1]) fun i _ => ?_
  rw [byteAt_splice hin2, byteAt_splice hin, hlast, hblock]
  by_cases h1 : off + k * 512 ≤ i ∧ i < off + k * 512 + 512
  · rw [if_pos h1, byteAt_splice hinb, hl2]
    by_cases h2 : i < off + k * 512 + r
    · rw [if_pos (by omega), if_pos (by omega), byteAt_drop]
      congr 1; omega
    · rw [if_neg (by omega), if_neg (by omega), byteAt_range (by omega), byteAt_splice hin1, hl1,
        if_neg (by omega)]
      congr 1; omega
  · rw [if_neg h1, byteAt_splice hin1, hl1]
    by_cases h2 : off ≤ i ∧ i < off + k * 512
    · rw [if_pos h2, if_pos (by omega), byteAt_take, if_pos (by omega)]
    · rw [if_neg h2, if_neg (by omega)]

theorem concat_split_range {k : Nat} (h : off + k * 512 ≤ mem.length) :
    concat (split (range mem off (k * 512)) k) = range mem off (k * 512) := by
  have hl := length_range h
  rw [concat_split (by omega), List.take_of_length_le (by omega)]

/-- Reading data of any size from the first blocks of the device. -/
theorem blkdevRead_inside (hm : Whole mem nblks) {size : Nat}
    (h : size = 0 ∨ b.toNat + (size + 511) / 512 < nblks) :
    (blkdevRead (memDevice (nblks * 512)) b size).run mem =
      .ok (range mem (b.toNat * 512) size) mem := by
  have hfits := hm.fits
  have hlen := hm.length
  rcases size_cases size with rfl | ⟨n, hn0, rfl⟩ | ⟨k, r, hr, hr', rfl⟩
  · rw [blkdevRead_zero, Prog.run_pure, range, List.take_zero]
  · rw [blkdevRead_whole hn0 (by omega), Prog.bind_ok (getN_inside hm (by omega)), Prog.run_pure,
      concat_split_range (by omega)]
  · have hb : (Addr.nth b k : UInt64).toNat = b.toNat + k := nth_toNat (by omega)
    rw [ blkdevRead_partial hr hr' (by omega), Prog.bind_ok (getN_inside hm (by omega)),
      Prog.bind_ok (getN_inside hm (by omega)), Prog.run_pure, concat_split_range (by omega),
      concat_split_range (by omega), hb, range_add, Nat.add_mul]
    have htake := take_range mem (b.toNat * 512 + k * 512) r (512 - r)
    rw [Nat.add_sub_cancel' (Nat.le_of_lt hr')] at htake
    rw [Nat.one_mul, htake]

/-- Writing data of any size to the first blocks of the device. -/
theorem blkdevWrite_inside (hm : Whole mem nblks)
    (h : data.length = 0 ∨ b.toNat + (data.length + 511) / 512 < nblks) :
    (blkdevWrite (memDevice (nblks * 512)) b data).run mem =
      .ok () (splice mem (b.toNat * 512) data) := by
  have hfits := hm.fits
  have hlen := hm.length
  rcases size_cases data.length with h0 | ⟨n, hn0, hd⟩ | ⟨k, r, hr, hr', hd⟩
  · rw [blkdevWrite_nil h0, Prog.run_pure, List.length_eq_zero_iff.mp h0, splice_nil]
  · have hs := length_split data n
    rw [blkdevWrite_whole hd hn0 (by omega), putN_inside hm (by omega), concat_split (by omega),
      List.take_of_length_le (by omega)]
  · have hs := length_split data k
    have hb : (Addr.nth b k : UInt64).toNat = b.toNat + k := nth_toNat (by omega)
    have hput : ((memDevice (nblks * 512)).putN b (split data k)).run mem =
        .ok () (splice mem (b.toNat * 512) (concat (split data k))) := putN_inside hm (by omega)
    rw [concat_split (by omega)] at hput
    have hl1 : (data.take (k * 512)).length = k * 512 := by
      rw [List.length_take]
      exact Nat.min_eq_left (by omega)
    have hm1 : Whole (splice mem (b.toNat * 512) (data.take (k * 512))) nblks :=
      hm.splice (by omega)
    have hlen1 := hm1.length
    have hblock : (range (splice mem (b.toNat * 512) (data.take (k * 512)))
        (b.toNat * 512 + k * 512) 512).length = 512 := length_range (by omega)
    have hrest : (data.drop (k * 512)).length = r := by
      rw [List.length_drop, hd, Nat.add_sub_cancel_left]
    rw [ blkdevWrite_partial hd hr hr' (by omega), Prog.bind_ok hput,
      Prog.bind_ok (getN_inside hm1 (by omega)), putN_inside hm1 (by rw [hb]; simp; omega),
      concat_split_range (by omega), hb, Nat.add_mul, Nat.one_mul, concat_one,
      ofBytes_of_length (by rw [length_splice (by omega), hblock]),
      splice_partial hd hr' (by omega)]

/-- Data that reaches the last block of the device is refused. -/
theorem blkdevWrite_refused (hm : Whole mem nblks) (h0 : data.length ≠ 0)
    (hend : b.toNat + (data.length + 511) / 512 = nblks) :
    ∃ t, (blkdevWrite (memDevice (nblks * 512)) b data).run mem = .err () t := by
  have hfits := hm.fits
  rcases size_cases data.length with h | ⟨n, hn0, hd⟩ | ⟨k, r, hr, hr', hd⟩
  · exact absurd h h0
  · have hs := length_split data n
    rw [blkdevWrite_whole hd hn0 (by omega)]
    exact ⟨_, putN_refused (by rw [hs, Nat.mod_eq_of_lt (by omega)]; omega)⟩
  · have hs := length_split data k
    have hb : (Addr.nth b k : UInt64).toNat = b.toNat + k := nth_toNat (by omega)
    have hput : ((memDevice (nblks * 512)).putN b (split data k)).run mem =
        .ok () (splice mem (b.toNat * 512) (concat (split data k))) := putN_inside hm (by omega)
    rw [ blkdevWrite_partial hd hr hr' (by omega), Prog.bind_ok hput]
    exact ⟨_, Prog.bind_err (getN_refused (by rw [hb, Nat.mod_eq_of_lt (by omega)]; omega)) _⟩

theorem writesBack_iff (hm : Whole mem nblks)
    (hfit : b.toNat * 512 + data.length ≤ nblks * 512) :
    WritesBack (memDevice (nblks * 512)) mem b data ↔
      data.length = 0 ∨ b.toNat + (data.length + 511) / 512 < nblks := by
  have hlen := hm.length
  have hin : b.toNat * 512 + data.length ≤ mem.length := by omega
  constructor
  · rintro ⟨mem', hw, -⟩
    by_cases h0 : data.length = 0
    · exact .inl h0
    · refine .inr (Nat.lt_of_le_of_ne (by omega) fun hend => ?_)
      obtain ⟨t, ht⟩ := blkdevWrite_refused hm h0 hend
      rw [ht] at hw
      cases hw
  · intro h
    refine ⟨_, blkdevWrite_inside hm h, ?_, length_splice hin, fun i hi => ?_⟩
    · rw [blkdevRead_inside (hm.splice hfit) h, range_splice hin]
    · rw [byteAt_splice hin, if_neg (by omega)]

/-- For every buffer of whole blocks: the device decides about a run of blocks as it should,
unless the run ends exactly at the end of the device or its end wraps around to a block of
the device; and data is written and read back where it is empty or ends before the last
block. -/
theorem blkdevFromMemory_iff {dev : Device UInt64 Bytes Sector} (hlen : mem.length = nblks * 512)
    (hspace : mem.length < 2 ^ 64) (hdev : blkdevFromMemory mem = some dev) :
    (∀ b n : UInt64, RangeChecked dev mem nblks b n ↔
      b.toNat + n.toNat < nblks ∨
        nblks < b.toNat + n.toNat ∧ nblks ≤ (b.toNat + n.toNat) % 2 ^ 55) ∧
    ∀ (b : UInt64) (data : Bytes), b.toNat * 512 + data.length ≤ nblks * 512 →
      (WritesBack dev mem b data ↔
        data.length = 0 ∨ b.toNat + (data.length + 511) / 512 < nblks) := by
  have hm : Whole mem nblks := ⟨hlen, by omega⟩
  have heq : dev = memDevice (nblks * 512) := by
    unfold blkdevFromMemory at hdev
    split at hdev
    · cases hdev
    · injection hdev with hdev
      rw [← hdev, hlen]
  rw [heq]
  exact ⟨rangeChecked_iff hm, fun b data hfit => writesBack_iff hm hfit⟩

/-- A buffer of two blocks. -/
theorem blkdevFromMemory_two :
    RangeChecked (memDevice (2 * 512)) (List.replicate 1024 0) 2 0 1 := by
  have hlen : (List.replicate 1024 (0 : UInt8)).length = 2 * 512 := List.length_replicate
  have hdev : blkdevFromMemory (List.replicate 1024 0) = some (memDevice (2 * 512)) := by
    unfold blkdevFromMemory
    rw [hlen, if_neg (by decide)]
  exact ((blkdevFromMemory_iff hlen (by rw [hlen]; decide) hdev).1 0 1).mpr (.inl (by decide))

/-- The only block of a device is refused. -/
theorem last_block_refused : ¬ ∀ (mem : Bytes) (nblks : Nat) (dev : Device UInt64 Bytes Sector),
    mem.length = nblks * 512 → mem.length < 2 ^ 64 → blkdevFromMemory mem = some dev →
      ∀ b n : UInt64, RangeChecked dev mem nblks b n := by
  intro h
  have hlen : (List.replicate 512 (0 : UInt8)).length = 1 * 512 := List.length_replicate
  have hdev : blkdevFromMemory (List.replicate 512 0) = some (memDevice (1 * 512)) := by
    unfold blkdevFromMemory
    rw [hlen, if_neg (by decide)]
  have hr := h (List.replicate 512 0) 1 _ hlen (by rw [hlen]; decide) hdev 0 1
  rcases (rangeChecked_iff ⟨hlen, by decide⟩ 0 1).mp hr with h1 | ⟨h1, -⟩
  · exact absurd h1 (by decide)
  · exact absurd h1 (by decide)

end LsvmTools.MemBlkdev
