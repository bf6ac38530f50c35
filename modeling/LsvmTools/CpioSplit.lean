import LsvmTools.CpioAdd
import LsvmTools.CpioSafe

/-! # Splitting an initrd

`CPIOSplitFile` takes every archive to be padded to whole blocks. Its subfiles are a
partition of the buffer where no archive before the eighth subfile reaches out of the
buffer, and one that does makes the count of remaining bytes wrap. -/
namespace LsvmTools.CpioSplit
open Lib.ByteString Lib.Program Lib.Loop Strings Cpio CpioFormat CpioAdd CpioSafe

variable {b : Buffer} {d e h : Int} {subs : List Subfile}

/-! ## Partitions -/

/-- The subfiles follow one another from `d` to `e`, none of them empty. -/
def Tiles : Int → List Subfile → Int → Prop
  | d, [], e => d = e
  | d, s :: subs, e => s.data = d ∧ 0 < s.size ∧ Tiles (d + s.size) subs e

theorem Tiles.append {x : Int} (h : Tiles d subs e) (hx : 0 < x) :
    Tiles d (subs ++ [⟨e, x⟩]) (e + x) := by
  induction subs generalizing d with
  | nil => exact ⟨h.symm, hx, congrArg (· + x) h⟩
  | cons s subs ih => exact ⟨h.1, h.2.1, ih h.2.2⟩

theorem Tiles.le (h : Tiles d subs e) : d ≤ e := by
  induction subs generalizing d with
  | nil => exact Int.le_of_eq h
  | cons s subs ih =>
    have := ih h.2.2
    have := h.2.1
    omega

theorem Tiles.mem {s : Subfile} (h : Tiles d subs e) (hs : s ∈ subs) :
    d ≤ s.data ∧ s.data + s.size ≤ e := by
  induction subs generalizing d with
  | nil => cases hs
  | cons s' subs ih =>
    obtain ⟨h1, h2, h3⟩ := h
    rcases List.mem_cons.mp hs with rfl | hs
    · have := h3.le
      omega
    · have := ih h3 hs
      omega

/-- The bytes of a subfile. -/
def slice (b : Buffer) (s : Subfile) : Bytes := (b.data.drop s.data.toNat).take s.size.toNat

theorem Tiles.concat (h : Tiles d subs e) (hd : 0 ≤ d) :
    subs.flatMap (slice b) = (b.data.drop d.toNat).take (e - d).toNat := by
  induction subs generalizing d with
  | nil =>
    rw [show d = e from h, Int.sub_self]
    rfl
  | cons s subs ih =>
    obtain ⟨h1, h2, h3⟩ := h
    have hle := h3.le
    rw [List.flatMap_cons, ih h3 (by omega), slice, h1,
      show (e - d).toNat = s.size.toNat + (e - (d + s.size)).toNat by omega, List.take_add,
      List.drop_drop, show (d + s.size).toNat = d.toNat + s.size.toNat by omega]

/-- The subfiles are a partition of the buffer into archives, but for the last one. -/
structure Partition (b : Buffer) (subs : List Subfile) : Prop where
  tiles : Tiles 0 subs b.size
  concat : subs.flatMap (slice b) = b.data
  magic : ∀ s ∈ subs.dropLast, cpioMatchMagicNumber (b.header s.data).magic = true
  count : subs.length ≤ 8

theorem partition_of_tiles (h : Tiles 0 subs b.size)
    (hm : ∀ s ∈ subs.dropLast, cpioMatchMagicNumber (b.header s.data).magic = true)
    (hc : subs.length ≤ 8) : Partition b subs where
  tiles := h
  concat := by
    rw [h.concat (Int.le_refl _)]
    exact List.take_of_length_le (by simp [Buffer.size])
  magic := hm
  count := hc

/-- No archive before the eighth subfile reaches out of the buffer. -/
def ArchivesEnd (b : Buffer) : Prop :=
  ∀ i d h, SubfileAt b i d → i < 7 → TrailerAt b d h →
    0 ≤ archiveSize b d h ∧ d + archiveSize b d h ≤ b.size

/-! ## The condition is enough -/

/-- What the outer loop keeps. -/
inductive Inv (b : Buffer) (s : Split) : Prop
  /-- It is at a subfile, after archives. -/
  | atSubfile (hs : SubfileAt b s.subfiles.length s.data) (hd : s.size = b.size - s.data)
      (ht : Tiles 0 s.subfiles s.data)
      (hm : ∀ x ∈ s.subfiles, cpioMatchMagicNumber (b.header x.data).magic = true)
      (h8 : s.subfiles.length ≤ 8)
  /-- It has come to the end of the buffer. -/
  | atEnd (h0 : s.size = 0) (ht : Tiles 0 s.subfiles b.size)
      (hm : ∀ x ∈ s.subfiles.dropLast, cpioMatchMagicNumber (b.header x.data).magic = true)
      (h8 : s.subfiles.length ≤ 8)
  /-- The array is full. -/
  | full (h8 : 8 ≤ s.subfiles.length) (h0 : s.size ≠ 0)
  /-- It is at an archive of no size, which it does not leave. -/
  | stays {h : Int} (h1 : s.data ≤ b.size) (h0 : 0 ≤ s.data) (hd : s.size = b.size - s.data)
      (hn : s.size ≠ 0) (ht : TrailerAt b s.data h) (ha : archiveSize b s.data h = 0)

theorem Inv.next (ha : ArchivesEnd b) {s t : Split} (hs : Inv b s)
    (hr : (splitRound b s).Ends (.ok (.next t))) : Inv b t := by
  obtain ⟨h0, h8, r, hsize, rfl⟩ := splitRound_next hr
  have hlt := size_lt b
  cases hs with
  | atEnd h => exact absurd h h0
  | full h => omega
  | @stays h h1 hd0 hd hn ht ha =>
    rw [hd] at hsize
    cases (subfileSize_trailer h1 ht).unique hsize
    have hu : toUintn 0 = 0 := toUintn_of_lt (by decide) (by decide)
    rw [ha, hu, Int.add_zero, Int.sub_zero, toPtr_of_lt (by omega) (by omega), hd,
      toUintn_of_lt (by omega) (by omega)]
    exact .stays h1 hd0 rfl (by simp only; omega) ht ha
  | atSubfile hs hd ht hm _ =>
    obtain ⟨hd0, hd1⟩ := hs.inside
    rw [hd] at hsize
    have hlen : (s.subfiles ++ [(⟨s.data, r⟩ : Subfile)]).length = s.subfiles.length + 1 := by
      rw [List.length_append, List.length_singleton]
    rcases subfileSize_ok hsize with ⟨rfl, -⟩ | ⟨h, htr, rfl⟩
    · have htiles := ht.append (x := b.size - s.data) (by omega)
      rw [show s.data + (b.size - s.data) = b.size by omega] at htiles
      refine .atEnd ?_ htiles ?_ (by simp only [hlen]; omega)
      · rw [hd, Int.sub_self, toUintn_of_lt (by decide) (by decide)]
      · simp only [List.dropLast_concat]
        exact hm
    · have hmagic : ∀ x ∈ s.subfiles ++ [⟨s.data, toUintn (archiveSize b s.data h)⟩],
          cpioMatchMagicNumber (b.header x.data).magic = true := by
        intro x hx
        rcases List.mem_append.mp hx with hx | hx
        · exact hm x hx
        · rw [List.mem_singleton.mp hx]
          exact (check_ok htr.check).2.1
      rw [toPtr_add_toUintn, toUintn_sub_toUintn, hd]
      by_cases h7 : s.subfiles.length < 7
      · obtain ⟨ha0, ha1⟩ := ha _ _ _ hs h7 htr
        rw [toUintn_of_lt ha0 (by omega)] at hlen hmagic ⊢
        rw [toPtr_of_lt (by omega) (by omega), toUintn_of_lt (by omega) (by omega)]
        rcases Int.le_iff_eq_or_lt.mp ha0 with hz | hpos
        · rw [← hz, Int.add_zero, Int.sub_zero]
          exact .stays (h := h) hd1 hd0 rfl (by simp only; omega) htr hz.symm
        · refine .atSubfile ?_ (by simp only; omega) (ht.append hpos) hmagic
            (by simp only [hlen]; omega)
          simp only [hlen]
          exact .next hs htr (by omega) ha1
      · by_cases hz : toUintn (b.size - s.data - archiveSize b s.data h) = 0
        · have hrange := archiveSize_lt b s.data h
          have hsum : archiveSize b s.data h = b.size - s.data := by
            unfold toUintn at hz
            omega
          have htiles := ht.append (x := b.size - s.data) (by omega)
          rw [show s.data + (b.size - s.data) = b.size by omega] at htiles
          have hsize : toUintn (archiveSize b s.data h) = b.size - s.data := by
            rw [hsum, toUintn_of_lt (by omega) (by omega)]
          rw [hsize] at hlen hmagic ⊢
          exact .atEnd hz htiles (fun x hx => hmagic x (List.dropLast_subset _ hx))
            (by simp only [hlen]; omega)
        · exact .full (by simp only [hlen]; omega) hz

/-! ## The condition is needed -/

theorem splitRound_done {s : Split} {subs : List Subfile}
    (hr : (splitRound b s).Ends (.ok (.done subs))) : s.size = 0 ∧ subs = s.subfiles := by
  unfold splitRound at hr
  split at hr
  · rename_i h0
    cases Exec.ends_pure.mp hr
    exact ⟨h0, rfl⟩
  · split at hr
    · cases Exec.ends_of.mp hr
    · obtain ⟨r, -, hr⟩ := Exec.ends_bind_ok.mp hr
      cases Exec.ends_pure.mp hr

theorem cpioSplitFile_ok (h : (cpioSplitFile b).Ends (.ok subs)) :
    (Exec.loop (splitRound b) ⟨0, b.size, []⟩).Ends (.ok subs) := by
  unfold cpioSplitFile at h
  split at h
  · cases Exec.ends_of.mp h
  · exact h

/-- The subfiles of a state that the loop comes to are subfiles of the result. -/
theorem starts_mem {s : Split} {x : Subfile} (hs : Starts b s) (hx : x ∈ s.subfiles)
    (h : (cpioSplitFile b).Ends (.ok subs)) : x ∈ subs := by
  have hloop : (Exec.loop (splitRound b) s).Ends (.ok subs) := by
    clear hx
    induction hs with
    | refl => exact cpioSplitFile_ok h
    | tail _ hr ih => exact (Exec.loop_next hr).mp ih
  obtain ⟨t, ht, hdone⟩ := Exec.loop_ok (fun t => x ∈ t.subfiles) (fun s t hs hr => by
    obtain ⟨-, -, r, -, rfl⟩ := splitRound_next hr
    exact List.mem_append_left _ hs) hx hloop
  rw [(splitRound_done hdone).2]
  exact ht

/-- What `CPIOSplitFile` delivers is a partition of the buffer exactly where no archive
before the eighth subfile reaches out of the buffer. -/
theorem partition_iff (h : (cpioSplitFile b).Ends (.ok subs)) :
    Partition b subs ↔ ArchivesEnd b := by
  constructor
  · intro hp i d e hs hi ht
    obtain ⟨subs', hlen, hstart⟩ := hs.starts (by omega)
    have hmem := starts_mem (hstart.tail (splitRound_trailer (by omega) hs.inside.2 ht))
      (List.mem_append_right _ (List.mem_singleton_self _)) h
    have hle := (hp.tiles.mem hmem).2
    have hlt := size_lt b
    have hrange := archiveSize_lt b d e
    have hd := hs.inside.1
    simp only at hle
    by_cases h0 : 0 ≤ archiveSize b d e
    · rw [toUintn_of_lt h0 (by omega)] at hle
      exact ⟨h0, hle⟩
    · unfold toUintn at hle
      omega
  · intro ha
    have hstart : Inv b ⟨0, b.size, []⟩ :=
      .atSubfile .first (Int.sub_zero _).symm (show Tiles 0 [] 0 from rfl)
        (fun _ hx => by cases hx) (Nat.zero_le _)
    obtain ⟨t, hi, hdone⟩ :=
      Exec.loop_ok (Inv b) (fun _ _ => Inv.next ha) hstart (cpioSplitFile_ok h)
    obtain ⟨h0, rfl⟩ := splitRound_done hdone
    cases hi with
    | atSubfile hs hd ht hm h8 =>
      rw [show t.data = b.size by omega] at ht
      exact partition_of_tiles ht (fun x hx => hm x (List.dropLast_subset _ hx)) h8
    | atEnd _ ht hm h8 => exact partition_of_tiles ht hm h8
    | full _ hn => exact absurd h0 hn
    | stays _ _ _ hn => exact absurd h0 hn

/-- An archive of no files that is padded to a block, and a byte of something else. -/
def paddedBuffer : Buffer where
  data := emptyBuffer.data ++ List.replicate 388 0 ++ [31]
  around _ := 0
  size_lt := by decide +kernel

theorem partition_iff_padded :
    (cpioSplitFile paddedBuffer).Ends (.ok [⟨0, 512⟩, ⟨512, 1⟩]) ∧
      (Partition paddedBuffer [⟨0, 512⟩, ⟨512, 1⟩] ↔ ArchivesEnd paddedBuffer) :=
  have hr : (cpioSplitFile paddedBuffer).Ends (.ok [⟨0, 512⟩, ⟨512, 1⟩]) :=
    ⟨5, by decide +kernel⟩
  ⟨hr, partition_iff hr⟩

/-- Without the padding the count of remaining bytes wraps: the second subfile starts
beyond the buffer and has almost 2^64 bytes. -/
theorem unpadded_split :
    (cpioSplitFile emptyBuffer).Ends (.ok [⟨0, 512⟩, ⟨512, 2 ^ 64 - 388⟩]) ∧
      ¬ Partition emptyBuffer [⟨0, 512⟩, ⟨512, 2 ^ 64 - 388⟩] := by
  refine ⟨⟨5, by decide +kernel⟩, fun hp => ?_⟩
  have hmem := hp.tiles.mem (List.mem_cons_self ..)
  have hsize : emptyBuffer.size = 124 := congrArg Nat.cast length_emptyArchive
  simp only [hsize] at hmem
  omega

end LsvmTools.CpioSplit
