import LsvmTools.Vfat.Files

/-! # Mounting

`VFATInit` computes the layout of the volume from fields of the boot sector that nobody has
checked. Two things can go wrong in the computation, the divisions and the difference
`DataSec`, and the sizes need not go together. -/
namespace LsvmTools.Vfat.Mount
open Lib.ByteString Lib.Program BlockDevice Volume Entries Files

theorem length_getN {dev : Blkdev} {blkno n : Nat} {data : Bytes}
    (h : getN dev blkno n = some data) : data.length = n * 512 := by
  unfold getN at h
  split at h
  · injection h with h
    rw [← h, length_readMem]
  · cases h

/-- The parameter block in the first sector. -/
def readBPB (dev : Blkdev) : Out Fail BPB :=
  match h : getN dev 0 1 with
  | some raw => .ok ⟨raw, length_getN h⟩
  | none => .err .io

/-- The bytes of `jmpBoot` that are tested. -/
def jmpBootOk (bpb : BPB) : Bool :=
  (byteAt bpb.raw 0 = 0xEB && byteAt bpb.raw 2 = 0x90) || byteAt bpb.raw 0 = 0xE9

/-- The sector with the signatures, which only a volume with 32-bit entries has. -/
def checkFSInfo (dev : Blkdev) (bpb : BPB) : FATType → Out Fail Unit
  | .fat12 | .fat16 => pure ()
  | .fat32 => do
    let fsi ← blkdevRead dev bpb.fsInfo 512
    if le32 fsi 0 ≠ 0x41615252 ∨ le32 fsi 508 ≠ 0xAA550000 then .err .failed
    else pure ()

/-- What `VFATInit` has checked once the layout is computed. -/
structure Layout where
  bpb : BPB
  bytsPerSec_eq : bpb.bytsPerSec = 512
  secPerClus_ne : bpb.secPerClus ≠ 0

/-- The values of the layout. A division by zero has no result. -/
def precompute (bpb : BPB) : Out Fail Layout :=
  if h512 : bpb.bytsPerSec = 512 then
    if h : bpb.secPerClus ≠ 0 then .ok ⟨bpb, h512, h⟩ else .stuck
  else .err .failed

/-- `VFATInit` up to the layout. -/
def checkBPB (dev : Blkdev) : Out Fail Layout := do
  let bpb ← readBPB dev
  if !jmpBootOk bpb then .err .failed
  else do
    let ty ← getFATType bpb
    checkFSInfo dev bpb ty
    precompute bpb

/-- `BlkdevRead` into a buffer with room for the bytes. There is no such buffer where there
are none. -/
def loadSectors (dev : Blkdev) (blkno nbytes : Nat) : Out Fail Bytes :=
  if nbytes = 0 then .err .failed else blkdevRead dev blkno nbytes

/-- The size of the table in bytes, a product of 32-bit words. -/
def fatBytes (bpb : BPB) : Nat := u32 (bpb.fatSz * bpb.bytsPerSec)

theorem length_loadSectors {dev : Blkdev} {blkno n : Nat} {data : Bytes}
    (h : loadSectors dev blkno n = .ok data) : data.length = n / 512 * 512 := by
  unfold loadSectors blkdevRead at h
  split at h
  · cases h
  · cases hg : getN dev blkno (n / 512) with
    | none => rw [hg] at h; cases h
    | some b =>
      rw [hg] at h
      injection h with h
      rw [← h, length_getN hg]

/-- The table, which is compared with its second copy. -/
def loadFAT (dev : Blkdev) (bpb : BPB) : Out Fail Fat :=
  match h : loadSectors dev bpb.resvdSecCnt (fatBytes bpb) with
  | .ok data => do
    let fat : Fat := ⟨data, by
      rw [length_loadSectors h]
      exact Nat.lt_of_le_of_lt (Nat.div_mul_le_self _ _) (u32_lt _)⟩
    if bpb.numFATs ≤ 1 then pure fat
    else do
      let copy ← loadSectors dev (u32 (bpb.resvdSecCnt + bpb.fatSz)) (fatBytes bpb)
      if copy ≠ data then .err .failed
      else pure fat
  | .err e => .err e
  | .stuck => .stuck

/-- The root directory: a chain of clusters on a volume with 32-bit entries, else a run of
sectors. -/
def loadRootdir (vfat : VFAT) : Out Fail Bytes :=
  match vfat.fatType with
  | .fat32 => readClusters vfat vfat.bpb.rootClus
  | .fat12 | .fat16 =>
    loadSectors vfat.dev vfat.bpb.firstRootDirSecNum
      (u32 (vfat.bpb.rootDirSectors * vfat.bpb.bytsPerSec))

/-- `VFATInit`. -/
def vfatInit (dev : Blkdev) : Out Fail VFAT := do
  let layout ← checkBPB dev
  let fat ← loadFAT dev layout.bpb
  let vfat : VFAT := ⟨layout.bpb, layout.bytsPerSec_eq, layout.secPerClus_ne,
    layout.bpb.fatType, rfl, dev, fat, []⟩
  let rootdir ← loadRootdir vfat
  pure { vfat with rootdir := rootdir }

/-! ## Safety -/

/-- Neither function divides by zero, and `DataSec` is the difference. -/
structure NoFault (bpb : BPB) : Prop where
  getFATType : getFATType bpb ≠ .stuck
  init : ∀ dev, readBPB dev = .ok bpb → checkBPB dev ≠ .stuck
  dataSec : bpb.dataSec + bpb.firstDataSector = bpb.totSec

/-- Every cluster has its entry in the loaded table and its sectors below the total. -/
def Covers (vfat : VFAT) : Prop :=
  ∀ c, 2 ≤ c → c ≤ vfat.countOfClusters + 1 →
    fatOffset vfat.fatType c + width vfat.fatType ≤ vfat.fat.data.length ∧
      firstSectorOfCluster vfat c + vfat.bpb.secPerClus ≤ vfat.bpb.totSec

variable {bpb : BPB} {vfat : VFAT} {dev : Blkdev}

theorem totSec_lt (bpb : BPB) : bpb.totSec < 2 ^ 32 := by
  unfold BPB.totSec
  split
  · exact Nat.lt_trans (le16_lt _ _) (by norm_num)
  · exact le32_lt _ _

theorem firstDataSector_lt (bpb : BPB) : bpb.firstDataSector < 2 ^ 32 := by
  unfold BPB.firstDataSector
  exact u32_lt _

theorem dataSec_iff (bpb : BPB) :
    bpb.dataSec + bpb.firstDataSector = bpb.totSec ↔ bpb.firstDataSector ≤ bpb.totSec := by
  have h1 := totSec_lt bpb
  have h2 := firstDataSector_lt bpb
  unfold BPB.dataSec u32
  omega

theorem blkdevRead_ne_stuck (dev : Blkdev) (blkno n : Nat) : blkdevRead dev blkno n ≠ .stuck := by
  unfold blkdevRead
  split
  · exact fun h => by cases h
  · cases getN dev blkno (n / 512) <;> exact fun h => by cases h

theorem checkFSInfo_ne_stuck (dev : Blkdev) (bpb : BPB) (ty : FATType) :
    checkFSInfo dev bpb ty ≠ .stuck := by
  cases ty with
  | fat12 => exact fun h => by cases h
  | fat16 => exact fun h => by cases h
  | fat32 =>
    unfold checkFSInfo
    dsimp only
    cases h : blkdevRead dev bpb.fsInfo 512 with
    | stuck => exact absurd h (blkdevRead_ne_stuck _ _ _)
    | err e => exact fun h => by cases h
    | ok fsi =>
      rw [Out.ok_bind]
      split
      · exact fun h => by cases h
      · exact fun h => by cases h

/-- With divisors that are not zero the computation has a result. -/
theorem checkBPB_ne_stuck (h : readBPB dev = .ok bpb) (hb : bpb.bytsPerSec ≠ 0)
    (hs : bpb.secPerClus ≠ 0) : checkBPB dev ≠ .stuck := by
  unfold checkBPB
  rw [h, Out.ok_bind]
  split
  · exact fun h => by cases h
  · rw [getFATType, if_neg (fun h => h.elim hb hs), Out.ok_bind]
    cases hc : checkFSInfo dev bpb bpb.fatType with
    | stuck => exact absurd hc (checkFSInfo_ne_stuck _ _ _)
    | err e => exact fun h => by cases h
    | ok u =>
      rw [Out.ok_bind, precompute]
      split
      · exact fun h => by cases h
      · exact fun h => by cases h

theorem noFault_iff (bpb : BPB) : NoFault bpb ↔
    bpb.bytsPerSec ≠ 0 ∧ bpb.secPerClus ≠ 0 ∧ bpb.firstDataSector ≤ bpb.totSec := by
  constructor
  · intro h
    have hdiv : ¬ (bpb.bytsPerSec = 0 ∨ bpb.secPerClus = 0) := fun h0 =>
      h.getFATType (by rw [getFATType, if_pos h0])
    rw [not_or] at hdiv
    exact ⟨hdiv.1, hdiv.2, (dataSec_iff bpb).mp h.dataSec⟩
  · rintro ⟨hb, hs, hle⟩
    refine ⟨?_, fun dev hd => checkBPB_ne_stuck hd hb hs, (dataSec_iff bpb).mpr hle⟩
    rw [getFATType, if_neg (fun h => h.elim hb hs)]
    exact fun h => by cases h

/-! ## What a mounted volume covers -/

theorem place_mono (ty : FATType) {c d : Nat} (h : c ≤ d) : place ty c ≤ place ty d := by
  cases ty <;> simp only [place] <;> omega

/-- All entries up to `n` lie inside the table exactly if the last one does, also where the
offset wraps around. -/
theorem inside_all_iff {ty : FATType} {len n : Nat} (hl : len < 2 ^ 32) (hn : 2 ≤ n) :
    (∀ c, 2 ≤ c → c ≤ n → fatOffset ty c + width ty ≤ len) ↔ place ty n + width ty ≤ len := by
  constructor
  · intro h
    by_cases hlt : place ty n < 2 ^ 32
    · have := h n hn (Nat.le_refl _)
      rwa [fatOffset_eq hlt] at this
    · -- the last entry before the offset wraps around lies at the end of 2^32 bytes
      exfalso
      cases ty with
      | fat12 =>
        simp only [place] at hlt
        have := h 2863311530 (by omega) (by omega)
        rw [fatOffset_eq (by simp only [place]; omega)] at this
        simp only [place, width] at this
        omega
      | fat16 =>
        simp only [place] at hlt
        have := h 2147483647 (by omega) (by omega)
        rw [fatOffset_eq (by simp only [place]; omega)] at this
        simp only [place, width] at this
        omega
      | fat32 =>
        simp only [place] at hlt
        have := h 1073741823 (by omega) (by omega)
        rw [fatOffset_eq (by simp only [place]; omega)] at this
        simp only [place, width] at this
        omega
  · intro h c _ hc
    have hp := place_mono ty hc
    rw [fatOffset_eq (by omega)]
    omega

/-- The sectors of the last cluster end at or below the total where the data sectors do. -/
theorem sectors_below (h : vfat.bpb.firstDataSector ≤ vfat.bpb.totSec) {c : Nat} (h2 : 2 ≤ c)
    (hc : c ≤ vfat.countOfClusters + 1) :
    firstSectorOfCluster vfat c + vfat.bpb.secPerClus ≤ vfat.bpb.totSec := by
  have hdata := (dataSec_iff vfat.bpb).mpr h
  have htot := totSec_lt vfat.bpb
  have hmul : (c - 2 + 1) * vfat.bpb.secPerClus ≤ vfat.bpb.dataSec :=
    Nat.le_trans (Nat.mul_le_mul_right _ (show c - 2 + 1 ≤ vfat.countOfClusters by omega))
      (Nat.div_mul_le_self _ _)
  rw [Nat.succ_mul] at hmul
  have hfirst : firstSectorOfCluster vfat c =
      (c - 2) * vfat.bpb.secPerClus + vfat.bpb.firstDataSector := by
    unfold firstSectorOfCluster
    have hsplit : c + 2 ^ 32 - 2 = 2 ^ 32 + (c - 2) := by omega
    rw [hsplit, Nat.add_mul, Nat.add_assoc]
    unfold u32
    rw [Nat.mul_add_mod, Nat.mod_eq_of_lt (by omega)]
  omega

theorem first_cluster (vfat : VFAT) : firstSectorOfCluster vfat 2 = vfat.bpb.firstDataSector := by
  have h := firstDataSector_lt vfat.bpb
  unfold firstSectorOfCluster u32
  rw [Nat.add_sub_cancel_left, Nat.mul_add_mod, Nat.mod_eq_of_lt h]

theorem covers_iff_of_size (vfat : VFAT) : Covers vfat ↔ vfat.countOfClusters = 0 ∨
    (vfat.bpb.firstDataSector ≤ vfat.bpb.totSec ∧
      place vfat.fatType (vfat.countOfClusters + 1) + width vfat.fatType ≤
        vfat.fat.data.length) := by
  by_cases h0 : vfat.countOfClusters = 0
  · refine ⟨fun _ => .inl h0, fun _ c h2 hc => ?_⟩
    rw [h0] at hc
    omega
  · have hn : 2 ≤ vfat.countOfClusters + 1 := by omega
    rw [or_iff_right h0, ← inside_all_iff vfat.fat.size_lt hn]
    constructor
    · intro h
      have h2 := (h 2 (Nat.le_refl _) hn).2
      rw [first_cluster] at h2
      exact ⟨by omega, fun c hc hle => (h c hc hle).1⟩
    · rintro ⟨hle, hin⟩ c h2 hc
      exact ⟨hin c h2 hc, sectors_below hle h2 hc⟩

theorem loadFAT_length {fat : Fat} (h512 : bpb.bytsPerSec = 512)
    (h : loadFAT dev bpb = .ok fat) : fat.data.length = u32 (bpb.fatSz * 512) := by
  have hround : fatBytes bpb / 512 * 512 = u32 (bpb.fatSz * 512) := by
    unfold fatBytes u32
    rw [h512]
    omega
  unfold loadFAT at h
  split at h
  · rename_i data hload
    dsimp only at h
    have hdata : fat.data = data := by
      split at h
      · injection h with h
        rw [← h]
      · obtain ⟨copy, -, h⟩ := Out.bind_eq_ok.mp h
        split at h
        · cases h
        · injection h with h
          rw [← h]
    rw [hdata, length_loadSectors hload, hround]
  · cases h
  · cases h

theorem vfatInit_fat (h : vfatInit dev = .ok vfat) :
    vfat.fat.data.length = u32 (vfat.bpb.fatSz * 512) := by
  obtain ⟨layout, -, h⟩ := Out.bind_eq_ok.mp h
  obtain ⟨fat, hfat, h⟩ := Out.bind_eq_ok.mp h
  obtain ⟨rootdir, -, h⟩ := Out.bind_eq_ok.mp h
  injection h with h
  rw [← h]
  exact loadFAT_length layout.bytsPerSec_eq hfat

/-- A device with a parameter block in its first sector and zeroes behind it. -/
def bootDevice (bpb : BPB) : Blkdev :=
  ⟨bpb.totSec, fun a => byteAt bpb.raw a, fun _ => true, fun _ => true⟩

end LsvmTools.Vfat.Mount
