import LsvmTools.Vfat.Put

/-! # Small volumes

Volumes with 12-bit entries, as they are made for small devices: what a directory holds that has
been filled from its beginning, where clusters are, and what a chain of them holds. -/
namespace LsvmTools.Vfat.Layout
open Lib.ByteString Lib.Program BlockDevice Strings Volume Entries Alloc Walk Files Shortname Lookup
open Put

/-! ## Directories -/

/-- The data of a directory with room for `m` entries, the first of which are `es`. -/
def dirBytes (m : Nat) (es : List DirectoryEntry) : Bytes :=
  es.flatMap (·.raw) ++ List.replicate (32 * (m - es.length)) 0

theorem length_zeroes : (List.replicate 32 (0 : UInt8)).length = 32 := List.length_replicate

def zeroEntry : DirectoryEntry := ⟨List.replicate 32 0, length_zeroes⟩

/-- Neither the end marker nor deleted nor part of a long name. -/
structure Plain (e : DirectoryEntry) : Prop where
  used : isEnd e = false
  candidate : isCandidate e = true

section Directory

variable {m : Nat} {e : DirectoryEntry} {es : List DirectoryEntry} {rest : Bytes}

theorem entries_append : entries (e.raw ++ rest) = e :: entries rest := by
  have hlen : (e.raw ++ rest).length / 32 = rest.length / 32 + 1 := by
    rw [List.length_append, e.size]
    omega
  apply List.ext_getElem
  · simp only [entries, List.length_ofFn, List.length_cons, hlen]
  · intro i h1 h2
    cases i with
    | zero =>
      refine entry_ext ?_
      simp only [entries, List.getElem_ofFn, entryNo, List.getElem_cons_zero, Nat.mul_zero,
        List.drop_zero]
      exact take_of_length e.size
    | succ i =>
      refine entry_ext ?_
      simp only [entries, List.getElem_ofFn, entryNo, List.getElem_cons_succ]
      rw [show 32 * (i + 1) = e.raw.length + 32 * i by rw [e.size]; omega, List.drop_append,
        List.drop_eq_nil_of_le (Nat.le_add_right _ _), List.nil_append, Nat.add_sub_cancel_left]

theorem entries_zeroes (k : Nat) :
    entries (List.replicate (32 * k) 0) = List.replicate k zeroEntry := by
  induction k with
  | zero => rfl
  | succ k ih =>
    have hsplit : List.replicate (32 * (k + 1)) (0 : UInt8) =
        zeroEntry.raw ++ List.replicate (32 * k) 0 := by
      rw [zeroEntry, List.replicate_append_replicate, Nat.mul_succ, Nat.add_comm]
    rw [hsplit, entries_append, ih, List.replicate_succ]

theorem entries_dirBytes (m : Nat) (es : List DirectoryEntry) :
    entries (dirBytes m es) = es ++ List.replicate (m - es.length) zeroEntry := by
  have h : ∀ k, entries (es.flatMap (·.raw) ++ List.replicate (32 * k) 0) =
      es ++ List.replicate k zeroEntry := by
    intro k
    induction es with
    | nil => exact entries_zeroes k
    | cons e es ih => rw [List.flatMap_cons, List.append_assoc, entries_append, ih, List.cons_append]
  exact h _

theorem length_raws (es : List DirectoryEntry) : (es.flatMap (·.raw)).length = 32 * es.length := by
  induction es with
  | nil => rfl
  | cons e es ih =>
    rw [List.flatMap_cons, List.length_append, ih, e.size, List.length_cons]
    omega

theorem length_dirBytes (h : es.length ≤ m) : (dirBytes m es).length = 32 * m := by
  rw [dirBytes, List.length_append, length_raws, List.length_replicate]
  omega

theorem isEnd_zeroEntry : isEnd zeroEntry = true := by decide

/-- The entries before the end marker. -/
theorem visible_dirBytes (hp : ∀ e ∈ es, Plain e) : visible (dirBytes m es) = es := by
  rw [visible, entries_dirBytes, List.takeWhile_append_of_pos]
  · cases m - es.length with
    | zero => rw [List.replicate_zero, List.takeWhile_nil, List.append_nil]
    | succ k =>
      rw [List.replicate_succ, List.takeWhile_cons, isEnd_zeroEntry, Bool.not_true,
        if_neg Bool.false_ne_true, List.append_nil]
  · intro e he
    rw [(hp e he).used]
    rfl

/-- Looking for a name in a directory that has an end marker. -/
theorem find_dirBytes (hp : ∀ e ∈ es, Plain e) (hm : es.length < m) {c name : Bytes}
    (hc : fixName c = some name) : findDirectoryEntry c (dirBytes m es) =
      Out.ofOption .failed (es.find? fun e => e.name = name) := by
  have hne : dirBytes m es ≠ [] := by
    intro h0
    have hlen := length_dirBytes (Nat.le_of_lt hm)
    rw [h0, List.length_nil] at hlen
    omega
  have hfirst : firstNamed name (dirBytes m es) = es.find? fun e => e.name = name := by
    rw [firstNamed, visible_dirBytes hp]
    refine List.find?_congr fun e he => ?_
    rw [(hp e he).candidate, Bool.true_and]
  have hend : (entries (dirBytes m es)).any isEnd = true := by
    rw [entries_dirBytes, List.any_append, Bool.or_eq_true]
    right
    obtain ⟨k, hk⟩ := Nat.exists_eq_add_of_lt hm
    rw [show m - es.length = k + 1 by omega, List.replicate_succ, List.any_cons, isEnd_zeroEntry,
      Bool.true_or]
  rw [find_eq hne hc, hfirst, if_pos hend]
  cases es.find? fun e => e.name = name <;> rfl

/-- The first entry that can be used is the one behind those that are there. -/
theorem freeSlot_dirBytes (hp : ∀ e ∈ es, Plain e) (hm : es.length < m) :
    freeSlot (dirBytes m es) = some es.length := by
  obtain ⟨k, hk⟩ := Nat.exists_eq_add_of_lt hm
  have hused : es.findIdx? (fun de => isEnd de || byteAt de.raw 0 = 0xE5) = none := by
    rw [List.findIdx?_eq_none_iff]
    intro e he
    have hcand := (hp e he).candidate
    rw [isCandidate, Bool.and_eq_true] at hcand
    rw [(hp e he).used, Bool.false_or, decide_eq_false_iff_not]
    exact of_decide_eq_true hcand.1
  rw [freeSlot, entries_dirBytes, show m - es.length = k + 1 by omega, List.replicate_succ,
    List.findIdx?_append, hused, List.findIdx?_cons, isEnd_zeroEntry, Bool.true_or]
  simp

theorem splice_dirBytes (hm : es.length < m) :
    splice (dirBytes m es) (32 * es.length) e.raw = dirBytes m (es ++ [e]) := by
  have hlen := length_raws es
  have hsplit : List.replicate (32 * (m - es.length)) (0 : UInt8) =
      List.replicate 32 0 ++ List.replicate (32 * (m - (es.length + 1))) 0 := by
    rw [List.replicate_append_replicate]
    congr 1; omega
  rw [splice, dirBytes, take_of_length hlen, e.size, ← List.drop_drop, drop_of_length hlen, hsplit,
    drop_of_length List.length_replicate, dirBytes, List.flatMap_append, List.flatMap_singleton,
    List.length_append, List.length_singleton]

end Directory

/-! ## Clusters -/

/-- The sectors that the volume takes. -/
def sectors (vfat : VFAT) : Nat :=
  vfat.bpb.resvdSecCnt + vfat.bpb.numFATs * vfat.bpb.fatSz + vfat.bpb.rootDirSectors +
    vfat.countOfClusters * vfat.bpb.secPerClus

/-- The number of entries that the root directory has room for. -/
def rootEntries (vfat : VFAT) : Nat := 16 * vfat.bpb.rootDirSectors

/-- The number of entries that a cluster has room for. -/
def clusterEntries (vfat : VFAT) : Nat := 16 * vfat.bpb.secPerClus

/-- A volume as it is made for a small device: the table has 12-bit entries, one for each
cluster, there is a root directory, and everything is on the device. -/
structure Laid (vfat : VFAT) : Prop where
  type : vfat.fatType = .fat12
  table : vfat.fat.data.length = vfat.bpb.fatSz * 512
  inside : Inside .fat12 vfat.fat.data (vfat.countOfClusters + 1)
  root : 0 < vfat.bpb.rootDirSectors
  sectors_lt : sectors vfat < 2 ^ 32
  dev : Sound vfat.dev (sectors vfat)

/-- The number is one of a cluster. -/
def InRange (vfat : VFAT) (c : Nat) : Prop := 2 ≤ c ∧ c ≤ vfat.countOfClusters + 1

def clusterData (vfat : VFAT) (c : Nat) : Bytes :=
  readMem vfat.dev.data (firstSectorOfCluster vfat c * 512) vfat.clusterSize

section Laid

variable {vfat : VFAT} {c : Nat} {cs : List Nat}

theorem Laid.count_lt (h : Laid vfat) : vfat.countOfClusters < 4085 := by
  have htype := h.type
  rw [vfat.fatType_eq, BPB.fatType] at htype
  split at htype
  · assumption
  · split at htype <;> cases htype

/-- What is in memory may change, but for the size of the table. -/
theorem Laid.congr {vfat' : VFAT} (h : Laid vfat) (hbpb : vfat'.bpb = vfat.bpb)
    (hlen : vfat'.fat.data.length = vfat.fat.data.length)
    (hdev : Sound vfat'.dev (sectors vfat)) : Laid vfat' := by
  have hcount : vfat'.countOfClusters = vfat.countOfClusters := by
    rw [VFAT.countOfClusters, hbpb, VFAT.countOfClusters]
  have hsectors : sectors vfat' = sectors vfat := by rw [sectors, hcount, hbpb, sectors]
  refine ⟨?_, ?_, ?_, ?_, ?_, ?_⟩
  · rw [vfat'.fatType_eq, hbpb, ← vfat.fatType_eq, h.type]
  · rw [hlen, hbpb, h.table]
  · rw [hcount]
    exact h.inside.congr hlen
  · rw [hbpb]
    exact h.root
  · rw [hsectors]
    exact h.sectors_lt
  · rwa [hsectors]

theorem Laid.rootdirClustno (h : Laid vfat) : vfat.rootdirClustno = 0 := by
  rw [VFAT.rootdirClustno, h.type, if_neg (by decide)]

theorem Laid.firstRootDirSecNum (h : Laid vfat) : vfat.bpb.firstRootDirSecNum =
    vfat.bpb.resvdSecCnt + vfat.bpb.numFATs * vfat.bpb.fatSz := by
  have hlt := h.sectors_lt
  unfold sectors at hlt
  have hfats : u32 (vfat.bpb.numFATs * vfat.bpb.fatSz) = vfat.bpb.numFATs * vfat.bpb.fatSz :=
    u32_of_lt (by omega)
  rw [BPB.firstRootDirSecNum, hfats, u32_of_lt (by omega)]

theorem Laid.firstDataSector (h : Laid vfat) : vfat.bpb.firstDataSector =
    vfat.bpb.resvdSecCnt + vfat.bpb.numFATs * vfat.bpb.fatSz + vfat.bpb.rootDirSectors := by
  have hlt := h.sectors_lt
  unfold sectors at hlt
  have hfats : u32 (vfat.bpb.numFATs * vfat.bpb.fatSz) = vfat.bpb.numFATs * vfat.bpb.fatSz :=
    u32_of_lt (by omega)
  rw [BPB.firstDataSector, hfats, u32_of_lt (by omega)]

/-- Where a cluster is. -/
theorem Laid.firstSector (h : Laid vfat) (hc : InRange vfat c) : firstSectorOfCluster vfat c =
    vfat.bpb.firstDataSector + (c - 2) * vfat.bpb.secPerClus ∧
      firstSectorOfCluster vfat c + vfat.bpb.secPerClus ≤ sectors vfat := by
  obtain ⟨h2, hle⟩ := hc
  have hlt := h.sectors_lt
  have hdata := h.firstDataSector
  have hmul : (c - 2 + 1) * vfat.bpb.secPerClus ≤ vfat.countOfClusters * vfat.bpb.secPerClus :=
    Nat.mul_le_mul_right _ (by omega)
  rw [Nat.succ_mul] at hmul
  have hsum : vfat.bpb.firstDataSector + (c - 2) * vfat.bpb.secPerClus + vfat.bpb.secPerClus ≤
      sectors vfat := by
    unfold sectors
    omega
  have heq : firstSectorOfCluster vfat c =
      vfat.bpb.firstDataSector + (c - 2) * vfat.bpb.secPerClus := by
    unfold firstSectorOfCluster u32
    rw [show c + 2 ^ 32 - 2 = c - 2 + 2 ^ 32 by omega, Nat.add_mul,
      show (c - 2) * vfat.bpb.secPerClus + 2 ^ 32 * vfat.bpb.secPerClus + vfat.bpb.firstDataSector =
        vfat.bpb.firstDataSector + (c - 2) * vfat.bpb.secPerClus + 2 ^ 32 * vfat.bpb.secPerClus by
          omega, Nat.add_mul_mod_self_left, Nat.mod_eq_of_lt (by omega)]
  exact ⟨heq, heq ▸ hsum⟩

/-- Different clusters share no sector. -/
theorem Laid.apart (h : Laid vfat) {d : Nat} (hc : InRange vfat c) (hd : InRange vfat d)
    (hne : c ≠ d) : firstSectorOfCluster vfat c + vfat.bpb.secPerClus ≤ firstSectorOfCluster vfat d ∨
      firstSectorOfCluster vfat d + vfat.bpb.secPerClus ≤ firstSectorOfCluster vfat c := by
  rw [(h.firstSector hc).1, (h.firstSector hd).1]
  obtain ⟨hc2, -⟩ := hc
  obtain ⟨hd2, -⟩ := hd
  rcases Nat.lt_or_gt_of_ne hne with hlt | hlt
  · left
    have hmul : (c - 2 + 1) * vfat.bpb.secPerClus ≤ (d - 2) * vfat.bpb.secPerClus :=
      Nat.mul_le_mul_right _ (by omega)
    rw [Nat.succ_mul] at hmul
    omega
  · right
    have hmul : (d - 2 + 1) * vfat.bpb.secPerClus ≤ (c - 2) * vfat.bpb.secPerClus :=
      Nat.mul_le_mul_right _ (by omega)
    rw [Nat.succ_mul] at hmul
    omega

theorem Laid.readCluster (h : Laid vfat) (hc : InRange vfat c) :
    readCluster vfat c = .ok (clusterData vfat c) := by
  rw [readCluster_eq, getN_eq h.dev (h.firstSector hc).2, clusterData, VFAT.clusterSize_eq]
  rfl

theorem Laid.isEOF_inRange (h : Laid vfat) (hc : InRange vfat c) : isEOF vfat c = false := by
  have hcount := h.count_lt
  rw [← Bool.not_eq_true, isEOF_iff, h.type]
  unfold eofMin
  have := hc.2
  dsimp only
  omega

theorem Laid.live (h : Laid vfat) (hc : InRange vfat c) : Walk.live vfat c = true := by
  have := hc.1
  rw [Walk.live, h.isEOF_inRange hc, Bool.not_false, Bool.and_true]
  exact decide_eq_true (by omega)

theorem Laid.entryInside (h : Laid vfat) (hc : InRange vfat c) :
    Inside vfat.fatType vfat.fat.data c := by
  rw [h.type]
  exact h.inside.of_le hc.2

theorem Laid.dead_eoc (h : Laid vfat) :
    Walk.live vfat (getEOC vfat % entryMod vfat.fatType) = false := by
  have heof : isEOF vfat (getEOC vfat % entryMod vfat.fatType) = true :=
    isEOF_getEOC.mpr (by rw [h.type]; decide)
  rw [Walk.live, heof, Bool.not_true, Bool.and_false]

theorem readFrom_dead {fuel : Nat} (hc : Walk.live vfat c = false) : readFrom vfat fuel c = .ok [] := by
  cases fuel with
  | zero => rw [readFrom, hc, if_neg Bool.false_ne_true, Out.pure_eq]
  | succ fuel => rw [readFrom, hc, Bool.not_false, if_pos rfl, Out.pure_eq]

theorem Laid.readFrom (h : Laid vfat) {fuel : Nat} (hrange : ∀ d ∈ c :: cs, InRange vfat d)
    (hl : Linked vfat.fatType (getEOC vfat) vfat.fat.data (c :: cs)) (hf : cs.length < fuel) :
    Files.readFrom vfat fuel c = .ok ((c :: cs).flatMap (clusterData vfat)) := by
  induction cs generalizing c fuel with
  | nil =>
    obtain ⟨fuel, rfl⟩ := Nat.exists_eq_succ_of_ne_zero (Nat.ne_of_gt hf)
    have hc := hrange c List.mem_cons_self
    rw [Files.readFrom, h.live hc, Bool.not_true, if_neg Bool.false_ne_true, h.readCluster hc,
      Out.ok_bind, getFATEntry_inside (h.entryInside hc), Out.ok_bind,
      show entryAt vfat.fatType vfat.fat.data c = _ from hl, readFrom_dead h.dead_eoc, Out.ok_bind,
      Out.pure_eq, List.flatMap_singleton, List.append_nil]
  | cons d cs ih =>
    obtain ⟨fuel, rfl⟩ := Nat.exists_eq_succ_of_ne_zero (Nat.ne_of_gt (Nat.zero_lt_of_lt hf))
    have hc := hrange c List.mem_cons_self
    have hd := hrange d (by simp)
    have hnext : d % entryMod vfat.fatType = d :=
      Nat.mod_eq_of_lt (lt_entryMod (h.isEOF_inRange hd))
    rw [Files.readFrom, h.live hc, Bool.not_true, if_neg Bool.false_ne_true, h.readCluster hc,
      Out.ok_bind, getFATEntry_inside (h.entryInside hc), Out.ok_bind, hl.1, hnext,
      ih (fun x hx => hrange x (List.mem_cons_of_mem _ hx)) hl.2 (by simpa using hf)]
    rfl

/-- Distinct numbers of clusters are no more than the table has bytes. -/
theorem Laid.length_le (h : Laid vfat) (hrange : ∀ d ∈ cs, InRange vfat d) (hnd : cs.Nodup) :
    cs.length ≤ vfat.fat.data.length := by
  have hsub : cs ⊆ List.range' 2 vfat.countOfClusters := by
    intro d hd
    obtain ⟨h2, hle⟩ := hrange d hd
    rw [List.mem_range'_1]
    omega
  have hle := (hnd.subperm hsub).length_le
  have hin := h.inside
  unfold Inside place at hin
  rw [List.length_range'] at hle
  dsimp only at hin
  omega

/-- A chain is read cluster by cluster. -/
theorem Laid.readClusters (h : Laid vfat) (hrange : ∀ d ∈ cs, InRange vfat d) (hnd : cs.Nodup)
    (hl : Linked vfat.fatType (getEOC vfat) vfat.fat.data cs) :
    readClusters vfat (cs.headD 0) = .ok (cs.flatMap (clusterData vfat)) := by
  cases cs with
  | nil => exact readFrom_dead rfl
  | cons c cs =>
    have hle := h.length_le hrange hnd
    rw [List.length_cons] at hle
    exact h.readFrom hrange hl (by omega)

end Laid

end LsvmTools.Vfat.Layout
