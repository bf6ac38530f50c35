import LsvmTools.Vfat.Layout

/-! # Writing into clusters

What `_FlushFile`, `_FlushFAT` and the end of `_PutFile` do to a small volume: which clusters
change, and what they hold then. -/
namespace LsvmTools.Vfat.Write
open Lib.ByteString Lib.Program BlockDevice Volume Entries Alloc Walk Files Put Layout

/-! ## Writing into clusters -/

/-- Only the device differs, and of the clusters only these. -/
structure Touches (vfat : VFAT) (cs : List Nat) (vfat' : VFAT) : Prop where
  same : SameButDev vfat vfat'
  laid : Laid vfat'
  others : ∀ c, InRange vfat c → c ∉ cs → clusterData vfat' c = clusterData vfat c

section Writes

variable {vfat vfat' vfat'' : VFAT} {cs ds : List Nat} {c n blkno fuel : Nat} {data : Bytes}

theorem Touches.refl (h : Laid vfat) : Touches vfat cs vfat := ⟨⟨vfat.dev, rfl⟩, h, fun _ _ _ => rfl⟩

theorem Touches.inRange (h : Touches vfat cs vfat') : InRange vfat' c ↔ InRange vfat c := by
  obtain ⟨dev, rfl⟩ := h.same
  exact Iff.rfl

theorem Touches.trans (h : Touches vfat cs vfat') (h' : Touches vfat' cs vfat'') :
    Touches vfat cs vfat'' :=
  ⟨h.same.trans h'.same, h'.laid,
    fun c hc hn => (h'.others c (h.inRange.mpr hc) hn).trans (h.others c hc hn)⟩

theorem Touches.mono (h : Touches vfat cs vfat') (hsub : ∀ c ∈ cs, c ∈ ds) : Touches vfat ds vfat' :=
  ⟨h.same, h.laid, fun c hc hn => h.others c hc fun hm => hn (hsub c hm)⟩

theorem clusterData_dev (vfat : VFAT) (dev : Blkdev) (c : Nat) :
    clusterData { vfat with dev := dev } c =
      readMem dev.data (firstSectorOfCluster vfat c * 512) vfat.clusterSize := rfl

/-- What is written elsewhere leaves a cluster as it is. -/
theorem clusterData_store (hlen : data.length = n * 512)
    (hapart : blkno + n ≤ firstSectorOfCluster vfat c ∨
      firstSectorOfCluster vfat c + vfat.bpb.secPerClus ≤ blkno) :
    clusterData { vfat with dev := vfat.dev.store (blkno * 512) data } c = clusterData vfat c := by
  rw [clusterData_dev, store_data, clusterData, readMem_writeMem_of_disjoint]
  rw [hlen, VFAT.clusterSize_eq]
  omega

theorem store_touches (h : Laid vfat) (hlen : data.length = n * 512)
    (hapart : ∀ c, InRange vfat c → c ∉ cs → blkno + n ≤ firstSectorOfCluster vfat c ∨
      firstSectorOfCluster vfat c + vfat.bpb.secPerClus ≤ blkno) :
    Touches vfat cs { vfat with dev := vfat.dev.store (blkno * 512) data } where
  same := ⟨_, rfl⟩
  laid := h.congr rfl rfl (h.dev.store _ _)
  others c hc hn := clusterData_store hlen (hapart c hc hn)

/-- A whole cluster is written. -/
theorem writeClusterData_runs (h : Laid vfat) (hc : InRange vfat c)
    (hlen : data.length = vfat.clusterSize) :
    Prog.Runs (writeClusterData c data) vfat fun _ vfat' =>
      Touches vfat [c] vfat' ∧ clusterData vfat' c = data := by
  rw [VFAT.clusterSize_eq] at hlen
  have hput : writeCluster vfat c data =
      some { vfat with dev := vfat.dev.store (firstSectorOfCluster vfat c * 512) data } := by
    rw [writeCluster, VFAT.clusterSize_eq, Nat.mul_div_cancel _ (by decide),
      putN_eq h.dev (h.firstSector hc).2 hlen, Option.map_some]
  have hout : Out.ofOption Fail.io (writeCluster vfat c data) = .ok
      { vfat with dev := vfat.dev.store (firstSectorOfCluster vfat c * 512) data } := by
    rw [hput, Out.ofOption]
  rw [writeClusterData]
  refine Prog.Runs.read hout ⟨(), _, rfl, ?_, ?_⟩
  · refine store_touches h hlen fun d hd hn => ?_
    rw [List.mem_singleton] at hn
    exact (h.apart hd hc hn).symm
  · rw [clusterData_dev, store_data, VFAT.clusterSize_eq, ← hlen, readMem_writeMem]

theorem getFATEntry_dev (hs : SameButDev vfat vfat') (c : Nat) :
    getFATEntry vfat' c = getFATEntry vfat c := by
  obtain ⟨dev, rfl⟩ := hs
  rfl

/-- The loop of `WriteClusters` over a chain that the data fills but for a part of its last
cluster. -/
theorem writeFrom_runs (h : Laid vfat) (hrange : ∀ d ∈ c :: cs, InRange vfat d)
    (hnd : (c :: cs).Nodup) (hl : Linked vfat.fatType (getEOC vfat) vfat.fat.data (c :: cs))
    (hlo : cs.length * vfat.clusterSize < data.length)
    (hhi : data.length ≤ (cs.length + 1) * vfat.clusterSize) (hf : cs.length + 2 ≤ fuel) :
    Prog.Runs (writeFrom fuel c data) vfat fun _ vfat' => Touches vfat (c :: cs) vfat' ∧
      ∃ k, (c :: cs).flatMap (clusterData vfat') = data ++ List.replicate k 0 := by
  induction cs generalizing vfat c data fuel with
  | nil =>
    obtain ⟨fuel, rfl⟩ := Nat.exists_eq_add_of_le hf
    have hc := hrange c List.mem_cons_self
    rw [List.length_nil, Nat.zero_add, Nat.one_mul] at hhi
    rw [show [].length + 2 + fuel = fuel + 1 + 1 by simp; omega, writeFrom]
    refine Prog.Runs.get ?_
    rw [h.live hc, Bool.not_true, if_neg Bool.false_ne_true]
    by_cases hfull : data.length < vfat.clusterSize
    · rw [if_pos hfull]
      have hpad : (padded vfat data).length = vfat.clusterSize := by
        rw [padded, List.length_append, List.length_replicate]
        omega
      refine (writeClusterData_runs h hc hpad).mono fun _ vfat' hv' => ?_
      obtain ⟨ht, hdata⟩ := hv'
      refine ⟨ht, vfat.clusterSize - data.length, ?_⟩
      rw [List.flatMap_singleton, hdata, padded]
    · rw [if_neg hfull]
      have hsize : data.length = vfat.clusterSize := Nat.le_antisymm hhi (Nat.le_of_not_lt hfull)
      rw [List.take_of_length_le hhi, List.drop_eq_nil_of_le hhi]
      refine (writeClusterData_runs h hc hsize).bind fun _ vfat' hv' => ?_
      obtain ⟨ht, hdata⟩ := hv'
      have hnext : getFATEntry vfat' c = .ok (getEOC vfat % entryMod vfat.fatType) := by
        rw [getFATEntry_dev ht.same, getFATEntry_inside (h.entryInside hc),
          show entryAt vfat.fatType vfat.fat.data c = _ from hl]
      refine Prog.Runs.read (f := fun vfat => getFATEntry vfat c) hnext ?_
      have hdead : Walk.live vfat' (getEOC vfat % entryMod vfat.fatType) = false := by
        obtain ⟨dev, rfl⟩ := ht.same
        exact h.dead_eoc
      rw [writeFrom]
      refine Prog.Runs.get ?_
      rw [hdead, Bool.not_false, if_pos rfl, if_neg (not_not.mpr rfl)]
      exact Prog.Runs.pure ⟨ht, 0, by rw [List.flatMap_singleton, hdata, List.replicate_zero,
        List.append_nil]⟩
  | cons d cs ih =>
    obtain ⟨fuel, rfl⟩ := Nat.exists_eq_add_of_le hf
    have hc := hrange c List.mem_cons_self
    have hd := hrange d (by simp)
    have hcs := vfat.clusterSize_pos
    rw [List.length_cons, Nat.succ_mul] at hlo
    rw [List.length_cons, Nat.succ_mul] at hhi
    rw [show (d :: cs).length + 2 + fuel = cs.length + 2 + fuel + 1 by simp; omega, writeFrom]
    refine Prog.Runs.get ?_
    rw [h.live hc, Bool.not_true, if_neg Bool.false_ne_true, if_neg (by omega)]
    have htake : (data.take vfat.clusterSize).length = vfat.clusterSize := by
      rw [List.length_take]
      omega
    refine (writeClusterData_runs h hc htake).bind fun _ vfat₁ hv₁ => ?_
    obtain ⟨ht, hdata⟩ := hv₁
    have hnext : getFATEntry vfat₁ c = .ok d := by
      rw [getFATEntry_dev ht.same, getFATEntry_inside (h.entryInside hc), hl.1,
        Nat.mod_eq_of_lt (lt_entryMod (h.isEOF_inRange hd))]
    refine Prog.Runs.read (f := fun vfat => getFATEntry vfat c) hnext ?_
    obtain ⟨hcd, hnd'⟩ := List.nodup_cons.mp hnd
    have hrest : Prog.Runs (writeFrom (cs.length + 2 + fuel) d (data.drop vfat.clusterSize)) vfat₁
        fun _ vfat' => Touches vfat₁ (d :: cs) vfat' ∧ ∃ k, (d :: cs).flatMap (clusterData vfat') =
          data.drop vfat.clusterSize ++ List.replicate k 0 := by
      have hlaid := ht.laid
      obtain ⟨dev, rfl⟩ := ht.same
      refine ih hlaid (fun x hx => hrange x (List.mem_cons_of_mem _ hx)) hnd' hl.2 ?_ ?_ (by omega)
      · rw [List.length_drop]
        exact Nat.lt_sub_of_add_lt hlo
      · rw [List.length_drop]
        exact Nat.sub_le_of_le_add hhi
    refine hrest.mono fun _ vfat' hv' => ?_
    obtain ⟨ht', k, hk⟩ := hv'
    refine ⟨?_, k, ?_⟩
    · exact (ht.mono fun x hx => by rw [List.mem_singleton.mp hx]; exact List.mem_cons_self).trans
        (ht'.mono fun x hx => List.mem_cons_of_mem _ hx)
    · rw [List.flatMap_cons, hk, ht'.others c (ht.inRange.mpr hc) hcd, hdata, ← List.append_assoc,
        List.take_append_drop]

/-- Data that fits a chain but for a part of the last cluster. -/
structure Fills (vfat : VFAT) (cs : List Nat) (data : Bytes) : Prop where
  le : data.length ≤ cs.length * vfat.clusterSize
  gt : cs ≠ [] → (cs.length - 1) * vfat.clusterSize < data.length

/-- `_FlushFile` into the clusters of a chain. -/
theorem flushFile_runs (h : Laid vfat) (hrange : ∀ d ∈ cs, InRange vfat d) (hnd : cs.Nodup)
    (hl : Linked vfat.fatType (getEOC vfat) vfat.fat.data cs) (hfills : Fills vfat cs data) :
    Prog.Runs (flushFile data (cs.headD 0)) vfat fun _ vfat' => Touches vfat cs vfat' ∧
      ∃ k, cs.flatMap (clusterData vfat') = data ++ List.replicate k 0 := by
  have hcs := vfat.clusterSize_pos
  cases cs with
  | nil =>
    have hnil : data = [] := by
      have hle := hfills.le
      rw [List.length_nil, Nat.zero_mul] at hle
      exact List.eq_nil_of_length_eq_zero (Nat.le_zero.mp hle)
    rw [flushFile, if_pos hnil]
    exact Prog.Runs.pure ⟨.refl h, 0, by rw [hnil]; rfl⟩
  | cons c cs =>
    have hgt := hfills.gt (List.cons_ne_nil c cs)
    have hle := hfills.le
    rw [List.length_cons, Nat.add_sub_cancel] at hgt
    rw [List.length_cons] at hle
    have hc := (hrange c List.mem_cons_self).1
    have hne : data ≠ [] := by
      rintro rfl
      exact absurd hgt (Nat.not_lt_zero _)
    have hcount : cs.length ≤ cs.length * vfat.clusterSize := Nat.le_mul_of_pos_right _ hcs
    rw [flushFile, if_neg hne, List.headD_cons, if_neg (by omega), writeClusters]
    exact writeFrom_runs h hrange hnd hl hgt hle (by omega)

/-- Writing the reserved sectors, the tables or the root directory touches no cluster. -/
theorem blkdevWrite_runs (h : Laid vfat) (hlen : data.length = n * 512)
    (hin : blkno + n ≤ vfat.bpb.firstDataSector) :
    Prog.Runs (blkdevWrite blkno data) vfat fun _ vfat' => Touches vfat [] vfat' := by
  have hall : vfat.bpb.firstDataSector ≤ sectors vfat := by
    rw [h.firstDataSector, sectors]
    omega
  have hout : (if data = [] then .ok vfat
      else Out.ofOption Fail.io ((putN vfat.dev blkno (data.length / 512) data).map fun dev =>
        { vfat with dev := dev })) =
      .ok { vfat with dev := vfat.dev.store (blkno * 512) data } := by
    split
    · rename_i hnil
      rw [hnil, store_nil]
    · rw [hlen, Nat.mul_div_cancel _ (by decide), putN_eq h.dev (by omega) hlen, Option.map_some,
        Out.ofOption]
  rw [blkdevWrite]
  refine Prog.Runs.read hout ⟨(), _, rfl, store_touches h hlen fun c hc _ => .inl ?_⟩
  rw [(h.firstSector hc).1]
  omega

theorem flushCopies_runs {l : List Nat} (h : Laid vfat) (hl : ∀ i ∈ l, i < vfat.bpb.numFATs) :
    Prog.Runs (flushCopies l) vfat fun _ vfat' => Touches vfat [] vfat' := by
  induction l generalizing vfat with
  | nil => exact Prog.Runs.pure (.refl h)
  | cons i l ih =>
    rw [flushCopies]
    refine Prog.Runs.get ?_
    have hi := hl i List.mem_cons_self
    have hmul : (i + 1) * vfat.bpb.fatSz ≤ vfat.bpb.numFATs * vfat.bpb.fatSz :=
      Nat.mul_le_mul_right _ hi
    rw [Nat.succ_mul] at hmul
    have hin : vfat.bpb.resvdSecCnt + i * vfat.bpb.fatSz + vfat.bpb.fatSz ≤
        vfat.bpb.firstDataSector := by
      rw [h.firstDataSector]
      omega
    refine (blkdevWrite_runs h h.table hin).bind fun _ vfat₁ ht => ?_
    have hlaid := ht.laid
    obtain ⟨dev, rfl⟩ := ht.same
    exact (ih hlaid fun j hj => hl j (List.mem_cons_of_mem _ hj)).mono fun _ _ ht' => ht.trans ht'

theorem flushFAT_runs (h : Laid vfat) :
    Prog.Runs flushFAT vfat fun _ vfat' => Touches vfat [] vfat' := by
  rw [flushFAT]
  exact Prog.Runs.get (flushCopies_runs h fun i hi => List.mem_range.mp hi)

theorem rootDirBytes (vfat : VFAT) :
    u32 (vfat.bpb.rootDirSectors * vfat.bpb.bytsPerSec) = vfat.bpb.rootDirSectors * 512 := by
  have hlt := le16_lt vfat.bpb.raw 17
  rw [vfat.bytsPerSec_eq]
  refine u32_of_lt ?_
  rw [BPB.rootDirSectors, vfat.bytsPerSec_eq, BPB.rootEntCnt]
  omega

/-- `_FlushFile` of the root directory. -/
theorem flushRoot_runs (h : Laid vfat) (hlen : data.length = 32 * rootEntries vfat) :
    Prog.Runs (flushFile data 0) vfat fun _ vfat' => Touches vfat [] vfat' := by
  have hsize : data.length = vfat.bpb.rootDirSectors * 512 := by
    rw [hlen, rootEntries]
    omega
  have hroot := h.root
  have hne : data ≠ [] := by
    rintro rfl
    rw [List.length_nil] at hsize
    omega
  rw [flushFile, if_neg hne, if_pos rfl]
  refine Prog.Runs.get ?_
  rw [rootDirBytes, hsize, if_neg (not_not.mpr rfl)]
  refine blkdevWrite_runs h hsize ?_
  rw [h.firstRootDirSecNum, h.firstDataSector]

end Writes

/-! ## Publishing -/

/-- The clusters `cs` hold the file and the directory, in the clusters `ds` or at the root, its
new data; other clusters and the table are as they were. -/
structure Published (vfat : VFAT) (cs ds : List Nat) (file dirData : Bytes) (vfat' : VFAT) :
    Prop where
  laid : Laid vfat'
  bpb : vfat'.bpb = vfat.bpb
  fat : vfat'.fat = vfat.fat
  rootdir : vfat'.rootdir = if ds = [] then dirData else vfat.rootdir
  others : ∀ c, InRange vfat c → c ∉ cs → c ∉ ds → clusterData vfat' c = clusterData vfat c
  file : ∃ k, cs.flatMap (clusterData vfat') = file ++ List.replicate k 0
  dir : ds ≠ [] → ds.flatMap (clusterData vfat') = dirData

/-- A chain of clusters that can be written. -/
structure Chain (vfat : VFAT) (cs : List Nat) : Prop where
  range : ∀ d ∈ cs, InRange vfat d
  distinct : cs.Nodup
  linked : Linked vfat.fatType (getEOC vfat) vfat.fat.data cs

section Publish

variable {vfat vfat' : VFAT} {cs ds : List Nat} {file dirData : Bytes}

theorem length_clusters (vfat : VFAT) (cs : List Nat) :
    (cs.flatMap (clusterData vfat)).length = cs.length * vfat.clusterSize := by
  induction cs with
  | nil => rw [List.flatMap_nil, List.length_nil, List.length_nil, Nat.zero_mul]
  | cons c cs ih =>
    rw [List.flatMap_cons, List.length_append, ih, clusterData, length_readMem, List.length_cons,
      Nat.succ_mul, Nat.add_comm]

theorem Touches.flatMap_eq (h : Touches vfat ds vfat') (hrange : ∀ d ∈ cs, InRange vfat d)
    (hapart : ∀ c ∈ cs, c ∉ ds) :
    cs.flatMap (clusterData vfat') = cs.flatMap (clusterData vfat) :=
  List.flatMap_congr fun c hc => h.others c (hrange c hc) (hapart c hc)

/-- The directory is the one at the root. -/
theorem publish_root (h : Laid vfat) (hcs : Chain vfat cs) (hfills : Fills vfat cs file)
    (hlen : dirData.length = 32 * rootEntries vfat) (hold : vfat.rootdir.length = dirData.length) :
    Prog.Runs (publish file (cs.headD 0) dirData 0) vfat fun _ vfat' =>
      Published vfat cs [] file dirData vfat' := by
  rw [publish]
  refine (flushFile_runs h hcs.range hcs.distinct hcs.linked hfills).bind fun _ v₁ hv₁ => ?_
  obtain ⟨ht, hfile⟩ := hv₁
  refine Prog.Runs.get ?_
  have hlaid := ht.laid
  have hothers := ht.others
  obtain ⟨dev, rfl⟩ := ht.same
  rw [hlaid.rootdirClustno, if_pos rfl, if_neg (not_not.mpr hold)]
  refine Prog.Runs.bind (Q := fun _ t => t = { vfat with dev := dev, rootdir := dirData })
    ⟨(), _, rfl, rfl⟩ fun _ v₂ hv₂ => ?_
  have hlaid₂ : Laid v₂ := by
    rw [hv₂]
    exact hlaid.congr rfl rfl hlaid.dev
  have hlen₂ : dirData.length = 32 * rootEntries v₂ := by
    rw [hv₂]
    exact hlen
  refine (flushRoot_runs hlaid₂ hlen₂).bind fun _ v₃ ht₃ => ?_
  refine (flushFAT_runs ht₃.laid).mono fun _ v₄ ht₄ => ?_
  have hlow := ht₃.trans ht₄
  have hdata : ∀ c, InRange vfat c →
      clusterData v₄ c = clusterData { vfat with dev := dev } c := by
    intro c hc
    rw [hlow.others c (by rw [hv₂]; exact hc) List.not_mem_nil, hv₂]
    rfl
  have hlaid₄ := hlow.laid
  obtain ⟨dev', hdev'⟩ := hlow.same
  obtain ⟨k, hk⟩ := hfile
  refine ⟨hlaid₄, ?_, ?_, ?_, fun c hc hn _ => ?_, ⟨k, ?_⟩, fun h => absurd rfl h⟩
  · rw [hdev', hv₂]
  · rw [hdev', hv₂]
  · rw [hdev', hv₂, if_pos rfl]
  · rw [hdata c hc, hothers c hc hn]
  · rw [← hk]
    exact List.flatMap_congr fun c hc => hdata c (hcs.range c hc)

/-- The directory has clusters of its own. -/
theorem publish_node (h : Laid vfat) (hcs : Chain vfat cs) (hfills : Fills vfat cs file)
    (hds : Chain vfat ds) (hne : ds ≠ []) (hlen : dirData.length = ds.length * vfat.clusterSize)
    (hapart : ∀ c ∈ cs, c ∉ ds) :
    Prog.Runs (publish file (cs.headD 0) dirData (ds.headD 0)) vfat fun _ vfat' =>
      Published vfat cs ds file dirData vfat' := by
  have hsize := vfat.clusterSize_pos
  have hhead : ds.headD 0 ≠ 0 := by
    cases ds with
    | nil => exact absurd rfl hne
    | cons d ds =>
      have h2 := (hds.range d List.mem_cons_self).1
      rw [List.headD_cons]
      omega
  have hfull : Fills vfat ds dirData := by
    refine ⟨Nat.le_of_eq hlen, fun _ => ?_⟩
    rw [hlen]
    exact Nat.mul_lt_mul_of_pos_right
      (Nat.sub_lt (List.length_pos_iff.mpr hne) Nat.one_pos) hsize
  rw [publish]
  refine (flushFile_runs h hcs.range hcs.distinct hcs.linked hfills).bind fun _ v₁ hv₁ => ?_
  obtain ⟨ht, hfile⟩ := hv₁
  refine Prog.Runs.get ?_
  have hlaid := ht.laid
  obtain ⟨dev, hdev⟩ := ht.same
  rw [hlaid.rootdirClustno, if_neg hhead]
  have hds₁ : Chain v₁ ds := by
    rw [hdev]
    exact ⟨hds.range, hds.distinct, hds.linked⟩
  have hfull₁ : Fills v₁ ds dirData := by
    rw [hdev]
    exact ⟨hfull.le, hfull.gt⟩
  refine (flushFile_runs hlaid hds₁.range hds₁.distinct hds₁.linked hfull₁).bind
    fun _ v₂ hv₂ => ?_
  obtain ⟨ht₂, hdir⟩ := hv₂
  refine (flushFAT_runs ht₂.laid).mono fun _ v₃ ht₃ => ?_
  have hdir₃ := ht₂.trans (ht₃.mono fun c hc => absurd hc List.not_mem_nil)
  obtain ⟨dev₃, hdev₃⟩ := (ht.same.trans hdir₃.same)
  obtain ⟨k, hk⟩ := hfile
  obtain ⟨j, hj⟩ := hdir
  refine ⟨hdir₃.laid, ?_, ?_, ?_, fun c hc hn hn' => ?_, ⟨k, ?_⟩, fun _ => ?_⟩
  · rw [hdev₃]
  · rw [hdev₃]
  · rw [hdev₃, if_neg hne]
  · rw [hdir₃.others c (ht.inRange.mpr hc) hn', ht.others c hc hn]
  · rw [hdir₃.flatMap_eq (fun c hc => ht.inRange.mpr (hcs.range c hc)) hapart, hk]
  · have hj0 : j = 0 := by
      have hl := congrArg List.length hj
      have hcs₂ : v₂.clusterSize = vfat.clusterSize := by
        obtain ⟨dev₂, hdev₂⟩ := ht.same.trans ht₂.same
        rw [hdev₂]
        rfl
      rw [length_clusters, List.length_append, List.length_replicate, hcs₂, hlen] at hl
      omega
    rw [ht₃.flatMap_eq (fun c hc => ht₂.inRange.mpr (hds₁.range c hc)) fun c _ => List.not_mem_nil,
      hj, hj0, List.replicate_zero, List.append_nil]

end Publish

end LsvmTools.Vfat.Write
