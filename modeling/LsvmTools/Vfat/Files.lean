import LsvmTools.Vfat.Walk

/-! # Contents of a chain of clusters

What `ReadClusters` and `LoadFileFromDirectoryEntry` deliver and what `WriteClusters` does to
the device. The loops touch the clusters that `walk` lists. -/
namespace LsvmTools.Vfat.Files
open Lib.ByteString Lib.Program BlockDevice Volume Entries Walk

/-! ## Directory entries -/

/-- `VFATDirectoryEntry`. -/
structure DirectoryEntry where
  raw : Bytes
  size : raw.length = 32
deriving DecidableEq

namespace DirectoryEntry

variable (ent : DirectoryEntry)

def name : Bytes := ent.raw.take 11
def attr : UInt8 := byteAt ent.raw 11
def fstClusHI : Nat := le16 ent.raw 20
def fstClusLO : Nat := le16 ent.raw 26
def fileSize : Nat := le32 ent.raw 28

/-- The number of the first cluster. -/
def clustno : Nat := ent.fstClusHI * 2 ^ 16 + ent.fstClusLO

end DirectoryEntry

def attrDirectory : UInt8 := 0x10

def attrVolumeId : UInt8 := 0x08

def attrLongName : UInt8 := 0x0F

/-- The attribute has the bits. -/
def hasAttr (attr bits : UInt8) : Bool := attr &&& bits ≠ 0

/-! ## Reading -/

/-- The loop of `ReadClusters`: what is appended to the buffer. -/
def readFrom (vfat : VFAT) : Nat → Nat → Out Fail Bytes
  | 0, clustno => if live vfat clustno then .stuck else pure []
  | fuel + 1, clustno =>
    if !live vfat clustno then pure []
    else do
      let b ← readCluster vfat clustno
      let next ← getFATEntry vfat clustno
      let rest ← readFrom vfat fuel next
      pure (b ++ rest)

theorem length_readCluster {vfat : VFAT} {clustno : Nat} {data : Bytes}
    (h : readCluster vfat clustno = .ok data) : data.length = vfat.clusterSize := by
  rw [readCluster_eq] at h
  rw [VFAT.clusterSize_eq]
  cases hg : getN vfat.dev (firstSectorOfCluster vfat clustno) vfat.bpb.secPerClus with
  | none =>
    rw [hg] at h
    cases h
  | some b =>
    rw [hg] at h
    injection h with h
    unfold getN at hg
    split at hg
    · injection hg with hg
      rw [← h, ← hg, length_readMem]
    · cases hg

/-- `ReadClusters`. A chain with more clusters than the table has bytes does not end. -/
def readClusters (vfat : VFAT) (clustno : Nat) : Out Fail Bytes :=
  readFrom vfat (vfat.fat.data.length + 2) clustno

/-- `LoadFileFromDirectoryEntry`. -/
def loadFileFromDirectoryEntry (vfat : VFAT) (ent : DirectoryEntry) : Out Fail Bytes := do
  let buf ← readClusters vfat ent.clustno
  if buf.length < ent.fileSize then .err .failed
  else if hasAttr ent.attr attrDirectory then pure buf
  else pure (buf.take ent.fileSize)

/-! ## Writing -/

/-- Less data than a cluster takes, followed by zeroes. -/
def padded (vfat : VFAT) (data : Bytes) : Bytes :=
  data ++ List.replicate (vfat.clusterSize - data.length) 0

/-- `WriteCluster`, as a step of the loop. -/
def writeClusterData (clustno : Nat) (data : Bytes) : Prog VFAT Fail Unit := do
  let vfat ← Prog.read fun vfat => Out.ofOption .io (writeCluster vfat clustno data)
  Prog.set vfat

/-- The loop of `WriteClusters`. A round takes a cluster of data away or is the last one, so
the loop ends within one more round than there are bytes. -/
def writeFrom : Nat → Nat → Bytes → Prog VFAT Fail Unit
  | 0, _, _ => Prog.stuck
  | fuel + 1, clustno, data => do
    let vfat ← Prog.get
    if !live vfat clustno then
      if data ≠ [] then Prog.throw .failed
      else pure ()
    else if data.length < vfat.clusterSize then
      writeClusterData clustno (padded vfat data)
    else do
      writeClusterData clustno (data.take vfat.clusterSize)
      let next ← Prog.read fun vfat => getFATEntry vfat clustno
      writeFrom fuel next (data.drop vfat.clusterSize)

/-- `WriteClusters`. -/
def writeClusters (clustno : Nat) (data : Bytes) : Prog VFAT Fail Unit :=
  writeFrom (data.length + 1) clustno data

/-! ## Chains that hold some data -/

/-- The loops go over at least `n` clusters from `c` on, as far as the entries lie in the
table. -/
def LongEnough (vfat : VFAT) : Nat → Nat → Prop
  | 0, _ => True
  | n + 1, c => live vfat c = true ∧ ∀ d, getFATEntry vfat c = .ok d → LongEnough vfat n d

variable {vfat vfat' : VFAT} {n c : Nat} {data : Bytes}

/-- Only the device differs. -/
def SameButDev (vfat vfat' : VFAT) : Prop := ∃ dev, vfat' = { vfat with dev := dev }

theorem SameButDev.trans {a b c : VFAT} (h : SameButDev a b) (h' : SameButDev b c) :
    SameButDev a c := by
  obtain ⟨dev, rfl⟩ := h
  obtain ⟨dev', rfl⟩ := h'
  exact ⟨dev', rfl⟩

theorem LongEnough.congr (h : LongEnough vfat n c) (hl : ∀ x, live vfat' x = live vfat x)
    (he : ∀ x, getFATEntry vfat' x = getFATEntry vfat x) : LongEnough vfat' n c := by
  induction n generalizing c with
  | zero => trivial
  | succ n ih =>
    refine ⟨(hl c).trans h.1, fun d hd => ih (h.2 d ?_)⟩
    rw [← he c, hd]

theorem LongEnough.dev (h : LongEnough vfat n c) (hs : SameButDev vfat vfat') :
    LongEnough vfat' n c := by
  obtain ⟨dev, rfl⟩ := hs
  exact h.congr (fun _ => rfl) fun _ => rfl

/-- What is read comes from a chain that holds it. -/
theorem longEnough_of_readFrom {fuel : Nat} (h : readFrom vfat fuel c = .ok data) :
    ∃ n, data.length = n * vfat.clusterSize ∧ LongEnough vfat n c := by
  induction fuel generalizing c data with
  | zero =>
    rw [readFrom] at h
    split at h
    · cases h
    · injection h with h
      exact ⟨0, by rw [← h, List.length_nil, Nat.zero_mul], trivial⟩
  | succ fuel ih =>
    rw [readFrom] at h
    cases hl : live vfat c with
    | false =>
      rw [hl, Bool.not_false, if_pos rfl] at h
      injection h with h
      exact ⟨0, by rw [← h, List.length_nil, Nat.zero_mul], trivial⟩
    | true =>
      rw [hl, Bool.not_true, if_neg Bool.false_ne_true] at h
      obtain ⟨b, hb, h⟩ := Out.bind_eq_ok.mp h
      obtain ⟨next, hnext, h⟩ := Out.bind_eq_ok.mp h
      obtain ⟨rest, hrest, h⟩ := Out.bind_eq_ok.mp h
      injection h with h
      obtain ⟨n, hlen, hn⟩ := ih hrest
      refine ⟨n + 1, ?_, hl, fun d hd => ?_⟩
      · rw [← h, List.length_append, hlen, length_readCluster hb, Nat.succ_mul, Nat.add_comm]
      · rw [hnext] at hd
        injection hd with hd
        rwa [← hd]

/-! ## Writing into them -/

theorem writeCluster_dev (h : writeCluster vfat c data = some vfat') : SameButDev vfat vfat' := by
  unfold writeCluster at h
  obtain ⟨dev, -, h⟩ := Option.map_eq_some_iff.mp h
  exact ⟨dev, h.symm⟩

/-- Reading an entry has no error exit. -/
theorem getFATEntry_ne_err (e : Fail) : getFATEntry vfat c ≠ .err e := by
  unfold getFATEntry
  split
  · exact fun h => by cases h
  · exact fun h => by cases h

/-- A run that fails for no other reason than the device and changes the device only. -/
def DevOnly (m : Prog VFAT Fail Unit) (vfat : VFAT) : Prop :=
  (∀ vfat', m.run vfat ≠ .err .failed vfat') ∧
    ∀ u vfat', m.run vfat = .ok u vfat' → SameButDev vfat vfat'

theorem DevOnly.pure : DevOnly (Pure.pure ()) vfat :=
  ⟨fun _ h => (by cases h), fun _ _ h => (by cases h; exact ⟨vfat.dev, rfl⟩)⟩

theorem DevOnly.bind {m : Prog VFAT Fail Unit} {k : Unit → Prog VFAT Fail Unit}
    (hm : DevOnly m vfat) (hk : ∀ vfat', SameButDev vfat vfat' → DevOnly (k ()) vfat') :
    DevOnly (m >>= k) vfat := by
  constructor
  · intro vfat' h
    rcases Prog.bind_eq_err.mp h with h | ⟨u, t, hr, h⟩
    · exact hm.1 _ h
    · exact (hk t (hm.2 u t hr)).1 _ h
  · intro u vfat' h
    obtain ⟨u', t, hr, h⟩ := Prog.bind_eq_ok.mp h
    have hs := hm.2 u' t hr
    exact hs.trans ((hk t hs).2 u vfat' h)

/-- A step that stores what it makes of the volume. -/
theorem DevOnly.store {f : VFAT → Out Fail VFAT} (hf : f vfat ≠ .err .failed)
    (hok : ∀ vfat', f vfat = .ok vfat' → SameButDev vfat vfat') :
    DevOnly (Prog.read f >>= Prog.set) vfat := by
  cases hr : f vfat with
  | stuck =>
    rw [DevOnly, Prog.bind_stuck (Prog.read_stuck hr)]
    exact ⟨fun _ h => (by cases h), fun _ _ h => (by cases h)⟩
  | err e =>
    rw [DevOnly, Prog.bind_err (Prog.read_err hr)]
    refine ⟨fun _ h => ?_, fun _ _ h => (by cases h)⟩
    injection h with he
    exact hf (by rw [hr, he])
  | ok vfat' =>
    rw [DevOnly, Prog.bind_ok (Prog.read_ok hr), Prog.run_set]
    refine ⟨fun _ h => (by cases h), fun _ _ h => ?_⟩
    injection h with _ h
    exact h ▸ hok vfat' hr

theorem ofOption_io_ne (o : Option VFAT) : Out.ofOption Fail.io o ≠ .err .failed := by
  cases o with
  | none => exact fun h => by cases h
  | some v => exact fun h => by cases h

theorem ofOption_io_ok {o : Option VFAT} (h : Out.ofOption Fail.io o = .ok vfat') :
    o = some vfat' := by
  cases o with
  | none => cases h
  | some v =>
    injection h with h
    rw [h]

theorem writeClusterData_devOnly : DevOnly (writeClusterData c data) vfat :=
  DevOnly.store (f := fun vfat => Out.ofOption Fail.io (writeCluster vfat c data))
    (ofOption_io_ne _) fun _ h => writeCluster_dev (ofOption_io_ok h)

/-- Data that the chain holds is written. -/
theorem writeFrom_devOnly {fuel : Nat} (h : LongEnough vfat n c)
    (hlen : data.length ≤ n * vfat.clusterSize) : DevOnly (writeFrom fuel c data) vfat := by
  induction fuel generalizing n c data vfat with
  | zero => exact ⟨fun _ h => (by cases h), fun _ _ h => (by cases h)⟩
  | succ fuel ih =>
    have hcs := vfat.clusterSize_pos
    unfold DevOnly
    rw [writeFrom, Prog.get_bind]
    cases hl : live vfat c with
    | false =>
      have hn : n = 0 := by
        cases n with
        | zero => rfl
        | succ n =>
          rw [h.1] at hl
          cases hl
      have hnil : data = [] := List.eq_nil_of_length_eq_zero (by rw [hn] at hlen; omega)
      rw [Bool.not_false, if_pos rfl, hnil, if_neg (not_not.mpr rfl)]
      exact DevOnly.pure
    | true =>
      rw [Bool.not_true, if_neg Bool.false_ne_true]
      split
      · exact writeClusterData_devOnly
      · rename_i hfull
        cases n with
        | zero => omega
        | succ n =>
          refine DevOnly.bind writeClusterData_devOnly fun vfat' hs => ?_
          unfold DevOnly
          cases hd : getFATEntry vfat' c with
          | stuck =>
            rw [Prog.bind_stuck (Prog.read_stuck (f := fun vfat => getFATEntry vfat c) hd)]
            exact ⟨fun _ h => (by cases h), fun _ _ h => (by cases h)⟩
          | err e => exact absurd hd (getFATEntry_ne_err e)
          | ok d =>
            rw [Prog.bind_ok (Prog.read_ok (f := fun vfat => getFATEntry vfat c) hd)]
            have hn := h.dev hs
            refine ih (hn.2 d hd) ?_
            obtain ⟨dev, rfl⟩ := hs
            rw [Nat.succ_mul] at hlen
            rw [List.length_drop]
            exact Nat.sub_le_of_le_add hlen

end LsvmTools.Vfat.Files
