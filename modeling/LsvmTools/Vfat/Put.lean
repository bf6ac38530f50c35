import LsvmTools.Vfat.Alloc
import LsvmTools.Vfat.Lookup

/-! # Putting files and directories

`_PutFile` reserves clusters in the loaded table before it looks for a place in the directory.
`Kept` is what a call that fails should leave: the table, the cached root directory and the
device, so that later calls behave as if it had not been made. -/
namespace LsvmTools.Vfat.Put
open Lib.ByteString Lib.Program BlockDevice Strings Volume Entries Alloc Walk Files Shortname Lookup

/-! ## Directory entries -/

def attrArchive : UInt8 := 0x20

/-- A `VFATDirectoryEntry` whose reserved byte is zero. -/
def packEntry (name : Bytes) (attr crtTimeTenth : UInt8)
    (crtTime crtDate lstAccDate fstClusHI wrtTime wrtDate fstClusLO fileSize : Nat) : Bytes :=
  name ++ [attr, 0, crtTimeTenth] ++ enc16 crtTime ++ enc16 crtDate ++ enc16 lstAccDate ++
    enc16 fstClusHI ++ enc16 wrtTime ++ enc16 wrtDate ++ enc16 fstClusLO ++ enc32 fileSize

/-- The upper half of a cluster number as it is put into an entry: the number is shifted the
wrong way. -/
def clusHI (clustno : Nat) : Nat := u16 (u32 (clustno / 2 ^ 16 * 2 ^ 16 * 2 ^ 16))

def clusLO (clustno : Nat) : Nat := clustno % 2 ^ 16

/-- `dot` and `dotdot`. -/
def dotEntry (name : Bytes) (clustno : Nat) : Bytes :=
  packEntry (pad 11 name) (attrArchive ||| attrDirectory) 0 1709 18706 18706 (clusHI clustno)
    22131 18706 (clusLO clustno) 0

/-- The entry that is put into the directory. Where `InternShortname` fails the name is what
happens to be in the array. -/
def newEntry (uninit : Nat → UInt8) (isDir : Bool) (basename : Bytes) (clustno size : Nat) :
    Bytes :=
  packEntry ((internShortname basename).getD (readMem uninit 0 11))
    (if isDir then attrArchive ||| attrDirectory else attrArchive) 100 1884 18706 18706
    (clusHI clustno) 1884 18706 (clusLO clustno) (if isDir then 0 else size)

/-- What is written for the file: for a directory its two first entries and zeroes. -/
def content (isDir : Bool) (data : Bytes) (clustno dirClustno : Nat) : Bytes :=
  if isDir then
    dotEntry [dot] clustno ++ dotEntry [dot, dot] dirClustno ++
      List.replicate (data.length - 64) 0
  else data

/-! ## Paths -/

/-- `_GetDirName`. -/
def getDirName (path : CStr) : Option CStr :=
  let buf := strlcpy path.bytes 256
  if slash ∈ buf then
    -- the place of the last slash; the slash itself stays where it is the first character
    let n := buf.length - (afterLastSlash buf).length - 1
    some ⟨buf.take (if n = 0 then 1 else n), fun h =>
      path.noNul (List.mem_of_mem_take (List.mem_of_mem_take h))⟩
  else none

/-- `_GetBaseName`. -/
def getBaseName (path : CStr) : Option Bytes :=
  if slash ∉ path.bytes then none
  else if afterLastSlash path.bytes = [] then none
  else some (strlcpy (afterLastSlash path.bytes) 256)

/-- `_LoadDir`: the data of the directory and the number of its first cluster. -/
def loadDir (vfat : VFAT) (path : CStr) : Out Fail (Bytes × Nat) :=
  if path.bytes = [slash] then .ok (vfat.rootdir, vfat.rootdirClustno)
  else do
    let entry ← vfatStatFile vfat path
    if isDirectory entry then do
      let data ← loadFileFromDirectoryEntry vfat entry
      pure (data, entry.clustno)
    else .err .failed

/-! ## Flushing -/

/-- `BlkdevWrite` of a number of bytes that is a multiple of 512. -/
def blkdevWrite (blkno : Nat) (data : Bytes) : Prog VFAT Fail Unit := do
  let vfat ← Prog.read fun vfat =>
    if data = [] then .ok vfat
    else Out.ofOption .io ((putN vfat.dev blkno (data.length / 512) data).map fun dev =>
      { vfat with dev := dev })
  Prog.set vfat

/-- `_FlushFile`. -/
def flushFile (data : Bytes) (clustno : Nat) : Prog VFAT Fail Unit :=
  if data = [] then pure ()
  else if clustno = 0 then do
    let vfat ← Prog.get
    if u32 (vfat.bpb.rootDirSectors * vfat.bpb.bytsPerSec) ≠ data.length then Prog.throw .failed
    else blkdevWrite vfat.bpb.firstRootDirSecNum data
  else writeClusters clustno data

/-- The loop of `_FlushFAT`, over the numbers of the copies. -/
def flushCopies : List Nat → Prog VFAT Fail Unit
  | [] => pure ()
  | i :: rest => do
    let vfat ← Prog.get
    blkdevWrite (vfat.bpb.resvdSecCnt + i * vfat.bpb.fatSz) vfat.fat.data
    flushCopies rest

/-- `_FlushFAT`. -/
def flushFAT : Prog VFAT Fail Unit := do
  let vfat ← Prog.get
  flushCopies (List.range vfat.bpb.numFATs)

/-! ## The call -/

/-- What is known of the directory before clusters are reserved. -/
structure Place where
  basename : Bytes
  dirData : Bytes
  dirClustno : Nat

/-- `_PutFile` up to the point where it has the directory in memory. That the name is not
there yet is concluded from any failure of `VFATStatFile`. -/
def prepare (vfat : VFAT) (path : CStr) : Out Fail Place :=
  match vfatStatFile vfat path with
  | .ok _ => .err .failed
  | .stuck => .stuck
  | .err _ =>
    if path.bytes.head? ≠ some slash then .err .failed
    else match getBaseName path, getDirName path with
      | some basename, some dirname => do
        let (dirData, dirClustno) ← loadDir vfat dirname
        pure ⟨basename, dirData, dirClustno⟩
      | _, _ => .err .failed

/-- The number of the first entry that is deleted or the end marker. -/
def freeSlot (dirData : Bytes) : Option Nat :=
  (entries dirData).findIdx? fun de => isEnd de || byteAt de.raw 0 = 0xE5

/-- The rest of `_PutFile`, where the directory has an entry to use. -/
def publish (file : Bytes) (clustno : Nat) (dirData : Bytes) (dirClustno : Nat) :
    Prog VFAT Fail Unit := do
  flushFile file clustno
  let vfat ← Prog.get
  if dirClustno = vfat.rootdirClustno then
    if vfat.rootdir.length ≠ dirData.length then Prog.throw .failed
    else do
      Prog.set { vfat with rootdir := dirData }
      flushFile dirData dirClustno
      flushFAT
  else do
    flushFile dirData dirClustno
    flushFAT

/-- The number of clusters that hold the data. -/
def clusterCount (vfat : VFAT) (data : Bytes) : Nat :=
  (data.length + vfat.clusterSize - 1) / vfat.clusterSize

/-- `_PutFile` with the directory in memory. The loop that looks for an entry to use does not
stop at the end of the directory. -/
def inject (uninit : Nat → UInt8) (isDir : Bool) (data : Bytes) (place : Place) :
    Prog VFAT Fail Unit := do
  let vfat ← Prog.get
  let clustno ← allocateFATChain (clusterCount vfat data)
  match freeSlot place.dirData with
  | none => Prog.stuck
  | some k =>
    if place.dirData.length ≤ 32 * (k + 1) then Prog.throw .failed
    else
      publish (content isDir data clustno place.dirClustno) clustno
        (splice place.dirData (32 * k)
          (newEntry uninit isDir place.basename clustno data.length))
        place.dirClustno

/-- `_PutFile`. -/
def putFile (uninit : Nat → UInt8) (isDir : Bool) (path : CStr) (data : Bytes) :
    Prog VFAT Fail Unit := do
  let place ← Prog.read fun vfat => prepare vfat path
  inject uninit isDir data place

/-- `VFATPutFile`. -/
def vfatPutFile (uninit : Nat → UInt8) (path : CStr) (data : Bytes) : Prog VFAT Fail Unit :=
  putFile uninit false path data

/-- `VFATMkdir`. -/
def vfatMkdir (uninit : Nat → UInt8) (path : CStr) : Prog VFAT Fail Unit := do
  let vfat ← Prog.get
  putFile uninit true path (List.replicate vfat.clusterSize 0)

/-- A call that creates a file or a directory. -/
inductive Call where
  | putFile (path : CStr) (data : Bytes)
  | mkdir (path : CStr)

namespace Call

def path : Call → CStr
  | putFile path _ => path
  | mkdir path => path

def isDir : Call → Bool
  | putFile _ _ => false
  | mkdir _ => true

/-- The buffer that is passed on. -/
def data (vfat : VFAT) : Call → Bytes
  | putFile _ data => data
  | mkdir _ => List.replicate vfat.clusterSize 0

def prog (uninit : Nat → UInt8) : Call → Prog VFAT Fail Unit
  | putFile path data => vfatPutFile uninit path data
  | mkdir path => vfatMkdir uninit path

end Call

/-! ## What a failing call should leave -/

/-- The volume is as before, and no later call can tell. -/
structure Kept (uninit : Nat → UInt8) (vfat vfat' : VFAT) : Prop where
  fat : vfat'.fat = vfat.fat
  rootdir : vfat'.rootdir = vfat.rootdir
  dev : vfat'.dev = vfat.dev
  later : ∀ call : Call, (call.prog uninit).run vfat' = (call.prog uninit).run vfat

/-- A call that fails although every access to the device succeeds changes nothing. The device
fails unnoticed where `VFATStatFile` is asked whether the name is there. -/
def Harmless (uninit : Nat → UInt8) (vfat : VFAT) (call : Call) : Prop :=
  ∀ vfat', (call.prog uninit).run vfat = .err .failed vfat' →
    vfatStatFile vfat call.path ≠ .err .io → Kept uninit vfat vfat'

/-- A valid volume: the table has its size, the cached root directory is the one of the volume,
and the cluster numbers are no end markers. -/
structure Sound (vfat : VFAT) : Prop where
  table : vfat.fat.data.length = u32 (vfat.bpb.fatSz * 512)
  root : if vfat.fatType = .fat32 then readClusters vfat vfat.bpb.rootClus = .ok vfat.rootdir
    else vfat.rootdir.length = u32 (vfat.bpb.rootDirSectors * vfat.bpb.bytsPerSec)
  clusters : vfat.countOfClusters + 1 < eofMin vfat.fatType

/-- The name is new and its directory is there, the data takes clusters and there are enough
free ones, but the first entry of the directory that is deleted or the end marker is the last
one that the directory has room for. -/
def NoRoom (vfat : VFAT) (call : Call) : Prop :=
  ∃ dirname dirData dirClustno k cs,
    vfatStatFile vfat call.path = .err .failed ∧ call.path.bytes.head? = some slash ∧
    getBaseName call.path ≠ none ∧ getDirName call.path = some dirname ∧
    loadDir vfat dirname = .ok (dirData, dirClustno) ∧ call.data vfat ≠ [] ∧
    FirstFree vfat (clusterCount vfat (call.data vfat)) cs ∧
    freeSlot dirData = some k ∧ dirData.length ≤ 32 * (k + 1)

/-! ## The table after an allocation -/

variable {vfat vfat' : VFAT} {n c size : Nat} {cs : List Nat} {data : Bytes}

theorem linked_last {ty : FATType} {eoc : Nat} (h : Linked ty eoc data cs) (h0 : cs ≠ []) :
    entryAt ty data (cs.getLast h0) = eoc % entryMod ty := by
  induction cs with
  | nil => exact absurd rfl h0
  | cons c cs ih =>
    cases cs with
    | nil => exact h
    | cons d cs =>
      rw [List.getLast_cons (List.cons_ne_nil d cs)]
      exact ih h.2 (List.cons_ne_nil d cs)

theorem getEOC_mod_ne (vfat : VFAT) : getEOC vfat % entryMod vfat.fatType ≠ 0 := by
  unfold getEOC entryMod
  cases vfat.fatType with
  | fat12 => norm_num
  | fat16 => norm_num
  | fat32 => norm_num

/-- Clusters that are taken show in the table. -/
theorem fat_changed (h : FirstFree vfat n cs) (hn : n ≠ 0) {fat : Fat} (hs : SetTo vfat cs fat) :
    fat ≠ vfat.fat := by
  obtain ⟨hlen, -, hspec, -⟩ := h.spec
  have h0 : cs ≠ [] := fun he => hn (by rw [← hlen, he]; rfl)
  obtain ⟨-, -, hfree, hin⟩ := hspec _ (List.getLast_mem h0)
  rw [getFATEntry_inside hin] at hfree
  injection hfree with hfree
  have hlast := linked_last hs.linked h0
  intro he
  rw [he, hfree] at hlast
  exact getEOC_mod_ne vfat hlast.symm

/-- A chain keeps its clusters when free ones are taken: only the entry of its last cluster can
have been zero. -/
theorem longEnough_allocate (h : LongEnough vfat n c)
    (hfree : ∀ x ∈ cs, getFATEntry vfat x = .ok 0) {fat : Fat} (hs : SetTo vfat cs fat) :
    LongEnough { vfat with fat := fat } n c := by
  induction n generalizing c with
  | zero => trivial
  | succ n ih =>
    refine ⟨h.1, fun d hd => ?_⟩
    cases n with
    | zero => trivial
    | succ n =>
      have hlive : live { vfat with fat := fat } c = true := h.1
      have hin : Inside vfat.fatType vfat.fat.data c :=
        Inside.congr ((inside_iff hlive).mpr ⟨d, hd⟩) hs.length.symm
      have hold := getFATEntry_inside hin
      have hnext := h.2 _ hold
      have hc : c ∉ cs := by
        intro hc
        have hzero := hfree c hc
        rw [hold] at hzero
        injection hzero with hzero
        have hl := hnext.1
        rw [hzero] at hl
        cases hl
      have hnew : getFATEntry { vfat with fat := fat } c =
          .ok (entryAt vfat.fatType fat.data c) :=
        getFATEntry_inside (hin.congr hs.length)
      rw [hnew, hs.others c hc hin] at hd
      injection hd with hd
      rw [← hd]
      exact ih hnext

/-- The chain that is made holds as many clusters as were asked for. -/
theorem longEnough_of_linked (hl : Linked vfat.fatType (getEOC vfat) vfat.fat.data cs)
    (hin : ∀ x ∈ cs, Inside vfat.fatType vfat.fat.data x ∧ x ≠ 0 ∧ isEOF vfat x = false) :
    LongEnough vfat cs.length (cs.headD 0) := by
  induction cs with
  | nil => trivial
  | cons c cs ih =>
    obtain ⟨hc, hne, heof⟩ := hin c List.mem_cons_self
    refine ⟨?_, fun d hd => ?_⟩
    · rw [List.headD_cons, live, heof, Bool.not_false, Bool.and_true]
      exact decide_eq_true hne
    · cases cs with
      | nil => trivial
      | cons e cs =>
        have he := (hin e (by simp)).2.2
        rw [List.headD_cons, getFATEntry_inside hc, hl.1, Nat.mod_eq_of_lt (lt_entryMod he)] at hd
        injection hd with hd
        rw [← hd]
        exact ih hl.2 fun x hx => hin x (List.mem_cons_of_mem _ hx)

/-! ## Data that fits -/

/-- There is room for that much data from the cluster on, or in the root directory. -/
def Fits (vfat : VFAT) (size clustno : Nat) : Prop :=
  size = 0 ∨ if clustno = 0 then u32 (vfat.bpb.rootDirSectors * vfat.bpb.bytsPerSec) = size
    else ∃ n, LongEnough vfat n clustno ∧ size ≤ n * vfat.clusterSize

theorem Fits.congr (h : Fits vfat size c) (hb : vfat'.bpb = vfat.bpb)
    (ht : vfat'.fatType = vfat.fatType) (hf : vfat'.fat = vfat.fat) : Fits vfat' size c := by
  unfold Fits at h ⊢
  rw [hb]
  refine h.imp_right fun h => ?_
  split
  · rename_i hc
    rwa [if_pos hc] at h
  · rename_i hc
    rw [if_neg hc] at h
    obtain ⟨n, hn, hle⟩ := h
    refine ⟨n, hn.congr (fun x => ?_) (fun x => ?_), ?_⟩
    · rw [live, live, isEOF, isEOF, ht]
    · rw [getFATEntry, getFATEntry, ht, hf]
    · rwa [VFAT.clusterSize, hb]

theorem Fits.allocate (h : Fits vfat size c) (hfree : ∀ x ∈ cs, getFATEntry vfat x = .ok 0)
    {fat : Fat} (hs : SetTo vfat cs fat) : Fits { vfat with fat := fat } size c := by
  refine h.imp_right fun h => ?_
  split
  · rename_i hc
    rwa [if_pos hc] at h
  · rename_i hc
    rw [if_neg hc] at h
    obtain ⟨n, hn, hle⟩ := h
    exact ⟨n, longEnough_allocate hn hfree hs, hle⟩

/-- What `ReadClusters` has read can be written back. -/
theorem fits_of_readClusters (h : readClusters vfat c = .ok data) (hd : data ≠ []) :
    Fits vfat data.length c ∧ c ≠ 0 := by
  obtain ⟨n, hlen, hn⟩ := longEnough_of_readFrom h
  have hc : c ≠ 0 := by
    intro hc
    cases n with
    | zero => exact hd (List.eq_nil_of_length_eq_zero (by rw [hlen, Nat.zero_mul]))
    | succ n =>
      have hl := hn.1
      rw [hc] at hl
      cases hl
  exact ⟨.inr (by rw [if_neg hc]; exact ⟨n, hn, Nat.le_of_eq hlen⟩), hc⟩

/-- A directory that is loaded can be written back, and the one at the root has the size of the
cached one. -/
theorem fits_of_loadDir (hs : Sound vfat) {path : CStr} (h : loadDir vfat path = .ok (data, c))
    (hd : data ≠ []) : Fits vfat data.length c ∧
      (c = vfat.rootdirClustno → vfat.rootdir.length = data.length) := by
  have hroot := hs.root
  rw [loadDir] at h
  split at h
  · injection h with h
    injection h with hdata hc
    subst hdata
    refine ⟨?_, fun _ => rfl⟩
    rw [← hc, VFAT.rootdirClustno]
    by_cases hty : vfat.fatType = .fat32
    · rw [if_pos hty] at hroot ⊢
      exact (fits_of_readClusters hroot hd).1
    · rw [if_neg hty] at hroot ⊢
      exact .inr (by rw [if_pos rfl, hroot])
  · obtain ⟨entry, -, h⟩ := Out.bind_eq_ok.mp h
    split at h
    · rename_i hdir
      obtain ⟨buf, hload, h⟩ := Out.bind_eq_ok.mp h
      injection h with h
      injection h with hdata hc
      subst hdata
      obtain ⟨all, hread, hload⟩ := Out.bind_eq_ok.mp hload
      split at hload
      · cases hload
      · have hisdir : hasAttr entry.attr attrDirectory = true := hdir
        rw [hisdir, if_pos rfl] at hload
        injection hload with hload
        subst hload
        rw [hc] at hread
        obtain ⟨hfits, hc0⟩ := fits_of_readClusters hread hd
        refine ⟨hfits, fun he => ?_⟩
        rw [VFAT.rootdirClustno] at he
        split at he
        · rename_i hty
          rw [if_pos hty, ← he, hread] at hroot
          injection hroot with hroot
          rw [hroot]
        · exact absurd he hc0
    · cases h

theorem blkdevWrite_devOnly {blkno : Nat} : DevOnly (blkdevWrite blkno data) vfat := by
  refine DevOnly.store (f := fun vfat =>
    if data = [] then .ok vfat
    else Out.ofOption .io ((putN vfat.dev blkno (data.length / 512) data).map fun dev =>
      { vfat with dev := dev })) ?_ fun vfat' h => ?_
  · split
    · exact fun h => by cases h
    · exact ofOption_io_ne _
  · split at h
    · injection h with h
      exact ⟨vfat.dev, h.symm⟩
    · obtain ⟨dev, -, h⟩ := Option.map_eq_some_iff.mp (ofOption_io_ok h)
      exact ⟨dev, h.symm⟩

theorem flushFile_devOnly (h : Fits vfat data.length c) : DevOnly (flushFile data c) vfat := by
  rw [flushFile]
  by_cases hd : data = []
  · rw [if_pos hd]
    exact DevOnly.pure
  · have hne : data.length ≠ 0 := fun h0 => hd (List.eq_nil_of_length_eq_zero h0)
    have hfit := h.resolve_left hne
    rw [if_neg hd]
    by_cases hc : c = 0
    · rw [if_pos hc] at hfit
      rw [if_pos hc, DevOnly, Prog.get_bind, hfit, if_neg (not_not.mpr rfl)]
      exact blkdevWrite_devOnly
    · rw [if_neg hc] at hfit
      rw [if_neg hc]
      obtain ⟨n, hn, hle⟩ := hfit
      exact writeFrom_devOnly hn hle

theorem flushCopies_devOnly {l : List Nat} : DevOnly (flushCopies l) vfat := by
  induction l generalizing vfat with
  | nil => exact DevOnly.pure
  | cons i l ih =>
    rw [flushCopies, DevOnly, Prog.get_bind]
    exact DevOnly.bind blkdevWrite_devOnly fun _ _ => ih

theorem flushFAT_devOnly : DevOnly flushFAT vfat := by
  rw [flushFAT, DevOnly, Prog.get_bind]
  exact flushCopies_devOnly

/-- Where the data and the directory fit, the device is the only reason to fail. -/
theorem publish_ne_failed {file dirData : Bytes} {clustno dirClustno : Nat}
    (hfile : Fits vfat file.length clustno) (hdir : Fits vfat dirData.length dirClustno)
    (hroot : dirClustno = vfat.rootdirClustno → vfat.rootdir.length = dirData.length) :
    (publish file clustno dirData dirClustno).run vfat ≠ .err .failed vfat' := by
  intro h
  rw [publish] at h
  rcases Prog.bind_eq_err.mp h with h | ⟨u, t, hr, h⟩
  · exact (flushFile_devOnly hfile).1 _ h
  · obtain ⟨dev, rfl⟩ := (flushFile_devOnly hfile).2 u t hr
    have hflush : ∀ v : VFAT, v.bpb = vfat.bpb → v.fatType = vfat.fatType → v.fat = vfat.fat →
        (flushFile dirData dirClustno >>= fun _ => flushFAT).run v ≠ .err .failed vfat' :=
      fun v hb ht hf => (DevOnly.bind (flushFile_devOnly (hdir.congr hb ht hf))
        fun _ _ => flushFAT_devOnly).1 _
    rw [Prog.get_bind] at h
    split at h
    · rename_i hc
      rw [if_neg (not_not.mpr (hroot hc)), Prog.set_bind] at h
      refine hflush _ ?_ ?_ ?_ h
      all_goals rfl
    · refine hflush _ ?_ ?_ ?_ h
      all_goals rfl

/-! ## Sizes -/

theorem length_packEntry {name : Bytes} (h : name.length = 11) {attr tenth : UInt8}
    {a b c d e f g i : Nat} : (packEntry name attr tenth a b c d e f g i).length = 32 := by
  simp only [packEntry, List.length_append, List.length_cons, List.length_nil, length_enc16,
    length_enc32, h]

theorem length_newEntry (uninit : Nat → UInt8) (isDir : Bool) (basename : Bytes) (c size : Nat) :
    (newEntry uninit isDir basename c size).length = 32 := by
  refine length_packEntry ?_
  cases h : internShortname basename with
  | none => rw [Option.getD_none, length_readMem]
  | some r => rw [Option.getD_some, length_internShortname h]

theorem length_content {isDir : Bool} (h : isDir = true → 64 ≤ data.length) (c d : Nat) :
    (content isDir data c d).length = data.length := by
  cases isDir with
  | false => rfl
  | true =>
    have hle := h rfl
    have hdot : ∀ name : Bytes, name.length ≤ 11 → ∀ c, (dotEntry name c).length = 32 :=
      fun name hn c => length_packEntry (length_pad hn)
    rw [content, if_pos rfl, List.length_append, List.length_append, hdot [dot] (by decide),
      hdot [dot, dot] (by decide), List.length_replicate]
    omega

theorem clusterCount_eq_zero : clusterCount vfat data = 0 ↔ data = [] := by
  have hcs := vfat.clusterSize_pos
  rw [clusterCount, Nat.div_eq_zero_iff, ← List.length_eq_zero_iff]
  omega

theorem le_clusterCount : data.length ≤ clusterCount vfat data * vfat.clusterSize := by
  have hcs := vfat.clusterSize_pos
  have hdiv := Nat.div_add_mod (data.length + vfat.clusterSize - 1) vfat.clusterSize
  have hmod := Nat.mod_lt (data.length + vfat.clusterSize - 1) hcs
  rw [clusterCount, Nat.mul_comm]
  omega

/-! ## One call -/

/-- The clusters that are taken for the data hold it. -/
theorem allocate_fits (hs : Sound vfat) (hd : data ≠ []) {t : VFAT}
    (h : (allocateFATChain (clusterCount vfat data)).run vfat = .ok c t) :
    ∃ cs fat, FirstFree vfat (clusterCount vfat data) cs ∧ SetTo vfat cs fat ∧
      t = { vfat with fat := fat } ∧ Fits t data.length c := by
  have hn : clusterCount vfat data ≠ 0 := fun h0 => hd (clusterCount_eq_zero.mp h0)
  obtain ⟨cs, hfirst⟩ := firstFree_of_allocate hn h
  obtain ⟨fat, hrun, hset⟩ := allocate_of_firstFree hn hfirst
  obtain ⟨hlen, -, hspec, -⟩ := hfirst.spec
  rw [hrun] at h
  injection h with hc ht
  refine ⟨cs, fat, hfirst, hset, ht.symm, .inr ?_⟩
  have hall : ∀ x ∈ cs, Inside vfat.fatType fat.data x ∧ x ≠ 0 ∧ isEOF vfat x = false := by
    intro x hx
    obtain ⟨h2, hle, -, hin⟩ := hspec x hx
    refine ⟨hin.congr hset.length, by omega, ?_⟩
    rw [← Bool.not_eq_true, isEOF_iff]
    have := hs.clusters
    omega
  have hlong := @longEnough_of_linked { vfat with fat := fat } _ hset.linked hall
  have h0 : cs ≠ [] := fun he => hn (by rw [← hlen, he]; rfl)
  have hhead : cs.headD 0 ≠ 0 := by
    cases cs with
    | nil => exact absurd rfl h0
    | cons x xs => exact (hall x List.mem_cons_self).2.1
  rw [← ht, ← hc, if_neg hhead]
  exact ⟨cs.length, hlong, hlen ▸ le_clusterCount⟩

theorem inject_failed (hs : Sound vfat) {uninit : Nat → UInt8} {isDir : Bool} {place : Place}
    {dirname : CStr} (hload : loadDir vfat dirname = .ok (place.dirData, place.dirClustno))
    (hdir : isDir = true → 64 ≤ data.length)
    (h : (inject uninit isDir data place).run vfat = .err .failed vfat') :
    vfat' = vfat ∨ data ≠ [] ∧ ∃ k cs, FirstFree vfat (clusterCount vfat data) cs ∧
      freeSlot place.dirData = some k ∧ place.dirData.length ≤ 32 * (k + 1) := by
  rw [inject, Prog.get_bind] at h
  rcases Prog.bind_eq_err.mp h with h | ⟨clustno, t, hr, h⟩
  · exact .inl (allocate_err h)
  cases hk : freeSlot place.dirData with
  | none =>
    rw [hk] at h
    cases h
  | some k =>
    rw [hk] at h
    dsimp only at h
    split at h
    · rename_i hroom
      injection h with _ h
      rw [← h]
      by_cases hd : data = []
      · rw [clusterCount_eq_zero.mpr hd, allocateFATChain, if_pos rfl] at hr
        injection hr with _ hr
        exact .inl hr.symm
      · obtain ⟨cs, fat, hfirst, -⟩ := allocate_fits hs hd hr
        exact .inr ⟨hd, k, cs, hfirst, rfl, hroom⟩
    · rename_i hroom
      have hne : place.dirData ≠ [] := by
        intro h0
        rw [h0] at hroom
        exact hroom (Nat.zero_le _)
      obtain ⟨hfits, hroot⟩ := fits_of_loadDir hs hload hne
      have hsplice : (splice place.dirData (32 * k)
          (newEntry uninit isDir place.basename clustno data.length)).length =
          place.dirData.length := by
        refine length_splice ?_
        rw [length_newEntry]
        omega
      refine absurd h ?_
      by_cases hd : data = []
      · rw [clusterCount_eq_zero.mpr hd, allocateFATChain, if_pos rfl] at hr
        injection hr with _ hr
        rw [← hr]
        refine publish_ne_failed ?_ (by rwa [hsplice]) (by rwa [hsplice])
        exact .inl (by rw [length_content hdir, hd, List.length_nil])
      · obtain ⟨cs, fat, hfirst, hset, rfl, hfile⟩ := allocate_fits hs hd hr
        refine publish_ne_failed ?_ ?_ ?_
        · rwa [length_content hdir]
        · rw [hsplice]
          exact hfits.allocate (fun x hx => (hfirst.spec.2.2.1 x hx).2.2.1) hset
        · rwa [hsplice]

/-- The calls are `_PutFile` on their own data. -/
theorem prog_run (uninit : Nat → UInt8) (vfat : VFAT) (call : Call) :
    (call.prog uninit).run vfat =
      (putFile uninit call.isDir call.path (call.data vfat)).run vfat := by
  cases call with
  | putFile path data => rfl
  | mkdir path =>
    rw [Call.prog, vfatMkdir, Prog.get_bind]
    rfl

theorem data_large (vfat : VFAT) (call : Call) (h : call.isDir = true) :
    64 ≤ (call.data vfat).length := by
  cases call with
  | putFile path data => cases h
  | mkdir path =>
    have hcs := vfat.clusterSize_eq
    have hpos := vfat.secPerClus_pos
    rw [Call.data, List.length_replicate]
    omega

/-- What is known once the directory is in memory. -/
theorem prepare_ok {path : CStr} {place : Place} (h : prepare vfat path = .ok place) :
    ∃ e dirname, vfatStatFile vfat path = .err e ∧ path.bytes.head? = some slash ∧
      getBaseName path ≠ none ∧ getDirName path = some dirname ∧
      loadDir vfat dirname = .ok (place.dirData, place.dirClustno) := by
  rw [prepare] at h
  cases hstat : vfatStatFile vfat path with
  | ok de =>
    rw [hstat] at h
    cases h
  | stuck =>
    rw [hstat] at h
    cases h
  | err e =>
    rw [hstat] at h
    dsimp only at h
    split at h
    · cases h
    · rename_i habs
      split at h
      · rename_i basename dirname hbase hdir
        obtain ⟨⟨dirData, dirClustno⟩, hload, h⟩ := Out.bind_eq_ok.mp h
        injection h with h
        rw [← h]
        refine ⟨e, dirname, rfl, not_not.mp habs, ?_, hdir, hload⟩
        rw [hbase]
        exact Option.some_ne_none _
      · cases h

/-- A call that finds no room has taken the clusters already. -/
theorem leak_of_noRoom (uninit : Nat → UInt8) {call : Call} (h : NoRoom vfat call) :
    ∃ vfat', (call.prog uninit).run vfat = .err .failed vfat' ∧ vfat'.fat ≠ vfat.fat := by
  obtain ⟨dirname, dirData, dirClustno, k, cs, hstat, habs, hbase, hdir, hload, hd, hfirst, hk,
    hroom⟩ := h
  obtain ⟨basename, hbase⟩ := Option.ne_none_iff_exists'.mp hbase
  have hprep : prepare vfat call.path = .ok ⟨basename, dirData, dirClustno⟩ := by
    rw [prepare, hstat]
    dsimp only
    rw [if_neg (not_not.mpr habs), hbase, hdir]
    dsimp only
    rw [hload, Out.ok_bind]
    rfl
  have hn : clusterCount vfat (call.data vfat) ≠ 0 := fun h0 => hd (clusterCount_eq_zero.mp h0)
  obtain ⟨fat, hrun, hset⟩ := allocate_of_firstFree hn hfirst
  refine ⟨{ vfat with fat := fat }, ?_, fat_changed hfirst hn hset⟩
  rw [prog_run, putFile, Prog.bind_ok (Prog.read_ok (f := fun vfat => prepare vfat call.path) hprep),
    inject, Prog.get_bind, Prog.bind_ok hrun, hk]
  dsimp only
  rw [if_pos hroom]
  rfl

/-- In the root directory of `bootVolume` there is room. -/
theorem bootVolume_sound : Sound bootVolume where
  table := by decide +kernel
  root := by decide +kernel
  clusters := by
    have hcount : bootVolume.countOfClusters = 4 := by decide +kernel
    rw [hcount, show bootVolume.fatType = .fat12 from rfl]
    unfold eofMin
    norm_num

/-- A volume with one unused entry in its root directory. -/
def crowded : VFAT := { small12 with
  rootdir := ["A", "B", "C", "D", "E", "F", "G", "H", "I", "J", "K", "L", "M", "N", "O"].flatMap
    (mkEntry · 0x20 0) ++ List.replicate 32 0 }

theorem crowded_sound : Sound crowded where
  table := by decide +kernel
  root := by decide +kernel
  clusters := by
    have hcount : crowded.countOfClusters = 4 := by decide +kernel
    rw [hcount, show crowded.fatType = .fat12 from rfl]
    unfold eofMin
    norm_num

end LsvmTools.Vfat.Put
