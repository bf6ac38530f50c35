import LsvmTools.DiskBio
import LsvmTools.GptTable
import LsvmTools.LuksHeader

/-! # The pseudo boot partition

`devpath.c` places a new partition behind the last one of the boot disk, and `bootbio.c` gives
it the size of the LUKS payload. What it takes for that size is the number of the last block,
so that the partition is one block short. -/
namespace LsvmTools.BootPartition
open Lib.ByteString Lib.Program LuksHeader GptTable DiskBio

/-! ## Device paths -/

/-- A node of a device path. -/
structure Node where
  type : UInt8
  subType : UInt8
  body : Bytes
  fits : 4 + body.length < 2 ^ 16
deriving DecidableEq

namespace Node

variable (n : Node)

/-- `DevNodeType`. -/
def devNodeType : UInt8 := n.type &&& 0x7F

/-- `DevNodeLength`. -/
def devNodeLength : Nat := 4 + n.body.length

/-- `IsDevNodeEnd`. -/
def isDevNodeEnd : Bool := n.devNodeType = 0x7F && n.subType = 0xFF

/-- `IsSCSINode`. -/
def isSCSINode : Bool := n.devNodeLength = 8 && n.devNodeType = 3 && n.subType = 2

/-- `IsHardDriveNode`. -/
def isHardDriveNode : Bool := n.devNodeLength = 42 && n.devNodeType = 4 && n.subType = 1

/-- `pun` of a `SCSIDevicePathPacked`. -/
def pun : Nat := le16 n.body 0

/-- `lun`. -/
def lun : Nat := le16 n.body 2

end Node

/-- The nodes in front of the one that ends the path. -/
structure DevPath where
  nodes : List Node
  noEnd : ∀ n ∈ nodes, n.isDevNodeEnd = false
deriving DecidableEq

/-- `HardDriveDevicePathPacked`, with the header as it is in the node. -/
structure HardDrive where
  type : UInt8
  subType : UInt8
  partitionNumber : UInt32
  partitionStart : UInt64
  partitionSize : UInt64
  signature : Bytes
  mbrType : UInt8
  signatureType : UInt8
  size_signature : signature.length = 16

def word64 (d : Bytes) (off : Nat) : UInt64 :=
  UInt64.ofNat (le32 d off + 2 ^ 32 * le32 d (off + 4))

/-- 16 bytes of the body, filled up with zeros where there are fewer. -/
def signatureOf (body : Bytes) : Bytes := (body.drop 20 ++ List.replicate 16 0).take 16

theorem length_signatureOf (body : Bytes) : (signatureOf body).length = 16 := by
  rw [signatureOf, List.length_take, List.length_append, List.length_replicate]
  omega

/-- `Memcpy` of a node of that kind. -/
def Node.hardDrive (n : Node) : HardDrive where
  type := n.type
  subType := n.subType
  partitionNumber := word n.body 0
  partitionStart := word64 n.body 4
  partitionSize := word64 n.body 12
  signature := signatureOf n.body
  mbrType := byteAt n.body 36
  signatureType := byteAt n.body 37
  size_signature := length_signatureOf n.body

def enc64 (v : UInt64) : Bytes := enc32 v.toNat ++ enc32 (v.toNat / 2 ^ 32)

def HardDrive.body (hd : HardDrive) : Bytes :=
  enc32 hd.partitionNumber.toNat ++ enc64 hd.partitionStart ++ enc64 hd.partitionSize ++
    hd.signature ++ [hd.mbrType, hd.signatureType]

theorem HardDrive.length_body (hd : HardDrive) : hd.body.length = 38 := by
  simp only [body, enc64, List.length_append, length_enc32, hd.size_signature, List.length_cons,
    List.length_nil]

theorem HardDrive.fits (hd : HardDrive) : 4 + hd.body.length < 2 ^ 16 := by
  rw [hd.length_body]
  omega

/-- `Memcpy` to a node of that kind. -/
def HardDrive.node (hd : HardDrive) : Node := ⟨hd.type, hd.subType, hd.body, hd.fits⟩

/-- `DevPathLength`, a `UINT32`. -/
def DevPath.length (dp : DevPath) : Nat := u32 ((dp.nodes.map Node.devNodeLength).sum + 4)

/-! ## `DevPathCreatePseudoPartition` -/

/-- The clone of the first path with a partition and what has been found so far. -/
structure Search where
  result : Option DevPath
  hd : HardDrive

/-- Save the highest partition number, and the partition that starts last. -/
def Search.save (hd tmp : HardDrive) : HardDrive :=
  let hd := if tmp.partitionNumber > hd.partitionNumber then
    { hd with partitionNumber := tmp.partitionNumber } else hd
  if tmp.partitionStart > hd.partitionStart then
    { hd with partitionStart := tmp.partitionStart, partitionSize := tmp.partitionSize } else hd

variable (mem : Nat → Bool)

/-- What is done at a partition of the path `dp`. -/
def meetPartition (dp : DevPath) (tmp : HardDrive) (s : Search) : Option Search :=
  match s.result with
  | some _ => some { s with hd := Search.save s.hd tmp }
  | none => if mem dp.length then some ⟨some dp, Search.save tmp tmp⟩ else none

/-- The loop over the nodes of the path `dp`; there is no result where memory does not suffice
for the clone. -/
def searchNodes (dp : DevPath) : List Node → Search → Option Search
  | [], s => some s
  | n :: ns, s =>
    if n.isSCSINode then
      if n.pun ≠ 0 ∨ n.lun ≠ 0 then some s else searchNodes dp ns s
    else if n.isHardDriveNode then
      (meetPartition mem dp n.hardDrive s).bind (searchNodes dp ns)
    else searchNodes dp ns s

/-- The loop over the handles. -/
def searchPaths : List DevPath → Search → Option Search
  | [], s => some s
  | dp :: dps, s => (searchNodes mem dp dp.nodes s).bind (searchPaths dps)

def zeroSignature : Bytes := List.replicate 16 0

theorem length_zeroSignature : zeroSignature.length = 16 := List.length_replicate ..

/-- `hd` after `Memset`. -/
def zeroHardDrive : HardDrive := ⟨0, 0, 0, 0, 0, zeroSignature, 0, 0, length_zeroSignature⟩

/-- `_signature`. -/
def pseudoSignature : Bytes :=
  [0x1b, 0x00, 0xc2, 0x41, 0xee, 0xb3, 0x46, 0x34, 0xb3, 0x3a, 0x35, 0x30, 0x6c, 0xc2, 0x63, 0xfe]

theorem length_pseudoSignature : pseudoSignature.length = 16 := rfl

/-- The partition behind the ones that were found. -/
def nextPartition (hd : HardDrive) (partitionSizeInSectors : UInt64) : HardDrive :=
  { hd with
    partitionNumber := hd.partitionNumber + 1
    partitionStart := hd.partitionStart + hd.partitionSize
    partitionSize := partitionSizeInSectors
    signature := pseudoSignature
    size_signature := length_pseudoSignature }

/-- What `DevPathCreatePseudoPartition` delivers. -/
structure Pseudo where
  result : List Node
  hd : HardDrive
  firstLBA : UInt64
  lastLBA : UInt64

/-- The node `hd` in place of each partition of the clone, and the range of `hd`. -/
def Pseudo.of (result : DevPath) (hd : HardDrive) : Pseudo where
  result := result.nodes.map fun n => if n.isHardDriveNode then hd.node else n
  hd := hd
  firstLBA := hd.partitionStart
  lastLBA := hd.partitionStart + hd.partitionSize - 1

/-- `DevPathCreatePseudoPartition`, for the device paths of the handles, if these can be
located. -/
def devPathCreatePseudoPartition (paths : Option (List DevPath))
    (partitionSizeInSectors : UInt64) : Option Pseudo := do
  let paths ← paths
  let s ← searchPaths mem paths ⟨none, zeroHardDrive⟩
  let result ← s.result
  pure (.of result (nextPartition s.hd partitionSizeInSectors))

/-! ## `WrapBootBIO` -/

/-- What `WrapBootBIO` meets. -/
structure Machine where
  /-- There is an image handle and a master key. -/
  parameters : Bool
  bootDevice : Bool
  /-- `LastBlock` of the LUKS partition. -/
  lastBlock : UInt64
  /-- The header that `ReadBIO` delivers. -/
  header : Option Header
  paths : Option (List DevPath)
  mem : Nat → Bool
  /-- The results of the two calls of `InstallProtocolInterface`. -/
  installs : Bool
  /-- What the variable `guid` holds. -/
  guid : Guid.EfiGuid

/-- `LastBlock` without the leading LUKS metadata. -/
def Machine.payloadLastBlock (m : Machine) (header : Header) : UInt64 :=
  m.lastBlock - header.payloadOffset.toUInt64

/-- The part of `WrapBootBIO` that chooses the partition. -/
def choosePartition (m : Machine) : Option Pseudo :=
  if !m.parameters || !m.bootDevice then none
  else
    match m.header with
    | none => none
    | some header =>
      if header.magic ≠ luksMagic then none
      else devPathCreatePseudoPartition m.mem m.paths
        (m.payloadLastBlock (luksFixByteOrder header))

/-- `L"BOOTFS"`. -/
def bootfsName : WStr := ⟨[66, 79, 79, 84, 70, 83], by decide⟩

/-- The region that is added for the partition. -/
def Pseudo.slot (p : Pseudo) : Slot where
  firstLBA := p.firstLBA.toNat
  lastLBA := p.lastLBA.toNat
  numBlocks := (p.lastLBA - p.firstLBA + 1).toNat
  readOnly := false

/-- `WrapBootBIO`, with the partition table and the table of regions. -/
def wrapBootBIO {ρ : Type} (m : Machine) (gpt : Gpt) (tab : Table ρ) (blockIo : ρ) :
    Out Unit (Gpt × Table ρ) :=
  match choosePartition m with
  | none => .err ()
  | some p =>
    if !m.installs then .err ()
    else do
      let gpt ← addPartition gpt bootfsName m.guid p.firstLBA p.lastLBA
      let tab ← addRegion tab p.slot.firstLBA p.slot.lastLBA p.slot.numBlocks p.slot.readOnly none
        (some blockIo)
      pure (gpt, tab)

/-! ## What is found -/

/-- A device on another disk than SCSI(0,0). -/
def Node.otherDisk (n : Node) : Bool := n.isSCSINode && (n.pun ≠ 0 || n.lun ≠ 0)

/-- The partitions among the nodes, up to a device on another disk. -/
def partitionsOf (ns : List Node) : List HardDrive :=
  ((ns.takeWhile (!·.otherDisk)).filter (·.isHardDriveNode)).map Node.hardDrive

def DevPath.partitions (dp : DevPath) : List HardDrive := partitionsOf dp.nodes

section Found

variable {mem : Nat → Bool} {dp : DevPath} {dps : List DevPath} {s : Search}
  {hd tmp : HardDrive} {hds : List HardDrive}

theorem not_hardDrive_of_scsi {n : Node} (h : n.isSCSINode = true) :
    n.isHardDriveNode = false := by
  unfold Node.isSCSINode at h
  unfold Node.isHardDriveNode
  simp only [Bool.and_eq_true, decide_eq_true_eq] at h
  simp [h.1.1]

theorem partitionsOf_other {n : Node} (h : n.otherDisk = true) (ns : List Node) :
    partitionsOf (n :: ns) = [] := by
  rw [partitionsOf, List.takeWhile_cons, h]
  rfl

theorem partitionsOf_cons {n : Node} (h : n.otherDisk = false) (ns : List Node) :
    partitionsOf (n :: ns) =
      if n.isHardDriveNode = true then n.hardDrive :: partitionsOf ns else partitionsOf ns := by
  rw [partitionsOf, List.takeWhile_cons, h, Bool.not_false, if_pos rfl, List.filter_cons]
  split <;> rfl

/-- The loop over the nodes meets the partitions of the path. -/
theorem searchNodes_eq (ns : List Node) : searchNodes mem dp ns s =
    (partitionsOf ns).foldlM (fun s tmp => meetPartition mem dp tmp s) s := by
  induction ns generalizing s with
  | nil => rfl
  | cons n ns ih =>
    unfold searchNodes
    by_cases hscsi : n.isSCSINode = true
    · rw [if_pos hscsi]
      split
      · rename_i hother
        rw [partitionsOf_other (by simpa [Node.otherDisk, hscsi] using hother)]
        rfl
      · rename_i hother
        rw [partitionsOf_cons (by simpa [Node.otherDisk, hscsi] using hother),
          not_hardDrive_of_scsi hscsi]
        exact ih
    · rw [if_neg hscsi, partitionsOf_cons (by simp [Node.otherDisk, hscsi])]
      split
      · rw [List.foldlM_cons]
        exact congrArg _ (funext fun s => ih)
      · exact ih

theorem meet_first : meetPartition mem dp tmp ⟨none, hd⟩ =
    if mem dp.length = true then some ⟨some dp, Search.save tmp tmp⟩ else none := rfl

/-- Once a path has been cloned every partition is looked at. -/
theorem meetAll_cloned (result : DevPath) (hds : List HardDrive) :
    hds.foldlM (fun s tmp => meetPartition mem dp tmp s) ⟨some result, hd⟩ =
      some ⟨some result, hds.foldl Search.save hd⟩ := by
  induction hds generalizing hd with
  | nil => rfl
  | cons tmp hds ih =>
    rw [List.foldlM_cons]
    exact ih

theorem searchPaths_cloned (result : DevPath) (dps : List DevPath) :
    searchPaths mem dps ⟨some result, hd⟩ =
      some ⟨some result, (dps.flatMap DevPath.partitions).foldl Search.save hd⟩ := by
  induction dps generalizing hd with
  | nil => rfl
  | cons dp dps ih =>
    rw [searchPaths, searchNodes_eq, meetAll_cloned, List.flatMap_cons, List.foldl_append]
    exact ih

theorem searchPaths_none (h : ∀ dp ∈ dps, dp.partitions = []) :
    searchPaths mem dps ⟨none, hd⟩ = some ⟨none, hd⟩ := by
  induction dps with
  | nil => rfl
  | cons dp dps ih =>
    have hnone : partitionsOf dp.nodes = [] := h dp (by simp)
    rw [searchPaths, searchNodes_eq, hnone]
    exact ih fun dp' hdp' => h dp' (by simp [hdp'])

/-- The first path with a partition is cloned, and the partitions from there on are looked at. -/
theorem searchPaths_first (h : ∀ dp' ∈ dps, dp'.partitions = []) (hdp : dp.partitions = tmp :: hds)
    (more : List DevPath) : searchPaths mem (dps ++ dp :: more) ⟨none, hd⟩ =
      if mem dp.length = true then
        some ⟨some dp, (tmp :: hds ++ more.flatMap DevPath.partitions).foldl Search.save tmp⟩
      else none := by
  induction dps with
  | nil =>
    have hparts : partitionsOf dp.nodes = tmp :: hds := hdp
    rw [List.nil_append, searchPaths, searchNodes_eq, hparts, List.foldlM_cons, meet_first]
    split
    · show Option.bind (List.foldlM _ (⟨some dp, Search.save tmp tmp⟩ : Search) hds) _ = _
      rw [meetAll_cloned]
      show searchPaths mem more _ = _
      rw [searchPaths_cloned, List.cons_append, List.foldl_cons, List.foldl_append]
    · rfl
  | cons dp' dps ih =>
    have hnone : partitionsOf dp'.nodes = [] := h dp' (by simp)
    rw [List.cons_append, searchPaths, searchNodes_eq, hnone]
    exact ih fun d hd => h d (by simp [hd])

end Found

/-! ## The law -/

/-- The partitions that the search is over. -/
def Machine.partitions (m : Machine) : List HardDrive :=
  (m.paths.getD []).flatMap DevPath.partitions

/-- The partition is one that the disk can have: it has blocks, and their numbers are `UINT64`. -/
def HardDrive.Proper (hd : HardDrive) : Prop :=
  hd.partitionSize ≠ 0 ∧ hd.partitionStart.toNat + hd.partitionSize.toNat ≤ 2 ^ 64

/-- The partitions have no block in common. -/
def HardDrive.Apart (hd hd' : HardDrive) : Prop :=
  hd.partitionStart.toNat + hd.partitionSize.toNat ≤ hd'.partitionStart.toNat ∨
    hd'.partitionStart.toNat + hd'.partitionSize.toNat ≤ hd.partitionStart.toNat

/-- The partitions are not empty and pairwise disjoint; one of them may be found through
several handles. -/
structure Layout (m : Machine) : Prop where
  proper : ∀ hd ∈ m.partitions, hd.Proper
  apart : ∀ hd ∈ m.partitions, ∀ hd' ∈ m.partitions, hd.Apart hd' ∨
    hd.partitionStart = hd'.partitionStart ∧ hd.partitionSize = hd'.partitionSize

/-- The partition is disjoint from the others, its number is one above the largest, and it has
as many blocks as the payload. -/
structure Fits (m : Machine) (p : Pseudo) : Prop where
  disjoint : ∀ hd ∈ m.partitions,
    hd.partitionStart.toNat + hd.partitionSize.toNat ≤ p.firstLBA.toNat ∨
      p.lastLBA.toNat < hd.partitionStart.toNat
  above : ∀ hd ∈ m.partitions, hd.partitionNumber.toNat < p.hd.partitionNumber.toNat
  next : ∃ hd ∈ m.partitions, hd.partitionNumber.toNat + 1 = p.hd.partitionNumber.toNat
  blocks : ∀ header, m.header = some header →
    p.slot.numBlocks + (luksFixByteOrder header).payloadOffset.toNat = m.lastBlock.toNat + 1

/-- The partition that is chosen fits. -/
def Right (m : Machine) : Prop := Layout m → ∀ p, choosePartition m = some p → Fits m p

/-- The first path with a partition. -/
def firstPath (paths : List DevPath) : Option DevPath :=
  paths.find? fun dp => decide (dp.partitions ≠ [])

/-- A partition is chosen: the LUKS header is read, and the first device path with a partition
can be cloned. -/
structure Chooses (m : Machine) : Prop where
  parameters : m.parameters = true
  bootDevice : m.bootDevice = true
  header : ∃ header, m.header = some header ∧ header.magic = luksMagic
  path : ∃ paths dp, m.paths = some paths ∧ firstPath paths = some dp ∧ m.mem dp.length = true

section Law

variable {m : Machine} {p : Pseudo}

/-- What is chosen, and from what. -/
theorem choosePartition_iff : choosePartition m = some p ↔
    m.parameters = true ∧ m.bootDevice = true ∧ ∃ header, m.header = some header ∧
      header.magic = luksMagic ∧ devPathCreatePseudoPartition m.mem m.paths
        (m.payloadLastBlock (luksFixByteOrder header)) = some p := by
  unfold choosePartition
  cases hp : m.parameters <;> cases hb : m.bootDevice <;> cases hh : m.header <;> simp

theorem create_iff {mem : Nat → Bool} {paths : Option (List DevPath)} {size : UInt64} :
    devPathCreatePseudoPartition mem paths size = some p ↔
      ∃ ps s result, paths = some ps ∧ searchPaths mem ps ⟨none, zeroHardDrive⟩ = some s ∧
        s.result = some result ∧ p = .of result (nextPartition s.hd size) := by
  unfold devPathCreatePseudoPartition
  simp only [Option.bind_eq_bind, Option.bind_eq_some_iff, Option.pure_def, Option.some.injEq]
  constructor
  · rintro ⟨ps, hps, s, hs, result, hresult, rfl⟩
    exact ⟨ps, s, result, hps, hs, hresult, rfl⟩
  · rintro ⟨ps, s, result, hps, hs, hresult, rfl⟩
    exact ⟨ps, hps, s, hs, result, hresult, rfl⟩

/-- The search finds a path exactly where the first one with a partition can be cloned. -/
theorem search_iff {mem : Nat → Bool} {dps : List DevPath} {s : Search} {result : DevPath} :
    searchPaths mem dps ⟨none, zeroHardDrive⟩ = some s ∧ s.result = some result ↔
      firstPath dps = some result ∧ mem result.length = true ∧
        ∃ tmp hds, dps.flatMap DevPath.partitions = tmp :: hds ∧
          s = ⟨some result, (tmp :: hds).foldl Search.save tmp⟩ := by
  unfold firstPath
  cases hfind : dps.find? (fun dp => decide (dp.partitions ≠ [])) with
  | none =>
    have hnone : ∀ dp ∈ dps, dp.partitions = [] := by
      intro dp hdp
      simpa using List.find?_eq_none.mp hfind dp hdp
    rw [searchPaths_none hnone]
    refine iff_of_false ?_ fun h => (by cases h.1)
    rintro ⟨⟨⟩, hresult⟩
    cases hresult
  | some dp =>
    obtain ⟨hne, before, after, rfl, hbefore⟩ := List.find?_eq_some_iff_append.mp hfind
    have hbefore' : ∀ dp' ∈ before, dp'.partitions = [] := by
      intro dp' hdp'
      simpa using hbefore dp' hdp'
    obtain ⟨tmp, hds, hparts⟩ := List.exists_cons_of_ne_nil (of_decide_eq_true hne)
    have hall : (before ++ dp :: after).flatMap DevPath.partitions =
        tmp :: (hds ++ after.flatMap DevPath.partitions) := by
      rw [List.flatMap_append, List.flatMap_eq_nil_iff.mpr hbefore', List.nil_append,
        List.flatMap_cons, hparts, List.cons_append]
    rw [searchPaths_first hbefore' hparts, hall]
    constructor
    · rintro ⟨hs, hresult⟩
      split at hs
      · rename_i hmem
        cases hs
        cases hresult
        exact ⟨rfl, hmem, tmp, _, rfl, rfl⟩
      · cases hs
    · rintro ⟨hdp, hmem, tmp', hds', htmp, rfl⟩
      cases hdp
      cases htmp
      rw [if_pos hmem]
      exact ⟨rfl, rfl⟩

/-- A partition is chosen for these reasons, and it is put together in this way. -/
theorem chosen_iff : choosePartition m = some p ↔ Chooses m ∧
    ∃ header result tmp hds, m.header = some header ∧ m.partitions = tmp :: hds ∧
      firstPath (m.paths.getD []) = some result ∧
      p = .of result (nextPartition ((tmp :: hds).foldl Search.save tmp)
        (m.payloadLastBlock (luksFixByteOrder header))) := by
  rw [choosePartition_iff]
  constructor
  · rintro ⟨hparams, hdev, header, hheader, hmagic, hp⟩
    obtain ⟨ps, s, result, hps, hs, hresult, rfl⟩ := create_iff.mp hp
    obtain ⟨hfirst, hmem, tmp, hds, hparts, rfl⟩ := search_iff.mp ⟨hs, hresult⟩
    refine ⟨⟨hparams, hdev, ⟨header, hheader, hmagic⟩, ps, result, hps, hfirst, hmem⟩, header,
      result, tmp, hds, hheader, ?_, ?_, rfl⟩
    · rw [Machine.partitions, hps]
      exact hparts
    · rw [hps]
      exact hfirst
  · rintro ⟨hc, header, result, tmp, hds, hheader, hparts, hfirst, rfl⟩
    obtain ⟨header', hheader', hmagic⟩ := hc.header
    rw [hheader] at hheader'
    cases hheader'
    obtain ⟨ps, dp, hps, hdp, hmem⟩ := hc.path
    rw [Machine.partitions, hps] at hparts
    rw [hps] at hfirst
    change firstPath ps = some result at hfirst
    rw [hdp] at hfirst
    cases hfirst
    refine ⟨hc.parameters, hc.bootDevice, header, hheader, hmagic, create_iff.mpr ?_⟩
    obtain ⟨hs, hs'⟩ := search_iff.mpr ⟨hdp, hmem, tmp, hds, hparts, rfl⟩
    exact ⟨ps, _, _, hps, hs, hs', rfl⟩

theorem range_length (first size : UInt64) : first + size - 1 - first + 1 = size := by grind

/-- The partition has one block less than the payload. -/
theorem numBlocks_eq (h : choosePartition m = some p) {header : Header}
    (hheader : m.header = some header) :
    p.slot.numBlocks = (m.payloadLastBlock (luksFixByteOrder header)).toNat := by
  obtain ⟨-, header', result, tmp, hds, hheader', -, -, rfl⟩ := chosen_iff.mp h
  rw [hheader] at hheader'
  cases hheader'
  exact congrArg UInt64.toNat (range_length _ _)

theorem blocks_short (h : choosePartition m = some p) {header : Header}
    (hheader : m.header = some header) :
    p.slot.numBlocks + (luksFixByteOrder header).payloadOffset.toNat ≠ m.lastBlock.toNat + 1 := by
  rw [numBlocks_eq h hheader, Machine.payloadLastBlock, UInt64.toNat_sub]
  have hoffset : (luksFixByteOrder header).payloadOffset.toUInt64.toNat =
      (luksFixByteOrder header).payloadOffset.toNat := UInt32.toNat_toUInt64 _
  have hlt := (luksFixByteOrder header).payloadOffset.toNat_lt
  have hlast := m.lastBlock.toNat_lt
  rw [hoffset]
  omega

theorem exists_chosen (h : Chooses m) : ∃ p, choosePartition m = some p := by
  obtain ⟨header, hheader, -⟩ := h.header
  obtain ⟨ps, dp, hps, hdp, -⟩ := h.path
  have hne : m.partitions ≠ [] := by
    obtain ⟨hparts, before, after, hsplit, -⟩ := List.find?_eq_some_iff_append.mp hdp
    rw [Machine.partitions, hps]
    intro hnil
    have hdp' := List.flatMap_eq_nil_iff.mp hnil dp (by simp [hsplit])
    exact of_decide_eq_true hparts hdp'
  obtain ⟨tmp, hds, hparts⟩ := List.exists_cons_of_ne_nil hne
  refine ⟨_, chosen_iff.mpr ⟨h, header, dp, tmp, hds, hheader, hparts, ?_, rfl⟩⟩
  rw [hps]
  exact hdp

/-- The pseudo partition never fits: the condition is that there is none, or that the disk is
not laid out as it should be. -/
theorem pseudoPartition_right_iff (m : Machine) : Right m ↔ ¬ (Layout m ∧ Chooses m) := by
  constructor
  · rintro hr ⟨hl, hc⟩
    obtain ⟨p, hp⟩ := exists_chosen hc
    obtain ⟨header, hheader, -⟩ := hc.header
    exact blocks_short hp hheader ((hr hl p hp).blocks header hheader)
  · intro h hl p hp
    exact absurd ⟨hl, (chosen_iff.mp hp).1⟩ h

end Law

/-! ## What does hold -/

/-- `hd` has the largest number of those seen, and the range of the one that starts last. -/
structure Highest (seen : List HardDrive) (hd : HardDrive) : Prop where
  number : ∃ q ∈ seen, q.partitionNumber = hd.partitionNumber
  number_le : ∀ q ∈ seen, q.partitionNumber ≤ hd.partitionNumber
  range : ∃ q ∈ seen, q.partitionStart = hd.partitionStart ∧ q.partitionSize = hd.partitionSize
  start_le : ∀ q ∈ seen, q.partitionStart ≤ hd.partitionStart

section Free

variable {m : Machine} {p : Pseudo} {seen hds : List HardDrive} {hd tmp : HardDrive}

theorem save_number (hd tmp : HardDrive) : (Search.save hd tmp).partitionNumber =
    if tmp.partitionNumber > hd.partitionNumber then tmp.partitionNumber
    else hd.partitionNumber := by
  unfold Search.save
  by_cases hn : tmp.partitionNumber > hd.partitionNumber <;>
    by_cases hs : tmp.partitionStart > hd.partitionStart <;> simp [hn, hs]

theorem save_start (hd tmp : HardDrive) : (Search.save hd tmp).partitionStart =
    if tmp.partitionStart > hd.partitionStart then tmp.partitionStart
    else hd.partitionStart := by
  unfold Search.save
  by_cases hn : tmp.partitionNumber > hd.partitionNumber <;>
    by_cases hs : tmp.partitionStart > hd.partitionStart <;> simp [hn, hs]

theorem save_size (hd tmp : HardDrive) : (Search.save hd tmp).partitionSize =
    if tmp.partitionStart > hd.partitionStart then tmp.partitionSize
    else hd.partitionSize := by
  unfold Search.save
  by_cases hn : tmp.partitionNumber > hd.partitionNumber <;>
    by_cases hs : tmp.partitionStart > hd.partitionStart <;> simp [hn, hs]

theorem Highest.save (h : Highest seen hd) (tmp : HardDrive) :
    Highest (seen ++ [tmp]) (Search.save hd tmp) := by
  have hmem : tmp ∈ seen ++ [tmp] := by simp
  have hold : ∀ q ∈ seen, q ∈ seen ++ [tmp] := fun q hq => by simp [hq]
  constructor
  · rw [save_number]
    split
    · exact ⟨tmp, hmem, rfl⟩
    · obtain ⟨q, hq, heq⟩ := h.number
      exact ⟨q, hold q hq, heq⟩
  · rw [save_number]
    intro q hq
    rcases List.mem_append.mp hq with hq | hq
    · have := h.number_le q hq
      split <;> grind
    · obtain rfl := List.mem_singleton.mp hq
      split <;> grind
  · rw [save_start, save_size]
    split
    · exact ⟨tmp, hmem, rfl, rfl⟩
    · obtain ⟨q, hq, heq⟩ := h.range
      exact ⟨q, hold q hq, heq⟩
  · rw [save_start]
    intro q hq
    rcases List.mem_append.mp hq with hq | hq
    · have := h.start_le q hq
      split <;> grind
    · obtain rfl := List.mem_singleton.mp hq
      split <;> grind

theorem highest_foldl (h : Highest seen hd) (hds : List HardDrive) :
    Highest (seen ++ hds) (hds.foldl Search.save hd) := by
  induction hds generalizing seen hd with
  | nil => rwa [List.append_nil]
  | cons tmp hds ih =>
    have hone := ih (h.save tmp)
    rwa [List.append_assoc, List.singleton_append] at hone

/-- What the partition is placed behind. -/
theorem chosen_highest (hp : choosePartition m = some p) : ∃ hd, Highest m.partitions hd ∧
    p.hd.partitionNumber = hd.partitionNumber + 1 ∧
    p.firstLBA = hd.partitionStart + hd.partitionSize ∧
    p.lastLBA = p.firstLBA + p.hd.partitionSize - 1 := by
  obtain ⟨-, header, result, tmp, hds, -, hparts, -, rfl⟩ := chosen_iff.mp hp
  have hone : Highest [tmp] tmp := by
    constructor <;> simp
  refine ⟨(tmp :: hds).foldl Search.save tmp, ?_, rfl, rfl, rfl⟩
  have hsave : Search.save tmp tmp = tmp := by simp [Search.save]
  have hall := highest_foldl hone hds
  rw [hparts, List.foldl_cons, hsave]
  exact hall

/-- The range is behind all partitions, and the number is one above the largest, where they do
not wrap. -/
theorem chosen_free (hl : Layout m) (hp : choosePartition m = some p)
    (hwrap : ∀ hd ∈ m.partitions, hd.partitionStart.toNat + hd.partitionSize.toNat < 2 ^ 64)
    (hnumber : ∀ hd ∈ m.partitions, hd.partitionNumber.toNat + 1 < 2 ^ 32) :
    (∀ hd ∈ m.partitions,
      hd.partitionStart.toNat + hd.partitionSize.toNat ≤ p.firstLBA.toNat) ∧
    (∀ hd ∈ m.partitions, hd.partitionNumber.toNat < p.hd.partitionNumber.toNat) ∧
    ∃ hd ∈ m.partitions, hd.partitionNumber.toNat + 1 = p.hd.partitionNumber.toNat := by
  obtain ⟨last, hlast, hn, hfirst, -⟩ := chosen_highest hp
  obtain ⟨q, hq, hqstart, hqsize⟩ := hlast.range
  obtain ⟨r, hr, hrnumber⟩ := hlast.number
  have hstart : p.firstLBA.toNat = q.partitionStart.toNat + q.partitionSize.toNat := by
    rw [hfirst, ← hqstart, ← hqsize, UInt64.toNat_add]
    exact Nat.mod_eq_of_lt (hwrap q hq)
  have htop : p.hd.partitionNumber.toNat = r.partitionNumber.toNat + 1 := by
    rw [hn, ← hrnumber, UInt32.toNat_add]
    exact Nat.mod_eq_of_lt (hnumber r hr)
  refine ⟨fun hd hhd => ?_, fun hd hhd => ?_, r, hr, htop.symm⟩
  · rw [hstart]
    have hle := UInt64.le_iff_toNat_le.mp (hlast.start_le hd hhd)
    rw [← hqstart] at hle
    rcases hl.apart hd hhd q hq with (hbefore | hafter) | ⟨hs, hz⟩
    · omega
    · have hpos := (hl.proper q hq).1
      have : q.partitionSize.toNat ≠ 0 := fun h0 => hpos (UInt64.toNat_inj.mp h0)
      omega
    · rw [hs, hz]
  · have hle := UInt32.le_iff_toNat_le.mp (hlast.number_le hd hhd)
    rw [← hrnumber] at hle
    omega

end Free

/-! ## A disk with one partition -/

def scsiNode : Node := ⟨3, 2, [0, 0, 0, 0], by decide⟩

def onePartition : HardDrive :=
  ⟨4, 1, 1, 2048, 1000, zeroSignature, 2, 2, length_zeroSignature⟩

theorem noEnd_onePath : ∀ n ∈ [scsiNode, onePartition.node], n.isDevNodeEnd = false := by
  decide

def onePath : DevPath := ⟨[scsiNode, onePartition.node], noEnd_onePath⟩

/-- A header with the magic number and the payload offset 4096. -/
def plainHeader : Bytes :=
  luksMagic ++ List.replicate 98 0 ++ [0, 0, 16, 0] ++ List.replicate 484 0

theorem length_plainHeader : plainHeader.length = 592 := by
  simp only [plainHeader, List.length_append, List.length_replicate]
  rfl

/-- A LUKS partition of 204800 blocks. -/
def oneMachine : Machine where
  parameters := true
  bootDevice := true
  lastBlock := 204799
  header := some ⟨plainHeader, length_plainHeader⟩
  paths := some [onePath]
  mem _ := true
  installs := true
  guid := ⟨0, 0, 0, []⟩

theorem oneMachine_layout : Layout oneMachine := by
  refine ⟨?_, ?_⟩
  · unfold HardDrive.Proper
    decide
  · unfold HardDrive.Apart
    decide

theorem oneMachine_chooses : Chooses oneMachine :=
  ⟨rfl, rfl, ⟨_, rfl, by decide⟩, [onePath], onePath, rfl, by decide, rfl⟩

/-- The payload has 200704 blocks and the partition one less. -/
theorem oneMachine_short : ¬ Right oneMachine := by
  intro h
  obtain ⟨p, hp⟩ := exists_chosen oneMachine_chooses
  exact blocks_short hp rfl ((h oneMachine_layout p hp).blocks _ rfl)

end LsvmTools.BootPartition
