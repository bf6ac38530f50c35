import LsvmTools.Vfat.Nodes
import LsvmTools.Vfat.Write

/-! # Making files and directories

On a volume that holds a tree, `_PutFile` with a new name in a directory of the tree makes the
volume hold the tree with the new file or directory, and with a name that is there it fails. -/
namespace LsvmTools.Vfat.Create
open Lib.ByteString Lib.Program Lib.FileTree BlockDevice Strings Volume Entries Alloc Walk Files
open Shortname Lookup Put Layout Nodes Write

/-! ## Free clusters -/

section Free

variable {vfat : VFAT} {ns : List Node} {cs : List Nat} {c n : Nat}

/-- A part of the list has as many elements of a kind as are asked for. -/
theorem exists_take {α : Type} {q : α → Bool} {l : List α} (hn : n ≤ (l.filter q).length) :
    ∃ m, m ≤ l.length ∧ ((l.take m).filter q).length = n := by
  induction l generalizing n with
  | nil => exact ⟨0, Nat.le_refl _, by simpa using (Nat.le_zero.mp hn).symm⟩
  | cons x l ih =>
    cases n with
    | zero => exact ⟨0, Nat.zero_le _, rfl⟩
    | succ n =>
      rw [List.filter_cons] at hn
      by_cases hx : q x = true
      · rw [if_pos hx, List.length_cons] at hn
        obtain ⟨m, hm, hlen⟩ := ih (Nat.le_of_succ_le_succ hn)
        refine ⟨m + 1, Nat.succ_le_succ hm, ?_⟩
        rw [List.take_succ_cons, List.filter_cons, if_pos hx, List.length_cons, hlen]
      · rw [if_neg hx] at hn
        obtain ⟨m, hm, hlen⟩ := ih hn
        refine ⟨m + 1, Nat.succ_le_succ hm, ?_⟩
        rw [List.take_succ_cons, List.filter_cons, if_neg hx, hlen]

theorem candidates_eq (h : Laid vfat) : candidates vfat = List.range' 2 vfat.countOfClusters := by
  have hlt := h.count_lt
  rw [Alloc.candidates, u32_of_lt (by omega), Nat.add_sub_cancel]

theorem mem_candidates (h : Laid vfat) : c ∈ candidates vfat ↔ InRange vfat c := by
  rw [candidates_eq h, List.mem_range'_1, InRange]
  omega

/-- The entry of a cluster in a chain is not free. -/
theorem linked_ne_zero (hrange : ∀ d ∈ cs, InRange vfat d) (h : Laid vfat)
    (hl : Linked vfat.fatType (getEOC vfat) vfat.fat.data cs) (hc : c ∈ cs) :
    entryAt vfat.fatType vfat.fat.data c ≠ 0 := by
  induction cs with
  | nil => cases hc
  | cons x cs ih =>
    cases cs with
    | nil =>
      rw [List.mem_singleton] at hc
      rw [hc, show entryAt vfat.fatType vfat.fat.data x = _ from hl]
      exact getEOC_mod_ne vfat
    | cons d cs =>
      rcases List.mem_cons.mp hc with rfl | hc
      · have hd := hrange d (by simp)
        rw [hl.1, Nat.mod_eq_of_lt (lt_entryMod (h.isEOF_inRange hd))]
        have h2 := hd.1
        omega
      · exact ih (fun y hy => hrange y (List.mem_cons_of_mem _ hy)) hl.2 hc

theorem mem_owned : c ∈ owned ns ↔ ∃ n ∈ ns, c ∈ n.chain := List.mem_flatMap

theorem owned_ne_zero (h : Represents vfat ns) (hc : c ∈ owned ns) :
    entryAt vfat.fatType vfat.fat.data c ≠ 0 := by
  obtain ⟨n, hn, hc⟩ := mem_owned.mp hc
  have hs := h.stored n hn
  exact linked_ne_zero hs.range h.laid hs.linked hc

/-- The clusters that are not taken are free. -/
theorem exists_unowned (h : Represents vfat ns)
    (hfree : (owned ns).length + n ≤ vfat.countOfClusters) : ∃ cs, FirstFree vfat n cs := by
  have hent : ∀ c ∈ candidates vfat,
      getFATEntry vfat c = .ok (entryAt vfat.fatType vfat.fat.data c) := fun c hc =>
    getFATEntry_inside (h.laid.entryInside ((mem_candidates h.laid).mp hc))
  have hlen : (candidates vfat).length = vfat.countOfClusters := by
    rw [candidates_eq h.laid, List.length_range']
  have hnd : (candidates vfat).Nodup := by
    rw [candidates_eq h.laid]
    exact List.nodup_range'
  -- what is not free is taken
  have hsub : (candidates vfat).filter (fun c => !decide (getFATEntry vfat c = .ok 0)) ⊆
      owned ns := by
    intro c hc
    obtain ⟨hc, hne⟩ := List.mem_filter.mp hc
    rw [hent c hc, Bool.not_eq_true', decide_eq_false_iff_not] at hne
    by_contra hno
    exact hne (by rw [h.unowned c ((mem_candidates h.laid).mp hc) hno])
  have htaken := ((hnd.filter _).subperm hsub).length_le
  have hsum := List.length_eq_length_filter_add (l := candidates vfat)
    (fun c => decide (getFATEntry vfat c = .ok 0))
  obtain ⟨m, hm, htake⟩ := exists_take (n := n)
    (q := fun c => decide (getFATEntry vfat c = .ok 0)) (l := candidates vfat) (by omega)
  exact ⟨_, m, hm, fun c hc => ⟨_, hent c (List.mem_of_mem_take hc)⟩, rfl, htake⟩

/-- The first free clusters are nobody's. -/
theorem unowned_spec (h : Represents vfat ns) (hf : FirstFree vfat n cs) :
    cs.length = n ∧ cs.Nodup ∧ (∀ c ∈ cs, InRange vfat c) ∧ ∀ c ∈ cs, c ∉ owned ns := by
  obtain ⟨hlen, hlt, hspec, -⟩ := hf.spec
  refine ⟨hlen, hlt.imp Nat.ne_of_lt, fun c hc => ⟨(hspec c hc).1, (hspec c hc).2.1⟩,
    fun c hc hown => ?_⟩
  obtain ⟨-, -, hzero, hin⟩ := hspec c hc
  rw [getFATEntry_inside hin] at hzero
  injection hzero with hzero
  exact owned_ne_zero h hown hzero

end Free

/-! ## New entries -/

section Entry

variable {vfat : VFAT} {name basename key data : Bytes} {attr tenth : UInt8}
  {a b d hi e f lo size c dirClustno : Nat} {isDir : Bool}

variable (attr tenth a b d hi e f lo size) in
/-- The fields of an entry, where the numbers of the clusters and the size are. -/
theorem packEntry_fields (h : name.length = 11) :
    (packEntry name attr tenth a b d hi e f lo size).take 11 = name ∧
    byteAt (packEntry name attr tenth a b d hi e f lo size) 0 = byteAt name 0 ∧
    byteAt (packEntry name attr tenth a b d hi e f lo size) 11 = attr ∧
    le16 (packEntry name attr tenth a b d hi e f lo size) 20 = u16 hi ∧
    le16 (packEntry name attr tenth a b d hi e f lo size) 26 = u16 lo ∧
    le32 (packEntry name attr tenth a b d hi e f lo size) 28 = u32 size := by
  unfold packEntry
  refine ⟨?_, ?_, ?_, ?_, ?_, ?_⟩
  · simp only [List.append_assoc]
    exact take_of_length h
  · simp only [List.append_assoc]
    rw [byteAt_append, if_pos (by omega)]
  · simp only [List.append_assoc]
    rw [byteAt_append, if_neg (by omega), h]
    rfl
  · rw [le16_append_left (by simp [h]), le16_append_left (by simp [h]), le16_append_left (by simp [h]),
      le16_append_left (by simp [h]), le16_append_right (by simp [h])]
    simp [h, le16_enc16]
  · rw [le16_append_left (by simp [h]), le16_append_right (by simp [h])]
    simp [h, le16_enc16]
  · rw [le32_append_right (by simp [h])]
    simp [h, le32_enc32]

/-- The upper half of a number of 16 bits is zero, whichever way it is shifted. -/
theorem clusHI_small (h : c < 2 ^ 16) : clusHI c = 0 := by
  rw [clusHI, Nat.div_eq_of_lt h, Nat.zero_mul, Nat.zero_mul, u32_of_lt (by decide),
    u16_of_lt (by decide)]

def dotEntryOf (name : Bytes) (h : name.length ≤ 11) (c : Nat) : DirectoryEntry :=
  ⟨dotEntry name c, length_packEntry (length_pad h)⟩

theorem dotEntryOf_plain {h : (dot :: name).length ≤ 11} :
    Plain (dotEntryOf (dot :: name) h c) ∧ byteAt (dotEntryOf (dot :: name) h c).raw 0 = dot := by
  have hfields := packEntry_fields (attrArchive ||| attrDirectory) 0 1709 18706 18706 (clusHI c)
    22131 18706 (clusLO c) 0 (length_pad h)
  have hdot : byteAt (dotEntryOf (dot :: name) h c).raw 0 = dot := hfields.2.1
  have hattr : (dotEntryOf (dot :: name) h c).attr = attrArchive ||| attrDirectory := hfields.2.2.1
  refine ⟨⟨?_, ?_⟩, hdot⟩
  · rw [isEnd, hdot]
    decide
  · rw [isCandidate, hdot, hattr]
    decide

theorem dot_le : [dot].length ≤ 11 := by decide

theorem dotdot_le : [dot, dot].length ≤ 11 := by decide

/-- The first two entries of a new directory. -/
def dotsOf (c dirClustno : Nat) : List DirectoryEntry :=
  [dotEntryOf [dot] dot_le c, dotEntryOf [dot, dot] dotdot_le dirClustno]

theorem dotsOf_dots : Dots (dotsOf c dirClustno) where
  length := rfl
  plain e he := by
    rcases List.mem_pair.mp he with rfl | rfl
    · exact dotEntryOf_plain.1
    · exact dotEntryOf_plain.1
  dot e he := by
    rcases List.mem_pair.mp he with rfl | rfl
    · exact dotEntryOf_plain.2
    · exact dotEntryOf_plain.2

theorem clusterSize_entries (vfat : VFAT) : vfat.clusterSize = 32 * clusterEntries vfat := by
  rw [VFAT.clusterSize_eq, clusterEntries]
  omega

theorem two_le_clusterEntries (vfat : VFAT) : 16 ≤ clusterEntries vfat := by
  have hpos := vfat.secPerClus_pos
  rw [clusterEntries]
  omega

variable (vfat) in
/-- What is written for a directory. -/
theorem content_dir (h : data.length = vfat.clusterSize) :
    content true data c dirClustno = dirBytes (clusterEntries vfat) (dotsOf c dirClustno) := by
  have hlen : data.length - 64 = 32 * (clusterEntries vfat - 2) := by
    rw [h, clusterSize_entries]
    omega
  rw [content, if_pos rfl, hlen, dirBytes, dotsOf, List.flatMap_cons, List.flatMap_singleton]
  rfl

/-- The entry that is put into the directory. -/
def entryFor (uninit : Nat → UInt8) (isDir : Bool) (basename : Bytes) (c size : Nat) :
    DirectoryEntry :=
  ⟨newEntry uninit isDir basename c size, length_newEntry uninit isDir basename c size⟩

variable {uninit : Nat → UInt8}

variable (uninit isDir) in
theorem entryFor_spec (hk : IsKey key) (hname : internShortname basename = some key)
    (hc : c < 2 ^ 16) (hsize : size < 2 ^ 32) :
    (entryFor uninit isDir basename c size).name = key ∧
    Plain (entryFor uninit isDir basename c size) ∧
    isDirectory (entryFor uninit isDir basename c size) = isDir ∧
    (entryFor uninit isDir basename c size).clustno = c ∧
    (entryFor uninit isDir basename c size).fileSize = if isDir then 0 else size := by
  obtain ⟨h11, hused, hkept, -⟩ := hk
  have hraw : (entryFor uninit isDir basename c size).raw = packEntry key
      (if isDir then attrArchive ||| attrDirectory else attrArchive) 100 1884 18706 18706
      (clusHI c) 1884 18706 (clusLO c) (if isDir then 0 else size) := by
    change newEntry uninit isDir basename c size = _
    rw [newEntry, hname, Option.getD_some]
  obtain ⟨hnm, hfirst, hattr, hhi, hlo, hsz⟩ := packEntry_fields
    (if isDir then attrArchive ||| attrDirectory else attrArchive) 100 1884 18706 18706
    (clusHI c) 1884 18706 (clusLO c) (if isDir then 0 else size) h11
  rw [← hraw] at hnm hfirst hattr hhi hlo hsz
  have hattr' : (entryFor uninit isDir basename c size).attr =
    if isDir then attrArchive ||| attrDirectory else attrArchive := hattr
  refine ⟨hnm, ⟨?_, ?_⟩, ?_, ?_, ?_⟩
  · rw [isEnd, hfirst]
    exact decide_eq_false hused
  · rw [isCandidate, hfirst, hattr', decide_eq_true hkept]
    cases isDir <;> decide
  · rw [isDirectory, hattr']
    cases isDir <;> decide
  · rw [DirectoryEntry.clustno, DirectoryEntry.fstClusHI, DirectoryEntry.fstClusLO, hhi, hlo,
      clusHI_small hc, clusLO, Nat.mod_eq_of_lt hc, u16_of_lt hc, u16_of_lt (by decide)]
    omega
  · rw [DirectoryEntry.fileSize, hsz]
    refine u32_of_lt ?_
    cases isDir
    · exact hsize
    · exact Nat.two_pow_pos 32

end Entry

/-! ## The tree with a new node -/

section Grow

variable {vfat vfat' : VFAT} {ns : List Node} {n m new : Node} {p : List Bytes} {c : Nat}
  {fat : Fat} {ds : List Nat} {file data dirData : Bytes}

theorem children_snoc : children (ns ++ [new]) p =
    children ns p ++ if new.dir = p then [new.entry] else [] := by
  rw [children, List.filter_append, List.map_append, ← children, List.filter_singleton]
  by_cases hp : new.dir = p
  · rw [decide_eq_true hp, if_pos hp]
    rfl
  · rw [decide_eq_false hp, if_neg hp]
    rfl

theorem makes_snoc : (ns ++ [new]).map Node.make = ns.map Node.make ++ [new.make] :=
  List.map_append

theorem owned_snoc : owned (ns ++ [new]) = owned ns ++ new.chain := by
  rw [owned, List.flatMap_append, List.flatMap_singleton, owned]

theorem path_ne_nil (n : Node) : n.path ≠ [] :=
  List.append_ne_nil_of_right_ne_nil _ (List.cons_ne_nil _ _)

/-- A new directory is empty. -/
theorem no_children (hg : Grown (ns.map Node.make)) (hnew : new.path ∉ paths (ns.map Node.make)) :
    children (ns ++ [new]) new.path = [] := by
  rw [children_snoc, if_neg, List.append_nil]
  · refine List.eq_nil_iff_forall_not_mem.mpr fun e he => ?_
    obtain ⟨n, hn, hdir, -⟩ := mem_children.mp he
    rcases hg.isDir_dir (Represents.mem_make hn) with hroot | ⟨x, hx, hpath, -⟩
    · exact path_ne_nil new (hdir.symm.trans hroot)
    · exact hnew (mem_paths.mpr ⟨x, hx, hpath.trans hdir⟩)
  · intro h
    have hlen : new.dir.length = (new.dir ++ [new.entry.name]).length := congrArg List.length h
    rw [List.length_append, List.length_singleton] at hlen
    omega

theorem chains_apart (h : Represents vfat ns) (hn : n ∈ ns) (hm : m ∈ ns) (hne : n ≠ m)
    (hc : c ∈ n.chain) : c ∉ m.chain := by
  have hpair := (List.nodup_flatMap.mp h.apart).2
  have hsymm : Std.Symm (Function.onFun List.Disjoint fun x : Node => x.chain) :=
    ⟨fun _ _ hd => hd.symm⟩
  exact hpair.forall hn hm hne hc

/-- The clusters of a directory are those of one of the nodes. -/
theorem dirAt_chain (h : Represents vfat ns) (hd : DirAt vfat ns p data ds) :
    Chain vfat ds ∧ ∀ c ∈ ds, c ∈ owned ns := by
  cases hd with
  | root => exact ⟨⟨fun _ h => (by cases h), List.nodup_nil, trivial⟩, fun _ h => (by cases h)⟩
  | @node n hn _ =>
    have hs := h.stored n hn
    exact ⟨⟨hs.range, (List.nodup_flatMap.mp h.apart).1 n hn, hs.linked⟩,
      fun c hc => mem_owned.mpr ⟨n, hn, hc⟩⟩

theorem rootEntries_pos (h : Laid vfat) : 16 ≤ rootEntries vfat := by
  have hpos := h.root
  rw [rootEntries]
  omega

/-- What is the same of the volume makes the same of a node. -/
theorem Stored.keep {ns' : List Node} (hs : Stored vfat ns n) (hbpb : vfat'.bpb = vfat.bpb)
    (hlinked : Linked vfat.fatType (getEOC vfat) vfat'.fat.data n.chain)
    (hdata : n.data vfat' = n.data vfat)
    (hchildren : n.content = none → children ns' n.path = children ns n.path) :
    Stored vfat' ns' n := by
  have htype : vfat'.fatType = vfat.fatType := by rw [vfat'.fatType_eq, hbpb, ← vfat.fatType_eq]
  have heoc : getEOC vfat' = getEOC vfat := by rw [getEOC, htype, getEOC]
  refine ⟨hs.key, hs.plain, hs.first, fun c hc => ?_, ?_, fun hnone => ?_, fun b hb => ?_⟩
  · have hr := hs.range c hc
    rwa [InRange, VFAT.countOfClusters, ← hbpb] at hr
  · rwa [htype, heoc]
  · obtain ⟨hdir, hsize, hone, hroom, dots, hdots, hd⟩ := hs.isDir hnone
    have hentries : clusterEntries vfat' = clusterEntries vfat := by
      rw [clusterEntries, hbpb, clusterEntries]
    rw [hchildren hnone]
    refine ⟨hdir, hsize, hone, ?_, dots, hdots, ?_⟩
    · rwa [hentries]
    · rw [hdata, hd, hentries]
  · obtain ⟨hfile, hsize, hcount, hd⟩ := hs.isFile b hb
    refine ⟨hfile, hsize, ?_, ?_⟩
    · rw [hcount, clusterCount, clusterCount, VFAT.clusterSize, VFAT.clusterSize, hbpb]
    · rwa [hdata]

/-- The chain of the new node is made of clusters that were free. -/
structure Taken (vfat : VFAT) (ns : List Node) (cs : List Nat) (fat : Fat) : Prop where
  range : ∀ c ∈ cs, InRange vfat c
  distinct : cs.Nodup
  unowned : ∀ c ∈ cs, c ∉ owned ns
  set : SetTo vfat cs fat

/-- A volume with a new node: its directory has its entry, and nothing else has changed. -/
theorem represents_snoc (h : Represents vfat ns) (hdir : IsDir (ns.map Node.make) new.dir)
    (hnew : new.path ∉ paths (ns.map Node.make)) (htaken : Taken vfat ns new.chain vfat'.fat)
    (hlaid : Laid vfat') (hbpb : vfat'.bpb = vfat.bpb)
    (hroot : vfat'.rootdir = dirBytes (rootEntries vfat) (children (ns ++ [new]) []))
    (hroom : (children (ns ++ [new]) []).length < rootEntries vfat)
    (hin : ∀ n ∈ ns, n.content = none → n.path = new.dir →
      HoldsDir vfat' (children (ns ++ [new]) n.path) n)
    (hother : ∀ n ∈ ns, (n.content = none → n.path ≠ new.dir) → n.data vfat' = n.data vfat)
    (hstored : Stored vfat' (ns ++ [new]) new) : Represents vfat' (ns ++ [new]) := by
  have htype : vfat'.fatType = vfat.fatType := by rw [vfat'.fatType_eq, hbpb, ← vfat.fatType_eq]
  have hentries : rootEntries vfat' = rootEntries vfat := by rw [rootEntries, hbpb, rootEntries]
  have hlinked : ∀ n ∈ ns, Linked vfat.fatType (getEOC vfat) vfat'.fat.data n.chain := by
    intro n hn
    have hs := h.stored n hn
    refine hs.linked.congr fun c hc => htaken.set.others c ?_ ?_
    · exact fun hm => htaken.unowned c hm (mem_owned.mpr ⟨n, hn, hc⟩)
    · exact h.laid.entryInside (hs.range c hc)
  refine ⟨hlaid, ?_, ?_, ?_, fun n hn => ?_, ?_, fun c hc hno => ?_⟩
  · rw [makes_snoc]
    exact grown_snoc.mpr ⟨h.grown, hdir, hnew⟩
  · rw [hroot, hentries]
  · rwa [hentries]
  · rcases List.mem_append.mp hn with hn | hn
    · by_cases hd : n.content = none ∧ n.path = new.dir
      · -- the directory of the new node
        have hs := h.stored n hn
        obtain ⟨hnone, hpath⟩ := hd
        have heoc : getEOC vfat' = getEOC vfat := by rw [getEOC, htype, getEOC]
        refine ⟨hs.key, hs.plain, hs.first, fun c hc => ?_, ?_, fun _ => hin n hn hnone hpath,
          fun b hb => ?_⟩
        · have hr := hs.range c hc
          rwa [InRange, VFAT.countOfClusters, ← hbpb] at hr
        · rw [htype, heoc]
          exact hlinked n hn
        · rw [hnone] at hb
          cases hb
      · have hd' : n.content = none → n.path ≠ new.dir := fun hnone hpath => hd ⟨hnone, hpath⟩
        refine Stored.keep (h.stored n hn) hbpb (hlinked n hn) (hother n hn hd') fun hnone => ?_
        rw [children_snoc, if_neg (Ne.symm (hd' hnone)), List.append_nil]
    · rw [List.mem_singleton] at hn
      rw [hn]
      exact hstored
  · rw [owned_snoc]
    refine List.nodup_append.mpr ⟨h.apart, htaken.distinct, fun c hc d hd hcd => ?_⟩
    exact htaken.unowned d hd (hcd ▸ hc)
  · rw [owned_snoc, List.mem_append, not_or] at hno
    have hc' : InRange vfat c := by rwa [InRange, VFAT.countOfClusters, hbpb] at hc
    rw [htype, htaken.set.others c hno.2 (h.laid.entryInside hc'), h.unowned c hc' hno.1]

end Grow

/-! ## One call -/

section Call

variable {vfat vfat' : VFAT} {ns : List Node} {p : List Bytes} {pre file data basename key : Bytes}
  {cs ds : List Nat} {uninit : Nat → UInt8} {isDir : Bool} {k first : Nat} {fat : Fat}
  {dir names rest : List ShortName} {a b : ShortName} {path : CStr}

theorem allocate_run (hf : FirstFree vfat (clusterCount vfat file) cs) : ∃ fat,
    (allocateFATChain (clusterCount vfat file)).run vfat = .ok (cs.headD 0) { vfat with fat := fat } ∧
      SetTo vfat cs fat := by
  by_cases hn : clusterCount vfat file = 0
  · have hnil : cs = [] := List.eq_nil_of_length_eq_zero (hf.spec.1.trans hn)
    refine ⟨vfat.fat, ?_, ?_⟩
    · rw [hn, hnil, allocateFATChain, if_pos rfl, Prog.run_pure, List.headD_nil]
    · rw [hnil]
      exact ⟨rfl, trivial, fun _ _ _ => rfl⟩
  · exact allocate_of_firstFree hn hf

variable (uninit isDir basename first) in
/-- What is left to do once the clusters are taken and there is room in the directory. -/
theorem inject_run (hf : FirstFree vfat (clusterCount vfat file) cs) (hk : freeSlot data = some k)
    (hroom : 32 * (k + 1) < data.length) : ∃ fat, SetTo vfat cs fat ∧
      (inject uninit isDir file ⟨basename, data, first⟩).run vfat =
        (publish (content isDir file (cs.headD 0) first) (cs.headD 0)
          (splice data (32 * k) (entryFor uninit isDir basename (cs.headD 0) file.length).raw)
          first).run { vfat with fat := fat } := by
  obtain ⟨fat, hrun, hset⟩ := allocate_run hf
  refine ⟨fat, hset, ?_⟩
  rw [inject, Prog.get_bind, Prog.bind_ok hrun, hk]
  dsimp only
  rw [if_neg (Nat.not_le.mpr hroom)]
  rfl

/-- The node that is made of what is put. -/
def newNode (uninit : Nat → UInt8) (isDir : Bool) (p : List Bytes) (basename file : Bytes)
    (cs : List Nat) : Node where
  dir := p
  entry := entryFor uninit isDir basename (cs.headD 0) file.length
  chain := cs
  content := if isDir then none else some file

theorem children_dir : children (ns ++ [newNode uninit isDir p basename file cs]) p =
    children ns p ++ [entryFor uninit isDir basename (cs.headD 0) file.length] := by
  have hin : (newNode uninit isDir p basename file cs).dir = p := rfl
  rw [children_snoc, if_pos hin]
  rfl

theorem children_other {q : List Bytes} (h : p ≠ q) :
    children (ns ++ [newNode uninit isDir p basename file cs]) q = children ns q := by
  have hout : ¬ (newNode uninit isDir p basename file cs).dir = q := h
  rw [children_snoc, if_neg hout, List.append_nil]

/-- The buffer for a directory takes a cluster. -/
def BufferFor (vfat : VFAT) (isDir : Bool) (file : Bytes) : Prop :=
  isDir = true → file.length = vfat.clusterSize

theorem BufferFor.large (h : BufferFor vfat isDir file) : isDir = true → 64 ≤ file.length := by
  intro hd
  have hm := two_le_clusterEntries vfat
  rw [h hd, clusterSize_entries]
  omega

theorem fills_content (h : BufferFor vfat isDir file) (hlen : cs.length = clusterCount vfat file)
    (c d : Nat) : Fills vfat cs (content isDir file c d) := by
  have hs := vfat.clusterSize_pos
  have hdiv := Nat.div_add_mod (file.length + vfat.clusterSize - 1) vfat.clusterSize
  refine ⟨?_, fun hne => ?_⟩
  · rw [length_content h.large, hlen]
    exact le_clusterCount
  · have hpos := List.length_pos_iff.mpr hne
    rw [length_content h.large, Nat.sub_mul, Nat.one_mul, hlen]
    rw [hlen] at hpos
    have hle : vfat.clusterSize ≤ clusterCount vfat file * vfat.clusterSize :=
      Nat.le_mul_of_pos_left _ hpos
    rw [clusterCount, Nat.mul_comm] at hle ⊢
    omega

theorem clusterCount_one (h : file.length = vfat.clusterSize) : clusterCount vfat file = 1 := by
  have hs := vfat.clusterSize_pos
  rw [clusterCount, h, Nat.div_eq_iff hs]
  omega

/-- A file that the clusters hold is smaller than a size can be. -/
theorem length_lt (hl : Laid vfat) (hfree : clusterCount vfat file ≤ vfat.countOfClusters) :
    file.length < 2 ^ 32 := by
  have hcount := hl.count_lt
  have hle : file.length ≤ clusterCount vfat file * vfat.clusterSize := le_clusterCount
  have hbyte : vfat.clusterSize ≤ 255 * 512 := by
    rw [VFAT.clusterSize_eq]
    exact Nat.mul_le_mul_right _ (Nat.le_of_lt_succ (UInt8.toNat_lt _))
  have hmul : clusterCount vfat file * vfat.clusterSize ≤ 4085 * (255 * 512) :=
    Nat.mul_le_mul (by omega) hbyte
  omega

theorem headD_lt (hl : Laid vfat) (hrange : ∀ c ∈ cs, InRange vfat c) : cs.headD 0 < 2 ^ 16 := by
  have hcount := hl.count_lt
  cases cs with
  | nil => exact Nat.two_pow_pos 16
  | cons c cs =>
    have hc := (hrange c List.mem_cons_self).2
    rw [List.headD_cons]
    omega

/-- The new node is stored where it is published. -/
theorem stored_new (hl : Laid vfat) (hg : Grown (ns.map Node.make))
    (hnew : (newNode uninit isDir p basename file cs).path ∉ paths (ns.map Node.make))
    (htaken : Taken vfat ns cs fat) (hlen : cs.length = clusterCount vfat file)
    (hfree : clusterCount vfat file ≤ vfat.countOfClusters)
    (hk : IsKey key) (hname : internShortname basename = some key)
    (hbuf : BufferFor vfat isDir file) {dirData : Bytes}
    (hp : Published { vfat with fat := fat } cs ds (content isDir file (cs.headD 0) first) dirData
      vfat') :
    Stored vfat' (ns ++ [newNode uninit isDir p basename file cs])
      (newNode uninit isDir p basename file cs) := by
  have hbpb : vfat'.bpb = vfat.bpb := hp.bpb
  have hfat : vfat'.fat = fat := hp.fat
  have htype : vfat'.fatType = vfat.fatType := by rw [vfat'.fatType_eq, hbpb, ← vfat.fatType_eq]
  have heoc : getEOC vfat' = getEOC vfat := by rw [getEOC, htype, getEOC]
  have hsize : vfat'.clusterSize = vfat.clusterSize := by
    rw [VFAT.clusterSize, hbpb, VFAT.clusterSize]
  obtain ⟨hnm, hplain, hisdir, hclust, hfsize⟩ := entryFor_spec isDir uninit
    hk hname (headD_lt hl htaken.range) (length_lt hl hfree)
  obtain ⟨j, hj⟩ := hp.file
  refine ⟨?_, hplain, hclust, fun c hc => ?_, ?_, fun hnone => ?_, fun b hb => ?_⟩
  · exact (congrArg IsKey hnm).mpr hk
  · have hr := htaken.range c hc
    rwa [InRange, VFAT.countOfClusters, ← hbpb] at hr
  · rw [htype, heoc, hfat]
    exact htaken.set.linked
  · cases isDir with
    | false => cases hnone
    | true =>
      have hlen' := hbuf rfl
      have hm := two_le_clusterEntries vfat'
      have hone : cs.length = 1 := by rw [hlen, clusterCount_one hlen']
      rw [no_children hg hnew]
      refine ⟨hisdir, hfsize, hone, by rw [List.length_nil]; omega, dotsOf (cs.headD 0) first,
        dotsOf_dots, ?_⟩
      rw [content_dir vfat' (hlen'.trans hsize.symm)] at hj
      have hj0 : j = 0 := by
        have hl := congrArg List.length hj
        rw [length_clusters, List.length_append, List.length_replicate,
          length_dirBytes (by rw [dotsOf_dots.length]; omega), hone, clusterSize_entries] at hl
        omega
      rw [List.append_nil]
      refine Eq.trans hj ?_
      rw [hj0, List.replicate_zero, List.append_nil]
  · cases isDir with
    | true => cases hb
    | false =>
      injection hb with hb
      refine ⟨hisdir, hb ▸ hfsize, ?_, j, ?_⟩
      · rw [← hb, clusterCount, hsize, ← clusterCount, ← hlen]
        rfl
      · rw [← hb]
        exact hj

/-- What is found out before clusters are taken. -/
theorem prepare_new (h : Represents vfat ns) (hp : PathTo path pre dir a) (hdeep : dir.length ≤ 31)
    (hdir : IsDir (ns.map Node.make) (keys dir))
    (hnew : keys dir ++ [a.key] ∉ paths (ns.map Node.make)) :
    ∃ data ds, DirAt vfat ns (keys dir) data ds ∧
      prepare vfat path = .ok ⟨a.bytes, data, ds.headD 0⟩ := by
  have hstat : vfatStatFile vfat path = .err .failed :=
    h.stat_missing [] hp rfl hdir fun n hn hpath =>
      hnew (mem_paths.mpr ⟨n.make, Represents.mem_make hn, hpath⟩)
  obtain ⟨dirname, hdirname, hbytes⟩ := hp.getDirName
  have hshort : pre.length ≤ 255 := by
    have hs := hp.short
    rw [hp.bytes, List.length_append] at hs
    omega
  obtain ⟨data, ds, hd, hload⟩ := h.loadDir hp.leads hbytes hshort hdeep hdir
  refine ⟨data, ds, hd, ?_⟩
  rw [prepare, hstat]
  dsimp only
  rw [if_neg (not_not.mpr hp.head), hp.getBaseName, hdirname]
  dsimp only
  rw [hload, Out.ok_bind]
  rfl

/-- A name that is new in a directory with room, and clusters for the data. -/
structure Putting (vfat : VFAT) (ns : List Node) (p : List Bytes) (basename key : Bytes)
    (isDir : Bool) (file : Bytes) : Prop where
  isKey : IsKey key
  name : internShortname basename = some key
  new : p ++ [key] ∉ paths (ns.map Node.make)
  room : (children ns p).length ≤ 12
  free : (owned ns).length + clusterCount vfat file ≤ vfat.countOfClusters
  buffer : BufferFor vfat isDir file

/-- The volume after the call: the tree has the new node. -/
def Made (vfat : VFAT) (ns : List Node) (uninit : Nat → UInt8) (isDir : Bool) (p : List Bytes)
    (basename key file : Bytes) (vfat' : VFAT) : Prop :=
  vfat'.bpb = vfat.bpb ∧ ∃ cs, cs.length = clusterCount vfat file ∧
    (newNode uninit isDir p basename file cs).entry.name = key ∧
    Represents vfat' (ns ++ [newNode uninit isDir p basename file cs])

theorem Putting.count_le (hput : Putting vfat ns p basename key isDir file) :
    clusterCount vfat file ≤ vfat.countOfClusters := Nat.le_of_add_left_le hput.free

theorem Putting.entry_name (hput : Putting vfat ns p basename key isDir file) (hl : Laid vfat)
    (hrange : ∀ c ∈ cs, InRange vfat c) :
    (newNode uninit isDir p basename file cs).entry.name = key :=
  (entryFor_spec _ _ hput.isKey hput.name (headD_lt hl hrange) (length_lt hl hput.count_le)).1

variable (uninit) in
theorem Putting.path_new (hput : Putting vfat ns p basename key isDir file) (hl : Laid vfat)
    (hrange : ∀ c ∈ cs, InRange vfat c) :
    (newNode uninit isDir p basename file cs).path ∉ paths (ns.map Node.make) := by
  have hpath : (newNode uninit isDir p basename file cs).path = p ++ [key] := by
    rw [path_eq_iff]
    exact ⟨rfl, hput.entry_name hl hrange⟩
  rw [hpath]
  exact hput.new

/-- The clusters that are taken are a chain that the data fills. -/
theorem Putting.chain (hput : Putting vfat ns p basename key isDir file) (h : Represents vfat ns)
    (htaken : Taken vfat ns cs fat) (hlen : cs.length = clusterCount vfat file) (c d : Nat) :
    Laid { vfat with fat := fat } ∧ Chain { vfat with fat := fat } cs ∧
      Fills { vfat with fat := fat } cs (content isDir file c d) := by
  have hfills := fills_content hput.buffer hlen c d
  exact ⟨h.laid.congr rfl htaken.set.length h.laid.dev,
    ⟨htaken.range, htaken.distinct, htaken.set.linked⟩, hfills.le, hfills.gt⟩

theorem makes_root (h : Represents vfat ns) (hput : Putting vfat ns [] basename key isDir file)
    (hf : FirstFree vfat (clusterCount vfat file) cs) :
    Prog.Runs (inject uninit isDir file ⟨basename, vfat.rootdir, 0⟩) vfat fun _ vfat' =>
      Made vfat ns uninit isDir [] basename key file vfat' := by
  obtain ⟨hlen, hdistinct, hrange, hunowned⟩ := unowned_spec h hf
  have hroom := hput.room
  have hm := rootEntries_pos h.laid
  have hsize : vfat.rootdir.length = 32 * rootEntries vfat := by
    rw [h.root, length_dirBytes (Nat.le_of_lt h.room)]
  have hslot : freeSlot vfat.rootdir = some (children ns []).length := by
    rw [h.root, freeSlot_dirBytes h.plain (by omega)]
  obtain ⟨fat, hset, hrun⟩ := inject_run basename uninit isDir 0
    hf hslot (by omega)
  have htaken : Taken vfat ns cs fat := ⟨hrange, hdistinct, hunowned, hset⟩
  obtain ⟨hlaid, hchain, hfills⟩ := hput.chain h htaken hlen (cs.headD 0) 0
  have hsplice : splice vfat.rootdir (32 * (children ns []).length)
      (entryFor uninit isDir basename (cs.headD 0) file.length).raw = dirBytes (rootEntries vfat)
        (children (ns ++ [newNode uninit isDir [] basename file cs]) []) := by
    rw [h.root, splice_dirBytes (by omega), children_dir]
  have hchildren : (children (ns ++ [newNode uninit isDir [] basename file cs]) []).length <
      rootEntries vfat := by
    rw [children_dir, List.length_append, List.length_singleton]
    omega
  have hlen' := length_dirBytes (Nat.le_of_lt hchildren)
  obtain ⟨u, vfat', hpub, hp⟩ := publish_root hlaid hchain hfills hlen' (hsize.trans hlen'.symm)
  have hfat : vfat'.fat = fat := hp.fat
  have hnew := hput.path_new uninit h.laid hrange
  refine ⟨u, vfat', by rw [hrun, hsplice, hpub], hp.bpb, cs, hlen,
    hput.entry_name h.laid hrange, ?_⟩
  refine represents_snoc h (.inl rfl) hnew (by rwa [hfat]) hp.laid hp.bpb hp.rootdir hchildren
    (fun n _ _ hpath => absurd hpath (path_ne_nil n)) (fun n hn _ => ?_)
    (stored_new h.laid h.grown hnew htaken hlen hput.count_le hput.isKey hput.name hput.buffer hp)
  refine List.flatMap_congr fun c hc => ?_
  exact hp.others c ((h.stored n hn).range c hc)
    (fun hm => hunowned c hm (mem_owned.mpr ⟨n, hn, hc⟩)) List.not_mem_nil

theorem makes_node (h : Represents vfat ns) {m : Node} (hm : m ∈ ns) (hnone : m.content = none)
    (hput : Putting vfat ns m.path basename key isDir file)
    (hf : FirstFree vfat (clusterCount vfat file) cs) :
    Prog.Runs (inject uninit isDir file ⟨basename, m.data vfat, m.chain.headD 0⟩) vfat
      fun _ vfat' => Made vfat ns uninit isDir m.path basename key file vfat' := by
  obtain ⟨hlen, hdistinct, hrange, hunowned⟩ := unowned_spec h hf
  have hs := h.stored m hm
  obtain ⟨hdirectory, hfsize, hone, -, dots, hdots, hdata⟩ := hs.isDir hnone
  have hroom := hput.room
  have h16 := two_le_clusterEntries vfat
  have hdlen := hdots.length
  have hplain : ∀ e ∈ dots ++ children ns m.path, Plain e := by
    intro e he
    rcases List.mem_append.mp he with he | he
    · exact hdots.plain e he
    · exact h.plain e he
  have hlt : (dots ++ children ns m.path).length + 1 < clusterEntries vfat := by
    rw [List.length_append]
    omega
  have hslot : freeSlot (m.data vfat) = some (dots ++ children ns m.path).length := by
    rw [hdata, freeSlot_dirBytes hplain (Nat.lt_of_succ_lt hlt)]
  have hmsize : (m.data vfat).length = 32 * clusterEntries vfat := by
    rw [hdata, length_dirBytes (Nat.le_of_lt (Nat.lt_of_succ_lt hlt))]
  have hne : m.chain ≠ [] := by
    intro h0
    rw [h0] at hone
    cases hone
  obtain ⟨fat, hset, hrun⟩ := inject_run basename uninit isDir
    (m.chain.headD 0) hf hslot (by omega)
  have htaken : Taken vfat ns cs fat := ⟨hrange, hdistinct, hunowned, hset⟩
  obtain ⟨hlaid, hchain, hfills⟩ := hput.chain h htaken hlen (cs.headD 0) (m.chain.headD 0)
  have hinlen : (dots ++ children (ns ++ [newNode uninit isDir m.path basename file cs])
      m.path).length < clusterEntries vfat := by
    rw [children_dir, ← List.append_assoc, List.length_append, List.length_singleton]
    exact hlt
  have hsplice : splice (m.data vfat) (32 * (dots ++ children ns m.path).length)
      (entryFor uninit isDir basename (cs.headD 0) file.length).raw = dirBytes (clusterEntries vfat)
        (dots ++ children (ns ++ [newNode uninit isDir m.path basename file cs]) m.path) := by
    rw [hdata, splice_dirBytes (Nat.lt_of_succ_lt hlt), children_dir, List.append_assoc]
  have hlen' := (length_dirBytes (Nat.le_of_lt hinlen)).trans (clusterSize_entries vfat).symm
  rw [← Nat.one_mul vfat.clusterSize, ← hone] at hlen'
  -- the directory keeps its chain
  have hmapart : ∀ c ∈ m.chain, c ∉ cs := fun c hc hcs =>
    hunowned c hcs (mem_owned.mpr ⟨m, hm, hc⟩)
  have hmlinked : Linked vfat.fatType (getEOC vfat) fat.data m.chain :=
    hs.linked.congr fun c hc => hset.others c (hmapart c hc) (h.laid.entryInside (hs.range c hc))
  obtain ⟨u, vfat', hpub, hp⟩ := publish_node hlaid hchain hfills
    ⟨hs.range, (List.nodup_flatMap.mp h.apart).1 m hm, hmlinked⟩ hne hlen'
    fun c hc hcm => hmapart c hcm hc
  have hfat : vfat'.fat = fat := hp.fat
  have hbpb : vfat'.bpb = vfat.bpb := hp.bpb
  have hnew := hput.path_new uninit h.laid hrange
  have hroot : children (ns ++ [newNode uninit isDir m.path basename file cs]) [] =
      children ns [] := children_other (path_ne_nil m)
  have hisdir : IsDir (ns.map Node.make) m.path := (DirAt.node hm hnone : DirAt vfat ns _ _ _).isDir
  refine ⟨u, vfat', by rw [hrun, hsplice, hpub], hbpb, cs, hlen, hput.entry_name h.laid hrange, ?_⟩
  refine represents_snoc h hisdir hnew (by rwa [hfat]) hp.laid hbpb ?_ ?_
    (fun n hn _ hpath => ?_) (fun n hn hother => ?_)
    (stored_new h.laid h.grown hnew htaken hlen hput.count_le hput.isKey hput.name hput.buffer hp)
  · rw [hp.rootdir, if_neg hne, hroot]
    exact h.root
  · rw [hroot]
    exact h.room
  · have hentries : clusterEntries vfat' = clusterEntries vfat := by
      rw [clusterEntries, hbpb, clusterEntries]
    rw [List.length_append, hdlen] at hinlen
    rw [h.unique hn hm hpath]
    refine ⟨hdirectory, hfsize, hone, by rwa [hentries], dots, hdots, ?_⟩
    rw [hentries]
    exact hp.dir hne
  · have hnm : n ≠ m := by
      rintro rfl
      exact hother hnone rfl
    refine List.flatMap_congr fun c hc => ?_
    exact hp.others c ((h.stored n hn).range c hc)
      (fun hcs => hunowned c hcs (mem_owned.mpr ⟨n, hn, hc⟩)) (chains_apart h hn hm hnm hc)

variable (isDir file) in
/-- A new name in a directory of the tree: the call succeeds, and the volume holds the tree with
the new node. -/
theorem putFile_makes (h : Represents vfat ns) (hp : PathTo path pre dir a)
    (hdeep : dir.length ≤ 31) (hdir : IsDir (ns.map Node.make) (keys dir))
    (hput : Putting vfat ns (keys dir) a.bytes a.key isDir file) :
    Prog.Runs (putFile uninit isDir path file) vfat fun _ vfat' =>
      Made vfat ns uninit isDir (keys dir) a.bytes a.key file vfat' := by
  obtain ⟨data, ds, hd, hprep⟩ := prepare_new h hp hdeep hdir hput.new
  obtain ⟨cs, hf⟩ := exists_unowned h hput.free
  rw [putFile]
  refine Prog.Runs.read (f := fun vfat => prepare vfat path) hprep ?_
  generalize keys dir = p at hd hput
  cases hd with
  | root => exact makes_root h hput hf
  | node hm hnone => exact makes_node h hm hnone hput hf

/-- A name that is there already. -/
theorem putFile_taken (h : Represents vfat ns) (hp : PathTo path pre dir a)
    (hlen : dir.length + 1 ≤ 31) (htaken : keys dir ++ [a.key] ∈ paths (ns.map Node.make)) :
    (putFile uninit isDir path file).run vfat = .err .failed vfat := by
  obtain ⟨m, hm, hpath⟩ := mem_paths.mp htaken
  obtain ⟨n, hn, rfl⟩ := List.mem_map.mp hm
  have hprep : prepare vfat path = .err .failed := by
    rw [prepare, h.stat_found hp hlen hn hpath]
  rw [putFile, Prog.bind_err (Prog.read_err (f := fun vfat => prepare vfat path) hprep)]

/-- A directory that is not there. -/
theorem putFile_orphan (h : Represents vfat ns) (hp : PathTo path pre dir a)
    (hsplit : dir = names ++ b :: rest) (hdir : IsDir (ns.map Node.make) (keys names))
    (hno : keys names ++ [b.key] ∉ paths (ns.map Node.make)) :
    (putFile uninit isDir path file).run vfat = .err .failed vfat := by
  have hno' : ∀ n ∈ ns, n.path ≠ keys names ++ [b.key] := fun n hn hpath =>
    hno (mem_paths.mpr ⟨n.make, Represents.mem_make hn, hpath⟩)
  have hstat : vfatStatFile vfat path = .err .failed :=
    h.stat_missing (rest ++ [a]) hp (by rw [hsplit]; simp) hdir hno'
  obtain ⟨dirname, hdirname, hbytes⟩ := hp.getDirName
  have hshort : pre.length ≤ 255 := by
    have hs := hp.short
    rw [hp.bytes, List.length_append] at hs
    omega
  have hload : loadDir vfat dirname = .err .failed := by
    have hne : dir ≠ [] := by simp [hsplit]
    rcases hp.leads.cases with ⟨hnil, -⟩ | ⟨-, hpre, hroot, -⟩
    · exact absurd hnil hne
    · rw [if_neg hpre] at hbytes
      have hleads := hp.leads
      cases hleads with
      | empty => exact absurd rfl hpre
      | root => exact absurd rfl hroot
      | @snoc pre' dir' x hpre' =>
        have hp' : PathTo dirname pre' dir' x := ⟨hbytes, hpre', hbytes ▸ hshort⟩
        rw [loadDir, if_neg (hbytes ▸ hroot), h.stat_missing _ hp' hsplit hdir hno', Out.err_bind]
  have hprep : prepare vfat path = .err .failed := by
    rw [prepare, hstat]
    dsimp only
    rw [if_neg (not_not.mpr hp.head), hp.getBaseName, hdirname]
    dsimp only
    rw [hload, Out.err_bind]
  rw [putFile, Prog.bind_err (Prog.read_err (f := fun vfat => prepare vfat path) hprep)]

end Call

/-! ## Calls in a row -/

/-- The volume holds the tree. -/
def Shows (vfat : VFAT) (t : List (Make Bytes Bytes)) : Prop :=
  ∃ ns, ns.map Node.make = t ∧ Represents vfat ns

/-- The number of clusters that a file or a directory takes. -/
def cost (vfat : VFAT) (m : Make Bytes Bytes) : Nat :=
  match m.content with
  | none => 1
  | some b => clusterCount vfat b

/-- The number of clusters that the tree takes. -/
def used (vfat : VFAT) (t : List (Make Bytes Bytes)) : Nat := (t.map (cost vfat)).sum

/-- The same with the names as they are in entries. -/
def keyed (m : Make ShortName Bytes) : Make Bytes Bytes := ⟨keys m.dir, m.name.key, m.content⟩

/-- The call is to make this. -/
inductive Names : Call → Make ShortName Bytes → Prop where
  | putFile {path pre dir a} (data : Bytes) : PathTo path pre dir a →
      Names (.putFile path data) ⟨dir, a, some data⟩
  | mkdir {path pre dir a} : PathTo path pre dir a → Names (.mkdir path) ⟨dir, a, none⟩

/-- The calls one after another, until one fails. -/
def runCalls (uninit : Nat → UInt8) : List Call → Prog VFAT Fail Unit
  | [] => pure ()
  | call :: calls => do
    call.prog uninit
    runCalls uninit calls

section Calls

variable {vfat vfat' : VFAT} {ns : List Node} {t : List (Make Bytes Bytes)} {calls : List Call}
  {ms : List (Make ShortName Bytes)} {m : Make ShortName Bytes} {call : Call}
  {uninit : Nat → UInt8}

theorem cost_congr (h : vfat'.bpb = vfat.bpb) : cost vfat' = cost vfat := by
  funext m
  unfold cost clusterCount VFAT.clusterSize
  rw [h]

theorem length_owned (h : Represents vfat ns) :
    (owned ns).length = used vfat (ns.map Node.make) := by
  have hone : ∀ n ∈ ns, n.chain.length = cost vfat n.make := by
    intro n hn
    have hs := h.stored n hn
    cases hc : n.content with
    | none =>
      rw [(hs.isDir hc).one, cost, show n.make.content = none from hc]
    | some b =>
      rw [(hs.isFile b hc).count, cost, show n.make.content = some b from hc]
  rw [owned, List.length_flatMap, used, List.map_map]
  exact congrArg List.sum (List.map_congr_left hone)

theorem length_children (ns : List Node) (p : List Bytes) :
    (children ns p).length = ((ns.map Node.make).filter (·.dir = p)).length := by
  rw [children, List.length_map, List.filter_map, List.length_map]
  rfl

theorem used_snoc (vfat : VFAT) (t : List (Make Bytes Bytes)) (x : Make Bytes Bytes) :
    used vfat (t ++ [x]) = used vfat t + cost vfat x := by
  rw [used, List.map_append, List.sum_append, List.map_singleton, List.sum_singleton, used]

variable (uninit) in
/-- One call in a directory of the tree: it succeeds where the name is new. -/
theorem call_makes (h : Shows vfat t) (hcall : Names call m) (hdeep : m.dir.length ≤ 30)
    (hdir : IsDir t (keyed m).dir) (hroom : (t.filter (·.dir = (keyed m).dir)).length ≤ 12)
    (hnew : (keyed m).path ∉ paths t)
    (hfree : used vfat (t ++ [keyed m]) ≤ vfat.countOfClusters) :
    Prog.Runs (call.prog uninit) vfat fun _ vfat' =>
      vfat'.bpb = vfat.bpb ∧ Shows vfat' (t ++ [keyed m]) := by
  obtain ⟨ns, rfl, hrep⟩ := h
  rw [used_snoc, ← length_owned hrep] at hfree
  rw [← length_children] at hroom
  have hmade : ∀ {isDir p basename key file vfat'}, Made vfat ns uninit isDir p basename key file
      vfat' → keyed m = ⟨p, key, if isDir then none else some file⟩ →
        vfat'.bpb = vfat.bpb ∧ Shows vfat' (ns.map Node.make ++ [keyed m]) := by
    rintro isDir p basename key file vfat' ⟨hbpb, cs, -, hname, hrep'⟩ hkeyed
    refine ⟨hbpb, _, makes_snoc.trans ?_, hrep'⟩
    rw [hkeyed, ← hname]
    rfl
  unfold Prog.Runs
  rw [prog_run]
  cases hcall with
  | @putFile path pre dir a data hp =>
    exact (putFile_makes data false hrep hp (Nat.le_succ_of_le hdeep) hdir
      ⟨a.key_isKey, a.intern, hnew, hroom, hfree, fun h => by cases h⟩).mono fun _ _ hm =>
        hmade hm rfl
  | @mkdir path pre dir a hp =>
    have hlen : (List.replicate vfat.clusterSize (0 : UInt8)).length = vfat.clusterSize :=
      List.length_replicate
    refine (putFile_makes (List.replicate vfat.clusterSize 0) true hrep hp
      (Nat.le_succ_of_le hdeep) hdir
      ⟨a.key_isKey, a.intern, hnew, hroom, ?_, fun _ => hlen⟩).mono fun _ _ hm => hmade hm rfl
    rw [clusterCount_one hlen]
    exact hfree

/-- A file of the tree is read as it is. -/
theorem shows_get (h : Shows vfat t) {x : Make Bytes Bytes} (hx : x ∈ t) {path : CStr} {pre : Bytes}
    {dir : List ShortName} {a : ShortName} (hp : PathTo path pre dir a) (hlen : dir.length + 1 ≤ 31)
    (hpath : x.path = keys dir ++ [a.key]) {b : Bytes} (hcontent : x.content = some b) :
    vfatGetFile vfat path = .ok b := by
  obtain ⟨ns, rfl, hrep⟩ := h
  obtain ⟨n, hn, rfl⟩ := List.mem_map.mp hx
  exact hrep.vfatGetFile hp hlen hn hpath hcontent

/-- A call with a name that is taken fails. -/
theorem call_taken (h : Shows vfat t) (hcall : Names call m) (hdeep : m.dir.length ≤ 30)
    (htaken : (keyed m).path ∈ paths t) : (call.prog uninit).run vfat = .err .failed vfat := by
  obtain ⟨ns, rfl, hrep⟩ := h
  rw [prog_run]
  cases hcall with
  | putFile data hp => exact putFile_taken hrep hp (Nat.succ_le_succ hdeep) htaken
  | mkdir hp => exact putFile_taken hrep hp (Nat.succ_le_succ hdeep) htaken

/-- What the calls of a run meet: directories that are there, room in them, and clusters. -/
structure Possible (vfat : VFAT) (t : List (Make Bytes Bytes)) (ms : List (Make ShortName Bytes)) :
    Prop where
  based : Based t (ms.map keyed)
  deep : ∀ m ∈ ms, m.dir.length ≤ 30
  room : ∀ p, ((t ++ ms.map keyed).filter (·.dir = p)).length ≤ 12
  free : ∀ s, s <+: t ++ ms.map keyed → (paths s).Nodup → used vfat s ≤ vfat.countOfClusters

theorem Possible.next (h : Possible vfat t (m :: ms)) (hbpb : vfat'.bpb = vfat.bpb) :
    Possible vfat' (t ++ [keyed m]) ms := by
  have hsplit : t ++ (m :: ms).map keyed = t ++ [keyed m] ++ ms.map keyed := by
    rw [List.map_cons, List.append_cons]
  refine ⟨h.based.2, fun x hx => h.deep x (List.mem_cons_of_mem _ hx), ?_, ?_⟩
  · rw [← hsplit]
    exact h.room
  · rw [← hsplit, VFAT.countOfClusters, hbpb]
    unfold used
    rw [cost_congr hbpb]
    exact h.free

variable (uninit) in
/-- The calls of a run succeed exactly if they make different things, and then the volume holds
what they are to make. -/
theorem runCalls_ends (h : Shows vfat t) (hcalls : List.Forall₂ Names calls ms)
    (hposs : Possible vfat t ms) :
    ((paths (t ++ ms.map keyed)).Nodup → Prog.Runs (runCalls uninit calls) vfat fun _ vfat' =>
      Shows vfat' (t ++ ms.map keyed)) ∧
    (¬ (paths (t ++ ms.map keyed)).Nodup →
      ∃ e vfat', (runCalls uninit calls).run vfat = .err e vfat') := by
  induction hcalls generalizing vfat t with
  | nil =>
    have hnodup : (paths t).Nodup := by
      obtain ⟨ns, rfl, hrep⟩ := h
      exact hrep.grown.distinct
    rw [List.map_nil, List.append_nil]
    exact ⟨fun _ => Prog.Runs.pure h, fun hno => absurd hnodup hno⟩
  | @cons call m calls ms hcall hcalls ih =>
    have hsplit : t ++ (m :: ms).map keyed = t ++ [keyed m] ++ ms.map keyed := by
      rw [List.map_cons, List.append_cons]
    have hdeep := hposs.deep m List.mem_cons_self
    rw [hsplit, runCalls]
    by_cases hnew : (keyed m).path ∈ paths t
    · -- the name is taken
      have hno : ¬ (paths (t ++ [keyed m] ++ ms.map keyed)).Nodup := by
        intro hnd
        rw [paths_append, paths_append] at hnd
        exact List.disjoint_of_nodup_append (List.Nodup.of_append_left hnd) hnew
          (List.mem_singleton.mpr rfl)
      refine ⟨fun hnd => absurd hnd hno, fun _ => ⟨.failed, vfat, ?_⟩⟩
      rw [Prog.bind_err (call_taken h hcall hdeep hnew)]
    · have hroom : (t.filter (·.dir = (keyed m).dir)).length ≤ 12 := by
        refine Nat.le_trans ?_ (hposs.room (keyed m).dir)
        rw [List.filter_append, List.length_append]
        exact Nat.le_add_right _ _
      have hgrown : (paths (t ++ [keyed m])).Nodup := by
        obtain ⟨ns, rfl, hrep⟩ := h
        exact (grown_snoc.mpr ⟨hrep.grown, hposs.based.1, hnew⟩).distinct
      have hfree := hposs.free (t ++ [keyed m]) (hsplit ▸ List.prefix_append _ _) hgrown
      obtain ⟨u, vfat₁, hrun, hbpb, hshows⟩ :=
        call_makes uninit h hcall hdeep hposs.based.1 hroom hnew hfree
      obtain ⟨hok, herr⟩ := ih hshows (hposs.next hbpb)
      refine ⟨fun hnd => Prog.Runs.ok hrun (hok hnd), fun hno => ?_⟩
      rw [Prog.bind_ok hrun]
      exact herr hno

end Calls

end LsvmTools.Vfat.Create
