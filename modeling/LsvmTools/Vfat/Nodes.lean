import LsvmTools.Lib.FileTree
import LsvmTools.Vfat.Layout

/-! # Volumes that hold a tree

`Represents` says how files and directories lie on a volume. Looking for a path on such a
volume delivers what the tree has there. -/
namespace LsvmTools.Vfat.Nodes
open Lib.ByteString Lib.Program Lib.FileTree BlockDevice Strings Volume Entries Alloc Walk Files
open Shortname Lookup Put Layout

/-! ## Names -/

/-- The characters that a short name may have. -/
def isShortChar (c : UInt8) : Bool :=
  33 ≤ c && c ≤ 126 && c ∉ text "\"*+,./:;<=>?[\\]|"

/-- A name of the 8.3 format. -/
structure ShortName where
  stem : Bytes
  ext : Bytes
  stem_pos : 0 < stem.length
  stem_le : stem.length ≤ 8
  ext_le : ext.length ≤ 3
  chars : ∀ c ∈ stem ++ ext, isShortChar c = true

namespace ShortName

variable (a : ShortName)

def bytes : Bytes := if a.ext = [] then a.stem else a.stem ++ dot :: a.ext

/-- The name in the directory entry. -/
def key : Bytes := upper (pad 8 a.stem ++ pad 3 a.ext)

end ShortName

/-- A name in a directory entry that is neither an end marker, nor deleted, nor `.` or `..`. -/
structure IsKey (key : Bytes) : Prop where
  length : key.length = 11
  used : byteAt key 0 ≠ 0
  kept : byteAt key 0 ≠ 0xE5
  named : byteAt key 0 ≠ dot

section Names

variable {c : UInt8} {a : ShortName}

theorem shortChar_spec (h : isShortChar c = true) :
    33 ≤ c.toNat ∧ c.toNat ≤ 126 ∧ c ≠ dot ∧ c ≠ slash := by
  unfold isShortChar at h
  rw [Bool.and_eq_true, Bool.and_eq_true, decide_eq_true_eq, decide_eq_true_eq,
    decide_eq_true_eq] at h
  obtain ⟨⟨hlo, hhi⟩, hno⟩ := h
  refine ⟨UInt8.le_iff_toNat_le.mp hlo, UInt8.le_iff_toNat_le.mp hhi, ?_, ?_⟩
  · rintro rfl
    exact hno (by decide)
  · rintro rfl
    exact hno (by decide)

theorem toupper_le (c : UInt8) : (toupper c).toNat ≤ c.toNat := by
  unfold toupper
  split
  · rename_i hc
    have h97 : (97 : UInt8).toNat ≤ c.toNat := UInt8.le_iff_toNat_le.mp hc.1
    rw [UInt8.toNat_sub_of_le _ _ (UInt8.le_iff_toNat_le.mpr (Nat.le_trans (by decide) h97))]
    exact Nat.sub_le _ _
  · exact Nat.le_refl _

theorem ShortName.head (a : ShortName) : ∃ c rest, a.stem = c :: rest ∧ isShortChar c = true := by
  obtain ⟨c, rest, hstem⟩ := List.exists_cons_of_length_pos a.stem_pos
  refine ⟨c, rest, hstem, a.chars c ?_⟩
  rw [hstem]
  exact List.mem_cons_self

theorem ShortName.key_isKey (a : ShortName) : IsKey a.key := by
  obtain ⟨c, rest, hstem, hc⟩ := a.head
  obtain ⟨hlo, hhi, hdot, -⟩ := shortChar_spec hc
  have hfirst : byteAt a.key 0 = toupper c := by
    rw [ShortName.key, hstem]
    rfl
  refine ⟨?_, ?_, ?_, ?_⟩
  · rw [ShortName.key, length_upper, List.length_append, length_pad a.stem_le, length_pad a.ext_le]
  · rw [hfirst, ne_eq, toupper_eq (by decide)]
    rintro rfl
    exact absurd hlo (by decide)
  · intro h
    have hle := toupper_le c
    rw [← hfirst, h] at hle
    exact absurd (Nat.le_trans hle hhi) (by decide)
  · rw [hfirst, ne_eq, toupper_eq_dot]
    exact hdot

theorem ShortName.not_mem_dot (a : ShortName) : dot ∉ a.stem ∧ dot ∉ a.ext := by
  constructor
  · intro h
    exact (shortChar_spec (a.chars _ (List.mem_append_left _ h))).2.2.1 rfl
  · intro h
    exact (shortChar_spec (a.chars _ (List.mem_append_right _ h))).2.2.1 rfl

theorem ShortName.bytes_ne_nil (a : ShortName) : a.bytes ≠ [] := by
  obtain ⟨c, rest, hstem, -⟩ := a.head
  unfold ShortName.bytes
  split
  · rw [hstem]
    exact List.cons_ne_nil _ _
  · rw [hstem]
    exact List.cons_ne_nil _ _

theorem ShortName.mem_bytes (h : c ∈ a.bytes) : c = dot ∨ isShortChar c = true := by
  unfold ShortName.bytes at h
  split at h
  · exact .inr (a.chars c (List.mem_append_left _ h))
  · rcases List.mem_append.mp h with h | h
    · exact .inr (a.chars c (List.mem_append_left _ h))
    · rcases List.mem_cons.mp h with h | h
      · exact .inl h
      · exact .inr (a.chars c (List.mem_append_right _ h))

theorem ShortName.slash_not_mem (a : ShortName) : slash ∉ a.bytes := by
  intro h
  rcases a.mem_bytes h with h | h
  · exact absurd h (by decide)
  · exact (shortChar_spec h).2.2.2 rfl

theorem ShortName.zero_not_mem (a : ShortName) : (0 : UInt8) ∉ a.bytes := by
  intro h
  rcases a.mem_bytes h with h | h
  · exact absurd h (by decide)
  · exact absurd (shortChar_spec h).1 (by decide)

theorem ShortName.length_bytes_le (a : ShortName) : a.bytes.length ≤ 12 := by
  have hstem := a.stem_le
  have hext := a.ext_le
  unfold ShortName.bytes
  split
  · omega
  · rw [List.length_append, List.length_cons]
    omega

theorem ShortName.intern (a : ShortName) : internShortname a.bytes = some a.key := by
  obtain ⟨hstem, hext⟩ := a.not_mem_dot
  have h8 := a.stem_le
  have h3 := a.ext_le
  unfold ShortName.bytes ShortName.key
  split
  · rename_i he
    rw [internShortname, if_neg hstem, if_neg (by omega), pad_eleven (by omega),
      List.take_of_length_le h8, List.drop_eq_nil_of_le h8, he]
  · have hall : ∀ c ∈ a.stem, decide (c ≠ dot) = true :=
      fun c hc => decide_eq_true fun h : c = dot => hstem (h ▸ hc)
    have htake : (a.stem ++ dot :: a.ext).takeWhile (· ≠ dot) = a.stem := by
      rw [List.takeWhile_append_of_pos hall, List.takeWhile_cons, if_neg (by decide),
        List.append_nil]
    have hdrop : (a.stem ++ dot :: a.ext).drop (a.stem.length + 1) = a.ext := by
      rw [List.append_cons, List.drop_left' (by simp)]
    rw [internShortname, if_pos (by simp)]
    dsimp only
    rw [htake, hdrop, if_neg (by omega)]

theorem ShortName.fixName (a : ShortName) : fixName a.bytes = some a.key := by
  obtain ⟨c, rest, hstem, hc⟩ := a.head
  have hdot := (shortChar_spec hc).2.2.1
  have hhead : a.bytes.head? = some c := by
    unfold ShortName.bytes
    split <;> rw [hstem] <;> rfl
  unfold Lookup.fixName
  rw [if_neg, if_neg, a.intern]
  · intro h
    rw [h] at hhead
    exact hdot (Option.some.inj hhead).symm
  · intro h
    rw [h] at hhead
    exact hdot (Option.some.inj hhead).symm

end Names

/-! ## Paths -/

/-- The text leads to the directory, named from the root on. -/
inductive Leads : Bytes → List ShortName → Prop where
  | empty : Leads [] []
  | root : Leads [slash] []
  | snoc {pre dir} (a : ShortName) : Leads pre dir → Leads (pre ++ slash :: a.bytes) (dir ++ [a])

/-- The names as they are in directory entries. -/
def keys (names : List ShortName) : List Bytes := names.map ShortName.key

section Paths

variable {pre : Bytes} {dir names : List ShortName} {a : ShortName}

theorem keys_snoc : keys (dir ++ [a]) = keys dir ++ [a.key] := List.map_append

theorem strtok_append_cons (p q : Bytes) : strtok (p ++ slash :: q) = strtok p ++ strtok q := by
  rw [strtok, List.splitOn_append_cons_self, List.filter_append]
  rfl

theorem strtok_name (a : ShortName) : strtok a.bytes = [a.bytes] := by
  rw [strtok, List.splitOn_eq_singleton a.slash_not_mem, List.filter_singleton]
  cases h : a.bytes with
  | nil => exact absurd h a.bytes_ne_nil
  | cons c rest => rfl

theorem Leads.strtok (h : Leads pre dir) : strtok pre = dir.map ShortName.bytes := by
  induction h with
  | empty => decide
  | root => decide
  | snoc a _ ih => rw [strtok_append_cons, ih, strtok_name, List.map_append, List.map_singleton]

theorem Leads.zero_not_mem (h : Leads pre dir) : (0 : UInt8) ∉ pre := by
  induction h with
  | empty => decide
  | root => decide
  | snoc a _ ih =>
    rw [List.mem_append, List.mem_cons, not_or, not_or]
    exact ⟨ih, by decide, a.zero_not_mem⟩

theorem Leads.head (h : Leads pre dir) (q : Bytes) : (pre ++ slash :: q).head? = some slash := by
  induction h generalizing q with
  | empty => rfl
  | root => rfl
  | snoc a _ ih =>
    rw [List.append_assoc, List.cons_append]
    exact ih _

/-- What leads to a directory below the root is neither nothing nor the root. -/
theorem Leads.cases (h : Leads pre dir) : dir = [] ∧ (pre = [] ∨ pre = [slash]) ∨
    dir ≠ [] ∧ pre ≠ [] ∧ pre ≠ [slash] ∧ pre.head? = some slash := by
  cases h with
  | empty => exact .inl ⟨rfl, .inl rfl⟩
  | root => exact .inl ⟨rfl, .inr rfl⟩
  | @snoc pre dir a h =>
    refine .inr ⟨by simp, by simp, fun heq => ?_, h.head _⟩
    have hlen := congrArg List.length heq
    rw [List.length_append, List.length_cons, List.length_singleton] at hlen
    exact a.bytes_ne_nil (List.eq_nil_of_length_eq_zero (by omega))

theorem afterLastSlash_append {p q : Bytes} (hq : slash ∉ q) :
    afterLastSlash (p ++ slash :: q) = q := by
  have hall : ∀ c ∈ q.reverse, decide (c ≠ slash) = true := by
    intro c hc
    exact decide_eq_true fun h => hq (h ▸ List.mem_reverse.mp hc)
  rw [afterLastSlash, List.reverse_append, List.reverse_cons, List.append_assoc,
    List.takeWhile_append_of_pos hall, List.singleton_append, List.takeWhile_cons,
    if_neg (by decide), List.append_nil, List.reverse_reverse]

/-- The path leads to the name in the directory, and fits the buffers. -/
structure PathTo (path : CStr) (pre : Bytes) (dir : List ShortName) (a : ShortName) : Prop where
  bytes : path.bytes = pre ++ slash :: a.bytes
  leads : Leads pre dir
  short : path.bytes.length ≤ 255

variable {path : CStr} (h : PathTo path pre dir a)
include h

theorem PathTo.strlcpy_eq : strlcpy path.bytes 256 = path.bytes := List.take_of_length_le h.short

theorem PathTo.slash_mem : slash ∈ path.bytes := by
  rw [h.bytes]
  exact List.mem_append_right _ List.mem_cons_self

theorem PathTo.afterLastSlash_eq : afterLastSlash path.bytes = a.bytes := by
  rw [h.bytes, afterLastSlash_append a.slash_not_mem]

theorem PathTo.head : path.bytes.head? = some slash := by
  rw [h.bytes]
  exact h.leads.head a.bytes

theorem PathTo.getBaseName : getBaseName path = some a.bytes := by
  have hlen := a.length_bytes_le
  rw [Put.getBaseName, if_neg (not_not.mpr h.slash_mem), h.afterLastSlash_eq, if_neg a.bytes_ne_nil,
    strlcpy, List.take_of_length_le (by omega)]

/-- The directory is what comes before the last name, and the root where nothing does. -/
theorem PathTo.getDirName : ∃ dirname, getDirName path = some dirname ∧
    dirname.bytes = if pre = [] then [slash] else pre := by
  have hn : path.bytes.length - a.bytes.length - 1 = pre.length := by
    rw [h.bytes, List.length_append, List.length_cons]
    omega
  have htake : path.bytes.take (if pre.length = 0 then 1 else pre.length) =
      if pre = [] then [slash] else pre := by
    by_cases hnil : pre = []
    · rw [if_pos (by rw [hnil]; rfl), if_pos hnil, h.bytes, hnil]
      rfl
    · rw [if_neg fun h0 => hnil (List.eq_nil_of_length_eq_zero h0), if_neg hnil, h.bytes,
        List.take_left]
  unfold Put.getDirName
  dsimp only
  rw [if_pos (by rw [h.strlcpy_eq]; exact h.slash_mem)]
  refine ⟨_, rfl, ?_⟩
  dsimp only
  rw [h.strlcpy_eq, h.afterLastSlash_eq, hn, htake]

/-- More than 31 names are refused. -/
theorem PathTo.vfatStatFile (vfat : VFAT) : vfatStatFile vfat path =
    if 31 < dir.length + 1 then .err .failed
    else lookup vfat vfat.rootdir (dir.map ShortName.bytes ++ [a.bytes]) := by
  have helements : elements path = dir.map ShortName.bytes ++ [a.bytes] := by
    rw [elements, h.strlcpy_eq, h.bytes, strtok_append_cons, h.leads.strtok, strtok_name]
  rw [Lookup.vfatStatFile, if_neg (not_not.mpr h.head), helements, List.length_append,
    List.length_map, List.length_singleton]

omit h

end Paths

/-! ## Trees -/

/-- A file or a directory on a volume: where it is, its entry, its clusters and its content. -/
structure Node where
  dir : List Bytes
  entry : DirectoryEntry
  chain : List Nat
  content : Option Bytes

namespace Node

def make (n : Node) : Make Bytes Bytes := ⟨n.dir, n.entry.name, n.content⟩

def path (n : Node) : List Bytes := n.make.path

/-- What its clusters hold. -/
def data (vfat : VFAT) (n : Node) : Bytes := n.chain.flatMap (clusterData vfat)

end Node

/-- The entries of a directory. -/
def children (ns : List Node) (p : List Bytes) : List DirectoryEntry :=
  (ns.filter (·.dir = p)).map (·.entry)

/-- The entries of the directory and of the one it is in. -/
structure Dots (dots : List DirectoryEntry) : Prop where
  length : dots.length = 2
  plain : ∀ e ∈ dots, Plain e
  dot : ∀ e ∈ dots, byteAt e.raw 0 = dot

/-- A directory with these entries. -/
structure HoldsDir (vfat : VFAT) (es : List DirectoryEntry) (n : Node) : Prop where
  directory : isDirectory n.entry = true
  size : n.entry.fileSize = 0
  one : n.chain.length = 1
  room : 2 + es.length < clusterEntries vfat
  data : ∃ dots, Dots dots ∧ n.data vfat = dirBytes (clusterEntries vfat) (dots ++ es)

/-- A file with this content. -/
structure HoldsFile (vfat : VFAT) (b : Bytes) (n : Node) : Prop where
  file : isDirectory n.entry = false
  size : n.entry.fileSize = b.length
  count : n.chain.length = clusterCount vfat b
  data : ∃ k, n.data vfat = b ++ List.replicate k 0

/-- The entry and the clusters of a file or a directory. -/
structure Stored (vfat : VFAT) (ns : List Node) (n : Node) : Prop where
  key : IsKey n.entry.name
  plain : Plain n.entry
  first : n.entry.clustno = n.chain.headD 0
  range : ∀ c ∈ n.chain, InRange vfat c
  linked : Linked vfat.fatType (getEOC vfat) vfat.fat.data n.chain
  isDir : n.content = none → HoldsDir vfat (children ns n.path) n
  isFile : ∀ b, n.content = some b → HoldsFile vfat b n

/-- The clusters that are taken. -/
def owned (ns : List Node) : List Nat := ns.flatMap (·.chain)

/-- The volume holds these files and directories and nothing else. -/
structure Represents (vfat : VFAT) (ns : List Node) : Prop where
  laid : Laid vfat
  grown : Grown (ns.map Node.make)
  root : vfat.rootdir = dirBytes (rootEntries vfat) (children ns [])
  room : (children ns []).length < rootEntries vfat
  stored : ∀ n ∈ ns, Stored vfat ns n
  apart : (owned ns).Nodup
  unowned : ∀ c, InRange vfat c → c ∉ owned ns → entryAt vfat.fatType vfat.fat.data c = 0

/-- The data of a directory and its clusters; the root has none. -/
inductive DirAt (vfat : VFAT) (ns : List Node) : List Bytes → Bytes → List Nat → Prop where
  | root : DirAt vfat ns [] vfat.rootdir []
  | node {n : Node} : n ∈ ns → n.content = none → DirAt vfat ns n.path (n.data vfat) n.chain

/-! ## Looking for a path -/

section Find

variable {vfat : VFAT} {ns : List Node} {n : Node} {p : List Bytes} {data c key : Bytes}
  {chain : List Nat}

theorem Represents.mem_make (hn : n ∈ ns) : n.make ∈ ns.map Node.make := List.mem_map_of_mem hn

theorem Represents.unique (h : Represents vfat ns) {n' : Node} (hn : n ∈ ns) (hn' : n' ∈ ns)
    (hp : n.path = n'.path) : n = n' := by
  have hnodup : (ns.map Node.path).Nodup := by
    have hd := h.grown.distinct
    rwa [paths, List.map_map] at hd
  exact List.inj_on_of_nodup_map hnodup hn hn' hp

/-- Every directory has data. -/
theorem exists_dirAt (hp : IsDir (ns.map Node.make) p) :
    ∃ data chain, DirAt vfat ns p data chain := by
  rcases hp with rfl | ⟨m, hm, rfl, hnone⟩
  · exact ⟨_, _, .root⟩
  · obtain ⟨n, hn, rfl⟩ := List.mem_map.mp hm
    exact ⟨_, _, .node hn hnone⟩

theorem DirAt.isDir (hd : DirAt vfat ns p data chain) : IsDir (ns.map Node.make) p := by
  cases hd with
  | root => exact .inl rfl
  | node hn hnone => exact IsDir.made hnone (Represents.mem_make hn)

theorem mem_children {e : DirectoryEntry} :
    e ∈ children ns p ↔ ∃ n ∈ ns, n.dir = p ∧ n.entry = e := by
  rw [children, List.mem_map]
  refine exists_congr fun n => ?_
  rw [List.mem_filter, decide_eq_true_iff, and_assoc]

theorem Represents.plain (h : Represents vfat ns) : ∀ e ∈ children ns p, Plain e := by
  intro e he
  obtain ⟨n, hn, -, rfl⟩ := mem_children.mp he
  exact (h.stored n hn).plain

/-- How the entries of a directory lie in its data. -/
theorem DirAt.data_eq (h : Represents vfat ns) (hd : DirAt vfat ns p data chain) :
    ∃ m dots, data = dirBytes m (dots ++ children ns p) ∧ (dots ++ children ns p).length < m ∧
      (∀ e ∈ dots, Plain e ∧ byteAt e.raw 0 = dot) := by
  cases hd with
  | root => exact ⟨_, [], h.root, h.room, fun e he => by cases he⟩
  | @node n hn hnone =>
    have hdir := (h.stored n hn).isDir hnone
    obtain ⟨dots, hdots, hdata⟩ := hdir.data
    refine ⟨_, dots, hdata, ?_, fun e he => ⟨hdots.plain e he, hdots.dot e he⟩⟩
    rw [List.length_append, hdots.length]
    exact hdir.room

theorem path_eq_iff : n.path = p ++ [key] ↔ n.dir = p ∧ n.entry.name = key := by
  constructor
  · exact Make.path_eq
  · rintro ⟨rfl, rfl⟩
    rfl

/-- Looking in a directory for a name delivers the entry under the path. -/
theorem Represents.find (h : Represents vfat ns) (hd : DirAt vfat ns p data chain)
    (hc : fixName c = some key) (hk : IsKey key) : findDirectoryEntry c data =
      Out.ofOption .failed ((ns.find? (·.path = p ++ [key])).map (·.entry)) := by
  obtain ⟨m, dots, hdata, hm, hdots⟩ := hd.data_eq h
  have hplain : ∀ e ∈ dots ++ children ns p, Plain e := by
    intro e he
    rcases List.mem_append.mp he with he | he
    · exact (hdots e he).1
    · exact h.plain e he
  have hskip : dots.find? (fun e => decide (e.name = key)) = none := by
    rw [List.find?_eq_none]
    intro e he hname
    refine hk.named ?_
    rw [← of_decide_eq_true hname, DirectoryEntry.name, byteAt_take]
    exact (hdots e he).2
  have hfind : (children ns p).find? (fun e => decide (e.name = key)) =
      (ns.find? (·.path = p ++ [key])).map (·.entry) := by
    rw [children, List.find?_map, List.find?_filter]
    congr 2
    funext n
    rw [Bool.eq_iff_iff, decide_eq_true_iff, decide_eq_true_iff, decide_eq_true_iff, path_eq_iff]
    exact and_congr_right fun _ => ⟨of_decide_eq_true, decide_eq_true⟩
  rw [hdata, find_dirBytes hplain hm hc, List.find?_append, hskip, Option.none_or, hfind]

theorem Represents.find_mem (h : Represents vfat ns) (hd : DirAt vfat ns n.dir data chain)
    (hn : n ∈ ns) (hc : fixName c = some n.entry.name) :
    findDirectoryEntry c data = .ok n.entry := by
  rw [h.find hd hc (h.stored n hn).key]
  cases hf : ns.find? (·.path = n.dir ++ [n.entry.name]) with
  | none => exact absurd (decide_eq_true rfl) (List.find?_eq_none.mp hf n hn)
  | some n' =>
    have hpath := List.find?_some hf
    rw [h.unique (List.mem_of_find?_eq_some hf) hn (of_decide_eq_true hpath)]
    rfl

theorem Represents.find_missing (h : Represents vfat ns) (hd : DirAt vfat ns p data chain)
    (hc : fixName c = some key) (hk : IsKey key) (hno : ∀ n ∈ ns, n.path ≠ p ++ [key]) :
    findDirectoryEntry c data = .err .failed := by
  rw [h.find hd hc hk, List.find?_eq_none.mpr fun n hn hp => hno n hn (of_decide_eq_true hp)]
  rfl

theorem Represents.readClusters (h : Represents vfat ns) (hn : n ∈ ns) :
    Files.readClusters vfat n.entry.clustno = .ok (n.data vfat) := by
  have hs := h.stored n hn
  rw [hs.first]
  exact h.laid.readClusters hs.range ((List.nodup_flatMap.mp h.apart).1 n hn) hs.linked

end Find

/-! ## Whole paths -/

section Lookup

variable {vfat : VFAT} {ns : List Node} {n : Node} {p : List Bytes} {data pre : Bytes}
  {chain : List Nat} {dir names rest : List ShortName} {a b : ShortName} {path dirname : CStr}

variable (dir) in
/-- The way to a directory. -/
theorem Represents.lookup_dir (h : Represents vfat ns) (hd : DirAt vfat ns p data chain)
    (hdir : IsDir (ns.map Node.make) (p ++ keys dir)) :
    ∃ data' chain', DirAt vfat ns (p ++ keys dir) data' chain' ∧ ∀ c cs,
      lookup vfat data (dir.map ShortName.bytes ++ c :: cs) = lookup vfat data' (c :: cs) := by
  induction dir generalizing p data chain with
  | nil =>
    rw [show p ++ keys [] = p from List.append_nil p]
    exact ⟨data, chain, hd, fun c cs => rfl⟩
  | cons a dir ih =>
    have hsplit : p ++ keys (a :: dir) = p ++ [a.key] ++ keys dir := List.append_cons _ _ _
    rw [hsplit] at hdir ⊢
    rcases h.grown.isDir_of_append hdir with hnil | ⟨m, hm, hpath, hnone⟩
    · exact absurd hnil (List.append_ne_nil_of_right_ne_nil _ (List.cons_ne_nil _ _))
    · obtain ⟨n, hn, rfl⟩ := List.mem_map.mp hm
      have hpath : n.path = p ++ [a.key] := hpath
      obtain ⟨rfl, hname⟩ := path_eq_iff.mp hpath
      obtain ⟨data', chain', hd', hnext⟩ := ih (hpath ▸ DirAt.node hn hnone) hdir
      refine ⟨data', chain', hd', fun c cs => ?_⟩
      obtain ⟨d, ds, hcs⟩ : ∃ d ds, dir.map ShortName.bytes ++ c :: cs = d :: ds :=
        List.exists_cons_of_ne_nil (by simp)
      rw [List.map_cons, List.cons_append, ← hnext, hcs, lookup,
        h.find_mem hd hn (hname ▸ a.fixName), Out.ok_bind, h.readClusters hn, Out.ok_bind]

theorem Represents.lookup_found (h : Represents vfat ns) (hn : n ∈ ns)
    (hpath : n.path = keys dir ++ [a.key]) :
    lookup vfat vfat.rootdir (dir.map ShortName.bytes ++ [a.bytes]) = .ok n.entry := by
  obtain ⟨hdir, hname⟩ := path_eq_iff.mp hpath
  have hin : IsDir (ns.map Node.make) ([] ++ keys dir) := by
    rw [List.nil_append, ← hdir]
    exact h.grown.isDir_dir (Represents.mem_make hn)
  obtain ⟨data, chain, hd, hgo⟩ := h.lookup_dir _ .root hin
  rw [List.nil_append, ← hdir] at hd
  rw [hgo, lookup, h.find_mem hd hn (hname ▸ a.fixName)]

/-- A name that is not there ends the way. -/
theorem Represents.lookup_missing (h : Represents vfat ns) (hdir : IsDir (ns.map Node.make) (keys dir))
    (hno : ∀ n ∈ ns, n.path ≠ keys dir ++ [b.key]) (more : List Bytes) :
    lookup vfat vfat.rootdir (dir.map ShortName.bytes ++ b.bytes :: more) = .err .failed := by
  obtain ⟨data, chain, hd, hgo⟩ := h.lookup_dir dir .root hdir
  have hfind := h.find_missing hd b.fixName b.key_isKey hno
  rw [hgo]
  cases more with
  | nil => rw [lookup, hfind]
  | cons c more => rw [lookup, hfind, Out.err_bind]

theorem Represents.stat_found (h : Represents vfat ns) (hp : PathTo path pre dir a)
    (hlen : dir.length + 1 ≤ 31) (hn : n ∈ ns) (hpath : n.path = keys dir ++ [a.key]) :
    vfatStatFile vfat path = .ok n.entry := by
  rw [hp.vfatStatFile, if_neg (Nat.not_lt.mpr hlen), h.lookup_found hn hpath]

variable (rest) in
theorem Represents.stat_missing (h : Represents vfat ns) (hp : PathTo path pre dir a)
    (hsplit : dir ++ [a] = names ++ b :: rest) (hdir : IsDir (ns.map Node.make) (keys names))
    (hno : ∀ n ∈ ns, n.path ≠ keys names ++ [b.key]) :
    vfatStatFile vfat path = .err .failed := by
  have hall : dir.map ShortName.bytes ++ [a.bytes] =
      names.map ShortName.bytes ++ b.bytes :: rest.map ShortName.bytes := by
    rw [← List.map_cons, ← List.map_append, ← hsplit, List.map_append, List.map_singleton]
  rw [hp.vfatStatFile, hall, h.lookup_missing hdir hno, ite_self]

/-- A directory that is loaded is the one that the path leads to. -/
theorem Represents.loadDir (h : Represents vfat ns) (hpre : Leads pre dir)
    (hbytes : dirname.bytes = if pre = [] then [slash] else pre) (hshort : pre.length ≤ 255)
    (hlen : dir.length ≤ 31) (hdir : IsDir (ns.map Node.make) (keys dir)) :
    ∃ data chain, DirAt vfat ns (keys dir) data chain ∧ loadDir vfat dirname = .ok (data, chain.headD 0) := by
  rcases hpre.cases with ⟨rfl, htop⟩ | ⟨-, hnil, hroot, -⟩
  · have hb : dirname.bytes = [slash] := by
      rcases htop with rfl | rfl
      · exact hbytes
      · exact hbytes
    refine ⟨_, _, .root, ?_⟩
    rw [Put.loadDir, if_pos hb, h.laid.rootdirClustno, List.headD_nil]
  · rw [if_neg hnil] at hbytes
    cases hpre with
    | empty => exact absurd rfl hnil
    | root => exact absurd rfl hroot
    | @snoc pre' dir' a hpre' =>
      have hp : PathTo dirname pre' dir' a := ⟨hbytes, hpre', hbytes ▸ hshort⟩
      rw [List.length_append, List.length_singleton] at hlen
      rcases hdir with hkeys | ⟨m, hm, hpath, hnone⟩
      · rw [keys_snoc] at hkeys
        exact absurd hkeys (List.append_ne_nil_of_right_ne_nil _ (List.cons_ne_nil _ _))
      · obtain ⟨n, hn, rfl⟩ := List.mem_map.mp hm
        have hholds := (h.stored n hn).isDir hnone
        have hpath : n.path = keys (dir' ++ [a]) := hpath
        have hpath' : n.path = keys dir' ++ [a.key] := hpath.trans keys_snoc
        refine ⟨_, _, hpath ▸ DirAt.node hn hnone, ?_⟩
        have hattr : hasAttr n.entry.attr attrDirectory = true := hholds.directory
        rw [Put.loadDir, if_neg (hbytes ▸ hroot), h.stat_found hp hlen hn hpath', Out.ok_bind,
          hholds.directory, if_pos rfl, loadFileFromDirectoryEntry, h.readClusters hn, Out.ok_bind,
          hholds.size, if_neg (Nat.not_lt_zero _), hattr, if_pos rfl, Out.pure_eq, Out.ok_bind,
          Out.pure_eq, (h.stored n hn).first]

/-- `VFATGetFile`. -/
def vfatGetFile (vfat : VFAT) (path : CStr) : Out Fail Bytes := do
  let ent ← vfatStatFile vfat path
  loadFileFromDirectoryEntry vfat ent

/-- A file of the tree is read as it is. -/
theorem Represents.vfatGetFile (h : Represents vfat ns) (hp : PathTo path pre dir a)
    (hlen : dir.length + 1 ≤ 31) (hn : n ∈ ns) (hpath : n.path = keys dir ++ [a.key])
    {content : Bytes} (hcontent : n.content = some content) :
    vfatGetFile vfat path = .ok content := by
  have hfile := (h.stored n hn).isFile content hcontent
  obtain ⟨k, hdata⟩ := hfile.data
  have hattr : hasAttr n.entry.attr attrDirectory = false := hfile.file
  rw [Nodes.vfatGetFile, h.stat_found hp hlen hn hpath, Out.ok_bind, loadFileFromDirectoryEntry,
    h.readClusters hn, Out.ok_bind, hattr, if_neg Bool.false_ne_true, hfile.size, if_neg, hdata,
    List.take_left, Out.pure_eq]
  rw [hdata, List.length_append]
  omega

/-- More names than the path can have lead nowhere. -/
theorem vfatGetFile_deep (hp : PathTo path pre dir a) (hlen : 31 ≤ dir.length) :
    vfatGetFile vfat path = .err .failed := by
  rw [Nodes.vfatGetFile, hp.vfatStatFile, if_pos (Nat.lt_succ_of_le hlen), Out.err_bind]

end Lookup

end LsvmTools.Vfat.Nodes
