import LsvmTools.Vfat.Files
import LsvmTools.Vfat.Shortname
import LsvmTools.Strings

/-! # Path lookup

`VFATStatFile` looks for each component of the path in the directory that the one before it
names. `Resolves` says what it looks for: a chain of live entries that are directories but
for the last one. -/
namespace LsvmTools.Vfat.Lookup
open Lib.ByteString Lib.Program BlockDevice Strings Volume Walk Files Shortname

/-! ## One directory -/

/-- Entry number `k` of the data of a directory, which has that many. -/
def entryNo (data : Bytes) (k : Fin (data.length / 32)) : DirectoryEntry where
  raw := (data.drop (32 * k)).take 32
  size := by
    have hk : (k : Nat) < data.length / 32 := k.isLt
    rw [List.length_take, List.length_drop]
    omega

/-- The data of a directory as entries. -/
def entries (data : Bytes) : List DirectoryEntry := List.ofFn (entryNo data)

/-- `de->name[0]` is zero. -/
def isEnd (de : DirectoryEntry) : Bool := byteAt de.raw 0 = 0

/-- Neither deleted nor part of a long name. -/
def isCandidate (de : DirectoryEntry) : Bool := byteAt de.raw 0 ≠ 0xE5 && de.attr ≠ attrLongName

/-- The loop of `FindDirectoryEntry`. Past the last entry it reads behind the data. -/
def scan (name : Bytes) : List DirectoryEntry → Out Fail DirectoryEntry
  | [] => .stuck
  | de :: rest =>
    if isEnd de then .err .failed
    else if isCandidate de && de.name = name then .ok de
    else scan name rest

/-- "Fix up the name". -/
def fixName (shortname : Bytes) : Option Bytes :=
  if shortname = [dot] then some (pad 11 [dot])
  else if shortname = [dot, dot] then some (pad 11 [dot, dot])
  else internShortname shortname

/-- `FindDirectoryEntry`. There is no data where nothing was put into the buffer. -/
def findDirectoryEntry (shortname data : Bytes) : Out Fail DirectoryEntry :=
  if data = [] then .err .failed
  else match fixName shortname with
    | none => .err .failed
    | some name => scan name (entries data)

/-! ## A path -/

/-- The loop of `VFATStatFile` from a directory on. -/
def lookup (vfat : VFAT) : Bytes → List Bytes → Out Fail DirectoryEntry
  | _, [] => .err .failed
  | data, [c] => findDirectoryEntry c data
  | data, c :: d :: cs => do
    let ent ← findDirectoryEntry c data
    let sub ← readClusters vfat ent.clustno
    lookup vfat sub (d :: cs)

/-- The components of the path in the buffer of 256 (`VFAT_PATH_SIZE`) characters. -/
def elements (path : CStr) : List Bytes := strtok (strlcpy path.bytes 256)

/-- `VFATStatFile`: at most 31 components behind the root. -/
def vfatStatFile (vfat : VFAT) (path : CStr) : Out Fail DirectoryEntry :=
  if path.bytes.head? ≠ some slash then .err .failed
  else if 31 < (elements path).length then .err .failed
  else lookup vfat vfat.rootdir (elements path)

/-- The entries whose clusters the loop reads as a directory. -/
def followed (vfat : VFAT) : Bytes → List Bytes → List DirectoryEntry
  | _, [] => []
  | _, [_] => []
  | data, c :: d :: cs =>
    match findDirectoryEntry c data with
    | .ok ent => ent :: match readClusters vfat ent.clustno with
      | .ok sub => followed vfat sub (d :: cs)
      | .err _ | .stuck => []
    | .err _ | .stuck => []

/-! ## What is looked for -/

/-- The entries before the end marker. -/
def visible (data : Bytes) : List DirectoryEntry := (entries data).takeWhile (!isEnd ·)

def isDirectory (de : DirectoryEntry) : Bool := hasAttr de.attr attrDirectory

def isLabel (de : DirectoryEntry) : Bool := hasAttr de.attr attrVolumeId

/-- An entry of a file or a directory. -/
structure Live (data : Bytes) (de : DirectoryEntry) : Prop where
  mem : de ∈ visible data
  candidate : isCandidate de = true
  file : isLabel de = false

/-- The entry carries the name of the component. -/
def Named (c : Bytes) (de : DirectoryEntry) : Prop := fixName c = some de.name

/-- A chain of live entries whose names match the components, all but the last one
directories, starting in a directory. -/
inductive Resolves (vfat : VFAT) : Bytes → List Bytes → DirectoryEntry → Prop where
  | last {data c de} : Live data de → Named c de → Resolves vfat data [c] de
  | step {data c d cs ent sub de} : Live data ent → Named c ent → isDirectory ent = true →
      readClusters vfat ent.clustno = .ok sub → Resolves vfat sub (d :: cs) de →
      Resolves vfat data (c :: d :: cs) de

/-- What the whole path leads to. -/
def Target (vfat : VFAT) (path : CStr) (de : DirectoryEntry) : Prop :=
  path.bytes.head? = some slash ∧ Resolves vfat vfat.rootdir (strtok path.bytes) de

/-- The directories of a volume. -/
inductive Directory (vfat : VFAT) : Bytes → Prop where
  | root : Directory vfat vfat.rootdir
  | sub {data ent sub} : Directory vfat data → Live data ent → isDirectory ent = true →
      readClusters vfat ent.clustno = .ok sub → Directory vfat sub

/-- A valid volume: names are not used twice, the chain of a directory ends, and a volume
label is no directory. -/
structure Valid (vfat : VFAT) : Prop where
  names : ∀ data, Directory vfat data → ∀ a b, Live data a → Live data b → a.name = b.name → a = b
  chains : ∀ data, Directory vfat data → ∀ ent, Live data ent → isDirectory ent = true →
    readClusters vfat ent.clustno ≠ .stuck
  labels : ∀ data, Directory vfat data → ∀ ent ∈ visible data, isLabel ent = true →
    isCandidate ent = true → isDirectory ent = false

/-- The call delivers what the path leads to, follows directories only, delivers no volume
label and reads no directory past its end. -/
structure Faithful (vfat : VFAT) (path : CStr) : Prop where
  returns : vfatStatFile vfat path ≠ .stuck
  resolves : ∀ de, vfatStatFile vfat path = .ok de ↔ Target vfat path de
  directories : path.bytes.head? = some slash → (elements path).length ≤ 31 →
    ∀ ent ∈ followed vfat vfat.rootdir (elements path), isDirectory ent = true
  label : ∀ de, vfatStatFile vfat path = .ok de → isLabel de = false

/-! ## When it does -/

/-- The first entry before the end marker that has the name. -/
def firstNamed (name data : Bytes) : Option DirectoryEntry :=
  (visible data).find? fun de => isCandidate de && de.name = name

/-- The directory has an end marker. -/
def Terminated (data : Bytes) : Prop := ∃ de ∈ entries data, isEnd de = true

/-- In each directory on the way the name is found or there is an end marker, and what is
found is no volume label, and a directory where there are more components. -/
def Clean (vfat : VFAT) : Bytes → List Bytes → Prop
  | _, [] => True
  | data, [c] => data ≠ [] → ∀ name, fixName c = some name →
    match firstNamed name data with
    | none => Terminated data
    | some ent => isLabel ent = false
  | data, c :: d :: cs => data ≠ [] → ∀ name, fixName c = some name →
    match firstNamed name data with
    | none => Terminated data
    | some ent => isDirectory ent = true ∧
      ∀ sub, readClusters vfat ent.clustno = .ok sub → Clean vfat sub (d :: cs)

variable {vfat : VFAT} {data name c : Bytes} {ent de : DirectoryEntry}

theorem scan_eq (name : Bytes) (es : List DirectoryEntry) : scan name es =
    match (es.takeWhile (!isEnd ·)).find? fun de => isCandidate de && de.name = name with
    | some ent => .ok ent
    | none => if es.any isEnd then .err .failed else .stuck := by
  induction es with
  | nil => rfl
  | cons de es ih =>
    cases hend : isEnd de with
    | true =>
      rw [scan, hend, if_pos rfl, List.takeWhile_cons, hend, Bool.not_true,
        if_neg Bool.false_ne_true, List.find?_nil, List.any_cons, hend, Bool.true_or, if_pos rfl]
    | false =>
      rw [scan, hend, if_neg Bool.false_ne_true, List.takeWhile_cons, hend, Bool.not_false,
        if_pos rfl, List.find?_cons, List.any_cons, hend, Bool.false_or]
      cases hmatch : isCandidate de && decide (de.name = name) with
      | true => rw [if_pos rfl]
      | false => rw [if_neg Bool.false_ne_true, ih]

/-- What `FindDirectoryEntry` delivers in a directory that has data. -/
theorem find_eq (hd : data ≠ []) (hc : fixName c = some name) : findDirectoryEntry c data =
    match firstNamed name data with
    | some ent => .ok ent
    | none => if (entries data).any isEnd then .err .failed else .stuck := by
  rw [findDirectoryEntry, if_neg hd, hc]
  exact scan_eq name (entries data)

theorem terminated_iff : Terminated data ↔ (entries data).any isEnd = true :=
  List.any_eq_true.symm

theorem find_ok (h : findDirectoryEntry c data = .ok ent) :
    data ≠ [] ∧ ∃ name, fixName c = some name ∧ firstNamed name data = some ent := by
  have hd : data ≠ [] := by
    intro h0
    rw [findDirectoryEntry, if_pos h0] at h
    cases h
  cases hc : fixName c with
  | none =>
    rw [findDirectoryEntry, if_neg hd, hc] at h
    cases h
  | some name =>
    rw [find_eq hd hc] at h
    cases hf : firstNamed name data with
    | some ent' =>
      rw [hf] at h
      injection h with h
      exact ⟨hd, name, rfl, by rw [hf, h]⟩
    | none =>
      rw [hf] at h
      dsimp only at h
      split at h
      · cases h
      · cases h

theorem firstNamed_spec (h : firstNamed name data = some ent) :
    ent ∈ visible data ∧ isCandidate ent = true ∧ ent.name = name := by
  have hp := List.find?_some h
  rw [Bool.and_eq_true, decide_eq_true_iff] at hp
  exact ⟨List.mem_of_find?_eq_some h, hp.1, hp.2⟩

theorem firstNamed_isSome (h : Live data de) : ∃ ent, firstNamed de.name data = some ent := by
  cases hf : firstNamed de.name data with
  | some ent => exact ⟨ent, rfl⟩
  | none =>
    have := List.find?_eq_none.mp hf de h.mem
    rw [h.candidate, Bool.true_and, decide_eq_true_iff] at this
    exact absurd rfl this

theorem Live.data_ne (h : Live data de) : data ≠ [] := by
  intro h0
  have hm := h.mem
  rw [h0] at hm
  cases hm

/-- What is found under the name of a live entry is that entry, unless it is a label. -/
theorem firstNamed_live (hv : Valid vfat) (hdir : Directory vfat data) (h : Live data de)
    (hf : firstNamed de.name data = some ent) (hl : isLabel ent = false) : ent = de := by
  obtain ⟨hmem, hcand, hname⟩ := firstNamed_spec hf
  exact hv.names data hdir ent de ⟨hmem, hcand, hl⟩ h hname

/-! ## One step -/

/-- A clean directory on the way finds the entry that the name belongs to. -/
theorem find_clean (hv : Valid vfat) (hdir : Directory vfat data)
    (hclean : data ≠ [] → ∀ name, fixName c = some name →
      match firstNamed name data with
      | none => Terminated data
      | some ent => isLabel ent = false) :
    findDirectoryEntry c data ≠ .stuck ∧
      ∀ ent, findDirectoryEntry c data = .ok ent ↔ Live data ent ∧ Named c ent := by
  constructor
  · by_cases hd : data = []
    · rw [findDirectoryEntry, if_pos hd]
      exact fun h => by cases h
    · cases hc : fixName c with
      | none =>
        rw [findDirectoryEntry, if_neg hd, hc]
        exact fun h => by cases h
      | some name =>
        have hcl := hclean hd name hc
        rw [find_eq hd hc]
        cases hf : firstNamed name data with
        | some ent => exact fun h => by cases h
        | none =>
          rw [hf] at hcl
          dsimp only at hcl ⊢
          rw [if_pos (terminated_iff.mp hcl)]
          exact fun h => by cases h
  · intro ent
    constructor
    · intro h
      obtain ⟨hd, name, hc, hf⟩ := find_ok h
      have hcl := hclean hd name hc
      rw [hf] at hcl
      obtain ⟨hmem, hcand, hname⟩ := firstNamed_spec hf
      exact ⟨⟨hmem, hcand, hcl⟩, by rw [Named, hc, hname]⟩
    · rintro ⟨hlive, hnamed⟩
      have hd := hlive.data_ne
      obtain ⟨ent', hf⟩ := firstNamed_isSome hlive
      have hcl := hclean hd _ hnamed
      rw [hf] at hcl
      rw [find_eq hd hnamed, hf, firstNamed_live hv hdir hlive hf hcl]

/-- A directory in which the search does not run past the end. -/
theorem terminated_of_find (hne : findDirectoryEntry c data ≠ .stuck) (hd : data ≠ [])
    (hc : fixName c = some name) (hf : firstNamed name data = none) : Terminated data := by
  rw [find_eq hd hc, hf] at hne
  dsimp only at hne
  split at hne
  · rename_i h
    exact terminated_iff.mpr h
  · exact absurd rfl hne

/-- A clean directory on the way leads to directories only. -/
theorem clean_label (hv : Valid vfat) (hdir : Directory vfat data) {d : Bytes} {cs : List Bytes}
    (h : Clean vfat data (c :: d :: cs)) (hd : data ≠ []) (name : Bytes)
    (hc : fixName c = some name) :
    match firstNamed name data with
    | none => Terminated data
    | some ent => isLabel ent = false := by
  have hcl := h hd name hc
  cases hf : firstNamed name data with
  | none =>
    rw [hf] at hcl
    exact hcl
  | some ent =>
    rw [hf] at hcl
    obtain ⟨hmem, hcand, -⟩ := firstNamed_spec hf
    cases hl : isLabel ent with
    | false => exact hl
    | true =>
      have := hv.labels data hdir ent hmem hl hcand
      rw [hcl.1] at this
      cases this

/-- What is found on a clean way is a directory, and the way goes on from there. -/
theorem clean_next {d : Bytes} {cs : List Bytes} (h : Clean vfat data (c :: d :: cs))
    (hf : findDirectoryEntry c data = .ok ent) : isDirectory ent = true ∧
      ∀ sub, readClusters vfat ent.clustno = .ok sub → Clean vfat sub (d :: cs) := by
  obtain ⟨hd, name, hc, hfirst⟩ := find_ok hf
  have hcl := h hd name hc
  rw [hfirst] at hcl
  exact hcl

/-! ## The whole path -/

/-- A clean walk delivers what the path leads to. -/
theorem lookup_clean (hv : Valid vfat) {cs : List Bytes} (hdir : Directory vfat data)
    (h : Clean vfat data cs) : lookup vfat data cs ≠ .stuck ∧
      (∀ de, lookup vfat data cs = .ok de ↔ Resolves vfat data cs de) ∧
      (∀ ent ∈ followed vfat data cs, isDirectory ent = true) ∧
      ∀ de, lookup vfat data cs = .ok de → isLabel de = false := by
  induction cs generalizing data with
  | nil =>
    refine ⟨fun h => (by cases h), fun de => ⟨fun h => (by cases h), fun h => (by cases h)⟩,
      fun ent h => (by cases h), fun de h => (by cases h)⟩
  | cons c cs ih =>
    cases cs with
    | nil =>
      obtain ⟨hne, hok⟩ := find_clean hv hdir h
      refine ⟨hne, fun de => ?_, fun ent he => (by cases he), fun de he => ((hok de).mp he).1.file⟩
      constructor
      · intro he
        obtain ⟨hlive, hnamed⟩ := (hok de).mp he
        exact .last hlive hnamed
      · intro hr
        cases hr with
        | last hlive hnamed => exact (hok de).mpr ⟨hlive, hnamed⟩
    | cons d cs =>
      obtain ⟨hne, hok⟩ := find_clean hv hdir (clean_label hv hdir h)
      cases hf : findDirectoryEntry c data with
      | stuck => exact absurd hf hne
      | err e =>
        have hl : lookup vfat data (c :: d :: cs) = .err e := by
          rw [lookup, hf, Out.err_bind]
        have hfol : followed vfat data (c :: d :: cs) = [] := by
          rw [followed, hf]
        rw [hl, hfol]
        refine ⟨fun h => (by cases h), fun de => ⟨fun h => (by cases h), fun hr => ?_⟩,
          fun ent h => (by cases h), fun de h => (by cases h)⟩
        cases hr with
        | step hlive hnamed _ _ _ =>
          have := (hok _).mpr ⟨hlive, hnamed⟩
          rw [hf] at this
          cases this
      | ok ent =>
        obtain ⟨hlive, hnamed⟩ := (hok ent).mp hf
        obtain ⟨hisdir, hnext⟩ := clean_next h hf
        have hl : lookup vfat data (c :: d :: cs) =
            readClusters vfat ent.clustno >>= fun sub => lookup vfat sub (d :: cs) := by
          rw [lookup, hf, Out.ok_bind]
        -- only this entry can be the first one of the chain
        have honly : ∀ ent', Live data ent' → Named c ent' → ent' = ent := by
          intro ent' hlive' hnamed'
          have := (hok ent').mpr ⟨hlive', hnamed'⟩
          rw [hf] at this
          injection this with this
          exact this.symm
        cases hr : readClusters vfat ent.clustno with
        | stuck => exact absurd hr (hv.chains data hdir ent hlive hisdir)
        | err e =>
          have hfol : followed vfat data (c :: d :: cs) = [ent] := by
            rw [followed, hf]
            dsimp only
            rw [hr]
          rw [hl, hr, Out.err_bind, hfol]
          refine ⟨fun h => (by cases h), fun de => ⟨fun h => (by cases h), fun hres => ?_⟩,
            fun x hx => ?_, fun de h => (by cases h)⟩
          · cases hres with
            | step hlive' hnamed' _ hread _ =>
              rw [honly _ hlive' hnamed', hr] at hread
              cases hread
          · rw [List.mem_singleton] at hx
            rw [hx, hisdir]
        | ok sub =>
          have hfol : followed vfat data (c :: d :: cs) = ent :: followed vfat sub (d :: cs) := by
            rw [followed, hf]
            dsimp only
            rw [hr]
          obtain ⟨h1, h2, h3, h4⟩ := ih (.sub hdir hlive hisdir hr) (hnext sub hr)
          rw [hl, hr, Out.ok_bind, hfol]
          refine ⟨h1, fun de => ?_, fun x hx => ?_, h4⟩
          · rw [h2 de]
            constructor
            · intro hres
              exact .step hlive hnamed hisdir hr hres
            · intro hres
              cases hres with
              | step hlive' hnamed' _ hread hrest =>
                rw [honly _ hlive' hnamed', hr] at hread
                injection hread with hread
                rw [hread]
                exact hrest
          · rcases List.mem_cons.mp hx with rfl | hx
            · exact hisdir
            · exact h3 x hx

/-- A walk that returns, follows directories only and delivers no label is clean. -/
theorem clean_of_lookup (hv : Valid vfat) {cs : List Bytes} (hdir : Directory vfat data)
    (hne : lookup vfat data cs ≠ .stuck)
    (hfol : ∀ ent ∈ followed vfat data cs, isDirectory ent = true)
    (hlab : ∀ de, lookup vfat data cs = .ok de → isLabel de = false) : Clean vfat data cs := by
  induction cs generalizing data with
  | nil => exact trivial
  | cons c cs ih =>
    cases cs with
    | nil =>
      intro hd name hc
      cases hf : firstNamed name data with
      | none => exact terminated_of_find hne hd hc hf
      | some ent => exact hlab ent (by rw [lookup, find_eq hd hc, hf])
    | cons d cs =>
      intro hd name hc
      cases hf : firstNamed name data with
      | none =>
        refine terminated_of_find (fun hs => hne ?_) hd hc hf
        rw [lookup, hs, Out.stuck_bind]
      | some ent =>
        have hfind : findDirectoryEntry c data = .ok ent := by rw [find_eq hd hc, hf]
        have hl : lookup vfat data (c :: d :: cs) =
            readClusters vfat ent.clustno >>= fun sub => lookup vfat sub (d :: cs) := by
          rw [lookup, hfind, Out.ok_bind]
        have hisdir : isDirectory ent = true := hfol ent (by
          rw [followed, hfind]
          exact List.mem_cons_self)
        refine ⟨hisdir, fun sub hr => ?_⟩
        obtain ⟨hmem, hcand, -⟩ := firstNamed_spec hf
        have hlive : Live data ent := by
          refine ⟨hmem, hcand, ?_⟩
          cases hlb : isLabel ent with
          | false => rfl
          | true =>
            rw [hv.labels data hdir ent hmem hlb hcand] at hisdir
            cases hisdir
        rw [hl, hr, Out.ok_bind] at hne hlab
        refine ih (.sub hdir hlive hisdir hr) hne (fun x hx => hfol x ?_) hlab
        rw [followed, hfind]
        dsimp only
        rw [hr]
        exact List.mem_cons_of_mem _ hx

/-- For every valid volume and every path: the call delivers the entry that the path leads
to, follows directories only, delivers no volume label and reads no directory past its end,
exactly if the path is not absolute, or the components that fit into the buffer lead to the
same entry as all of them and, where they are at most 31, the way is clean. -/
theorem lookup_faithful_iff (vfat : VFAT) (hv : Valid vfat) (path : CStr) :
    Faithful vfat path ↔ (path.bytes.head? = some slash →
      ((elements path).length ≤ 31 → Clean vfat vfat.rootdir (elements path)) ∧
      ∀ de, Resolves vfat vfat.rootdir (strtok path.bytes) de ↔
        (elements path).length ≤ 31 ∧ Resolves vfat vfat.rootdir (elements path) de) := by
  by_cases habs : path.bytes.head? = some slash
  · rw [forall_prop_of_true habs]
    have htarget : ∀ de, Target vfat path de ↔
        Resolves vfat vfat.rootdir (strtok path.bytes) de := fun de => and_iff_right habs
    by_cases hlen : (elements path).length ≤ 31
    · rw [forall_prop_of_true hlen]
      have hstat : vfatStatFile vfat path = lookup vfat vfat.rootdir (elements path) := by
        rw [vfatStatFile, if_neg (not_not.mpr habs), if_neg (Nat.not_lt.mpr hlen)]
      constructor
      · rintro ⟨h1, h2, h3, h4⟩
        rw [hstat] at h1 h2 h4
        have hclean := clean_of_lookup hv .root h1 (h3 habs hlen) h4
        refine ⟨hclean, fun de => ?_⟩
        rw [and_iff_right hlen, ← (lookup_clean hv .root hclean).2.1 de, h2 de, htarget]
      · rintro ⟨hclean, hsame⟩
        obtain ⟨h1, h2, h3, h4⟩ := lookup_clean hv .root hclean
        refine ⟨hstat ▸ h1, fun de => ?_, fun _ _ => h3, hstat ▸ h4⟩
        rw [hstat, h2 de, htarget, hsame de, and_iff_right hlen]
    · have hstat : vfatStatFile vfat path = .err .failed := by
        rw [vfatStatFile, if_neg (not_not.mpr habs), if_pos (Nat.lt_of_not_le hlen)]
      constructor
      · intro h
        refine ⟨fun hle => absurd hle hlen, fun de => ?_⟩
        rw [← htarget, ← h.resolves, hstat]
        exact ⟨fun h => (by cases h), fun h => absurd h.1 hlen⟩
      · rintro ⟨-, hsame⟩
        refine ⟨?_, fun de => ?_, fun _ hle => absurd hle hlen, ?_⟩
        · rw [hstat]
          exact fun h => by cases h
        · rw [hstat, htarget, hsame]
          exact ⟨fun h => (by cases h), fun h => absurd h.1 hlen⟩
        · rw [hstat]
          exact fun _ h => by cases h
  · have hstat : vfatStatFile vfat path = .err .failed := by
      rw [vfatStatFile, if_pos habs]
    refine ⟨fun _ h => absurd h habs, fun _ => ⟨?_, fun de => ?_, fun h => absurd h habs, ?_⟩⟩
    · rw [hstat]
      exact fun h => by cases h
    · rw [hstat]
      exact ⟨fun h => (by cases h), fun h => absurd h.1 habs⟩
    · rw [hstat]
      exact fun _ h => by cases h

/-! ## A small volume -/

/-- A directory entry with a name that is already in its form. -/
def mkEntry (name : String) (attr : UInt8) (clustno : Nat) : Bytes :=
  pad 11 (text name) ++ [attr] ++ List.replicate 8 0 ++ enc16 (clustno / 2 ^ 16) ++
    List.replicate 4 0 ++ enc16 clustno ++ List.replicate 4 0

/-- A volume with a label and a directory with one file in its root. -/
def bootVolume : VFAT := { small12 with
  fat := ⟨[0xF8, 0xFF, 0xFF, 0xFF, 0x0F] ++ List.replicate 507 0, by decide +kernel⟩
  rootdir := mkEntry "LSVM" 0x08 0 ++ mkEntry "BOOT" 0x10 2 ++ List.replicate 448 0
  dev := { zeroDevice 7 with
    data := fun a => if a < 1536 then 0 else byteAt (mkEntry "GRUB" 0x20 0) (a - 1536) } }

/-- The content of the directory. -/
def bootData : Bytes := mkEntry "GRUB" 0x20 0 ++ List.replicate 480 0

theorem readClusters_boot : readClusters bootVolume 2 = .ok bootData := by decide +kernel

theorem live_root {ent : DirectoryEntry} (h : Live bootVolume.rootdir ent) :
    ent.raw = mkEntry "BOOT" 0x10 2 := by
  have hall : ∀ e ∈ visible bootVolume.rootdir,
      isLabel e = false → e.raw = mkEntry "BOOT" 0x10 2 := by decide +kernel
  exact hall ent h.mem h.file

theorem live_boot {ent : DirectoryEntry} (h : Live bootData ent) :
    ent.raw = mkEntry "GRUB" 0x20 0 := by
  have hall : ∀ e ∈ visible bootData, e.raw = mkEntry "GRUB" 0x20 0 := by decide +kernel
  exact hall ent h.mem

theorem directory_boot {data : Bytes} (h : Directory bootVolume data) :
    data = bootVolume.rootdir ∨ data = bootData := by
  induction h with
  | root => exact .inl rfl
  | sub _ hlive hisdir hread ih =>
    right
    rcases ih with rfl | rfl
    · rw [DirectoryEntry.clustno, DirectoryEntry.fstClusHI, DirectoryEntry.fstClusLO,
        live_root hlive, show le16 (mkEntry "BOOT" 0x10 2) 20 * 2 ^ 16 +
          le16 (mkEntry "BOOT" 0x10 2) 26 = 2 by decide, readClusters_boot] at hread
      injection hread with hread
      exact hread.symm
    · rw [isDirectory, DirectoryEntry.attr, live_boot hlive] at hisdir
      exact absurd hisdir (by decide)

theorem entry_ext {a b : DirectoryEntry} (h : a.raw = b.raw) : a = b := by
  obtain ⟨ra, ha⟩ := a
  obtain ⟨rb, hb⟩ := b
  cases h
  rfl

theorem bootVolume_valid : Valid bootVolume where
  names data hdir a b ha hb _ := by
    rcases directory_boot hdir with rfl | rfl
    · exact entry_ext ((live_root ha).trans (live_root hb).symm)
    · exact entry_ext ((live_boot ha).trans (live_boot hb).symm)
  chains data hdir ent hlive hisdir := by
    rcases directory_boot hdir with rfl | rfl
    · rw [DirectoryEntry.clustno, DirectoryEntry.fstClusHI, DirectoryEntry.fstClusLO,
        live_root hlive, show le16 (mkEntry "BOOT" 0x10 2) 20 * 2 ^ 16 +
          le16 (mkEntry "BOOT" 0x10 2) 26 = 2 by decide, readClusters_boot]
      exact fun h => by cases h
    · rw [isDirectory, DirectoryEntry.attr, live_boot hlive] at hisdir
      exact absurd hisdir (by decide)
  labels data hdir ent hmem hl _ := by
    rcases directory_boot hdir with rfl | rfl
    · have hall : ∀ e ∈ visible bootVolume.rootdir, isLabel e = true → isDirectory e = false := by
        decide +kernel
      exact hall ent hmem hl
    · have hall : ∀ e ∈ visible bootData, isLabel e = true → isDirectory e = false := by
        decide +kernel
      exact hall ent hmem hl

theorem clean_boot : Clean bootVolume bootVolume.rootdir [text "boot", text "grub"] := by
  intro _ name hname
  have hfix : fixName (text "boot") = some (pad 11 (text "BOOT")) := by decide
  have hfirst : firstNamed (pad 11 (text "BOOT")) bootVolume.rootdir =
      some ⟨mkEntry "BOOT" 0x10 2, by decide +kernel⟩ := by decide +kernel
  rw [← Option.some.inj (hfix.symm.trans hname), hfirst]
  refine ⟨by decide, fun sub hsub => ?_⟩
  have hread : readClusters bootVolume
      (DirectoryEntry.clustno ⟨mkEntry "BOOT" 0x10 2, by decide⟩) = .ok bootData := by
    decide +kernel
  rw [hread] at hsub
  injection hsub with hsub
  rw [← hsub]
  intro _ name hname
  have hfix : fixName (text "grub") = some (pad 11 (text "GRUB")) := by decide
  have hfirst : firstNamed (pad 11 (text "GRUB")) bootData =
      some ⟨mkEntry "GRUB" 0x20 0, by decide +kernel⟩ := by decide +kernel
  rw [← Option.some.inj (hfix.symm.trans hname), hfirst]
  decide

-- a proof that a way is clean is not taken apart any more
attribute [irreducible] Clean

def grubPath : CStr := ⟨text "/boot/grub", by decide +kernel⟩

/-- The path leads through the directory to the file. -/
theorem lookup_boot_grub : (∃ de, vfatStatFile bootVolume grubPath = .ok de) ∧
    Faithful bootVolume grubPath := by
  have helem : elements grubPath = [text "boot", text "grub"] := by decide +kernel
  have hsame : strtok grubPath.bytes = elements grubPath := by decide +kernel
  have hlen : (elements grubPath).length ≤ 31 := by decide +kernel
  constructor
  · exact ⟨⟨mkEntry "GRUB" 0x20 0, by decide +kernel⟩, by decide +kernel⟩
  · have hclean : Clean bootVolume bootVolume.rootdir (elements grubPath) := by
      rw [helem]
      exact clean_boot
    refine (lookup_faithful_iff bootVolume bootVolume_valid grubPath).mpr fun _ =>
      And.intro (fun _ => hclean) fun de => ?_
    rw [hsame, and_iff_right hlen]

/-- The path of the volume label. -/
theorem label_delivered : ¬ ∀ vfat, Valid vfat → ∀ path, Faithful vfat path := by
  intro h
  have hlabel := (h bootVolume bootVolume_valid ⟨text "/lsvm", by decide +kernel⟩).label
    ⟨mkEntry "LSVM" 0x08 0, by decide +kernel⟩ (by decide +kernel)
  exact absurd hlabel (by decide +kernel)

end LsvmTools.Vfat.Lookup
