import LsvmTools.CpioRemove
import LsvmTools.Initrd

/-! # What `_InjectFiles` does to an archive

Each step of `_InjectFiles` adds an entry or takes out those with a name, and hands its
output to the next one. Where a run succeeds, the entries of its output are `inject` of
the entries of its input. -/
namespace LsvmTools.InitrdArchive
open Lib.ByteString Lib.Program Lib.Loop Strings Cpio CpioFormat CpioAdd CpioRemove Initrd

variable {mem : Nat → Bool} {around : Bytes → Int → UInt8} {b b' : Buffer} {p : CStr}
  {es : List Entry} {pad : Prop} {n : Nat} {f : NewFile}

/-! ## Entries -/

/-- The entries with a name. -/
def named (p : CStr) (es : List Entry) : List Entry := es.filter (·.name = p)

/-- Whether the mode of the first entry with a name has a bit. -/
def bitAt (bit : Nat) (p : CStr) (es : List Entry) : Bool :=
  match (named p es).head? with
  | some e => (u32 (toUintn (getFileMode e.header)).toNat).testBit bit
  | none => false

/-- The entry of a file, as it is written into any archive. -/
def made (f : NewFile) : Entry :=
  f.entry (plainEntry trailerName [] trailerName_lt nil_lt)

def withDir (f : NewFile) (es : List Entry) : List Entry :=
  if bitAt 14 f.path es then es else es ++ [made f]

def dropFile (p : CStr) (es : List Entry) : List Entry :=
  if bitAt 15 p es then keep p es else es

def isKeyboard (e : Entry) : Bool := afterLastSlash e.name.bytes = hypervKeyboard.bytes

/-- A new directory. -/
def newDir (p : CStr) (hp : p ≠ trailerName) (hlt : p.bytes.length + 1 < 2 ^ 32) : NewFile :=
  ⟨p, dirMode, [], hp, hlt, nil_lt⟩

def etcDir : NewFile := newDir etc (by decide) (by decide)

def lsvmloadDir : NewFile := newDir lsvmload (by decide) (by decide)

def bootkeyFile (data : Bytes) (h : data.length < 2 ^ 32) : NewFile :=
  ⟨bootkey, fileMode, data, by decide, by decide, h⟩

def rootkeyFile (data : Bytes) (h : data.length < 2 ^ 32) : NewFile :=
  ⟨rootkey, fileMode, data, by decide, by decide, h⟩

/-- What `_InjectFiles` makes of the entries of an archive. -/
def inject (boot root : NewFile) (es : List Entry) : List Entry :=
  let es := withDir lsvmloadDir (withDir etcDir es)
  let es := dropFile bootkey es ++ [made boot]
  let es := dropFile rootkey es ++ [made root]
  (dropFile specialize es).filter fun e => !isKeyboard e

theorem entry_eq_made (f : NewFile) (t : Entry) : f.entry t = made f := by
  have hmagic : t.header.magic = [48, 55, 48, 55, 48, 49] := by
    have := t.magic
    simpa [cpioMatchMagicNumber] using this
  refine entry_ext ?_ rfl rfl rfl rfl
  show newHeader _ _ _ _ = newHeader _ _ _ _
  unfold newHeader
  rw [hmagic]
  rfl

/-! ## Any memory -/

theorem calloc_any {size : Int} {out : Bytes} (h : calloc mem size = .ok out) :
    calloc (fun _ => true) size = .ok out := by
  unfold calloc at *
  simp only at h
  split at h
  · exact h
  · cases h

/-- What is made with little memory is made with enough of it. -/
theorem addFile_any {data : Option Bytes} {size : Int} {mode : UInt32} {m : Made}
    (h : (cpioAddFile mem b p data size mode).Ends (.ok m)) :
    (cpioAddFile (fun _ => true) b p data size mode).Ends (.ok m) := by
  unfold cpioAddFile at *
  split at h
  · cases Exec.ends_of.mp h
  · rename_i h0
    rw [if_neg h0]
    obtain ⟨trailer, hfind, h⟩ := Exec.ends_bind_ok.mp h
    obtain ⟨out, hout, h⟩ := Exec.ends_bind_ok.mp h
    have hcalloc := calloc_any (Exec.ends_of.mp hout).symm
    exact hfind.bind ((Exec.ends_of.mpr hcalloc.symm).bind h)

theorem removeFile_any {m : Made} (h : (cpioRemoveFile mem b p).Ends (.ok m)) :
    (cpioRemoveFile (fun _ => true) b p).Ends (.ok m) := by
  unfold cpioRemoveFile at *
  split at h
  · cases Exec.ends_of.mp h
  · rename_i h0
    rw [if_neg h0]
    obtain ⟨header, hfind, h⟩ := Exec.ends_bind_ok.mp h
    obtain ⟨out, hout, h⟩ := Exec.ends_bind_ok.mp h
    have hcalloc := calloc_any (Exec.ends_of.mp hout).symm
    exact hfind.bind ((Exec.ends_of.mpr hcalloc.symm).bind h)

/-! ## An archive in memory -/

/-- The buffer holds an archive of the entries; `n` bytes are enough for them with the
padding of a block, and for all of it. -/
def Carries (pad : Prop) (b : Buffer) (es : List Entry) (n : Nat) : Prop :=
  ∃ a : Archive, b.data = a.bytes ∧ a.entries = es ∧ total a.all + 511 ≤ n ∧
    a.bytes.length ≤ n ∧ (pad → a.bytes.length = ceil (total a.all) 512)

theorem Carries.copy (hc : Carries pad b es n) (h : b'.data = b.data) : Carries pad b' es n := by
  obtain ⟨a, hb, hrest⟩ := hc
  exact ⟨a, h.trans hb, hrest⟩

theorem Carries.weaken {pad' : Prop} {k : Nat} (hc : Carries pad b es n) (hpad : pad' → pad)
    (hk : n ≤ k) : Carries pad' b es k := by
  obtain ⟨a, hb, hes, htotal, hlen, hblocks⟩ := hc
  exact ⟨a, hb, hes, by omega, by omega, fun h => hblocks (hpad h)⟩

theorem locate_named {t : Entry} {h : Int} (hp : t.name ≠ p) :
    (locate p h (es ++ [t])).map (·.2) = (named p es).head? := by
  induction es generalizing h with
  | nil => simp [locate, hp, named]
  | cons e es ih =>
    rw [List.cons_append, locate]
    by_cases hname : e.name = p
    · simp [named, hname]
    · simp only [hname, if_false, ih]
      simp [named, hname]

theorem Carries.bit (hc : Carries pad b es n) (hn : n < 2 ^ 31) (hp : p ≠ trailerName)
    (bit : Nat) : (hasModeBit bit b p).Ends (.ok (bitAt bit p es)) := by
  obtain ⟨a, hb, rfl, -, hlen, -⟩ := hc
  have hparse := parses_small hb (by omega)
  have hfind := hparse.findHeader p
  have hl : (locate p 0 (a.entries ++ [a.trailer])).map (·.2) = (named p a.entries).head? :=
    locate_named (by rw [a.trailer_name]; exact Ne.symm hp)
  unfold hasModeBit bitAt
  rw [if_neg (size_pos hb), ← hl]
  cases hloc : locate p 0 (a.entries ++ [a.trailer]) with
  | none =>
    rw [hloc] at hfind
    exact hfind.attempt_err.bind (Exec.ends_pure.mpr rfl)
  | some x =>
    obtain ⟨h, e⟩ := x
    rw [hloc] at hfind
    refine hfind.attempt.bind (Exec.ends_pure.mpr ?_)
    rw [(hparse.locate hloc).1.header]
    rfl

theorem allocated_ok {d : Bytes} (h : allocated around d = .ok b) : b.data = d := by
  unfold allocated at h
  split at h
  · cases h; rfl
  · cases h

theorem memdup_ok (h : memdup mem around b = .ok b') : b'.data = b.data := by
  unfold memdup at h
  split at h
  · cases h
  · split at h
    · cases h
    · split at h
      · cases h
      · exact allocated_ok h

theorem carries_add {data : Option Bytes} {m : Made} (hc : Carries pad b es n)
    (hn : n + f.size < 2 ^ 31) (hdata : data.getD [] = f.data)
    (h : (cpioAddFile mem b f.path data f.data.length f.mode).Ends (.ok m))
    (hm : madeBuffer around m = .ok b') : Carries True b' (es ++ [made f]) (n + f.size) := by
  obtain ⟨a, hb, rfl, htotal, hlen, -⟩ := hc
  have hall := a.total_all
  have hsize : sizeWith a f = total a.entries + f.size + 124 := rfl
  have hceil := ceil_lt (show 0 < 512 by omega) (sizeWith a f)
  have hmake := cpioAddFile_eq (fun _ _ => rfl) hb (by omega) hdata
    (by omega)
  cases hmake.unique (addFile_any h)
  have hlength := length_add a f
  have htotal' : total (add a f).all = sizeWith a f := by
    rw [Archive.total_all]
    simp only [add, total_append, total_cons, total_nil]
    rfl
  refine ⟨add a f, ?_, ?_, by omega, by omega, fun _ => by rw [hlength, htotal']⟩
  · have := allocated_ok hm
    simpa using this
  · simp only [add, entry_eq_made]

/-- A name that is removed is there. -/
theorem removeFile_mem {m : Made} {a : Archive} (hb : b.data = a.bytes)
    (ha : a.bytes.length < 2 ^ 31) (hp : p ≠ trailerName)
    (h : (cpioRemoveFile mem b p).Ends (.ok m)) : ∃ e ∈ a.entries, e.name = p := by
  by_contra hnone
  have hfind := (parses_small hb ha).findHeader p
  have hl : (locate p 0 (a.entries ++ [a.trailer])).map (·.2) = (named p a.entries).head? :=
    locate_named (by rw [a.trailer_name]; exact Ne.symm hp)
  have hnamed : named p a.entries = [] := by
    refine List.filter_eq_nil_iff.mpr fun e he => ?_
    simpa using fun hname => hnone ⟨e, he, hname⟩
  rw [hnamed, List.head?_nil, Option.map_eq_none_iff] at hl
  rw [hl] at hfind
  unfold cpioRemoveFile at h
  rw [if_neg (size_pos hb)] at h
  obtain ⟨header, hheader, -⟩ := Exec.ends_bind_ok.mp h
  cases hfind.unique hheader

theorem carries_remove {m : Made} (hc : Carries pad b es n) (hn : n < 2 ^ 31)
    (hp : p ≠ trailerName) (h : (cpioRemoveFile mem b p).Ends (.ok m))
    (hm : madeBuffer around m = .ok b') : Carries True b' (keep p es) n := by
  obtain ⟨a, hb, rfl, htotal, hlen, -⟩ := hc
  have hlength := a.length_bytes
  have hsize : b.size = (a.bytes.length : Int) := congrArg (fun d : Bytes => (d.length : Int)) hb
  have hroom : total a.all ≤ toInt b.size := by
    rw [hsize, toInt_of_lt (by omega) (by omega)]
    omega
  have hmake := cpioRemoveFile_eq (fun _ _ => rfl) hb hp
    (removeFile_mem hb (by omega) hp h) hroom
  cases hmake.unique (removeFile_any h)
  have hkeep := total_keep p a.all
  have hle := le_ceil (show 0 < 512 by omega) (total (keep p a.all))
  have hlt := ceil_lt (show 0 < 512 by omega) (total (keep p a.all))
  have hdata := allocated_ok hm
  rw [hb, u32_of_lt (by omega), uintn_block rfl (by omega)] at hdata
  simp only [Int.toNat_natCast] at hdata
  have hfill : (fill a.bytes.length ((keep p a.all).flatMap Entry.bytes)).length =
      a.bytes.length := by
    simp only [fill, List.length_append, List.length_replicate, length_flatMap]
    omega
  have htake : b'.data.take (total (keep p a.all)) = (keep p a.all).flatMap Entry.bytes := by
    rw [hdata, List.take_append_of_le_length (by rw [List.length_take]; omega), List.take_take,
      Nat.min_eq_left hle, fill, ← length_flatMap, List.take_left]
  have hlen' : b'.data.length = ceil (total (keep p a.all)) 512 := by
    rw [hdata, List.length_append, List.length_take, length_readMem]
    omega
  let a' : Archive := { without a p with rest := b'.data.drop (total (keep p a.all)) }
  have hall' : a'.all = keep p a.all := (keep_all hp).symm
  have hbytes : b'.data = a'.bytes := by
    rw [Archive.bytes, hall', ← htake]
    exact (List.take_append_drop ..).symm
  have htotal' : total a'.all = total (keep p a.all) := by rw [hall']
  exact ⟨a', hbytes, rfl, by omega, by rw [← hbytes]; omega, fun _ => by
    rw [← hbytes, hlen', htotal']⟩

/-! ## The steps -/

variable {d : Bytes}

theorem makeDir_ok (hc : Carries pad b es n) (hn : n + f.size < 2 ^ 31) (hmode : f.mode = dirMode)
    (hdata : f.data = []) (h : (makeDir mem around f.path b).Ends (.ok b')) :
    Carries False b' (withDir f es) (n + f.size) := by
  have hbit := hc.bit (by omega) f.path_ne 14
  unfold makeDir at h
  obtain ⟨found, hfound, h⟩ := Exec.ends_bind_ok.mp h
  cases hbit.unique hfound
  unfold withDir
  split at h
  · rename_i hb
    rw [if_pos hb]
    cases Exec.ends_pure.mp h
    exact hc.weaken (fun h => h.elim) (by omega)
  · rename_i hb
    rw [if_neg hb]
    obtain ⟨m, hm, h⟩ := Exec.ends_bind_ok.mp h
    rw [← hmode] at hm
    have hdata' : (none : Option Bytes).getD [] = f.data := hdata.symm
    have hadd := carries_add hc hn hdata' (by rw [hdata]; exact hm) (Exec.ends_of.mp h).symm
    exact hadd.weaken (fun h => h.elim) (by omega)

theorem removeFile_ok (hc : Carries pad b es n) (hn : n < 2 ^ 31) (hp : p ≠ trailerName)
    (h : (removeFile mem around p b).Ends (.ok b')) : Carries True b' (keep p es) n := by
  obtain ⟨m, hm, h⟩ := Exec.ends_bind_ok.mp h
  exact carries_remove hc hn hp hm (Exec.ends_of.mp h).symm

theorem removeIfFile_ok (hc : Carries pad b es n) (hn : n < 2 ^ 31) (hp : p ≠ trailerName)
    (h : (removeIfFile mem around p b).Ends (.ok b')) : Carries pad b' (dropFile p es) n := by
  have hbit := hc.bit hn hp 15
  unfold removeIfFile at h
  obtain ⟨found, hfound, h⟩ := Exec.ends_bind_ok.mp h
  cases hbit.unique hfound
  unfold dropFile
  split at h
  · rename_i hb
    rw [if_pos hb]
    exact (removeFile_ok hc hn hp h).weaken (fun _ => trivial) (by omega)
  · rename_i hb
    rw [if_neg hb]
    cases Exec.ends_pure.mp h
    exact hc

theorem addFile_ok (hc : Carries pad b es n) (hn : n + f.size < 2 ^ 31) (hmode : f.mode = fileMode)
    (h : (addFile mem around f.path f.data b).Ends (.ok b')) :
    Carries True b' (es ++ [made f]) (n + f.size) := by
  obtain ⟨m, hm, h⟩ := Exec.ends_bind_ok.mp h
  rw [← hmode] at hm
  exact carries_add hc hn rfl hm (Exec.ends_of.mp h).symm

/-! ## The keyboard driver -/

variable {h : Int} {e t : Entry}

theorem strlen_name (he : Holds b h e) : (b.strlen (getName h)).Ends (.ok e.name.bytes.length) := by
  have hstep : ∀ k j : Nat, k + j = e.name.bytes.length →
      (Exec.loop (ε := Unit) (fun n : Nat => pure (if b.peek (getName h + n) = 0
        then .done n else .next (n + 1))) k).Ends (.ok e.name.bytes.length) := by
    intro k j hkj
    induction j generalizing k with
    | zero =>
      have hpeek := he.peek_name (k := k) (by omega)
      rw [byteAt_append, if_neg (by omega), show k - e.name.bytes.length = 0 by omega] at hpeek
      refine Exec.loop_done (Exec.ends_pure.mpr ?_)
      rw [hpeek, if_pos (show byteAt [0] 0 = 0 from rfl), show k = e.name.bytes.length by omega]
    | succ j ih =>
      have hpeek := he.peek_name (k := k) (by omega)
      rw [byteAt_append, if_pos (by omega), byteAt_eq_getElem (by omega)] at hpeek
      refine (Exec.loop_next (Exec.ends_pure.mpr ?_)).mpr (ih (k + 1) (by omega))
      have hne : e.name.bytes[k] ≠ 0 := fun h0 => e.name.noNul (h0 ▸ List.getElem_mem _)
      rw [hpeek, if_neg hne]
  exact hstep 0 _ (Nat.zero_add _)

/-- The name that is read is the entry's. -/
theorem string_name (he : Holds b h e) : (b.string (getName h)).Ends (.ok e.name) := by
  have hbytes : b.bytes (getName h) e.name.bytes.length = e.name.bytes := by
    apply List.ext_getElem (bytes_length ..)
    intro k h1 h2
    have hpeek := he.peek_name (k := k) (by omega)
    rw [byteAt_append, if_pos h2, byteAt_eq_getElem h2] at hpeek
    simpa [Buffer.bytes] using hpeek
  have hcstr : cstr e.name.bytes = e.name.bytes := by
    refine List.takeWhile_eq_self_iff.mpr fun c hc => ?_
    simpa using fun h0 : c = 0 => e.name.noNul (h0 ▸ hc)
  refine (strlen_name he).bind (Exec.ends_pure.mpr ?_)
  simp only [hbytes, hcstr]

/-- The names with a base name, in the order of the entries. -/
def pathsTo (base : CStr) (es : List Entry) : List CStr :=
  (es.filter fun e => afterLastSlash e.name.bytes = base.bytes).map (·.name)

theorem append_data {arr arr' : StrArr} (ha : arr.append mem p = some arr') :
    arr'.data = arr.data ++ [p] := by
  unfold StrArr.append at ha
  simp only [Option.ite_none_left_eq_some] at ha
  obtain ⟨-, -, ha⟩ := ha
  rw [← Option.some.inj ha]

theorem appendIfBaseName_ok {base : CStr} {arr arr' : StrArr}
    (ha : appendIfBaseName mem base arr e.name = .ok arr') :
    arr'.data = arr.data ++ pathsTo base [e] := by
  unfold appendIfBaseName at ha
  unfold pathsTo
  split at ha
  · rename_i hbase
    cases hsome : arr.append mem e.name with
    | none => rw [hsome] at ha; cases ha
    | some arr'' =>
      rw [hsome] at ha
      cases ha
      simp [hbase, append_data hsome]
  · rename_i hbase
    cases ha
    simp [hbase]

/-- The loop of `CPIOFindFilesByBaseName`. -/
def findFilesRound (mem : Nat → Bool) (b : Buffer) (base : CStr) :
    Int × StrArr → Exec Unit (Step (Int × StrArr) StrArr) := fun (h, arr) => do
  cpioCheckEntry b h b.size
  let path ← b.string (getName h)
  let arr ← appendIfBaseName mem base arr path
  advance b h b.size (fun h' => (h', arr)) arr

theorem findFilesRound_ok {base : CStr} {arr : StrArr} {x : Step (Int × StrArr) StrArr}
    (he : Holds b h e) (hr : (findFilesRound mem b base (h, arr)).Ends (.ok x)) :
    ∃ arr' : StrArr, arr'.data = arr.data ++ pathsTo base [e] ∧
      advance b h b.size (fun h' => (h', arr')) arr' = .ok x := by
  obtain ⟨_, -, hname⟩ := Exec.ends_bind_ok.mp hr
  obtain ⟨path, hpath, happend⟩ := Exec.ends_bind_ok.mp hname
  cases (string_name he).unique hpath
  obtain ⟨arr', harr, hadv⟩ := Exec.ends_bind_ok.mp happend
  exact ⟨arr', appendIfBaseName_ok (Exec.ends_of.mp harr).symm, (Exec.ends_of.mp hadv).symm⟩

theorem pathsTo_append (base : CStr) (es fs : List Entry) :
    pathsTo base (es ++ fs) = pathsTo base es ++ pathsTo base fs := by
  simp [pathsTo]

theorem findFiles_loop {base : CStr} {arr out : StrArr} (hp : Parses b b.size h es t)
    (hr : (Exec.loop (findFilesRound mem b base) (h, arr)).Ends (.ok out)) :
    out.data = arr.data ++ pathsTo base (es ++ [t]) := by
  induction hp generalizing arr with
  | @trailer h t he _ hc hn =>
    obtain ⟨x, hx, hrest⟩ := Exec.ends_bind_ok.mp (Exec.ends_loop.mp hr)
    obtain ⟨arr', harr, hadv⟩ := findFilesRound_ok he hx
    rw [advance, hn] at hadv
    cases hadv
    cases Exec.ends_pure.mp hrest
    exact harr
  | @entry h e es t he _ hc hn rest ih =>
    obtain ⟨x, hx, hrest⟩ := Exec.ends_bind_ok.mp (Exec.ends_loop.mp hr)
    obtain ⟨arr', harr, hadv⟩ := findFilesRound_ok he hx
    rw [advance, hn] at hadv
    cases hadv
    rw [ih hrest, harr, List.append_assoc, ← pathsTo_append]
    rfl

theorem Carries.findFiles {base : CStr} {arr : StrArr} (hc : Carries pad b es n)
    (hn : n < 2 ^ 31) (hbase : base.bytes ≠ trailerName.bytes)
    (hr : (cpioFindFilesByBaseName mem b base).Ends (.ok arr)) : arr.data = pathsTo base es := by
  obtain ⟨a, hb, rfl, -, hlen, -⟩ := hc
  have htrailer : pathsTo base [a.trailer] = [] := by
    have hlast : afterLastSlash trailerName.bytes = trailerName.bytes := by decide
    simp [pathsTo, a.trailer_name, hlast, Ne.symm hbase]
  unfold cpioFindFilesByBaseName at hr
  split at hr
  · cases Exec.ends_of.mp hr
  · have hdata := findFiles_loop (parses_small hb (by omega)) hr
    rw [hdata, pathsTo_append, htrailer, List.append_nil]
    rfl

theorem removeFiles_ok {ps : List CStr} (hc : Carries True b es n) (hn : n < 2 ^ 31)
    (hps : ∀ p ∈ ps, p ≠ trailerName) (hr : (removeFiles mem around ps b).Ends (.ok b')) :
    Carries True b' (es.filter fun e => e.name ∉ ps) n := by
  induction ps generalizing b es with
  | nil =>
    cases Exec.ends_pure.mp hr
    simpa using hc
  | cons p ps ih =>
    obtain ⟨b1, h1, hr⟩ := Exec.ends_bind_ok.mp hr
    have hrest := ih (removeFile_ok hc hn (hps p (by simp)) h1) (fun q hq => hps q (by simp [hq])) hr
    have hfilter : (keep p es).filter (fun e => e.name ∉ ps) =
        es.filter fun e => e.name ∉ p :: ps := by
      rw [keep, List.filter_filter]
      refine List.filter_congr fun e _ => ?_
      simp [Bool.and_comm]
    rwa [hfilter] at hrest

theorem deleteKeyboardDriver_ok (hc : Carries True b es n) (hn : n < 2 ^ 31)
    (hr : (deleteKeyboardDriver mem around b).Ends (.ok b')) :
    Carries True b' (es.filter fun e => !isKeyboard e) n := by
  obtain ⟨b1, h1, hr⟩ := Exec.ends_bind_ok.mp hr
  obtain ⟨arr, harr, hr⟩ := Exec.ends_bind_ok.mp hr
  have hc1 := hc.copy (memdup_ok (Exec.ends_of.mp h1).symm)
  have hdata := hc1.findFiles hn (by decide) harr
  have hnamed : ∀ e ∈ es, e.name ∈ pathsTo hypervKeyboard es ↔ isKeyboard e = true := by
    intro e he
    simp only [pathsTo, isKeyboard, List.mem_map, List.mem_filter, decide_eq_true_eq]
    exact ⟨fun ⟨e', ⟨_, hbase⟩, hname⟩ => hname ▸ hbase, fun hbase => ⟨e, ⟨he, hbase⟩, rfl⟩⟩
  have hps : ∀ p ∈ pathsTo hypervKeyboard es, p ≠ trailerName := by
    rintro p hp rfl
    obtain ⟨e, he, hname⟩ := List.mem_map.mp hp
    have hbase := (List.mem_filter.mp he).2
    rw [hname] at hbase
    revert hbase
    decide
  rw [hdata] at hr
  have hrest := removeFiles_ok hc1 hn hps hr
  have hfilter : (es.filter fun e => e.name ∉ pathsTo hypervKeyboard es) =
      es.filter fun e => !isKeyboard e := by
    refine List.filter_congr fun e he => ?_
    have := hnamed e he
    cases hk : isKeyboard e <;> simp_all
  rwa [hfilter] at hrest

/-- What a successful run of `_InjectFiles` delivers. -/
theorem injectFiles_ok {boot root : Bytes} (hboot : boot.length < 2 ^ 32)
    (hroot : root.length < 2 ^ 32) (hc : Carries pad b es n)
    (hn : n + boot.length + root.length + 1024 < 2 ^ 31)
    (hr : (injectFiles mem around boot root b).Ends (.ok b')) :
    Carries True b' (inject (bootkeyFile boot hboot) (rootkeyFile root hroot) es)
      (n + boot.length + root.length + 1024) := by
  unfold injectFiles at hr
  split at hr
  · cases Exec.ends_of.mp hr
  · obtain ⟨b1, h1, hr⟩ := Exec.ends_bind_ok.mp hr
    obtain ⟨b2, h2, hr⟩ := Exec.ends_bind_ok.mp hr
    obtain ⟨b3, h3, hr⟩ := Exec.ends_bind_ok.mp hr
    obtain ⟨b4, h4, hr⟩ := Exec.ends_bind_ok.mp hr
    obtain ⟨b5, h5, hr⟩ := Exec.ends_bind_ok.mp hr
    obtain ⟨b6, h6, hr⟩ := Exec.ends_bind_ok.mp hr
    obtain ⟨b7, h7, hr⟩ := Exec.ends_bind_ok.mp hr
    obtain ⟨b8, h8, hr⟩ := Exec.ends_bind_ok.mp hr
    have s1 : etcDir.size = 116 := by decide
    have s2 : lsvmloadDir.size = 124 := by decide
    have s3 : (bootkeyFile boot hboot).size = 132 + ceil boot.length 4 :=
      congrArg (· + ceil boot.length 4) (show ceil (110 + (20 + 1)) 4 = 132 by decide)
    have s4 : (rootkeyFile root hroot).size = 132 + ceil root.length 4 :=
      congrArg (· + ceil root.length 4) (show ceil (110 + (20 + 1)) 4 = 132 by decide)
    have l3 := ceil_lt (show 0 < 4 by decide) boot.length
    have l4 := ceil_lt (show 0 < 4 by decide) root.length
    have c1 := hc.copy (memdup_ok (Exec.ends_of.mp h1).symm)
    have c2 := makeDir_ok (f := etcDir) c1 (by omega) rfl rfl h2
    have c3 := makeDir_ok (f := lsvmloadDir) c2 (by omega) rfl rfl h3
    have c4 := removeIfFile_ok c3 (by omega) (by decide) h4
    have c5 := addFile_ok (f := bootkeyFile boot hboot) c4 (by omega) rfl h5
    have c6 := removeIfFile_ok c5 (by omega) (by decide) h6
    have c7 := addFile_ok (f := rootkeyFile root hroot) c6 (by omega) rfl h7
    have c8 := removeIfFile_ok c7 (by omega) (by decide) h8
    have c9 := deleteKeyboardDriver_ok c8 (by omega) hr
    exact c9.weaken id (by omega)

end LsvmTools.InitrdArchive
