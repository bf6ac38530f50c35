import LsvmTools.CpioStore
import LsvmTools.InitrdKeys
import LsvmTools.Lib.Verdict

/-! # When an initrd takes the keys

Where memory suffices `InitrdInjectFiles` fails for few reasons. One of them is in the compressed
archive: `CPIORemoveFile` takes out all entries with a name, so of a path that is there twice the
second removal finds nothing. -/
namespace LsvmTools.InitrdOutcome
open Lib.ByteString Lib.Program Lib.Loop Lib.Verdict Strings Cpio CpioFormat CpioAdd CpioRemove
open CpioSplit CpioConcat CpioStore Initrd InitrdArchive InitrdKeys

variable {mem : Nat → Bool} {around : Bytes → Int → UInt8} {lzma zlib : Bytes → Option Bytes}
  {b : Buffer} {p base : CStr} {es : List Entry} {pad : Prop} {n : Nat} {f : NewFile}
  {boot root : Bytes}

/-! ## Each step -/

variable (around) in
theorem allocated_ends {d : Bytes} (h : d.length < 2 ^ 63) : ∃ b, allocated around d = .ok b := by
  unfold allocated
  rw [dif_pos h]
  exact ⟨_, rfl⟩

section Steps

variable (hmem : ∀ k, mem k = true)
include hmem

variable (around) in
theorem Carries.memdup_ends (hc : Carries pad b es n) (hn : n < 2 ^ 31) :
    ∃ b', memdup mem around b = .ok b' := by
  obtain ⟨a, hb, -, -, hlen, -⟩ := hc
  have hlength := a.length_bytes
  have hall := a.total_all
  have hdata : b.data.length < 2 ^ 31 := by rw [hb]; omega
  have hsize : b.size ≠ 0 := by
    unfold Buffer.size
    rw [hb]
    omega
  obtain ⟨b', hb'⟩ := allocated_ends around (d := b.data) (by omega)
  refine ⟨b', ?_⟩
  unfold memdup
  rw [if_neg hsize, hmem, u32_of_lt (by omega), if_neg (by simp), if_neg (Nat.lt_irrefl _), hb']

variable (around) in
theorem Carries.makeDir_ends (hc : Carries pad b es n) (hn : n + f.size < 2 ^ 31)
    (hmode : f.mode = dirMode) (hdata : f.data = []) :
    ∃ b', (makeDir mem around f.path b).Ends (.ok b') := by
  have hbit := hc.bit (by omega) f.path_ne 14
  unfold makeDir
  by_cases hthere : bitAt 14 f.path es = true
  · refine ⟨b, hbit.bind ?_⟩
    rw [if_pos hthere]
    exact Exec.ends_pure.mpr rfl
  · obtain ⟨m, b', hm, hb', -⟩ := Carries.add_ends around none hc hn
      hdata.symm (fun k _ => hmem k)
    rw [hdata, hmode] at hm
    refine ⟨b', hbit.bind ?_⟩
    rw [if_neg hthere]
    exact hm.bind (Exec.ends_of.mpr hb'.symm)

variable (around) in
theorem Carries.addFile_ends (hc : Carries pad b es n) (hn : n + f.size < 2 ^ 31)
    (hmode : f.mode = fileMode) : ∃ b', (addFile mem around f.path f.data b).Ends (.ok b') := by
  obtain ⟨m, b', hm, hb', -⟩ := Carries.add_ends around (some f.data) hc hn
    rfl (fun k _ => hmem k)
  rw [hmode] at hm
  exact ⟨b', hm.bind (Exec.ends_of.mpr hb'.symm)⟩

variable (around) in
theorem Carries.removeFile_succeeds (hc : Carries pad b es n) (hn : n < 2 ^ 31)
    (hp : p ≠ trailerName) : Succeeds (removeFile mem around p b) (∃ e ∈ es, e.name = p) := by
  by_cases hin : ∃ e ∈ es, e.name = p
  · obtain ⟨m, b', hm, hb', -⟩ := Carries.remove_ends around hc hn hp
      (fun k _ => hmem k) hin
    exact .of_ok (hm.bind (Exec.ends_of.mpr hb'.symm)) hin
  · exact .of_err ((Carries.remove_err hc hn hp hin).bind_err _) hin

variable (around) in
/-- A file that is found can be removed. -/
theorem Carries.removeIfFile_ends (hc : Carries pad b es n) (hn : n < 2 ^ 31)
    (hp : p ≠ trailerName) : ∃ b', (removeIfFile mem around p b).Ends (.ok b') := by
  have hbit := hc.bit hn hp 15
  unfold removeIfFile
  by_cases hthere : bitAt 15 p es = true
  · have hin : ∃ e ∈ es, e.name = p := by
      by_contra hno
      have hnil : named p es = [] := List.filter_eq_nil_iff.mpr fun e he hname =>
        hno ⟨e, he, of_decide_eq_true hname⟩
      rw [bitAt, hnil] at hthere
      cases hthere
    obtain ⟨b', hb'⟩ := (Carries.removeFile_succeeds around hmem hc hn hp).ok hin
    refine ⟨b', hbit.bind ?_⟩
    rwa [if_pos hthere]
  · refine ⟨b, hbit.bind ?_⟩
    rw [if_neg hthere]
    exact Exec.ends_pure.mpr rfl

variable (around) in
/-- Names are removed one after the other where each is there, and there once. -/
theorem removeFiles_succeeds {ps : List CStr} (hc : Carries True b es n) (hn : n < 2 ^ 31)
    (hps : ∀ p ∈ ps, p ≠ trailerName) :
    Succeeds (removeFiles mem around ps b) (ps.Nodup ∧ ∀ p ∈ ps, ∃ e ∈ es, e.name = p) := by
  induction ps generalizing b es with
  | nil => exact .of_ok (Exec.ends_pure.mpr rfl) ⟨List.nodup_nil, fun p hp => by cases hp⟩
  | cons p ps ih =>
    obtain ⟨hp, hps⟩ := List.forall_mem_cons.mp hps
    have hone := Carries.removeFile_succeeds around hmem hc hn hp
    refine (hone.bind fun b' hb' => ih (removeFile_ok hc hn hp hb') hps).congr ?_
    rw [List.nodup_cons, List.forall_mem_cons]
    constructor
    · rintro ⟨hin, hnodup, hall⟩
      refine ⟨⟨fun hmem => ?_, hnodup⟩, hin, fun q hq => ?_⟩
      · obtain ⟨e, he, rfl⟩ := hall p hmem
        exact of_decide_eq_true (List.mem_filter.mp he).2 rfl
      · obtain ⟨e, he, hname⟩ := hall q hq
        exact ⟨e, (List.mem_filter.mp he).1, hname⟩
    · rintro ⟨⟨hnot, hnodup⟩, hin, hall⟩
      refine ⟨hin, hnodup, fun q hq => ?_⟩
      obtain ⟨e, he, rfl⟩ := hall q hq
      exact ⟨e, List.mem_filter.mpr ⟨he, decide_eq_true fun heq => hnot (heq ▸ hq)⟩, rfl⟩

variable (around) in
theorem deleteKeyboardDriver_succeeds (hc : Carries True b es n) (hn : n < 2 ^ 31) :
    Succeeds (deleteKeyboardDriver mem around b) (pathsTo hypervKeyboard es).Nodup := by
  obtain ⟨b', hb'⟩ := Carries.memdup_ends around hmem hc hn
  have hc' := hc.copy (memdup_ok hb')
  obtain ⟨arr, harr, hdata⟩ := Carries.findFiles_ends hc' hn
    (show hypervKeyboard ≠ trailerName by decide) (fun k _ => hmem k)
  have hthere : ∀ p ∈ pathsTo hypervKeyboard es, ∃ e ∈ es, e.name = p := by
    intro p hp
    obtain ⟨e, he, hname⟩ := List.mem_map.mp hp
    exact ⟨e, (List.mem_filter.mp he).1, hname⟩
  have hps : ∀ p ∈ pathsTo hypervKeyboard es, p ≠ trailerName := by
    rintro p hp rfl
    obtain ⟨e, he, hname⟩ := List.mem_map.mp hp
    have hbase := of_decide_eq_true (List.mem_filter.mp he).2
    rw [hname] at hbase
    revert hbase
    decide
  have hremove := removeFiles_succeeds around hmem hc' hn hps
  rw [← hdata] at hthere hremove ⊢
  exact .after (Exec.ends_of.mpr hb'.symm) (.after harr
    (hremove.congr (and_iff_left hthere)))

end Steps

/-! ## The keyboard driver's paths -/

theorem pathsTo_made (h : afterLastSlash f.path.bytes ≠ base.bytes) :
    pathsTo base [made f] = [] := by
  have hname : (made f).name = f.path := rfl
  simp [pathsTo, hname, h]

theorem pathsTo_withDir (h : afterLastSlash f.path.bytes ≠ base.bytes) (es : List Entry) :
    pathsTo base (withDir f es) = pathsTo base es := by
  unfold withDir
  split
  · rfl
  · rw [pathsTo_append, pathsTo_made h, List.append_nil]

theorem pathsTo_dropFile (h : afterLastSlash p.bytes ≠ base.bytes) (es : List Entry) :
    pathsTo base (dropFile p es) = pathsTo base es := by
  unfold dropFile
  split
  · unfold pathsTo keep
    rw [List.filter_filter]
    refine congrArg _ (List.filter_congr fun e _ => ?_)
    by_cases he : e.name = p
    · simp [he, h]
    · simp [he]
  · rfl

variable (around) in
/-- `_InjectFiles` succeeds where no path to the driver is there twice. -/
theorem injectFiles_succeeds (hmem : ∀ k, mem k = true) (hboot : boot ≠ []) (hroot : root ≠ [])
    (hc : Carries pad b es n) (hn : n + boot.length + root.length + 1024 < 2 ^ 31) :
    Succeeds (injectFiles mem around boot root b) (pathsTo hypervKeyboard es).Nodup := by
  have s1 : etcDir.size = 116 := by decide
  have s2 : lsvmloadDir.size = 124 := by decide
  have s3 : (bootkeyFile boot (by omega)).size = 132 + ceil boot.length 4 :=
    congrArg (· + ceil boot.length 4) (show ceil (110 + (20 + 1)) 4 = 132 by decide)
  have s4 : (rootkeyFile root (by omega)).size = 132 + ceil root.length 4 :=
    congrArg (· + ceil root.length 4) (show ceil (110 + (20 + 1)) 4 = 132 by decide)
  have l3 := ceil_lt (show 0 < 4 by decide) boot.length
  have l4 := ceil_lt (show 0 < 4 by decide) root.length
  obtain ⟨b1, h1⟩ := Carries.memdup_ends around hmem hc (by omega)
  have c1 := hc.copy (memdup_ok h1)
  obtain ⟨b2, h2⟩ := Carries.makeDir_ends around (f := etcDir) hmem c1 (by omega) rfl rfl
  have c2 := makeDir_ok (f := etcDir) c1 (by omega) rfl rfl h2
  obtain ⟨b3, h3⟩ := Carries.makeDir_ends around (f := lsvmloadDir) hmem c2 (by omega)
    rfl rfl
  have c3 := makeDir_ok (f := lsvmloadDir) c2 (by omega) rfl rfl h3
  obtain ⟨b4, h4⟩ := Carries.removeIfFile_ends around (p := bootkey) hmem c3 (by omega)
    (by decide)
  have c4 := removeIfFile_ok c3 (by omega) (by decide) h4
  obtain ⟨b5, h5⟩ := Carries.addFile_ends around (f := bootkeyFile boot (by omega)) hmem
    c4 (by omega) rfl
  have c5 := addFile_ok (f := bootkeyFile boot (by omega)) c4 (by omega) rfl h5
  obtain ⟨b6, h6⟩ := Carries.removeIfFile_ends around (p := rootkey) hmem c5 (by omega)
    (by decide)
  have c6 := removeIfFile_ok c5 (by omega) (by decide) h6
  obtain ⟨b7, h7⟩ := Carries.addFile_ends around (f := rootkeyFile root (by omega)) hmem
    c6 (by omega) rfl
  have c7 := addFile_ok (f := rootkeyFile root (by omega)) c6 (by omega) rfl h7
  obtain ⟨b8, h8⟩ := Carries.removeIfFile_ends around (p := specialize) hmem c7
    (by omega) (by decide)
  have c8 := removeIfFile_ok c7 (by omega) (by decide) h8
  have hdelete := deleteKeyboardDriver_succeeds around hmem c8 (by omega)
  have hbootkey : afterLastSlash bootkey.bytes ≠ hypervKeyboard.bytes := by decide
  have hrootkey : afterLastSlash rootkey.bytes ≠ hypervKeyboard.bytes := by decide
  rw [pathsTo_dropFile (by decide), pathsTo_append, pathsTo_made hrootkey, List.append_nil,
    pathsTo_dropFile hrootkey, pathsTo_append, pathsTo_made hbootkey, List.append_nil,
    pathsTo_dropFile hbootkey, pathsTo_withDir (by decide), pathsTo_withDir (by decide)] at hdelete
  unfold injectFiles
  rw [if_neg (by simp [hboot, hroot])]
  exact .after (Exec.ends_of.mpr h1.symm) (.after h2 (.after h3 (.after h4 (.after h5 (.after h6
    (.after h7 (.after h8 hdelete)))))))

/-! ## The subfiles -/

variable {d : Nat}

theorem subfileBuffer_ends {x rest : Bytes} (hd : b.data.drop d = x ++ rest) :
    ∃ sub, subfileBuffer b ⟨d, x.length⟩ = .ok sub := by
  have hlen := congrArg List.length hd
  have hlt := b.size_lt
  rw [List.length_drop, List.length_append] at hlen
  unfold subfileBuffer
  simp only [Int.toNat_natCast, bytes_length]
  rw [dif_pos (by omega)]
  exact ⟨_, rfl⟩

theorem injectSubfile_plain_ends {a : Archive} {rest : Bytes}
    (hd : b.data.drop d = a.bytes ++ rest) :
    (injectSubfile mem around lzma zlib boot root b ⟨d, a.bytes.length⟩).Ends (.ok a.bytes) := by
  obtain ⟨sub, hsub⟩ := subfileBuffer_ends hd
  have hdata := subfileBuffer_ok hd hsub
  refine (Exec.ends_of.mpr hsub.symm).bind ?_
  refine (Exec.ends_of.mpr (decompress_plain hdata).symm).bind ?_
  exact Exec.ends_pure.mpr (by rw [hdata])

section Inject

variable (hmem : ∀ k, mem k = true) (hboot : boot ≠ []) (hroot : root ≠ [])
include hmem hboot hroot

variable (around) in
theorem injectSubfile_packed_succeeds {a : Archive} {c : Bytes} (hd : b.data.drop d = c)
    (hunpack : unpack lzma zlib c = some a.bytes)
    (hsmall : a.bytes.length + boot.length + root.length + 1535 < 2 ^ 31) :
    Succeeds (injectSubfile mem around lzma zlib boot root b ⟨d, c.length⟩)
      (pathsTo hypervKeyboard a.entries).Nodup := by
  have hrest : b.data.drop d = c ++ [] := by rw [hd, List.append_nil]
  obtain ⟨sub, hsub⟩ := subfileBuffer_ends hrest
  have hsome := decompress_packed (by rw [subfileBuffer_ok hrest hsub]; exact hunpack)
  obtain ⟨archive, harchive⟩ := allocated_ends around (d := a.bytes) (by omega)
  have hlen := a.length_bytes
  have hcarries : Carries False archive a.entries (a.bytes.length + 511) :=
    ⟨a, allocated_ok harchive, rfl, by omega, by omega, fun h => h.elim⟩
  have hinject := injectFiles_succeeds around hmem hboot hroot hcarries (by omega)
  exact .after (Exec.ends_of.mpr hsub.symm) (.after (Exec.ends_of.mpr hsome.symm)
    (.after (Exec.ends_of.mpr harchive.symm) (hinject.map (·.data))))

variable (around) in
/-- Only the last subfile can be in the way. -/
theorem injectSubfiles_succeeds {plain : List Archive} {packed : Option (Bytes × Archive)}
    (hd : b.data.drop d = (parts plain (packed.map (·.1))).flatten)
    (hunpack : ∀ c a, packed = some (c, a) → unpack lzma zlib c = some a.bytes ∧
      a.bytes.length + boot.length + root.length + 1535 < 2 ^ 31) :
    Succeeds (injectSubfiles mem around lzma zlib boot root b
        (tiles d (parts plain (packed.map (·.1)))))
      (∀ c a, packed = some (c, a) → (pathsTo hypervKeyboard a.entries).Nodup) := by
  induction plain generalizing d with
  | nil =>
    cases packed with
    | none => exact .of_ok (Exec.ends_pure.mpr rfl) fun c a h => by cases h
    | some x =>
      obtain ⟨c, a⟩ := x
      have hc := hunpack c a rfl
      have hparts : parts [] ((some (c, a)).map (·.1)) = [c] := rfl
      rw [hparts] at hd ⊢
      rw [List.flatten_singleton] at hd
      have hone := injectSubfile_packed_succeeds around hmem hboot hroot hd hc.1 hc.2
      refine (hone.map fun data => [data]).congr ?_
      constructor
      · rintro h c' a' heq
        cases heq
        exact h
      · exact fun h => h c a rfl
  | cons a plain ih =>
    have hparts : parts (a :: plain) (packed.map (·.1)) =
        a.bytes :: parts plain (packed.map (·.1)) := rfl
    rw [hparts] at hd ⊢
    rw [List.flatten_cons] at hd
    have hrest := ih (drop_at hd)
    rw [Int.natCast_add] at hrest
    exact .after (injectSubfile_plain_ends hd) (hrest.map (a.bytes :: ·))

end Inject

/-! ## The initrd -/

variable {img : Image}

/-- There are keys and archives for them, and the keyboard driver can be removed. -/
structure Injectable (boot root : Bytes) (img : Image) : Prop where
  bootkey : boot ≠ []
  rootkey : root ≠ []
  archives : img.archives ≠ []
  few : img.archives.length ≤ 8
  paths : ∀ c a, img.packed = some (c, a) → (pathsTo hypervKeyboard a.entries).Nodup

theorem length_parts (img : Image) : (parts img.plain img.tail).length = img.archives.length := by
  unfold parts Image.tail Image.archives
  cases img.packed <;> simp

theorem size_eq_zero (hi : img.Encodes lzma zlib b) : b.size = 0 ↔ img.archives = [] := by
  constructor
  · intro h
    have hnil : b.data = [] := List.length_eq_zero_iff.mp (Int.ofNat_eq_zero.mp h)
    rw [hi.data, parts, List.flatten_append, List.append_eq_nil_iff] at hnil
    obtain ⟨hplain, htail⟩ := hnil
    unfold Image.archives
    rw [List.append_eq_nil_iff]
    constructor
    · cases hp : img.plain with
      | nil => rfl
      | cons a rest =>
        rw [hp, List.map_cons, List.flatten_cons, List.append_eq_nil_iff] at hplain
        have hlen := a.length_bytes
        have hall := a.total_all
        rw [hplain.1, List.length_nil] at hlen
        omega
    · cases hp : img.packed with
      | none => rfl
      | some x =>
        obtain ⟨c, a⟩ := x
        rw [Image.tail, hp] at htail
        simp only [Option.map_some, Option.toList_some, List.flatten_singleton] at htail
        exact absurd htail (other_of_unpack (hi.packed c a hp)).1
  · intro h
    have hlen := length_parts img
    rw [h, List.length_nil, List.length_eq_zero_iff] at hlen
    unfold Buffer.size
    rw [hi.data, hlen]
    rfl

theorem tiles_eq_nil {xs : List Bytes} {d : Int} : tiles d xs = [] ↔ xs = [] := by
  cases xs <;> simp [tiles]

/-- The subfiles can be joined again. -/
theorem joined_ends (hmem : ∀ k, mem k = true) (hi : img.Encodes lzma zlib b)
    (hsmall : b.data.length + img.packedSize + boot.length + root.length + 2048 < 2 ^ 31)
    {as : List Archive} (has : List.Forall₂ (Injected boot root) (img.packed.map (·.2)).toList as) :
    ∃ buf, appendAll mem ((img.plain ++ as).map Archive.bytes) Buf.empty = .ok buf := by
  have hdata := congrArg List.length hi.data
  rw [parts, List.flatten_append, List.length_append] at hdata
  have hlen := length_flatten_append img.plain as
  have hpacked : (as.map Archive.bytes).flatten.length ≤
      img.packedSize + boot.length + root.length + 1535 := by
    unfold Image.packedSize
    cases hp : img.packed with
    | none =>
      rw [hp] at has
      cases has
      exact Nat.zero_le _
    | some x =>
      obtain ⟨c, a⟩ := x
      rw [hp] at has
      obtain ⟨a', _, ⟨_, _, -, -, hle⟩, hnil, rfl⟩ := List.forall₂_cons_left_iff.mp has
      cases hnil
      simpa using hle
  refine appendAll_ends hmem (by decide) ?_
  simp only [Buf.empty, List.length_nil]
  omega

variable (around) in
theorem initrdInjectFiles_succeeds (hmem : ∀ k, mem k = true) (hi : img.Encodes lzma zlib b)
    (hsmall : b.data.length + img.packedSize + boot.length + root.length + 2048 < 2 ^ 31) :
    Succeeds (initrdInjectFiles mem around lzma zlib boot root b) (Injectable boot root img) := by
  unfold initrdInjectFiles
  by_cases hargs : b.size = 0 ∨ boot = [] ∨ root = []
  · rw [if_pos hargs]
    refine .of_err (Exec.ends_of.mpr rfl) fun h => ?_
    rcases hargs with hsize | hboot | hroot
    · exact h.archives ((size_eq_zero hi).mp hsize)
    · exact h.bootkey hboot
    · exact h.rootkey hroot
  · rw [if_neg hargs]
    obtain ⟨hsize, hboot, hroot⟩ := not_or.mp hargs |>.imp_right not_or.mp
    have hne : img.archives ≠ [] := mt (size_eq_zero hi).mpr hsize
    have hsplit := (hi.found (by omega)).split [] (Nat.zero_le _)
    rw [List.length_nil, Nat.zero_add, Int.natCast_zero, Int.sub_zero, List.nil_append,
      length_parts] at hsplit
    have hfile : (cpioSplitFile b).Ends (if img.archives.length ≤ 8 then
        .ok (tiles 0 (parts img.plain img.tail)) else .err ()) := by
      unfold cpioSplitFile
      rw [if_neg hsize]
      exact hsplit
    by_cases h8 : img.archives.length ≤ 8
    · rw [if_pos h8] at hfile
      have htiles : tiles 0 (parts img.plain img.tail) ≠ [] := by
        rw [Ne, tiles_eq_nil, ← List.length_eq_zero_iff, length_parts, List.length_eq_zero_iff]
        exact hne
      have hdrop : b.data.drop 0 = (parts img.plain (img.packed.map (·.1))).flatten := by
        rw [List.drop_zero]
        exact hi.data
      have hunpack : ∀ c a, img.packed = some (c, a) → unpack lzma zlib c = some a.bytes ∧
          a.bytes.length + boot.length + root.length + 1535 < 2 ^ 31 := by
        intro c a hp
        unfold Image.packedSize at hsmall
        rw [hp] at hsmall
        simp only at hsmall
        exact ⟨hi.packed c a hp, by omega⟩
      have hinject := injectSubfiles_succeeds around hmem hboot hroot hdrop hunpack
      refine .after hfile ?_
      rw [if_neg htiles]
      refine (hinject.bind (d := True) fun datas hdatas => ?_).congr ?_
      · obtain ⟨as, rfl, has⟩ := injectSubfiles_ok hdrop hunpack hdatas
        obtain ⟨buf, hbuf⟩ := joined_ends hmem hi hsmall has
        exact .of_ok ((Exec.ends_of.mpr hbuf.symm).bind (Exec.ends_pure.mpr rfl)) trivial
      · rw [and_iff_left trivial]
        exact ⟨fun h => ⟨hboot, hroot, hne, h8, h⟩, fun h => h.paths⟩
    · rw [if_neg h8] at hfile
      exact .of_err (hfile.bind_err _) fun h => h8 h.few

theorem driver_small : hypervKeyboard ≠ trailerName ∧ hypervKeyboard.bytes.length + 1 < 2 ^ 32 ∧
    ([] : Bytes).length < 2 ^ 32 := by decide

def driverFile : NewFile :=
  ⟨hypervKeyboard, fileMode, [], driver_small.1, driver_small.2.1, driver_small.2.2⟩

theorem driverTwice_named : ∀ e ∈ [made driverFile, made driverFile], e.name ≠ trailerName := by
  simp only [List.forall_mem_cons]
  exact ⟨driverFile.path_ne, driverFile.path_ne, fun e he => by cases he⟩

/-- An archive in which the keyboard driver is twice. -/
def driverTwice : Archive where
  entries := [made driverFile, made driverFile]
  trailer := emptyArchive.trailer
  rest := []
  named := driverTwice_named
  trailer_name := plainTrailer_name
  trailer_data := plainTrailer_data

theorem length_driverTwice : driverTwice.bytes.length = 388 := by
  rw [Archive.length_bytes, Archive.total_all]
  rfl

/-- The archive in a gzip file, as a stored block. -/
def driverGzipped : Bytes :=
  [31, 139, 8, 0, 0, 0, 0, 0, 0, 255, 1, 132, 1, 123, 254] ++ driverTwice.bytes ++
    [245, 109, 29, 177, 132, 1, 0, 0]

theorem length_driverGzipped : driverGzipped.length = 411 := by
  rw [driverGzipped, List.length_append, List.length_append, length_driverTwice]
  rfl

def driverBuffer : Buffer :=
  ⟨driverGzipped, fun _ => 0, by rw [length_driverGzipped]; decide⟩

def driverImage : Image := ⟨[], some (driverGzipped, driverTwice)⟩

/-- Decompression of that file. -/
def driverGunzip (c : Bytes) : Option Bytes :=
  if c = driverGzipped then some driverTwice.bytes else none

theorem driverImage_encodes :
    driverImage.Encodes (fun _ => none) driverGunzip driverBuffer where
  data := (List.append_nil _).symm
  padded := fun a ha => by cases ha
  packed := by
    rintro c a h
    cases h
    have hlzma : lzmaextrasTest driverGzipped = false := by decide
    have hzlib : zlibextrasTest driverGzipped = true := by decide
    rw [unpack, hlzma, if_neg Bool.false_ne_true, hzlib, if_pos rfl, driverGunzip, if_pos rfl]

end LsvmTools.InitrdOutcome
