import LsvmTools.CpioConcat
import LsvmTools.InitrdArchive

/-! # Where the keys are delivered

`InitrdInjectFiles` leaves the archives of an initrd that are not compressed as they are.
The keys are in its output exactly where the last subfile is compressed and its archive
has nothing in the way of them, or where they were in one of the other archives before. -/
namespace LsvmTools.InitrdKeys
open Lib.ByteString Lib.Program Lib.Loop Strings Cpio CpioFormat CpioAdd CpioRemove CpioSafe
open CpioSplit CpioConcat Initrd InitrdArchive

variable {mem : Nat → Bool} {around : Bytes → Int → UInt8} {lzma zlib : Bytes → Option Bytes}
  {b b' : Buffer} {p q : CStr} {es : List Entry} {f : NewFile} {boot root : Bytes}

/-! ## Keys in an archive -/

/-- Whether the type in the mode (`CPIO_MODE_IFMT`) is that of a directory. -/
def isDirectory (e : Entry) : Bool :=
  (u32 (toUintn (getFileMode e.header)).toNat) &&& 0xF000 = 0x4000

def DirAt (p : CStr) (es : List Entry) : Prop :=
  named p es ≠ [] ∧ ∀ e ∈ named p es, isDirectory e = true

/-- The keys are in the archive, in their directory, and what is to be removed is not. -/
structure HasKeys (boot root : Bytes) (es : List Entry) : Prop where
  etc : DirAt etc es
  lsvmload : DirAt lsvmload es
  bootkey : (named bootkey es).map (·.data) = [boot]
  rootkey : (named rootkey es).map (·.data) = [root]
  specialize : named specialize es = []
  keyboard : ∀ e ∈ es, isKeyboard e = false

/-- Nothing in the archive is in the way of the keys: what has the name of a directory is
one, and the first entry with the name of a file to remove has the bit that
`CPIOIsFile` tests. -/
structure Replaceable (es : List Entry) : Prop where
  etc : ∀ e ∈ named etc es, isDirectory e = true
  lsvmload : ∀ e ∈ named lsvmload es, isDirectory e = true
  bootkey : named bootkey es = [] ∨ bitAt 15 bootkey es = true
  rootkey : named rootkey es = [] ∨ bitAt 15 rootkey es = true
  specialize : named specialize es = [] ∨ bitAt 15 specialize es = true

theorem named_append (p : CStr) (es fs : List Entry) :
    named p (es ++ fs) = named p es ++ named p fs := List.filter_append ..

theorem named_made (f : NewFile) : named f.path [made f] = [made f] := by
  have hname : (made f).name = f.path := rfl
  simp [named, hname]

theorem named_made_ne (h : f.path ≠ p) : named p [made f] = [] := by
  have hname : (made f).name = f.path := rfl
  simp [named, hname, h]

theorem named_keep (hpq : p ≠ q) (es : List Entry) : named p (keep q es) = named p es := by
  unfold named keep
  rw [List.filter_filter]
  refine List.filter_congr fun e _ => ?_
  by_cases he : e.name = p
  · simp [he, hpq]
  · simp [he]

theorem named_keep_self (p : CStr) (es : List Entry) : named p (keep p es) = [] := by
  unfold named keep
  rw [List.filter_filter, List.filter_eq_nil_iff]
  simp

theorem bitAt_congr {es fs : List Entry} {bit : Nat} (h : named p es = named p fs) :
    bitAt bit p es = bitAt bit p fs := by
  unfold bitAt
  rw [h]

theorem named_withDir (hp : f.path ≠ p) (es : List Entry) :
    named p (withDir f es) = named p es := by
  unfold withDir
  split
  · rfl
  · rw [named_append, named_made_ne hp, List.append_nil]

theorem named_dropFile (hpq : p ≠ q) (es : List Entry) : named p (dropFile q es) = named p es := by
  unfold dropFile
  split
  · exact named_keep hpq es
  · rfl

theorem named_dropFile_self (p : CStr) (es : List Entry) :
    named p (dropFile p es) = [] ↔ named p es = [] ∨ bitAt 15 p es = true := by
  unfold dropFile
  split
  · rename_i hbit
    simp [named_keep_self, hbit]
  · rename_i hbit
    simp [hbit]

theorem named_keyboard (hp : afterLastSlash p.bytes ≠ hypervKeyboard.bytes) (es : List Entry) :
    named p (es.filter fun e => !isKeyboard e) = named p es := by
  unfold named
  rw [List.filter_filter]
  refine List.filter_congr fun e _ => ?_
  by_cases he : e.name = p
  · simp [he, isKeyboard, hp]
  · simp [he]

/-- A directory has the bit that `CPIOIsDir` tests. -/
theorem bit_of_isDirectory {e : Entry} (h : isDirectory e = true) :
    (u32 (toUintn (getFileMode e.header)).toNat).testBit 14 = true := by
  have hbits := congrArg (Nat.testBit · 14) (of_decide_eq_true h)
  have hmask : Nat.testBit 0xF000 14 = true := by decide
  have hdir : Nat.testBit 0x4000 14 = true := by decide
  simpa [Nat.testBit_and, hmask, hdir] using hbits

theorem dirAt_withDir (hf : isDirectory (made f) = true) (es : List Entry) :
    DirAt f.path (withDir f es) ↔ ∀ e ∈ named f.path es, isDirectory e = true := by
  unfold DirAt withDir
  split
  · rename_i hbit
    refine ⟨And.right, fun h => ⟨fun hnil => ?_, h⟩⟩
    simp [bitAt, hnil] at hbit
  · rw [named_append, named_made]
    simp [or_imp, forall_and, hf]

section Inject

variable (hboot : boot.length < 2 ^ 32) (hroot : root.length < 2 ^ 32)

theorem named_boot (h : bootkey ≠ p) : named p [made (bootkeyFile boot hboot)] = [] :=
  named_made_ne (f := bootkeyFile boot hboot) h

theorem named_root (h : rootkey ≠ p) : named p [made (rootkeyFile root hroot)] = [] :=
  named_made_ne (f := rootkeyFile root hroot) h

/-- The directories that are there or are made. -/
theorem named_inject (es : List Entry) (hb : bootkey ≠ p) (hr : rootkey ≠ p) (hs : specialize ≠ p)
    (hk : afterLastSlash p.bytes ≠ hypervKeyboard.bytes) :
    named p (inject (bootkeyFile boot hboot) (rootkeyFile root hroot) es) =
      named p (withDir lsvmloadDir (withDir etcDir es)) := by
  simp only [inject, named_keyboard hk, named_dropFile (Ne.symm hs), named_append,
    named_boot hboot hb, named_root hroot hr, List.append_nil, named_dropFile (Ne.symm hb),
    named_dropFile (Ne.symm hr)]

theorem named_dirs (he : etc ≠ p) (hl : lsvmload ≠ p) :
    named p (withDir lsvmloadDir (withDir etcDir es)) = named p es := by
  rw [named_withDir (f := lsvmloadDir) hl, named_withDir (f := etcDir) he]

theorem etc_inject : DirAt etc (inject (bootkeyFile boot hboot) (rootkeyFile root hroot) es) ↔
    ∀ e ∈ named etc es, isDirectory e = true := by
  have hnamed := named_inject (p := etc) hboot hroot es (by decide) (by decide) (by decide)
    (by decide)
  rw [named_withDir (f := lsvmloadDir) (by decide)] at hnamed
  rw [DirAt, hnamed]
  exact dirAt_withDir (f := etcDir) (by decide +kernel) es

theorem lsvmload_inject :
    DirAt lsvmload (inject (bootkeyFile boot hboot) (rootkeyFile root hroot) es) ↔
      ∀ e ∈ named lsvmload es, isDirectory e = true := by
  have hnamed := named_inject (p := lsvmload) hboot hroot es (by decide) (by decide)
    (by decide) (by decide)
  have hdirs := dirAt_withDir (f := lsvmloadDir) (by decide +kernel) (withDir etcDir es)
  have hetc : named lsvmload (withDir etcDir es) = named lsvmload es :=
    named_withDir (f := etcDir) (by decide) es
  rw [show lsvmloadDir.path = lsvmload from rfl, hetc] at hdirs
  rw [DirAt, hnamed]
  exact hdirs

theorem bootkey_inject (es : List Entry) :
    named bootkey (inject (bootkeyFile boot hboot) (rootkeyFile root hroot) es) =
      named bootkey (dropFile bootkey (withDir lsvmloadDir (withDir etcDir es))) ++
        [made (bootkeyFile boot hboot)] := by
  have hk : afterLastSlash bootkey.bytes ≠ hypervKeyboard.bytes := by decide
  have hr : rootkey ≠ bootkey := by decide
  have hs : specialize ≠ bootkey := by decide
  have hmade : named bootkey [made (bootkeyFile boot hboot)] = [made (bootkeyFile boot hboot)] :=
    named_made (bootkeyFile boot hboot)
  simp only [inject, named_keyboard hk, named_dropFile (Ne.symm hs), named_append, hmade,
    named_root hroot hr, List.append_nil, named_dropFile (Ne.symm hr)]

theorem rootkey_inject (es : List Entry) :
    named rootkey (inject (bootkeyFile boot hboot) (rootkeyFile root hroot) es) =
      named rootkey (dropFile rootkey (dropFile bootkey (withDir lsvmloadDir (withDir etcDir es)) ++
        [made (bootkeyFile boot hboot)])) ++ [made (rootkeyFile root hroot)] := by
  have hk : afterLastSlash rootkey.bytes ≠ hypervKeyboard.bytes := by decide
  have hs : specialize ≠ rootkey := by decide
  have hmade : named rootkey [made (rootkeyFile root hroot)] = [made (rootkeyFile root hroot)] :=
    named_made (rootkeyFile root hroot)
  simp only [inject, named_keyboard hk, named_dropFile (Ne.symm hs), named_append, hmade]

theorem specialize_inject (es : List Entry) :
    named specialize (inject (bootkeyFile boot hboot) (rootkeyFile root hroot) es) =
      named specialize (dropFile specialize (dropFile rootkey (dropFile bootkey
        (withDir lsvmloadDir (withDir etcDir es)) ++ [made (bootkeyFile boot hboot)]) ++
          [made (rootkeyFile root hroot)])) := by
  have hk : afterLastSlash specialize.bytes ≠ hypervKeyboard.bytes := by decide
  rw [inject, named_keyboard hk]

/-- A file stands once where the old ones have been removed. -/
theorem once_iff (es : List Entry) (f : NewFile) (p : CStr) (d : Bytes) (hd : f.data = d) :
    (named p (dropFile p es) ++ [made f]).map (·.data) = [d] ↔
      named p es = [] ∨ bitAt 15 p es = true := by
  have hdata : (made f).data = d := hd
  rw [← named_dropFile_self, List.map_append, List.map_singleton, hdata]
  constructor
  · intro h
    have hlen := congrArg List.length h
    simp only [List.length_append, List.length_singleton, List.length_map] at hlen
    exact List.length_eq_zero_iff.mp (by omega)
  · intro h
    rw [h]
    rfl

/-- The keys are in the archive that `_InjectFiles` makes exactly where nothing was in
the way. -/
theorem hasKeys_inject :
    HasKeys boot root (inject (bootkeyFile boot hboot) (rootkeyFile root hroot) es) ↔
      Replaceable es := by
  have hboot' : named bootkey (withDir lsvmloadDir (withDir etcDir es)) = named bootkey es :=
    named_dirs (by decide) (by decide)
  have hroot' : named rootkey (dropFile bootkey (withDir lsvmloadDir (withDir etcDir es)) ++
      [made (bootkeyFile boot hboot)]) = named rootkey es := by
    rw [named_append, named_dropFile (by decide), named_dirs (by decide) (by decide),
      named_boot hboot (by decide), List.append_nil]
  have hspecialize' : named specialize (dropFile rootkey (dropFile bootkey
      (withDir lsvmloadDir (withDir etcDir es)) ++ [made (bootkeyFile boot hboot)]) ++
        [made (rootkeyFile root hroot)]) = named specialize es := by
    rw [named_append, named_dropFile (by decide), named_append, named_dropFile (by decide),
      named_dirs (by decide) (by decide), named_boot hboot (by decide),
      named_root hroot (by decide), List.append_nil, List.append_nil]
  have h1 := bootkey_inject hboot hroot es
  have h2 := rootkey_inject hboot hroot es
  have h3 := specialize_inject hboot hroot es
  have hkeyboard : ∀ e ∈ inject (bootkeyFile boot hboot) (rootkeyFile root hroot) es,
      isKeyboard e = false := fun e he => by simpa using (List.mem_filter.mp he).2
  have o1 := once_iff (withDir lsvmloadDir (withDir etcDir es)) (bootkeyFile boot hboot) bootkey
    boot rfl
  have o2 := once_iff (dropFile bootkey (withDir lsvmloadDir (withDir etcDir es)) ++
    [made (bootkeyFile boot hboot)]) (rootkeyFile root hroot) rootkey root rfl
  have o3 := named_dropFile_self specialize (dropFile rootkey (dropFile bootkey
    (withDir lsvmloadDir (withDir etcDir es)) ++ [made (bootkeyFile boot hboot)]) ++
      [made (rootkeyFile root hroot)])
  rw [← h1, hboot', bitAt_congr hboot'] at o1
  rw [← h2, hroot', bitAt_congr hroot'] at o2
  rw [← h3, hspecialize', bitAt_congr hspecialize'] at o3
  constructor
  · rintro ⟨hetc, hlsvmload, hb, hr, hs, -⟩
    exact ⟨(etc_inject hboot hroot).mp hetc, (lsvmload_inject hboot hroot).mp hlsvmload,
      o1.mp hb, o2.mp hr, o3.mp hs⟩
  · rintro ⟨hetc, hlsvmload, hb, hr, hs⟩
    exact ⟨(etc_inject hboot hroot).mpr hetc, (lsvmload_inject hboot hroot).mpr hlsvmload,
      o1.mpr hb, o2.mpr hr, o3.mpr hs, hkeyboard⟩

end Inject

/-! ## The other entries -/

/-- The entries that `_InjectFiles` leaves alone. -/
def isOther (e : Entry) : Bool :=
  e.name ∉ [etc, lsvmload, bootkey, rootkey, specialize] && !isKeyboard e

def others (es : List Entry) : List Entry := es.filter isOther

theorem others_append (es fs : List Entry) : others (es ++ fs) = others es ++ others fs :=
  List.filter_append ..

theorem others_made (h : f.path ∈ [etc, lsvmload, bootkey, rootkey, specialize]) :
    others [made f] = [] := by
  have hname : (made f).name = f.path := rfl
  have hother : isOther (made f) = false := by
    rw [isOther, hname, decide_eq_false fun hn => hn h]
    rfl
  simp [others, hother]

theorem others_keep (h : p ∈ [etc, lsvmload, bootkey, rootkey, specialize]) (es : List Entry) :
    others (keep p es) = others es := by
  unfold others keep
  rw [List.filter_filter]
  refine List.filter_congr fun e _ => ?_
  by_cases he : e.name = p
  · have hother : isOther e = false := by
      rw [isOther, he, decide_eq_false fun hn => hn h]
      rfl
    simp [hother]
  · simp [he]

theorem others_withDir (h : f.path ∈ [etc, lsvmload, bootkey, rootkey, specialize])
    (es : List Entry) : others (withDir f es) = others es := by
  unfold withDir
  split
  · rfl
  · rw [others_append, others_made h, List.append_nil]

theorem others_dropFile (h : p ∈ [etc, lsvmload, bootkey, rootkey, specialize]) (es : List Entry) :
    others (dropFile p es) = others es := by
  unfold dropFile
  split
  · exact others_keep h es
  · rfl

theorem others_keyboard (es : List Entry) :
    others (es.filter fun e => !isKeyboard e) = others es := by
  unfold others
  rw [List.filter_filter]
  refine List.filter_congr fun e _ => ?_
  cases hk : isKeyboard e <;> simp [isOther, hk]

/-- All other entries stay as they are. -/
theorem others_inject (hboot : boot.length < 2 ^ 32) (hroot : root.length < 2 ^ 32) :
    others (inject (bootkeyFile boot hboot) (rootkeyFile root hroot) es) = others es := by
  have hb : others [made (bootkeyFile boot hboot)] = [] :=
    others_made (f := bootkeyFile boot hboot) (show bootkey ∈ _ by decide)
  have hr : others [made (rootkeyFile root hroot)] = [] :=
    others_made (f := rootkeyFile root hroot) (show rootkey ∈ _ by decide)
  simp only [inject]
  rw [others_keyboard, others_dropFile (by decide), others_append, hr, List.append_nil,
    others_dropFile (by decide), others_append, hb, List.append_nil, others_dropFile (by decide),
    others_withDir (by decide), others_withDir (by decide)]

/-! ## Initrds -/

/-- What an initrd is made of: archives, and at the end a compressed one or none. -/
structure Image where
  plain : List Archive
  packed : Option (Bytes × Archive)

/-- What compressed data decompresses to. -/
def unpack (lzma zlib : Bytes → Option Bytes) (c : Bytes) : Option Bytes :=
  if lzmaextrasTest c then lzma c else if zlibextrasTest c then zlib c else none

namespace Image

def tail (img : Image) : Option Bytes := img.packed.map (·.1)

def archives (img : Image) : List Archive := img.plain ++ (img.packed.map (·.2)).toList

/-- The buffer holds the initrd; the archives in it are padded to whole blocks. -/
structure Encodes (lzma zlib : Bytes → Option Bytes) (b : Buffer) (img : Image) : Prop where
  data : b.data = (parts img.plain img.tail).flatten
  padded : ∀ a ∈ img.plain, Padded a
  packed : ∀ c a, img.packed = some (c, a) → unpack lzma zlib c = some a.bytes

/-- How long the compressed archive is. -/
def packedSize (img : Image) : Nat := match img.packed with
  | some (_, a) => a.bytes.length
  | none => 0

end Image

/-- The output is split into the archives. -/
def SplitsInto (out : Bytes) (as : List Archive) : Prop :=
  ∀ b : Buffer, b.data = out →
    ∃ subs, (cpioSplitFile b).Ends (.ok subs) ∧ subs.map (slice b) = as.map Archive.bytes

/-- The output is split into archives of which one has the keys, and which have all other
entries of the archives of the initrd. -/
def Delivered (boot root : Bytes) (img : Image) (out : Bytes) : Prop :=
  ∃ as : List Archive, SplitsInto out as ∧
    as.map (fun a => others a.entries) = img.archives.map (fun a => others a.entries) ∧
    ∃ a ∈ as, HasKeys boot root a.entries

/-- The last subfile is compressed and nothing in its archive is in the way of the keys,
or they are in another archive. -/
def Suits (boot root : Bytes) (img : Image) : Prop :=
  (∃ c a, img.packed = some (c, a) ∧ Replaceable a.entries) ∨
    ∃ a ∈ img.plain, HasKeys boot root a.entries

/-! ## Subfiles -/

theorem archive_magic (a : Archive) : ∃ rest, a.bytes = [48, 55, 48, 55, 48, 49] ++ rest := by
  have hentry : ∀ e : Entry, ∃ rest, e.bytes = [48, 55, 48, 55, 48, 49] ++ rest := by
    intro e
    have hmagic : e.header.magic = [48, 55, 48, 55, 48, 49] := by
      simpa [cpioMatchMagicNumber] using e.magic
    simp only [Entry.bytes, CPIOHeader.bytes, hmagic, List.append_assoc]
    exact ⟨_, rfl⟩
  unfold Archive.bytes Archive.all
  cases a.entries with
  | nil =>
    obtain ⟨rest, hrest⟩ := hentry a.trailer
    refine ⟨rest ++ a.rest, ?_⟩
    simp [hrest]
  | cons e es =>
    obtain ⟨rest, hrest⟩ := hentry e
    refine ⟨rest ++ ((es ++ [a.trailer]).flatMap Entry.bytes ++ a.rest), ?_⟩
    simp [hrest]

/-- An archive is not taken for compressed data. -/
theorem decompress_plain {a : Archive} (hb : b.data = a.bytes) :
    decompress lzma zlib b = .ok none := by
  obtain ⟨rest, hrest⟩ := archive_magic a
  have hlen := a.length_bytes
  have hall := a.total_all
  rw [← hb] at hlen hrest
  have hmagic : (b.header 0).magic = [48, 55, 48, 55, 48, 49] := by
    have h6 := bytes_zero b (show 6 ≤ b.data.length by omega)
    rw [hrest] at h6
    exact h6
  have htest : cpioTest b = true := by
    simp only [cpioTest, hmagic, Bool.and_eq_true, decide_eq_true_eq]
    exact ⟨by omega, by decide⟩
  unfold decompress
  simp [lzmaextrasTest, zlibextrasTest, startsWith, hrest, htest]

theorem decompress_packed {d : Bytes} (h : unpack lzma zlib b.data = some d) :
    decompress lzma zlib b = .ok (some d) := by
  unfold unpack at h
  unfold decompress
  split at h
  · rename_i h1
    rw [if_pos h1, h]
    rfl
  · split at h
    · rename_i h1 h2
      rw [if_neg h1, if_pos h2, h]
      rfl
    · cases h

theorem other_of_startsWith {magic c : Bytes} (h : startsWith magic c = true)
    (hlen : magic.length ≤ 6) (hne : magic ≠ [])
    (hcpio : magic ≠ ([48, 55, 48, 55, 48, 49] : Bytes).take magic.length) : Other c := by
  have htake : (c.take 6).take magic.length = magic := by
    rw [List.take_take, Nat.min_eq_left hlen]
    exact of_decide_eq_true h
  constructor
  · rintro rfl
    exact hne (by rw [← htake, List.take_nil, List.take_nil])
  · rw [cpioMatchMagicNumber, decide_eq_false]
    intro h6
    exact hcpio (by rw [← h6, htake])

/-- Compressed data is not taken for an archive. -/
theorem other_of_unpack {c d : Bytes} (h : unpack lzma zlib c = some d) : Other c := by
  unfold unpack at h
  split at h
  · rename_i h1
    exact other_of_startsWith h1 (by decide) (by decide) (by decide)
  · split at h
    · rename_i h2
      exact other_of_startsWith h2 (by decide) (by decide) (by decide)
    · cases h

theorem subfileBuffer_ok {d : Nat} {x rest : Bytes} (hd : b.data.drop d = x ++ rest)
    (h : subfileBuffer b ⟨d, x.length⟩ = .ok b') : b'.data = x := by
  unfold subfileBuffer at h
  simp only [Int.toNat_natCast, bytes_at hd] at h
  split at h
  · cases h; rfl
  · cases h

/-- An archive that is not compressed stays as it is. -/
theorem injectSubfile_plain {a : Archive} {d : Nat} {x rest : Bytes}
    (hd : b.data.drop d = a.bytes ++ rest)
    (hr : (injectSubfile mem around lzma zlib boot root b ⟨d, a.bytes.length⟩).Ends (.ok x)) :
    x = a.bytes := by
  obtain ⟨sub, hsub, hr⟩ := Exec.ends_bind_ok.mp hr
  obtain ⟨o, ho, hr⟩ := Exec.ends_bind_ok.mp hr
  have hdata := subfileBuffer_ok hd (Exec.ends_of.mp hsub).symm
  have hnone := Exec.ends_of.mp ho
  rw [decompress_plain hdata] at hnone
  cases hnone
  cases Exec.ends_pure.mp hr
  exact hdata

/-- What becomes of the compressed archive. -/
def Injected (boot root : Bytes) (a a' : Archive) : Prop :=
  ∃ (hboot : boot.length < 2 ^ 32) (hroot : root.length < 2 ^ 32),
    a'.entries = inject (bootkeyFile boot hboot) (rootkeyFile root hroot) a.entries ∧
      Padded a' ∧ a'.bytes.length ≤ a.bytes.length + boot.length + root.length + 1535

theorem injectSubfile_packed {a : Archive} {d : Nat} {c x : Bytes} (hd : b.data.drop d = c)
    (hunpack : unpack lzma zlib c = some a.bytes)
    (hsmall : a.bytes.length + boot.length + root.length + 1535 < 2 ^ 31)
    (hr : (injectSubfile mem around lzma zlib boot root b ⟨d, c.length⟩).Ends (.ok x)) :
    ∃ a' : Archive, x = a'.bytes ∧ Injected boot root a a' := by
  obtain ⟨sub, hsub, hr⟩ := Exec.ends_bind_ok.mp hr
  obtain ⟨o, ho, hr⟩ := Exec.ends_bind_ok.mp hr
  have hdata := subfileBuffer_ok (by rw [hd, List.append_nil]) (Exec.ends_of.mp hsub).symm
  have hsome := Exec.ends_of.mp ho
  rw [decompress_packed (by rw [hdata]; exact hunpack)] at hsome
  cases hsome
  obtain ⟨archive, harchive, hr⟩ := Exec.ends_bind_ok.mp hr
  obtain ⟨b', hb', hr⟩ := Exec.ends_bind_ok.mp hr
  cases Exec.ends_pure.mp hr
  have hlen := a.length_bytes
  have hcarries : Carries False archive a.entries (a.bytes.length + 511) :=
    ⟨a, allocated_ok (Exec.ends_of.mp harchive).symm, rfl, by omega, by omega, fun h => h.elim⟩
  obtain ⟨a', hbytes, hentries, -, hlen', hpad⟩ := injectFiles_ok (by omega) (by omega) hcarries
    (by omega) hb'
  exact ⟨a', hbytes, by omega, by omega, hentries, hpad trivial, by omega⟩

/-- What becomes of the subfiles. -/
theorem injectSubfiles_ok {plain : List Archive} {packed : Option (Bytes × Archive)} {d : Nat}
    {xs : List Bytes} (hd : b.data.drop d = (parts plain (packed.map (·.1))).flatten)
    (hunpack : ∀ c a, packed = some (c, a) → unpack lzma zlib c = some a.bytes ∧
      a.bytes.length + boot.length + root.length + 1535 < 2 ^ 31)
    (hr : (injectSubfiles mem around lzma zlib boot root b
      (tiles d (parts plain (packed.map (·.1))))).Ends (.ok xs)) :
    ∃ as : List Archive, xs = (plain ++ as).map Archive.bytes ∧
      List.Forall₂ (Injected boot root) (packed.map (·.2)).toList as := by
  induction plain generalizing d xs with
  | nil =>
    cases packed with
    | none =>
      cases Exec.ends_pure.mp hr
      exact ⟨[], rfl, .nil⟩
    | some x =>
      obtain ⟨c, a⟩ := x
      have hc := hunpack c a rfl
      have hparts : parts [] ((some (c, a)).map (·.1)) = [c] := rfl
      rw [hparts] at hd hr
      rw [List.flatten_singleton] at hd
      obtain ⟨y, hy, hr⟩ := Exec.ends_bind_ok.mp hr
      obtain ⟨ys, hys, hr⟩ := Exec.ends_bind_ok.mp hr
      cases Exec.ends_pure.mp hys
      cases Exec.ends_pure.mp hr
      obtain ⟨a', rfl, ha'⟩ := injectSubfile_packed hd hc.1 hc.2 hy
      exact ⟨[a'], rfl, .cons ha' .nil⟩
  | cons a plain ih =>
    have hparts : parts (a :: plain) (packed.map (·.1)) =
        a.bytes :: parts plain (packed.map (·.1)) := rfl
    rw [hparts] at hd hr
    rw [List.flatten_cons] at hd
    obtain ⟨y, hy, hr⟩ := Exec.ends_bind_ok.mp hr
    obtain ⟨ys, hys, hr⟩ := Exec.ends_bind_ok.mp hr
    cases Exec.ends_pure.mp hr
    rw [← Int.natCast_add] at hys
    obtain ⟨as, rfl, has⟩ := ih (drop_at hd) hys
    exact ⟨as, by rw [injectSubfile_plain hd hy]; rfl, has⟩

theorem bufAppend_ok {buf buf' : Buf} {d : Bytes} (h : bufAppend mem buf d = .ok buf') :
    buf'.bytes = buf.bytes ++ d := by
  have happend : (buf.append d).bytes = buf.bytes ++ d := by
    unfold Buf.append
    split
    · rename_i h0
      rw [List.isEmpty_iff.mp h0, List.append_nil]
    · rfl
  unfold bufAppend at h
  simp only at h
  split at h
  · cases h; exact happend
  · split at h
    · cases h
    · split at h
      · cases h
      · cases h; exact happend

theorem appendAll_ok {xs : List Bytes} {buf buf' : Buf} (h : appendAll mem xs buf = .ok buf') :
    buf'.bytes = buf.bytes ++ xs.flatten := by
  induction xs generalizing buf with
  | nil => cases h; simp
  | cons x xs ih =>
    obtain ⟨buf1, h1, h⟩ := Out.bind_eq_ok.mp h
    rw [ih h, bufAppend_ok h1, List.flatten_cons, List.append_assoc]

/-! ## The output -/

variable {img : Image} {out : Bytes}

/-- Archives that are padded are split into just themselves. -/
theorem splitsInto_archives {as : List Archive} (hpad : ∀ a ∈ as, Padded a)
    (hsmall : (as.map Archive.bytes).flatten.length < 2 ^ 31) (h8 : as.length ≤ 8)
    (hne : as ≠ []) : SplitsInto (as.map Archive.bytes).flatten as := by
  intro b hb
  have hparts : parts as none = as.map Archive.bytes := List.append_nil _
  have hfound := found_parts (b := b) (d := 0)
    (by rw [hb]; exact hsmall) (Nat.zero_le _) (by rw [List.drop_zero, hparts, hb]) hpad
    (fun c hc => by cases hc)
  rw [hparts] at hfound
  have hsplit := hfound.split [] (Nat.zero_le _)
  rw [List.length_nil, Nat.zero_add, List.length_map, if_pos h8, Int.natCast_zero, Int.sub_zero,
    List.nil_append] at hsplit
  refine ⟨_, ?_, slice_tiles (d := 0) (by rw [List.drop_zero, hb])⟩
  have hsize : b.size ≠ 0 := by
    obtain ⟨a, rest, rfl⟩ := List.exists_cons_of_ne_nil hne
    have hlen := a.length_bytes
    have hall := a.total_all
    unfold Buffer.size
    rw [hb, List.map_cons, List.flatten_cons, List.length_append]
    omega
  unfold cpioSplitFile
  rw [if_neg hsize]
  exact hsplit

theorem Image.Encodes.found (hi : img.Encodes lzma zlib b) (hsmall : b.data.length < 2 ^ 31) :
    Found b 0 (parts img.plain img.tail) := by
  refine found_parts hsmall (Nat.zero_le _) (by rw [List.drop_zero, hi.data]) hi.padded ?_
  intro c hc
  unfold Image.tail at hc
  cases hp : img.packed with
  | none => rw [hp] at hc; cases hc
  | some x =>
    obtain ⟨c', a⟩ := x
    rw [hp] at hc
    cases hc
    exact other_of_unpack (hi.packed _ _ hp)

/-- What a successful run of `InitrdInjectFiles` delivers. -/
theorem initrdInjectFiles_ok (hi : img.Encodes lzma zlib b)
    (hsmall : b.data.length + img.packedSize + boot.length + root.length + 2048 < 2 ^ 31)
    (hr : (initrdInjectFiles mem around lzma zlib boot root b).Ends (.ok out)) :
    ∃ as : List Archive, out = ((img.plain ++ as).map Archive.bytes).flatten ∧
      List.Forall₂ (Injected boot root) (img.packed.map (·.2)).toList as ∧
      img.plain ++ as ≠ [] ∧ (img.plain ++ as).length ≤ 8 := by
  unfold initrdInjectFiles at hr
  split at hr
  · cases Exec.ends_of.mp hr
  · rename_i hargs
    obtain ⟨subs, hsubs, hr⟩ := Exec.ends_bind_ok.mp hr
    have hsplit := (hi.found (by omega)).split [] (Nat.zero_le _)
    rw [List.length_nil, Nat.zero_add, Int.natCast_zero, Int.sub_zero, List.nil_append] at hsplit
    have huniq := hsplit.unique (cpioSplitFile_ok hsubs)
    split at huniq
    · rename_i h8
      cases huniq
      split at hr
      · cases Exec.ends_of.mp hr
      · rename_i hsome
        obtain ⟨xs, hxs, hr⟩ := Exec.ends_bind_ok.mp hr
        obtain ⟨buf, hbuf, hr⟩ := Exec.ends_bind_ok.mp hr
        cases Exec.ends_pure.mp hr
        obtain ⟨as, rfl, has⟩ := injectSubfiles_ok (d := 0)
          (by rw [List.drop_zero]; exact hi.data) (fun c a hp => ⟨hi.packed c a hp, by
            unfold Image.packedSize at hsmall
            rw [hp] at hsmall
            simp only at hsmall
            omega⟩) hxs
        have hlen := has.length_eq
        have hcount : (img.plain ++ as).length = (parts img.plain img.tail).length := by
          unfold parts Image.tail
          cases hp : img.packed <;> simp [hp, ← hlen]
        refine ⟨as, by rw [appendAll_ok (Exec.ends_of.mp hbuf).symm]; rfl, has, ?_,
          by rw [hcount]; exact h8⟩
        intro hnil
        rw [hnil, List.length_nil] at hcount
        exact hsome (by rw [List.length_eq_zero_iff.mp hcount.symm]; rfl)
    · cases huniq

theorem length_flatten_append (as bs : List Archive) :
    ((as ++ bs).map Archive.bytes).flatten.length =
      (as.map Archive.bytes).flatten.length + (bs.map Archive.bytes).flatten.length := by
  rw [List.map_append, List.flatten_append, List.length_append]

/-- Where the output is split into archives, these have the entries of the ones that it
was made of. -/
theorem splitsInto_unique {as bs : List Archive} (hlt : out.length < 2 ^ 63)
    (ha : SplitsInto out as) (hb : SplitsInto out bs) :
    as.map (·.entries) = bs.map (·.entries) := by
  obtain ⟨subs, hsubs, hslices⟩ := ha ⟨out, fun _ => 0, hlt⟩ rfl
  obtain ⟨subs', hsubs', hslices'⟩ := hb ⟨out, fun _ => 0, hlt⟩ rfl
  cases hsubs.unique hsubs'
  rw [hslices] at hslices'
  clear ha hb hslices hsubs hsubs'
  induction as generalizing bs with
  | nil =>
    cases bs with
    | nil => rfl
    | cons => cases hslices'
  | cons a as ih =>
    cases bs with
    | nil => cases hslices'
    | cons a' bs =>
      rw [List.map_cons, List.map_cons, List.cons.injEq] at hslices'
      rw [List.map_cons, List.map_cons, Archive.entries_unique hslices'.1, ih hslices'.2]

/-- What a successful run does to the archives of an initrd. -/
theorem outcome (hi : img.Encodes lzma zlib b)
    (hsmall : b.data.length + img.packedSize + boot.length + root.length + 2048 < 2 ^ 31)
    (hr : (initrdInjectFiles mem around lzma zlib boot root b).Ends (.ok out)) :
    ∃ as : List Archive, out.length < 2 ^ 63 ∧ SplitsInto out (img.plain ++ as) ∧
      List.Forall₂ (Injected boot root) (img.packed.map (·.2)).toList as := by
  obtain ⟨as, rfl, has, hne, h8⟩ := initrdInjectFiles_ok hi hsmall hr
  have hdata := congrArg List.length hi.data
  rw [parts, List.flatten_append, List.length_append] at hdata
  have hlen := length_flatten_append img.plain as
  have hpad : (as.map Archive.bytes).flatten.length ≤
      img.packedSize + boot.length + root.length + 1535 ∧ ∀ a ∈ as, Padded a := by
    unfold Image.packedSize
    cases hp : img.packed with
    | none =>
      rw [hp] at has
      cases has
      exact ⟨Nat.zero_le _, fun a ha => by cases ha⟩
    | some x =>
      obtain ⟨c, a⟩ := x
      rw [hp] at has
      obtain ⟨a', _, ⟨_, _, -, hpad, hle⟩, hnil, rfl⟩ := List.forall₂_cons_left_iff.mp has
      cases hnil
      refine ⟨by simpa using hle, fun a ha => ?_⟩
      rwa [List.mem_singleton.mp ha]
  refine ⟨as, by omega, splitsInto_archives ?_ (by omega) h8 hne, has⟩
  intro a ha
  rcases List.mem_append.mp ha with ha | ha
  · exact hi.padded a ha
  · exact hpad.2 a ha

theorem others_injected {as bs : List Archive} (h : List.Forall₂ (Injected boot root) as bs) :
    bs.map (fun a => others a.entries) = as.map (fun a => others a.entries) := by
  induction h with
  | nil => rfl
  | cons h _ ih =>
    obtain ⟨hboot, hroot, hentries, -⟩ := h
    rw [List.map_cons, List.map_cons, ih, hentries, others_inject]

/-- In a run that returns 0 the keys are delivered exactly where the initrd suits. -/
theorem delivered_of_run (hi : img.Encodes lzma zlib b)
    (hsmall : b.data.length + img.packedSize + boot.length + root.length + 2048 < 2 ^ 31)
    (hr : (initrdInjectFiles mem around lzma zlib boot root b).Ends (.ok out)) :
    Delivered boot root img out ↔ Suits boot root img := by
  obtain ⟨as, hlt, hsplit, has⟩ := outcome hi hsmall hr
  have hkeys : ∀ a a' : Archive, Injected boot root a a' →
      (HasKeys boot root a'.entries ↔ Replaceable a.entries) := by
    rintro a a' ⟨hboot, hroot, hentries, -⟩
    rw [hentries, hasKeys_inject]
  have hothers : (img.plain ++ as).map (fun a => others a.entries) =
      img.archives.map (fun a => others a.entries) := by
    rw [Image.archives, List.map_append, List.map_append, others_injected has]
  constructor
  · rintro ⟨bs, hbs, -, a, ha, hhas⟩
    have hentries := List.mem_map_of_mem (f := (·.entries)) ha
    rw [← splitsInto_unique hlt hsplit hbs] at hentries
    obtain ⟨a', ha', hsame⟩ := List.mem_map.mp hentries
    rw [← hsame] at hhas
    rcases List.mem_append.mp ha' with ha' | ha'
    · exact .inr ⟨a', ha', hhas⟩
    · cases hp : img.packed with
      | none =>
        rw [hp] at has
        cases has
        cases ha'
      | some x =>
        obtain ⟨c, a⟩ := x
        rw [hp] at has
        obtain ⟨a'', _, hinj, hnil, rfl⟩ := List.forall₂_cons_left_iff.mp has
        cases hnil
        rw [List.mem_singleton.mp ha'] at hhas
        exact .inl ⟨c, a, hp, (hkeys _ _ hinj).mp hhas⟩
  · rintro (⟨c, a, hp, hrep⟩ | ⟨a, ha, hhas⟩)
    · rw [hp] at has
      obtain ⟨a', _, hinj, hnil, rfl⟩ := List.forall₂_cons_left_iff.mp has
      cases hnil
      exact ⟨_, hsplit, hothers, a', by simp, (hkeys _ _ hinj).mpr hrep⟩
    · exact ⟨_, hsplit, hothers, a, List.mem_append_left _ ha, hhas⟩

theorem Buf.append_cap (buf : Buf) (d : Bytes) :
    (buf.append d).cap ≤ max buf.cap (2 * (buf.bytes.length + d.length) + 1024) := by
  unfold Buf.append
  split
  · exact Nat.le_max_left _ _
  · unfold Buf.reserve
    simp only
    split
    · simp only
      split <;> omega
    · exact Nat.le_max_left _ _

theorem appendAll_ends (hmem : ∀ n, mem n = true) {xs : List Bytes} {buf : Buf}
    (hcap : buf.cap < 2 ^ 32)
    (hlen : 2 * (buf.bytes.length + xs.flatten.length) + 1024 < 2 ^ 32) :
    ∃ buf', appendAll mem xs buf = .ok buf' := by
  induction xs generalizing buf with
  | nil => exact ⟨buf, rfl⟩
  | cons x xs ih =>
    rw [List.flatten_cons, List.length_append] at hlen
    have hbound := Buf.append_cap buf x
    have h32 : u32 (buf.append x).cap = (buf.append x).cap := u32_of_lt (by omega)
    have happend : bufAppend mem buf x = .ok (buf.append x) := by
      unfold bufAppend
      simp only [hmem, h32, Nat.lt_irrefl, Bool.not_true, Bool.false_eq_true, if_false, Out.pure_eq,
        ite_self]
    have hbytes := congrArg List.length (bufAppend_ok happend)
    rw [List.length_append] at hbytes
    obtain ⟨buf', hbuf'⟩ := @ih (buf.append x) (by omega) (by omega)
    exact ⟨buf', by rw [appendAll, happend, Out.ok_bind, hbuf']⟩

theorem injectSubfiles_plain {plain : List Archive} {d : Nat}
    (hd : b.data.drop d = (plain.map Archive.bytes).flatten) :
    (injectSubfiles mem around lzma zlib boot root b
      (tiles d (plain.map Archive.bytes))).Ends (.ok (plain.map Archive.bytes)) := by
  induction plain generalizing d with
  | nil => exact Exec.ends_pure.mpr rfl
  | cons a plain ih =>
    rw [List.map_cons, List.flatten_cons] at hd
    have hrest := ih (drop_at hd)
    rw [Int.natCast_add] at hrest
    have hlen := congrArg List.length hd
    have hlt := b.size_lt
    rw [List.length_drop, List.length_append] at hlen
    have hbuffer : ∃ sub, subfileBuffer b ⟨d, a.bytes.length⟩ = .ok sub := by
      unfold subfileBuffer
      simp only [Int.toNat_natCast, bytes_length]
      rw [dif_pos (by omega)]
      exact ⟨_, rfl⟩
    obtain ⟨sub, hsub⟩ := hbuffer
    have hdata := subfileBuffer_ok hd hsub
    have hone : (injectSubfile mem around lzma zlib boot root b ⟨d, a.bytes.length⟩).Ends
        (.ok a.bytes) := by
      refine (Exec.ends_of.mpr hsub.symm).bind ?_
      refine (Exec.ends_of.mpr (decompress_plain hdata).symm).bind ?_
      exact Exec.ends_pure.mpr (by rw [hdata])
    exact hone.bind (hrest.bind (Exec.ends_pure.mpr rfl))

/-- An initrd that is not compressed is delivered as it is, without the keys. -/
theorem plain_unchanged (hmem : ∀ n, mem n = true) (hi : img.Encodes lzma zlib b)
    (hnone : img.packed = none) (hne : img.plain ≠ []) (h8 : img.plain.length ≤ 8)
    (hboot : boot ≠ []) (hroot : root ≠ []) (hsmall : b.data.length + 1024 < 2 ^ 31) :
    (initrdInjectFiles mem around lzma zlib boot root b).Ends (.ok b.data) := by
  have hparts : parts img.plain img.tail = img.plain.map Archive.bytes := by
    unfold parts Image.tail
    rw [hnone]
    exact List.append_nil _
  have hdata := hi.data
  have hsplit := (hi.found (by omega)).split [] (Nat.zero_le _)
  rw [hparts] at hdata hsplit
  rw [List.length_nil, Nat.zero_add, List.length_map, if_pos h8, Int.natCast_zero, Int.sub_zero,
    List.nil_append] at hsplit
  obtain ⟨a, rest, hcons⟩ := List.exists_cons_of_ne_nil hne
  have hsize : b.size ≠ 0 := by
    have hlen := a.length_bytes
    have hall := a.total_all
    unfold Buffer.size
    rw [hdata, hcons, List.map_cons, List.flatten_cons, List.length_append]
    omega
  have htiles : tiles 0 (img.plain.map Archive.bytes) ≠ [] := by
    rw [hcons]
    exact List.cons_ne_nil _ _
  have hinject : (injectSubfiles mem around lzma zlib boot root b
      (tiles 0 (img.plain.map Archive.bytes))).Ends (.ok (img.plain.map Archive.bytes)) :=
    injectSubfiles_plain (by rw [List.drop_zero, hdata])
  obtain ⟨buf, hbuf⟩ := @appendAll_ends _ hmem (img.plain.map Archive.bytes) Buf.empty
    (by decide) (by rw [← hdata]; simp only [Buf.empty, List.length_nil]; omega)
  have hbytes := appendAll_ok hbuf
  unfold initrdInjectFiles
  rw [if_neg (by simp [hsize, hboot, hroot])]
  have hfile : (cpioSplitFile b).Ends (.ok (tiles 0 (img.plain.map Archive.bytes))) := by
    unfold cpioSplitFile
    rw [if_neg hsize]
    exact hsplit
  refine hfile.bind ?_
  rw [if_neg htiles]
  refine hinject.bind ((Exec.ends_of.mpr hbuf.symm).bind (Exec.ends_pure.mpr ?_))
  rw [hbytes, hdata]
  rfl

/-! ## Two initrds of one archive -/

/-- An archive of no files. -/
def plainArchive : Archive := { emptyArchive with rest := List.replicate 388 0 }

def plainImage : Image := ⟨[plainArchive], none⟩

def plainBuffer : Buffer := ⟨plainArchive.bytes, fun _ => 0, by decide +kernel⟩

/-- The archive in a gzip file, as a stored block. -/
def gzipped : Bytes :=
  [31, 139, 8, 0, 0, 0, 0, 0, 0, 255, 1, 124, 0, 131, 255] ++ emptyArchive.bytes ++
    [78, 229, 9, 55, 124, 0, 0, 0]

/-- Decompression of that file. -/
def gunzip (c : Bytes) : Option Bytes := if c = gzipped then some emptyArchive.bytes else none

def packedImage : Image := ⟨[], some (gzipped, emptyArchive)⟩

def packedBuffer : Buffer := ⟨gzipped, fun _ => 0, by decide +kernel⟩

theorem packedImage_encodes : packedImage.Encodes (fun _ => none) gunzip packedBuffer where
  data := (List.append_nil _).symm
  padded := fun a ha => by cases ha
  packed := by
    rintro c a h
    cases h
    decide +kernel

/-- Whether a computation succeeds within a number of rounds. -/
def succeeds {α : Type} (m : Exec Unit α) (n : Nat) : Bool := match m.run n with
  | some (.ok _) => true
  | _ => false

theorem ends_of_succeeds {α : Type} {m : Exec Unit α} {n : Nat} (h : succeeds m n = true) :
    ∃ a, m.Ends (.ok a) := by
  unfold succeeds at h
  split at h
  · rename_i a ha
    exact ⟨a, n, ha⟩
  · cases h

theorem plainImage_encodes : plainImage.Encodes (fun _ => none) gunzip plainBuffer where
  data := (List.append_nil _).symm
  padded := fun a ha => by
    rw [List.mem_singleton.mp ha, Padded]
    decide +kernel
  packed := fun c a h => by cases h

end LsvmTools.InitrdKeys
