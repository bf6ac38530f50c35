import LsvmTools.Cpio

/-! # Specialization archives

`specialize.c`: an archive is a header and, for each file, an entry with the sizes and offsets
of the name and the payload, which stand behind it. What is still to be read or written is
what is left of the buffer. -/
namespace LsvmTools.Specialize
open Lib.ByteString Lib.Program Strings

/-- `SPECIALIZATION_FILE`. -/
structure SpecFile where
  fileName : CStr
  payloadData : Bytes
  size_lt : payloadData.length < 2 ^ 32

/-- Which allocations succeed. -/
abbrev Mem := Nat → Bool

/-- `SPECIALIZATION_CLEAR_DATA_HEADER_SIZE`. -/
def headerSize : Nat := 8

/-- `SPECIALIZATION_CLEAR_DATA_FILE_ENTRY_SIZE`. -/
def fileEntrySize : Nat := 20

/-- `sizeof(SPECIALIZATION_FILE)`. -/
def sizeofSpecFile : Nat := 24

/-- `SPEC_UNATTEND_FILENAME`. -/
def specUnattendFilename : Bytes := text "unattend.xml"

/-- `SPEC_SPECIALIZE_FILENAME`. -/
def specSpecializeFilename : Bytes := text "specialize"

variable (mem : Mem)

/-! ## Combining -/

/-- A `char` as a `CHAR16`, with its sign. -/
def char16 (c : UInt8) : Bytes := [c, if c < 128 then 0 else 0xFF]

/-- Write behind what has been written, in a buffer of `cap` bytes. -/
def put (cap : Nat) (out b : Bytes) : Out Unit Bytes :=
  if out.length + b.length ≤ cap then .ok (out ++ b) else .stuck

/-- `SPECIALIZATION_CLEAR_DATA_FILE_ENTRY`. -/
structure FileEntry where
  fileType : Nat
  fileNameSize : Nat
  fileNameOffset : Nat
  filePayloadSize : Nat
  filePayloadOffset : Nat

def FileEntry.bytes (e : FileEntry) : Bytes :=
  enc32 e.fileType ++ enc32 e.fileNameSize ++ enc32 e.fileNameOffset ++ enc32 e.filePayloadSize ++
    enc32 e.filePayloadOffset

/-- The entry of a file. -/
def fileEntry (f : SpecFile) : FileEntry where
  fileType := 0
  fileNameSize := u32 (f.fileName.bytes.length * 2)
  fileNameOffset := fileEntrySize
  filePayloadSize := f.payloadData.length
  filePayloadOffset := u32 (fileEntrySize + u32 (f.fileName.bytes.length * 2))

/-- The loop of `CombineSpecFiles` that writes the files. -/
def writeFiles (cap : Nat) : List SpecFile → Bytes → Out Unit Bytes
  | [], out => .ok out
  | f :: files, out => do
    let entry := fileEntry f
    let out ← put cap out entry.bytes
    let out ← put cap out ((f.fileName.bytes.take (entry.fileNameSize / 2)).flatMap char16)
    let out ← put cap out f.payloadData
    writeFiles cap files out

/-- The loop of `CombineSpecFiles` that adds up the sizes. -/
def totalSize : List SpecFile → Nat → Nat
  | [], n => n
  | f :: files, n => totalSize files (u32 (n + (f.payloadData.length + 2 * f.fileName.bytes.length)))

/-- `CombineSpecFiles`. -/
def combineSpecFiles (files : List SpecFile) : Out Unit Bytes :=
  let size := totalSize files (u32 (headerSize + files.length * fileEntrySize))
  if !mem size then .err ()
  else do
    let out ← put size [] (enc32 size ++ enc32 files.length)
    writeFiles size files out

/-! ## Extracting -/

/-- `_Equals` of a name in the archive and an array of characters. -/
def equals (data : Bytes) (offset : Nat) (p : Bytes) (s₁ s₂ : Nat) : Bool :=
  s₁ = s₂ && (List.range s₁).all fun i => le16 data (offset + 2 * i) = (byteAt p i).toNat

/-- The characters of a name in the archive, each cast to a `char`. -/
def narrow (data : Bytes) (offset n : Nat) : Bytes :=
  (List.range n).map fun i => byteAt data (offset + 2 * i)

theorem payload_lt (data : Bytes) (offset size : Nat) :
    ((data.drop offset).take (le32 data size)).length < 2 ^ 32 :=
  Nat.lt_of_le_of_lt (List.length_take_le _ _) (le32_lt data size)

/-- The file that the entry at the front of `data` describes, under the name `name`. -/
def writeFile (data name : Bytes) : Out Unit SpecFile :=
  if !mem (u32 (name.length + 1)) then .err ()
  else if !mem (le32 data 12) then .err ()
  else .ok ⟨⟨cstr name, noNul_cstr _⟩, (data.drop (le32 data 16)).take (le32 data 12),
    payload_lt data _ _⟩

/-- `_WriteSingleSpecFile`. -/
def writeSingleSpecFile (data : Bytes) : Out Unit SpecFile :=
  let fileNameSize := le32 data 4
  let fileNameOffset := le32 data 8
  if equals data fileNameOffset specUnattendFilename (fileNameSize / 2)
      specUnattendFilename.length then
    if !mem (2 * (specSpecializeFilename.length + 1)) then .err ()
    else writeFile mem data specSpecializeFilename
  else writeFile mem data (narrow data fileNameOffset (fileNameSize / 2))

/-- The size of the entry at the front of `data` with all that it describes. -/
def entrySize (data : Bytes) : Nat :=
  let max := u32 (le32 data 16 + le32 data 12)
  if max < u32 (le32 data 8 + le32 data 4) then u32 (le32 data 8 + le32 data 4) else max

/-- The loop of `_WriteSpecResults` for `n` more files, the next of which is the `i`th of an
array of `allocated` bytes. -/
def writeSpecResults (allocated : Nat) : (n i : Nat) → Bytes → Out Unit (List SpecFile)
  | 0, _, _ => .ok []
  | n + 1, i, data =>
    if data.length < fileEntrySize then .err ()
    else if data.length < le32 data 8 + le32 data 4 ∨ data.length < le32 data 16 + le32 data 12 ∨
        le32 data 4 % 2 ≠ 0 then .err ()
    else if allocated < sizeofSpecFile * (i + 1) then .stuck
    else do
      let file ← writeSingleSpecFile mem data
      let files ← writeSpecResults allocated n (i + 1) (data.drop (entrySize data))
      pure (file :: files)

/-- `ExtractSpecFiles`. `Malloc` takes an `unsigned int`. -/
def extractSpecFiles (data : Bytes) : Out Unit (List SpecFile) :=
  if data.length < headerSize then .err ()
  else
    let fileCount := le32 data 4
    let allocated := u32 (fileCount * sizeofSpecFile)
    if !mem allocated then .err ()
    else writeSpecResults mem allocated fileCount 0 (data.drop headerSize)

/-! ## What is written -/

/-- The size of an archive. -/
def archiveSize (files : List SpecFile) : Nat :=
  8 + (files.map fun f => 20 + 2 * f.fileName.bytes.length + f.payloadData.length).sum

/-- A file as it stands in the archive. -/
def fileBytes (f : SpecFile) : Bytes :=
  enc32 0 ++ enc32 (2 * f.fileName.bytes.length) ++ enc32 20 ++ enc32 f.payloadData.length ++
    enc32 (20 + 2 * f.fileName.bytes.length) ++ f.fileName.bytes.flatMap char16 ++ f.payloadData

def archiveBytes (files : List SpecFile) : Bytes :=
  enc32 (archiveSize files) ++ enc32 files.length ++ files.flatMap fileBytes

/-- The answer file is delivered under the name that the guest looks for. -/
def deliver (f : SpecFile) : SpecFile :=
  if f.fileName.bytes = specUnattendFilename then
    { f with fileName := ⟨cstr specSpecializeFilename, noNul_cstr _⟩ }
  else f

section Writing

variable {mem}
variable {cap : Nat} {f : SpecFile} {files : List SpecFile}

theorem length_char16s (name : Bytes) : (name.flatMap char16).length = 2 * name.length := by
  induction name with
  | nil => rfl
  | cons c name ih =>
    rw [List.flatMap_cons, List.length_append, ih, List.length_cons, char16]
    simp only [List.length_cons, List.length_nil]
    omega

theorem length_fileBytes (f : SpecFile) :
    (fileBytes f).length = 20 + 2 * f.fileName.bytes.length + f.payloadData.length := by
  simp only [fileBytes, List.length_append, length_enc32, length_char16s]

theorem length_filesBytes (files : List SpecFile) : (files.flatMap fileBytes).length =
    (files.map fun f => 20 + 2 * f.fileName.bytes.length + f.payloadData.length).sum := by
  induction files with
  | nil => rfl
  | cons f files ih =>
    rw [List.flatMap_cons, List.length_append, length_fileBytes, ih, List.map_cons, List.sum_cons]

theorem length_archiveBytes (files : List SpecFile) :
    (archiveBytes files).length = archiveSize files := by
  rw [archiveBytes, List.length_append, List.length_append, length_enc32, length_enc32,
    length_filesBytes, archiveSize]

/-- The name of a file fits into the sizes of its entry. -/
theorem fileEntry_bytes (h : 20 + 2 * f.fileName.bytes.length < 2 ^ 32) :
    (fileEntry f).bytes = enc32 0 ++ enc32 (2 * f.fileName.bytes.length) ++ enc32 20 ++
      enc32 f.payloadData.length ++ enc32 (20 + 2 * f.fileName.bytes.length) := by
  have hsize : u32 (f.fileName.bytes.length * 2) = 2 * f.fileName.bytes.length := by
    rw [Nat.mul_comm]
    exact u32_of_lt (by omega)
  simp only [FileEntry.bytes, fileEntry, fileEntrySize, hsize, u32_of_lt h]

theorem put_ok {out b : Bytes} (h : out.length + b.length ≤ cap) :
    put cap out b = .ok (out ++ b) := if_pos h

/-- The files are written one behind the other. -/
theorem writeFiles_eq (out : Bytes) (hcap : out.length + (files.flatMap fileBytes).length ≤ cap)
    (hlt : cap < 2 ^ 32) : writeFiles cap files out = .ok (out ++ files.flatMap fileBytes) := by
  induction files generalizing out with
  | nil => simp [writeFiles]
  | cons f files ih =>
    rw [List.flatMap_cons, List.length_append, length_fileBytes] at hcap
    have hname : 20 + 2 * f.fileName.bytes.length < 2 ^ 32 := by omega
    have hsize : (fileEntry f).fileNameSize = 2 * f.fileName.bytes.length := by
      rw [fileEntry, Nat.mul_comm]
      exact u32_of_lt (by omega)
    have hentry := fileEntry_bytes hname
    have htake : f.fileName.bytes.take (2 * f.fileName.bytes.length / 2) = f.fileName.bytes := by
      rw [Nat.mul_div_cancel_left _ (by decide), List.take_length]
    have hlen : (fileEntry f).bytes.length = 20 := rfl
    have hshape : out ++ (fileEntry f).bytes ++ f.fileName.bytes.flatMap char16 ++
        f.payloadData = out ++ fileBytes f := by
      rw [hentry]
      simp only [fileBytes, List.append_assoc]
    have hsum : (out ++ fileBytes f).length + (files.flatMap fileBytes).length ≤ cap := by
      rw [List.length_append, length_fileBytes]
      omega
    rw [writeFiles]
    simp only [hsize, htake]
    rw [put_ok (by rw [hlen]; omega), Out.ok_bind,
      put_ok (by rw [List.length_append, hlen, length_char16s]; omega), Out.ok_bind,
      put_ok (by simp only [List.length_append, hlen, length_char16s]; omega), Out.ok_bind,
      hshape, ih _ hsum, List.flatMap_cons, List.append_assoc]

theorem totalSize_eq (n : Nat)
    (h : n + (files.map fun f => 2 * f.fileName.bytes.length + f.payloadData.length).sum < 2 ^ 32) :
    totalSize files n =
      n + (files.map fun f => 2 * f.fileName.bytes.length + f.payloadData.length).sum := by
  induction files generalizing n with
  | nil => rfl
  | cons f files ih =>
    rw [List.map_cons, List.sum_cons] at h ⊢
    rw [totalSize, u32_of_lt (by omega), ih _ (by omega)]
    omega

theorem archiveSize_eq (files : List SpecFile) : archiveSize files =
    8 + files.length * 20 +
      (files.map fun f => 2 * f.fileName.bytes.length + f.payloadData.length).sum := by
  induction files with
  | nil => rfl
  | cons f files ih =>
    simp only [archiveSize, List.map_cons, List.sum_cons, List.length_cons] at ih ⊢
    omega

/-- What `CombineSpecFiles` allocates. -/
theorem totalSize_archive (h : archiveSize files < 2 ^ 32) :
    totalSize files (u32 (headerSize + files.length * fileEntrySize)) = archiveSize files := by
  have heq := archiveSize_eq files
  unfold headerSize fileEntrySize
  rw [u32_of_lt (by omega), totalSize_eq _ (by omega), heq]

/-- `CombineSpecFiles` writes the archive, to the last byte that it allocates. -/
theorem combineSpecFiles_eq (h : archiveSize files < 2 ^ 32)
    (hmem : mem (archiveSize files) = true) :
    combineSpecFiles mem files = .ok (archiveBytes files) := by
  have hsize := totalSize_archive h
  have hlen := length_archiveBytes files
  unfold combineSpecFiles
  simp only [hsize, hmem, Bool.not_true, Bool.false_eq_true, if_false]
  rw [archiveBytes, List.length_append] at hlen
  rw [put_ok (by rw [List.length_nil]; omega), Out.ok_bind, List.nil_append,
    writeFiles_eq _ (by omega) h]
  rfl

end Writing

/-! ## What is read back -/

section Reading

variable {f : SpecFile} {files : List SpecFile}

theorem byteAt_char16s (name rest : Bytes) {i : Nat} (h : i < name.length) :
    byteAt (name.flatMap char16 ++ rest) (2 * i) = byteAt name i ∧
      byteAt (name.flatMap char16 ++ rest) (2 * i + 1) =
        if byteAt name i < 128 then 0 else 0xFF := by
  induction name generalizing i with
  | nil => exact absurd h (Nat.not_lt_zero i)
  | cons c name ih =>
    cases i with
    | zero => exact ⟨rfl, rfl⟩
    | succ i => exact ih (Nat.lt_of_succ_lt_succ h)

/-- A character compares equal to its own 16 bits only. -/
theorem char16_eq {c a : UInt8} (ha : a < 128) :
    c.toNat + 256 * (if c < 128 then (0 : UInt8) else 0xFF).toNat = a.toNat ↔ c = a := by
  have hlt : a.toNat < 128 := ha
  by_cases hc : c < 128
  · rw [if_pos hc, ← UInt8.toNat_inj]
    rfl
  · rw [if_neg hc]
    have h255 : (0xFF : UInt8).toNat = 255 := rfl
    constructor
    · intro h
      omega
    · intro h
      exact absurd (h ▸ ha) hc


/-- The word at `2 * i` of a name that stands at `offset`. -/
theorem word_char16s {data : Bytes} {offset : Nat} {name rest : Bytes}
    (hdata : data.drop offset = name.flatMap char16 ++ rest) {i : Nat} (h : i < name.length) :
    byteAt data (offset + 2 * i) = byteAt name i ∧ le16 data (offset + 2 * i) =
      (byteAt name i).toNat + 256 * (if byteAt name i < 128 then (0 : UInt8) else 0xFF).toNat := by
  have hb := byteAt_char16s name rest h
  rw [← hdata, byteAt_drop, byteAt_drop, ← Nat.add_assoc] at hb
  exact ⟨hb.1, by rw [le16, hb.1, hb.2]⟩

theorem narrow_eq {data : Bytes} {offset : Nat} {name rest : Bytes}
    (hdata : data.drop offset = name.flatMap char16 ++ rest) :
    narrow data offset name.length = name := by
  apply List.ext_getElem
  · simp [narrow]
  · intro i hi hn
    simp only [narrow, List.getElem_map, List.getElem_range]
    rw [(word_char16s hdata hn).1, byteAt_eq_getElem hn]

/-- A name in the archive compares equal to itself only. -/
theorem equals_iff {data : Bytes} {offset : Nat} {name rest p : Bytes}
    (hdata : data.drop offset = name.flatMap char16 ++ rest) (hp : ∀ c ∈ p, c < 128) :
    equals data offset p name.length p.length = true ↔ name = p := by
  simp only [equals, Bool.and_eq_true, decide_eq_true_eq, List.all_eq_true, List.mem_range]
  constructor
  · rintro ⟨hlen, hall⟩
    apply ext_byteAt hlen
    intro i hi
    have hmem : byteAt p i ∈ p := by
      rw [byteAt_eq_getElem (hlen ▸ hi)]
      exact List.getElem_mem _
    have hword := hall i hi
    rw [(word_char16s hdata hi).2] at hword
    exact (char16_eq (hp _ hmem)).1 hword
  · rintro rfl
    refine ⟨rfl, fun i hi => ?_⟩
    have hmem : byteAt name i ∈ name := by
      rw [byteAt_eq_getElem hi]
      exact List.getElem_mem _
    rw [(word_char16s hdata hi).2]
    exact (char16_eq (hp _ hmem)).2 rfl

/-- The fields of an entry, with whatever stands behind it. -/
theorem fileBytes_fields (f : SpecFile) (more : Bytes)
    (h : 20 + 2 * f.fileName.bytes.length < 2 ^ 32) :
    le32 (fileBytes f ++ more) 4 = 2 * f.fileName.bytes.length ∧
      le32 (fileBytes f ++ more) 8 = 20 ∧
      le32 (fileBytes f ++ more) 12 = f.payloadData.length ∧
      le32 (fileBytes f ++ more) 16 = 20 + 2 * f.fileName.bytes.length := by
  simp only [fileBytes, List.append_assoc]
  refine ⟨?_, ?_, ?_, ?_⟩
  · rw [le32_skip _ _ 0, le32_enc32_append, u32_of_lt (by omega)]
  · rw [le32_skip _ _ 4, le32_skip _ _ 0, le32_enc32_append, u32_of_lt (by decide)]
  · rw [le32_skip _ _ 8, le32_skip _ _ 4, le32_skip _ _ 0, le32_enc32_append, u32_of_lt f.size_lt]
  · rw [le32_skip _ _ 12, le32_skip _ _ 8, le32_skip _ _ 4, le32_skip _ _ 0, le32_enc32_append,
      u32_of_lt h]

theorem fileBytes_name (f : SpecFile) (more : Bytes) : (fileBytes f ++ more).drop 20 =
    f.fileName.bytes.flatMap char16 ++ (f.payloadData ++ more) := by
  simp only [fileBytes, List.append_assoc]
  rfl

theorem fileBytes_payload (f : SpecFile) (more : Bytes) :
    ((fileBytes f ++ more).drop (20 + 2 * f.fileName.bytes.length)).take f.payloadData.length =
      f.payloadData := by
  rw [← List.drop_drop, fileBytes_name, drop_of_length (length_char16s _), List.take_left]

/-- All allocations succeed. -/
def granted : Mem := fun _ => true

theorem writeFile_eq (f : SpecFile) (more name : Bytes)
    (h : 20 + 2 * f.fileName.bytes.length < 2 ^ 32) :
    writeFile granted (fileBytes f ++ more) name =
      .ok { f with fileName := ⟨cstr name, noNul_cstr _⟩ } := by
  obtain ⟨-, -, hsize, hoff⟩ := fileBytes_fields f more h
  have hpayload := fileBytes_payload f more
  simp only [writeFile, granted, Bool.not_true, Bool.false_eq_true, if_false, hsize, hoff,
    hpayload]

theorem unattend_ascii : ∀ c ∈ specUnattendFilename, c < 128 := by decide +kernel

theorem writeSingleSpecFile_eq (f : SpecFile) (more : Bytes)
    (h : 20 + 2 * f.fileName.bytes.length < 2 ^ 32) :
    writeSingleSpecFile granted (fileBytes f ++ more) = .ok (deliver f) := by
  obtain ⟨hname, hoff, -, -⟩ := fileBytes_fields f more h
  have hiff := equals_iff (fileBytes_name f more) unattend_ascii
  have hnarrow := narrow_eq (fileBytes_name f more)
  have hhalf : 2 * f.fileName.bytes.length / 2 = f.fileName.bytes.length := by omega
  simp only [writeSingleSpecFile, hname, hoff, hhalf]
  by_cases hu : f.fileName.bytes = specUnattendFilename
  · rw [if_pos (hiff.2 hu), deliver, if_pos hu]
    exact writeFile_eq f more _ h
  · rw [if_neg (fun he => hu (hiff.1 he)), deliver, if_neg hu, hnarrow, writeFile_eq f more _ h]
    congr 2
    simp only [cstr_eq f.fileName.noNul]

theorem entrySize_eq (f : SpecFile) (more : Bytes)
    (h : (fileBytes f).length < 2 ^ 32) :
    entrySize (fileBytes f ++ more) = (fileBytes f).length := by
  rw [length_fileBytes] at h ⊢
  obtain ⟨hname, hoff, hsize, hpay⟩ := fileBytes_fields f more (by omega)
  simp only [entrySize, hname, hoff, hsize, hpay]
  rw [u32_of_lt h, u32_of_lt (by omega), if_neg (by omega)]

/-- One entry is read as long as the array has room for its file. -/
theorem writeSpecResults_step (f : SpecFile) (more : Bytes) {allocated n i : Nat}
    (h : (fileBytes f).length < 2 ^ 32) : writeSpecResults granted allocated (n + 1) i
      (fileBytes f ++ more) =
    if allocated < 24 * (i + 1) then .stuck
    else writeSpecResults granted allocated n (i + 1) more >>= fun files =>
      .ok (deliver f :: files) := by
  have hlen := length_fileBytes f
  obtain ⟨hname, hoff, hsize, hpay⟩ := fileBytes_fields f more (by omega)
  have hdrop : (fileBytes f ++ more).drop (fileBytes f).length = more := List.drop_left
  have htotal : (fileBytes f ++ more).length = (fileBytes f).length + more.length :=
    List.length_append
  rw [writeSpecResults, if_neg (by unfold fileEntrySize; omega)]
  rw [if_neg (by rw [hname, hoff, hsize, hpay]; omega)]
  rw [entrySize_eq f more h, hdrop, writeSingleSpecFile_eq f more (by omega)]
  rfl

/-- The entries are read as long as the array has room for all files. -/
theorem writeSpecResults_eq {allocated : Nat} (i : Nat)
    (hall : ∀ f ∈ files, (fileBytes f).length < 2 ^ 32) :
    writeSpecResults granted allocated files.length i (files.flatMap fileBytes) =
      if files ≠ [] ∧ allocated < 24 * (i + files.length) then .stuck
      else .ok (files.map deliver) := by
  induction files generalizing i with
  | nil => rfl
  | cons f files ih =>
    have hf := hall f List.mem_cons_self
    rw [List.length_cons, List.flatMap_cons, writeSpecResults_step f _ hf,
      ih (i + 1) fun g hg => hall g (List.mem_cons_of_mem f hg)]
    by_cases hroom : allocated < 24 * (i + 1)
    · rw [if_pos hroom, if_pos ⟨List.cons_ne_nil _ _, by omega⟩]
    · rw [if_neg hroom]
      by_cases hrest : files ≠ [] ∧ allocated < 24 * (i + 1 + files.length)
      · rw [if_pos hrest, if_pos ⟨List.cons_ne_nil _ _, by omega⟩]
        rfl
      · rw [if_neg hrest, if_neg ?_]
        · rfl
        · rintro ⟨-, hlt⟩
          apply hrest
          refine ⟨?_, by omega⟩
          rintro rfl
          simp only [List.length_nil] at hlt
          omega

theorem fileBytes_lt (h : archiveSize files < 2 ^ 32) :
    ∀ f ∈ files, (fileBytes f).length < 2 ^ 32 := by
  intro f hf
  have hle := List.le_sum_of_mem (List.mem_map_of_mem (f := fun f =>
    20 + 2 * f.fileName.bytes.length + f.payloadData.length) hf)
  rw [length_fileBytes]
  unfold archiveSize at h
  omega

/-- `ExtractSpecFiles` reads an archive back as long as the size of its array fits into the
argument of `Malloc`. -/
theorem extractSpecFiles_eq (h : archiveSize files < 2 ^ 32) :
    extractSpecFiles granted (archiveBytes files) =
      if 24 * files.length < 2 ^ 32 then .ok (files.map deliver) else .stuck := by
  have hsize := archiveSize_eq files
  have hlen := length_archiveBytes files
  have hcount : le32 (archiveBytes files) 4 = files.length := by
    rw [archiveBytes, List.append_assoc, le32_skip _ _ 0, le32_enc32_append,
      u32_of_lt (by omega)]
  have hdrop : (archiveBytes files).drop headerSize = files.flatMap fileBytes := rfl
  have hrun := @writeSpecResults_eq _ (u32 (files.length * sizeofSpecFile)) 0
    (fileBytes_lt h)
  have hgranted : ∀ n, granted n = true := fun _ => rfl
  rw [extractSpecFiles, if_neg (by unfold headerSize; omega), hcount, hdrop]
  simp only [hgranted, Bool.not_true, Bool.false_eq_true, if_false]
  rw [hrun, Nat.zero_add]
  unfold sizeofSpecFile
  by_cases hfit : 24 * files.length < 2 ^ 32
  · rw [if_pos hfit, u32_of_lt (by omega), if_neg (by omega)]
  · have hlt := u32_lt (files.length * 24)
    have hne : files ≠ [] := by
      rintro rfl
      simp at hfit
    rw [if_neg hfit, if_pos ⟨hne, by omega⟩]

/-- What is combined fills the allocation and is extracted again, the answer file under its
other name. -/
def RoundTrip (files : List SpecFile) : Prop :=
  ∃ data, combineSpecFiles granted files = .ok data ∧
    data.length = totalSize files (u32 (headerSize + files.length * fileEntrySize)) ∧
    extractSpecFiles granted data = .ok (files.map deliver)

/-- Past 2^32 bytes of `SPECIALIZATION_FILE`s the array is too short for the files. -/
theorem not_roundTrip (h : archiveSize files < 2 ^ 32) (hfit : ¬ 24 * files.length < 2 ^ 32) :
    ¬ RoundTrip files := by
  rintro ⟨data, hdata, -, hfiles⟩
  rw [combineSpecFiles_eq h rfl, Out.ok.injEq] at hdata
  rw [← hdata, extractSpecFiles_eq h, if_neg hfit] at hfiles
  cases hfiles

/-- Files come back exactly where the size of the array does not wrap. -/
theorem roundTrip_iff (h : archiveSize files < 2 ^ 32) :
    RoundTrip files ↔ 24 * files.length < 2 ^ 32 := by
  constructor
  · intro hround
    by_contra hfit
    exact not_roundTrip h hfit hround
  · intro hfit
    refine ⟨archiveBytes files, combineSpecFiles_eq h rfl, ?_, ?_⟩
    · rw [length_archiveBytes, totalSize_archive h]
    · rw [extractSpecFiles_eq h, if_pos hfit]

theorem emptyName_noNul : (0 : UInt8) ∉ ([] : Bytes) := by decide

theorem emptyContent_lt : ([] : Bytes).length < 2 ^ 32 := by decide

/-- A file without a name and without content. -/
def emptyFile : SpecFile := ⟨⟨[], emptyName_noNul⟩, [], emptyContent_lt⟩

theorem answer_noNul : (0 : UInt8) ∉ specUnattendFilename := by decide

/-- An answer file. -/
def answerFile : SpecFile := ⟨⟨specUnattendFilename, answer_noNul⟩, [60, 97, 62], by decide⟩

theorem answer_roundTrip : RoundTrip [answerFile, emptyFile] :=
  (roundTrip_iff (by decide +kernel)).2 (by decide)

theorem archiveSize_replicate (n : Nat) : archiveSize (List.replicate n emptyFile) = 8 + n * 20 := by
  simp only [archiveSize, List.map_replicate, List.sum_replicate, smul_eq_mul]
  rfl

/-- So many empty files fit into an archive, but not into the array they are read into. -/
theorem many_files_lost : ¬ ∀ files, archiveSize files < 2 ^ 32 → RoundTrip files := by
  intro h
  have hsize := archiveSize_replicate 178956971
  have hlt : archiveSize (List.replicate 178956971 emptyFile) < 2 ^ 32 := by
    rw [hsize]
    norm_num
  refine not_roundTrip hlt ?_ (h _ hlt)
  rw [List.length_replicate]
  norm_num

end Reading

end LsvmTools.Specialize
