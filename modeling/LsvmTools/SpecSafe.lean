import LsvmTools.Lib.Precondition
import LsvmTools.Specialize

/-! # Specialization files of any bytes

The header of the encrypted file, as `lsvmload` checks it, and the archive in it. The ranges of
the header are checked with sums of 32 bits. The archive is read in bounds whatever it holds,
but `Malloc` takes 32 bits of the size of the array of its files. -/
namespace LsvmTools.SpecSafe
open Lib.ByteString Lib.Program Lib.Precondition Strings Specialize

/-! ## The header -/

/-- `SECURE_SPECIALIZATION_SIZE`. -/
def secureSpecializationSize : Nat := 36

/-- An offset and a length of the header. -/
structure Range where
  off : Nat
  len : Nat

/-- `Mode`. -/
def mode (data : Bytes) : Nat := le32 data 8

/-- `IVOffset` and `IVLength`. -/
def ivRange (data : Bytes) : Range := ⟨le32 data 16, le32 data 12⟩

/-- `HMACOffset` and `HMACLength`. -/
def hmacRange (data : Bytes) : Range := ⟨le32 data 24, le32 data 20⟩

/-- `CipherOffset` and `CipherLength`. -/
def cipherRange (data : Bytes) : Range := ⟨le32 data 32, le32 data 28⟩

inductive SpecFunc where
  | aesCbcDecrypt
  | aesCbcSha256Decrypt

/-- `SpecFuncs`. -/
def specFuncs : List SpecFunc := [.aesCbcDecrypt, .aesCbcSha256Decrypt]

/-- `SECURE_SPECIALIZATION_MODE_AES_CBC_SHA256`. -/
def modeAesCbcSha256 : Nat := 2

/-- `IS_SPECIALIZATION_MODE_SUPPORTED`. -/
def isSpecializationModeSupported (x : Nat) : Bool := x > 0 && x < 3

/-- `_InBounds`: the sum is a `UINT32`. -/
def inBounds (r : Range) (min max : Nat) : Bool := r.off ≥ min && u32 (r.off + r.len) ≤ max

/-- `_IsValidHeader`. -/
def isValidHeader (data : Bytes) : Bool :=
  if data.length < secureSpecializationSize then false
  else if !isSpecializationModeSupported (mode data) then false
  else
    inBounds (ivRange data) secureSpecializationSize data.length &&
      inBounds (cipherRange data) secureSpecializationSize data.length &&
      (mode data ≠ modeAesCbcSha256 ||
        inBounds (hmacRange data) secureSpecializationSize data.length)

/-- The range is in the file, behind the header. -/
def Range.Inside (r : Range) (data : Bytes) : Prop :=
  secureSpecializationSize ≤ r.off ∧ r.off + r.len ≤ data.length

/-- What a valid header owes its reader. -/
structure HeaderRight (data : Bytes) : Prop where
  iv : isValidHeader data = true → (ivRange data).Inside data
  hmac : isValidHeader data = true → (hmacRange data).Inside data
  cipher : isValidHeader data = true → (cipherRange data).Inside data
  mode : isValidHeader data = true → 0 < mode data ∧ (specFuncs[mode data - 1]?).isSome = true

/-- The ranges that the mode uses. -/
def usedRanges (data : Bytes) : List Range :=
  if mode data = modeAesCbcSha256 then [ivRange data, cipherRange data, hmacRange data]
  else [ivRange data, cipherRange data]

/-- The end of the range needs no more than 32 bits, or is in the file. -/
def Range.Kept (r : Range) (data : Bytes) : Prop :=
  r.off + r.len < 2 ^ 32 ∨ r.off + r.len ≤ data.length

/-- Some range that the mode uses is before the end of the header, or ends, modulo `2 ^ 32`,
behind the file. -/
def Refused (data : Bytes) : Prop :=
  ∃ r ∈ usedRanges data, r.off < secureSpecializationSize ∨ data.length < u32 (r.off + r.len)

/-- What the header needs: if it is not refused, no sum wraps to be in the file, and a range
that the mode does not use is in the file nevertheless. -/
def HeaderSound (data : Bytes) : Prop :=
  secureSpecializationSize ≤ data.length → mode data = 1 ∨ mode data = 2 → ¬ Refused data →
    (∀ r ∈ usedRanges data, r.Kept data) ∧ (mode data = 1 → (hmacRange data).Inside data)

section Header

variable {data : Bytes} {r : Range}

theorem inBounds_iff : inBounds r secureSpecializationSize data.length = true ↔
    ¬ (r.off < secureSpecializationSize ∨ data.length < u32 (r.off + r.len)) := by
  unfold inBounds
  simp only [Bool.and_eq_true, decide_eq_true_eq, not_or, Nat.not_lt]

theorem inside_of_kept (h : inBounds r secureSpecializationSize data.length = true) :
    r.Inside data ↔ r.Kept data := by
  obtain ⟨hoff, hend⟩ := not_or.mp (inBounds_iff.mp h)
  unfold Range.Inside Range.Kept
  constructor
  · exact fun hin => .inr hin.2
  · rintro (hlt | hle)
    · rw [u32_of_lt hlt] at hend
      exact ⟨Nat.not_lt.mp hoff, Nat.not_lt.mp hend⟩
    · exact ⟨Nat.not_lt.mp hoff, hle⟩

theorem supported_iff {x : Nat} : isSpecializationModeSupported x = true ↔ x = 1 ∨ x = 2 := by
  unfold isSpecializationModeSupported
  simp only [Bool.and_eq_true, decide_eq_true_eq]
  omega

/-- The header is valid if its mode is known and none of the ranges that this uses is refused. -/
theorem isValidHeader_iff : isValidHeader data = true ↔
    secureSpecializationSize ≤ data.length ∧ (mode data = 1 ∨ mode data = 2) ∧
      ∀ r ∈ usedRanges data, inBounds r secureSpecializationSize data.length = true := by
  unfold isValidHeader usedRanges
  rw [← supported_iff]
  by_cases hlen : data.length < secureSpecializationSize
  · rw [if_pos hlen]
    exact iff_of_false (by decide) fun h => absurd hlen (Nat.not_lt.mpr h.1)
  · rw [if_neg hlen]
    cases hs : isSpecializationModeSupported (mode data) with
    | false => simp
    | true =>
      by_cases hm : mode data = modeAesCbcSha256
      · simp [hm, Nat.not_lt.mp hlen, and_assoc]
      · simp [hm, Nat.not_lt.mp hlen]

theorem not_refused_iff : ¬ Refused data ↔
    ∀ r ∈ usedRanges data, inBounds r secureSpecializationSize data.length = true := by
  unfold Refused
  constructor
  · intro h r hr
    exact inBounds_iff.mpr fun hno => h ⟨r, hr, hno⟩
  · rintro h ⟨r, hr, hno⟩
    exact inBounds_iff.mp (h r hr) hno

theorem iv_used (data : Bytes) : ivRange data ∈ usedRanges data := by
  unfold usedRanges
  split <;> simp

theorem cipher_used (data : Bytes) : cipherRange data ∈ usedRanges data := by
  unfold usedRanges
  split <;> simp

/-- The header is right exactly where no sum wraps. -/
theorem headerRight_iff : HeaderRight data ↔ HeaderSound data := by
  constructor
  · intro h hlen hmode hused
    have hranges := not_refused_iff.mp hused
    have hvalid := isValidHeader_iff.mpr ⟨hlen, hmode, hranges⟩
    refine ⟨fun r hr => (inside_of_kept (hranges r hr)).mp ?_, fun _ => h.hmac hvalid⟩
    have hall : r = ivRange data ∨ r = cipherRange data ∨ r = hmacRange data := by
      unfold usedRanges at hr
      split at hr <;> simp at hr <;> tauto
    rcases hall with rfl | rfl | rfl
    · exact h.iv hvalid
    · exact h.cipher hvalid
    · exact h.hmac hvalid
  · intro h
    have hkept : ∀ r ∈ usedRanges data, isValidHeader data = true → r.Inside data := by
      intro r hr hvalid
      obtain ⟨hlen, hmode, hranges⟩ := isValidHeader_iff.mp hvalid
      exact (inside_of_kept (hranges r hr)).mpr
        ((h hlen hmode (not_refused_iff.mpr hranges)).1 r hr)
    refine ⟨hkept _ (iv_used data), fun hvalid => ?_, hkept _ (cipher_used data), fun hvalid => ?_⟩
    · obtain ⟨hlen, hmode, hranges⟩ := isValidHeader_iff.mp hvalid
      rcases hmode with h1 | h2
      · exact (h hlen (.inl h1) (not_refused_iff.mpr hranges)).2 h1
      · refine hkept _ ?_ hvalid
        simp [usedRanges, h2, modeAesCbcSha256]
    · obtain ⟨-, hmode, -⟩ := isValidHeader_iff.mp hvalid
      rcases hmode with h1 | h2
      · rw [h1]
        exact ⟨by decide, rfl⟩
      · rw [h2]
        exact ⟨by decide, rfl⟩

end Header

/-! ## The archive -/

section Extract

variable (mem : Mem)

/-- `Free` what is in the first `i` elements of an array of which `filled` are filled in. -/
def cleanupSpecFilesList (filled : List SpecFile) (i : Nat) : Out Unit Unit :=
  demand (i ≤ filled.length)

/-- What fails leaves through the cleanup. -/
def orCleanup {α : Type} (filled : List SpecFile) (i : Nat) (m : Out Unit α) : Out Unit α :=
  match m with
  | .ok a => .ok a
  | .err e => cleanupSpecFilesList filled i >>= fun _ => .err e
  | .stuck => .stuck

/-- `_WriteSingleSpecFile` with its reads: the name, which is compared, then the characters that
are copied, and the payload. -/
def writeSingleChecked (data : Bytes) : Out Unit SpecFile := do
  demand (le32 data 8 + 2 * (le32 data 4 / 2) ≤ data.length)
  demand (le32 data 16 + le32 data 12 ≤ data.length)
  writeSingleSpecFile mem data

/-- `_WriteSpecResults` with its reads and its cleanup. -/
def writeSpecResultsChecked (allocated : Nat) :
    (n i : Nat) → List SpecFile → Bytes → Out Unit (List SpecFile)
  | 0, _, filled, _ => .ok filled
  | n + 1, i, filled, data =>
    if data.length < fileEntrySize then cleanupSpecFilesList filled i >>= fun _ => .err ()
    else do
      demand (fileEntrySize ≤ data.length)
      if data.length < le32 data 8 + le32 data 4 ∨ data.length < le32 data 16 + le32 data 12 ∨
          le32 data 4 % 2 ≠ 0 then cleanupSpecFilesList filled i >>= fun _ => .err ()
      else do
        demand (sizeofSpecFile * (i + 1) ≤ allocated)
        let file ← orCleanup filled i (writeSingleChecked mem data)
        demand (entrySize data ≤ data.length)
        writeSpecResultsChecked allocated n (i + 1) (filled ++ [file])
          (data.drop (entrySize data))

/-- `ExtractSpecFiles` with its reads and its cleanup. -/
def extractChecked (data : Bytes) : Out Unit (List SpecFile) :=
  if data.length < headerSize then .err ()
  else
    let fileCount := le32 data 4
    let allocated := u32 (fileCount * sizeofSpecFile)
    if !mem allocated then .err ()
    else writeSpecResultsChecked mem allocated fileCount 0 [] (data.drop headerSize)

end Extract

/-- `ExtractSpecFiles` reads in the archive, writes in its array, ends, and frees what it has
filled in. -/
def ExtractsSafely (data : Bytes) : Prop := ∀ mem, extractChecked mem data ≠ .stuck

/-- The entry at the front of `data` passes the checks. -/
structure EntryFits (data : Bytes) : Prop where
  header : fileEntrySize ≤ data.length
  name : le32 data 8 + le32 data 4 ≤ data.length
  payload : le32 data 16 + le32 data 12 ≤ data.length
  even : le32 data 4 % 2 = 0

/-- `n` entries pass, each at the place to which the one before leads. -/
def EntriesFit : Nat → Bytes → Prop
  | 0, _ => True
  | n + 1, data => EntryFits data ∧ EntriesFit n (data.drop (entrySize data))

/-- The size of the array. -/
def allocatedFor (data : Bytes) : Nat := u32 (le32 data 4 * sizeofSpecFile)

/-- The array has room for all files, or the loop fails before it leaves the array. -/
def ArrayHolds (data : Bytes) : Prop :=
  headerSize ≤ data.length → 2 ^ 32 ≤ le32 data 4 * sizeofSpecFile →
    ¬ EntriesFit (allocatedFor data / sizeofSpecFile + 1) (data.drop headerSize)

section Extract

variable {mem : Mem} {data : Bytes} {allocated n i : Nat} {filled : List SpecFile}

theorem entrySize_le (h : EntryFits data) : entrySize data ≤ data.length := by
  have hname : u32 (le32 data 8 + le32 data 4) ≤ data.length :=
    Nat.le_trans (u32_le _) h.name
  have hpayload : u32 (le32 data 16 + le32 data 12) ≤ data.length :=
    Nat.le_trans (u32_le _) h.payload
  unfold entrySize
  dsimp only
  split
  · exact hname
  · exact hpayload

theorem writeSingleChecked_eq (h : EntryFits data) :
    writeSingleChecked mem data = writeSingleSpecFile mem data := by
  have hname : le32 data 8 + 2 * (le32 data 4 / 2) ≤ data.length := by
    have := h.name
    omega
  unfold writeSingleChecked
  rw [demand, if_pos hname, Out.ok_bind, demand, if_pos h.payload, Out.ok_bind]

theorem entryFits_iff : EntryFits data ↔ ¬ data.length < fileEntrySize ∧
    ¬ (data.length < le32 data 8 + le32 data 4 ∨ data.length < le32 data 16 + le32 data 12 ∨
      le32 data 4 % 2 ≠ 0) := by
  constructor
  · intro h
    simp only [not_or, Nat.not_lt, not_not]
    exact ⟨h.header, h.name, h.payload, h.even⟩
  · simp only [not_or, Nat.not_lt, not_not]
    rintro ⟨hheader, hname, hpayload, heven⟩
    exact ⟨hheader, hname, hpayload, heven⟩

/-- The loop frees no entry that is not filled in, and reads nothing outside the archive. -/
theorem writeSpecResultsChecked_eq (h : filled.length = i) :
    writeSpecResultsChecked mem allocated n i filled data =
      (writeSpecResults mem allocated n i data >>= fun files => .ok (filled ++ files)) := by
  have hcleanup : cleanupSpecFilesList filled i = .ok () := if_pos (Nat.le_of_eq h.symm)
  induction n generalizing i filled data with
  | zero => simp [writeSpecResultsChecked, writeSpecResults]
  | succ n ih =>
    rw [writeSpecResultsChecked, writeSpecResults, hcleanup]
    by_cases hlen : data.length < fileEntrySize
    · rw [if_pos hlen, if_pos hlen]
      rfl
    rw [if_neg hlen, if_neg hlen, demand, if_pos (Nat.not_lt.mp hlen), Out.ok_bind]
    by_cases hbad : data.length < le32 data 8 + le32 data 4 ∨
        data.length < le32 data 16 + le32 data 12 ∨ le32 data 4 % 2 ≠ 0
    · rw [if_pos hbad, if_pos hbad]
      rfl
    rw [if_neg hbad, if_neg hbad]
    have hfits := entryFits_iff.mpr ⟨hlen, hbad⟩
    by_cases hroom : allocated < sizeofSpecFile * (i + 1)
    · rw [if_pos hroom, demand, if_neg (Nat.not_le.mpr hroom)]
      rfl
    rw [if_neg hroom, demand, if_pos (Nat.not_lt.mp hroom), Out.ok_bind,
      writeSingleChecked_eq hfits]
    cases hfile : writeSingleSpecFile mem data with
    | ok file =>
      have hlen' : (filled ++ [file]).length = i + 1 := by rw [List.length_append, h]; rfl
      have hclean' : cleanupSpecFilesList (filled ++ [file]) (i + 1) = .ok () :=
        if_pos (Nat.le_of_eq hlen'.symm)
      rw [orCleanup, Out.ok_bind, demand, if_pos (entrySize_le hfits), Out.ok_bind,
        ih hlen' hclean', Out.ok_bind]
      cases writeSpecResults mem allocated n (i + 1) (data.drop (entrySize data)) with
      | ok files => simp
      | err e => rfl
      | stuck => rfl
    | err e =>
      rw [orCleanup, hcleanup]
      rfl
    | stuck => rfl

/-- With its reads and its cleanup the function is the function. -/
theorem extractChecked_eq (mem : Mem) (data : Bytes) :
    extractChecked mem data = extractSpecFiles mem data := by
  have hloop : writeSpecResultsChecked mem (allocatedFor data) (le32 data 4) 0 []
      (data.drop headerSize) =
        writeSpecResults mem (allocatedFor data) (le32 data 4) 0 (data.drop headerSize) := by
    rw [@writeSpecResultsChecked_eq mem _ _ _ 0 [] rfl]
    cases writeSpecResults mem (allocatedFor data) (le32 data 4) 0 (data.drop headerSize) <;> rfl
  unfold allocatedFor at hloop
  unfold extractChecked extractSpecFiles
  dsimp only
  rw [hloop]

/-- With memory a file that fits is written. -/
theorem writeSingle_ok (hmem : ∀ n, mem n = true) :
    ∃ file, writeSingleSpecFile mem data = .ok file := by
  unfold writeSingleSpecFile writeFile
  simp only [hmem, Bool.not_true, Bool.false_eq_true, if_false]
  split <;> exact ⟨_, rfl⟩

theorem writeSingle_ne_stuck : writeSingleSpecFile mem data ≠ .stuck := by
  unfold writeSingleSpecFile writeFile
  dsimp only
  intro h
  split at h
  · split at h
    · cases h
    · split at h
      · cases h
      · split at h <;> cases h
  · split at h
    · cases h
    · split at h <;> cases h

/-- How many elements the array still has. -/
theorem room_iff : allocated < sizeofSpecFile * (i + 1) ↔ allocated / sizeofSpecFile ≤ i := by
  rw [← Nat.lt_succ_iff, Nat.div_lt_iff_lt_mul (by decide), Nat.mul_comm]

/-- The loop leaves the array only behind entries that fit. -/
theorem stuck_imp (h : writeSpecResults mem allocated n i data = .stuck)
    (hi : i ≤ allocated / sizeofSpecFile) :
    allocated / sizeofSpecFile < i + n ∧
      EntriesFit (allocated / sizeofSpecFile + 1 - i) data := by
  induction n generalizing i data with
  | zero => cases h
  | succ n ih =>
    rw [writeSpecResults] at h
    split at h
    · cases h
    rename_i hlen
    split at h
    · cases h
    rename_i hbad
    have hfits := entryFits_iff.mpr ⟨hlen, hbad⟩
    rw [Nat.sub_add_comm hi, EntriesFit]
    split at h
    · rename_i hroom
      have hlast := Nat.le_antisymm hi (room_iff.mp hroom)
      rw [← hlast, Nat.sub_self]
      exact ⟨by omega, hfits, trivial⟩
    · rename_i hroom
      have hi' : i + 1 ≤ allocated / sizeofSpecFile := Nat.not_le.mp (mt room_iff.mpr hroom)
      cases hfile : writeSingleSpecFile mem data with
      | ok file =>
        rw [hfile, Out.ok_bind] at h
        cases hrest : writeSpecResults mem allocated n (i + 1) (data.drop (entrySize data)) with
        | ok files => rw [hrest] at h; cases h
        | err e => rw [hrest] at h; cases h
        | stuck =>
          obtain ⟨hlt, hmore⟩ := ih hrest hi'
          rw [Nat.add_sub_add_right] at hmore
          exact ⟨by omega, hfits, hmore⟩
      | err e => rw [hfile] at h; cases h
      | stuck => exact absurd hfile writeSingle_ne_stuck

/-- With memory it does leave the array there. -/
theorem stuck_of (hmem : ∀ n, mem n = true) (hi : i ≤ allocated / sizeofSpecFile)
    (hn : allocated / sizeofSpecFile < i + n)
    (h : EntriesFit (allocated / sizeofSpecFile + 1 - i) data) :
    writeSpecResults mem allocated n i data = .stuck := by
  induction n generalizing i data with
  | zero => exact absurd hn (Nat.not_lt.mpr hi)
  | succ n ih =>
    rw [Nat.sub_add_comm hi, EntriesFit] at h
    obtain ⟨hfits, hmore⟩ := h
    obtain ⟨hlen, hbad⟩ := entryFits_iff.mp hfits
    rw [writeSpecResults, if_neg hlen, if_neg hbad]
    split
    · rfl
    · rename_i hroom
      have hi' : i + 1 ≤ allocated / sizeofSpecFile := Nat.not_le.mp (mt room_iff.mpr hroom)
      obtain ⟨file, hfile⟩ := @writeSingle_ok mem data hmem
      rw [hfile, Out.ok_bind, ih hi' (by omega) (by rwa [Nat.add_sub_add_right])]
      rfl

/-- The array has too few elements exactly where its size wraps. -/
theorem few_elements_iff : allocatedFor data / sizeofSpecFile < le32 data 4 ↔
    2 ^ 32 ≤ le32 data 4 * sizeofSpecFile := by
  rw [Nat.div_lt_iff_lt_mul (by decide)]
  unfold allocatedFor
  constructor
  · intro h
    by_contra hlt
    rw [u32_of_lt (Nat.not_le.mp hlt)] at h
    exact Nat.lt_irrefl _ h
  · exact fun h => Nat.lt_of_lt_of_le (u32_lt _) h

/-- `ExtractSpecFiles` is safe exactly where it does not leave its array. -/
theorem extractsSafely_iff : ExtractsSafely data ↔ ArrayHolds data := by
  unfold ExtractsSafely
  simp only [extractChecked_eq]
  have hsize := @few_elements_iff data
  constructor
  · intro h hlen hwrap hfit
    refine h (fun _ => true) ?_
    unfold extractSpecFiles
    rw [if_neg (Nat.not_lt.mpr hlen)]
    exact stuck_of (fun _ => rfl) (Nat.zero_le _) (by rw [Nat.zero_add]; exact hsize.mpr hwrap) hfit
  · intro h mem hstuck
    unfold extractSpecFiles at hstuck
    split at hstuck
    · cases hstuck
    · rename_i hlen
      dsimp only at hstuck
      split at hstuck
      · cases hstuck
      · obtain ⟨hlt, hfit⟩ := stuck_imp hstuck (Nat.zero_le _)
        rw [Nat.zero_add] at hlt
        exact h (Nat.not_lt.mp hlen) (hsize.mp hlt) hfit

end Extract

/-- The header of a file, and the archive in it, are processed safely exactly where no sum of
the header wraps and the size of the array does not, or the array is not left. -/
theorem processed_safely_iff (file data : Bytes) :
    (HeaderRight file ↔ HeaderSound file) ∧ (ExtractsSafely data ↔ ArrayHolds data) :=
  ⟨headerRight_iff, extractsSafely_iff⟩

/-- A header of mode AES-CBC whose vector ends `2 ^ 32` bytes behind its place. -/
def wrappingHeader : Bytes :=
  enc32 36 ++ enc32 1 ++ enc32 1 ++ enc32 (2 ^ 32 - 1) ++ enc32 37 ++ enc32 0 ++ enc32 36 ++
    enc32 0 ++ enc32 36

/-- The header is found valid. -/
theorem wrappingHeader_accepted : ¬ HeaderRight wrappingHeader := by
  intro h
  have hiv := (h.iv (by decide +kernel)).2
  exact absurd hiv (by decide +kernel)

end LsvmTools.SpecSafe
