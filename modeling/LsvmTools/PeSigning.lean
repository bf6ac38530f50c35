import LsvmTools.Lib.Bubble
import LsvmTools.PeSafe

/-! # Signing an image

A well-formed image that has a section is hashed to the same bytes after it has been signed. The
order of its section headers has no influence on the rest of the hash, and the sections are gone
through in the order of their offsets, exactly where no two offsets are 2 GiB apart: `_compare`
delivers the difference of two `UINT32` values as an `int`. -/
namespace LsvmTools.PeSigning
open Lib.ByteString Lib.Program Lib.Bubble Lib.Precondition Cpio CpioFormat CpioSafe PeImage
open PeCoverage PeSafe

/-! ## Images -/

/-- Where the section headers start and end. -/
def tableStart (b : Buffer) : Nat := peHdrOffset b + 24 + sizeOfOptionalHeader b

def tableEnd (b : Buffer) : Nat := tableStart b + 40 * numberOfSections b

/-- An unsigned image whose optional header has a security directory entry, with the section
headers in the headers, the sections behind them and offsets of 32 bits. -/
structure WellFormed (u : Buffer) : Prop where
  dos : 64 ≤ u.size ∧ word16 u 0 = dosSignature
  unsigned : signatureSize u = 0
  optional : 152 ≤ sizeOfOptionalHeader u
  table : tableEnd u ≤ sizeOfHeaders u
  headers : sizeOfHeaders u ≤ u.size
  sections : ∀ x ∈ sectionTable u, sizeOfHeaders u ≤ x.pointerToRawData ∧
    x.pointerToRawData + x.sizeOfRawData ≤ u.size
  size_lt : u.size < 2 ^ 32

/-- `s` is `u` with a certificate table behind it, its offset and size in the security directory
entry, and any checksum. -/
structure Signs (u s : Buffer) : Prop where
  appended : u.size ≤ s.size
  keeps : ∀ i, 0 ≤ i → i < u.size → ¬ (checkSum u ≤ i ∧ i < checkSum u + 4) →
    ¬ (secDir u ≤ i ∧ i < secDir u + 8) → s.peek i = u.peek i
  address : signatureAddress s = u.size
  size : signatureSize s = s.size - u.size

/-- The section headers. -/
def headerRecords (b : Buffer) : List Bytes :=
  (List.range (numberOfSections b)).map fun i => b.bytes (tableStart b + 40 * i : Nat) 40

/-- `v` is `u` with its section headers in another order. -/
structure Rearranges (u v : Buffer) : Prop where
  size : v.size = u.size
  keeps : ∀ i, 0 ≤ i → i < u.size → ¬ (tableStart u ≤ i ∧ i < tableEnd u) → v.peek i = u.peek i
  perm : (headerRecords v).Perm (headerRecords u)

/-- The offsets of the sections are distinct. -/
def Distinct (u : Buffer) : Prop := ((sectionTable u).map (·.pointerToRawData)).Nodup

/-! ## What does not change -/

/-- Both images are parsed, and what is hashed of them is the same. -/
structure SameHash (u s : Buffer) : Prop where
  returns : ∀ mem, parseImage u mem ≠ .stuck ∧ parseImage s mem ≠ .stuck
  hashed : ∀ mem mem' image image', parseImage u mem = .ok image → parseImage s mem' = .ok image' →
    hashed s image'.regions = hashed u image.regions

/-- Both images are parsed; the regions of the headers are the same; what is hashed behind them
is the same; and the sections of `v` are gone through in the order of their offsets. -/
structure SameSections (u v : Buffer) : Prop where
  returns : ∀ mem, parseImage u mem ≠ .stuck ∧ parseImage v mem ≠ .stuck
  hashed : ∀ mem mem' image image', parseImage u mem = .ok image → parseImage v mem' = .ok image' →
    image'.regions.take 3 = image.regions.take 3 ∧
      hashed v (image'.regions.drop 3) = hashed u (image.regions.drop 3)
  ascending : (sortSections (sectionTable v)).Pairwise
    fun x y => x.pointerToRawData < y.pointerToRawData

/-- The hash of an image does not depend on its signature, nor on the order of its section
headers beyond the headers. -/
structure Stable (u : Buffer) : Prop where
  signing : ∀ s, Signs u s → SameHash u s
  rearranging : Distinct u → ∀ v, Rearranges u v → SameSections u v

/-- No two offsets are 2 GiB apart. -/
def Narrow (u : Buffer) : Prop :=
  ∀ x ∈ sectionTable u, ∀ y ∈ sectionTable u, x.pointerToRawData < y.pointerToRawData + 2 ^ 31

variable {u s v b : Buffer} {mem : Nat → Bool}

/-! ## Parsing -/

theorem meets_appendRest_true {sections : List Section} {regions : List Region}
    (h : sections ≠ []) : Meets (appendRest b mem sections regions) fun _ => True := by
  unfold appendRest
  rw [List.getLast?_eq_some_getLast h]
  simp only [meets_ite, meets_appendRegion, meets_pure, implies_true, and_self]

theorem parseImage_returns (h : 0 < numberOfSections b) : parseImage b mem ≠ .stuck := by
  have hne : sortSections (sectionTable b) ≠ [] := by
    refine List.ne_nil_of_length_pos ?_
    rw [(sortSections_perm _).length_eq, sectionTable, List.length_map, List.length_range]
    exact h
  have hmeets : Meets (parseImage b mem) fun _ => True := by
    unfold parseImage parseSignature
    simp only [meets_ite, meets_err, meets_bind, meets_appendRegion, meets_appendSections,
      meets_pure, meets_appendRest_true hne, implies_true, and_self]
  exact hmeets.returns

/-! ## Bytes that are the same -/

theorem bytes_congr {i : Int} {n : Nat} (h : ∀ k, i ≤ k → k < i + n → s.peek k = u.peek k) :
    s.bytes i n = u.bytes i n := by
  unfold Buffer.bytes
  refine List.map_congr_left fun k hk => ?_
  have := List.mem_range.mp hk
  exact h _ (by omega) (by omega)

theorem word16_congr {i : Int} (h : ∀ k, i ≤ k → k < i + 2 → s.peek k = u.peek k) :
    word16 s i = word16 u i := by
  unfold word16
  rw [bytes_congr h]

theorem word32_congr {i : Int} (h : ∀ k, i ≤ k → k < i + 4 → s.peek k = u.peek k) :
    word32 s i = word32 u i := by
  unfold word32
  rw [bytes_congr h]

theorem regionBytes_congr {r : Region}
    (h : ∀ i, r.data ≤ i → i < r.data + r.size → s.peek i = u.peek i) :
    regionBytes s r = regionBytes u r := by
  unfold regionBytes
  by_cases h0 : 0 ≤ r.size
  · exact bytes_congr fun k h1 h2 => h k h1 (by omega)
  · rw [Int.toNat_of_nonpos (by omega)]
    rfl

theorem hashed_congr {regions : List Region}
    (h : ∀ r ∈ regions, ∀ i, r.data ≤ i → i < r.data + r.size → s.peek i = u.peek i) :
    hashed s regions = hashed u regions := by
  unfold hashed
  exact List.flatMap_congr fun r hr => regionBytes_congr (h r hr)

/-- The fields in front of the checksum. -/
theorem fields_congr (h : ∀ i : Int, 0 ≤ i → i < checkSum u → s.peek i = u.peek i) :
    peHdrOffset s = peHdrOffset u ∧ numberOfSections s = numberOfSections u ∧
      sizeOfOptionalHeader s = sizeOfOptionalHeader u ∧ sizeOfHeaders s = sizeOfHeaders u := by
  unfold checkSum at h
  have hpe : peHdrOffset s = peHdrOffset u :=
    word32_congr fun k h1 h2 => h k (by omega) (by push_cast; omega)
  unfold numberOfSections sizeOfOptionalHeader sizeOfHeaders
  rw [hpe]
  refine ⟨rfl, word16_congr fun k h1 h2 => h k (by omega) (by push_cast; omega), ?_, ?_⟩
  · exact word16_congr fun k h1 h2 => h k (by omega) (by push_cast; omega)
  · exact word32_congr fun k h1 h2 => h k (by omega) (by push_cast; omega)

theorem sectionTable_congr (hpe : peHdrOffset s = peHdrOffset u)
    (hn : numberOfSections s = numberOfSections u)
    (hopt : sizeOfOptionalHeader s = sizeOfOptionalHeader u)
    (h : ∀ i : Int, tableStart u ≤ i → i < tableEnd u → s.peek i = u.peek i) :
    sectionTable s = sectionTable u := by
  unfold sectionTable
  rw [hpe, hn, hopt]
  refine List.map_congr_left fun i hi => ?_
  have hlt := List.mem_range.mp hi
  unfold tableEnd tableStart at h
  simp only [Section.mk.injEq]
  constructor
  · exact word32_congr fun k h1 h2 => h k (by omega) (by omega)
  · exact word32_congr fun k h1 h2 => h k (by omega) (by omega)

theorem WellFormed.secDir_le (h : WellFormed u) : secDir u + 8 ≤ tableStart u := by
  have := h.optional
  unfold secDir tableStart
  omega

theorem WellFormed.tableStart_le (h : WellFormed u) :
    tableStart u ≤ tableEnd u ∧ tableEnd u ≤ sizeOfHeaders u :=
  ⟨Nat.le_add_right _ _, h.table⟩

/-! ## Signing -/

/-- The regions in front of the rest of the image. -/
def front (b : Buffer) : List Region :=
  ⟨0, checkSum b⟩ :: ⟨checkSum b + 4, secDir b - (checkSum b + 4)⟩ ::
    ⟨secDir b + 8, toUintn (sizeOfHeaders b - (secDir b + 8))⟩ ::
    ((sortSections (sectionTable b)).filter (·.sizeOfRawData ≠ 0)).map sectionRegion

theorem recorded_eq (b : Buffer) : recorded b = front b ++ restRegion b := rfl

theorem hashed_append (regions regions' : List Region) :
    hashed b (regions ++ regions') = hashed b regions ++ hashed b regions' :=
  List.flatMap_append

theorem mem_sorted {x : Section}
    (hx : x ∈ (sortSections (sectionTable u)).filter (·.sizeOfRawData ≠ 0)) :
    x ∈ sectionTable u :=
  (sortSections_perm _).mem_iff.mp (List.mem_of_mem_filter hx)

/-- Where a section ends. -/
theorem WellFormed.endOfSection (h : WellFormed u) {x : Section} (hx : x ∈ sectionTable u) :
    endOfSection x = x.pointerToRawData + x.sizeOfRawData := by
  have hin := (h.sections x hx).2
  have hlt := h.size_lt
  unfold PeImage.endOfSection
  exact u32_of_lt (by omega)

theorem WellFormed.sectionsEnd (h : WellFormed u) {offset : Nat}
    (ho : offset ∈ sectionsEnd u) : sizeOfHeaders u ≤ offset ∧ offset ≤ u.size := by
  obtain ⟨x, hx, rfl⟩ := Option.mem_map.mp ho
  have hmem : x ∈ sectionTable u :=
    (sortSections_perm _).mem_iff.mp (List.mem_of_getLast? hx)
  have hin := h.sections x hmem
  rw [h.endOfSection hmem]
  push_cast
  omega

theorem Signs.fields (h : WellFormed u) (hs : Signs u s) :
    peHdrOffset s = peHdrOffset u ∧ sizeOfHeaders s = sizeOfHeaders u ∧
      sectionTable s = sectionTable u ∧ numberOfSections s = numberOfSections u := by
  have hcs := checkSum_secDir u
  have hsec := h.secDir_le
  have htab := h.tableStart_le
  have hhead := h.headers
  obtain ⟨hpe, hn, hopt, hh⟩ := fields_congr fun i h0 h1 =>
    hs.keeps i h0 (by omega) (by omega) (by omega)
  exact ⟨hpe, hh, sectionTable_congr hpe hn hopt fun i h1 h2 =>
    hs.keeps i (by omega) (by omega) (by omega) (by omega), hn⟩

theorem Signs.front (h : WellFormed u) (hs : Signs u s) :
    front s = front u ∧ hashed s (front u) = hashed u (front u) := by
  have hcs := checkSum_secDir u
  have hsec := h.secDir_le
  have htab := h.tableStart_le
  have hhead := h.headers
  obtain ⟨hpe, hh, ht, -⟩ := hs.fields h
  constructor
  · unfold PeSigning.front checkSum secDir
    rw [hpe, hh, ht]
  · refine hashed_congr fun r hr i h1 h2 => ?_
    rcases List.mem_cons.mp hr with rfl | hr
    · dsimp only at h1 h2
      exact hs.keeps i h1 (by omega) (by omega) (by omega)
    rcases List.mem_cons.mp hr with rfl | hr
    · dsimp only at h1 h2
      exact hs.keeps i (by omega) (by omega) (by omega) (by omega)
    rcases List.mem_cons.mp hr with rfl | hr
    · have hlt := sizeOfHeaders_lt u
      dsimp only at h1 h2
      rw [toUintn_of_lt (by omega) (by omega)] at h2
      exact hs.keeps i (by omega) (by omega) (by omega) (by omega)
    · obtain ⟨x, hx, rfl⟩ := List.mem_map.mp hr
      have hin := h.sections x (mem_sorted hx)
      dsimp only [sectionRegion] at h1 h2
      exact hs.keeps i (by omega) (by omega) (by omega) (by omega)

/-- What follows the final section is all of the unsigned image, and of the signed one all but
the certificate table. -/
theorem Signs.rest (h : WellFormed u) (hs : Signs u s) :
    hashed s (restRegion s) = hashed u (restRegion u) := by
  have hsec := h.secDir_le
  have htab := h.tableStart_le
  have hlt := size_lt u
  have hend : PeCoverage.sectionsEnd s = PeCoverage.sectionsEnd u := by
    unfold PeCoverage.sectionsEnd
    rw [(hs.fields h).2.2.1]
  unfold restRegion
  rw [hend]
  cases ho : PeCoverage.sectionsEnd u with
  | none => rfl
  | some offset =>
    have hin := h.sectionsEnd ho
    dsimp only
    rw [h.unsigned, hs.size]
    by_cases hoff : (offset : Int) < u.size
    · have hsize : s.size - (s.size - u.size) - offset = u.size - (0 : Nat) - offset := by omega
      rw [if_pos hoff, if_pos (by have := hs.appended; omega), hsize]
      refine hashed_congr fun r hr i h1 h2 => ?_
      obtain rfl := List.mem_singleton.mp hr
      dsimp only at h1 h2
      rw [toUintn_of_lt (by omega) (by omega)] at h2
      exact hs.keeps i (by omega) (by omega) (by have := checkSum_secDir u; omega) (by omega)
    · have hzero : s.size - (s.size - u.size) - offset = 0 := by omega
      rw [if_neg hoff, hzero]
      split
      · rw [toUintn_of_lt (by decide) (by decide)]
        rfl
      · rfl

theorem Signs.sameHash (h : WellFormed u) (hpos : 0 < numberOfSections u) (hs : Signs u s) :
    SameHash u s := by
  obtain ⟨-, -, -, hn⟩ := hs.fields h
  obtain ⟨hfront, hbytes⟩ := hs.front h
  refine ⟨fun mem => ⟨parseImage_returns hpos, parseImage_returns (by omega)⟩, ?_⟩
  intro mem mem' image image' hu hs'
  rw [parseImage_ok hu, parseImage_ok hs', recorded_eq, recorded_eq, hashed_append, hashed_append,
    hfront, hbytes, hs.rest h]

/-! ## The order of the section headers -/

/-- The test of the sort. -/
def after (x y : Section) : Bool := decide (PeImage.compare x y > 0)

theorem bubble_eq (x : Section) (l : List Section) : bubble x l = carry after x l := by
  induction l generalizing x with
  | nil => rfl
  | cons y l ih =>
    rw [bubble, carry, ih, ih]
    simp only [after, decide_eq_true_eq]

theorem sortSections_eq (l : List Section) : sortSections l = sort after l := by
  have hpass : PeImage.pass = Lib.Bubble.pass after := by
    funext l
    cases l with
    | nil => rfl
    | cons x l => exact bubble_eq x l
  unfold sortSections sort
  rw [hpass]

theorem after_iff {x y : Section} (hxy : x.pointerToRawData < y.pointerToRawData + 2 ^ 31)
    (hyx : y.pointerToRawData < x.pointerToRawData + 2 ^ 31) :
    after x y = true ↔ y.pointerToRawData < x.pointerToRawData := by
  unfold after PeImage.compare
  rw [decide_eq_true_eq, toInt_of_lt (by omega) (by omega)]
  omega

/-- What is used of a section header. -/
def recordSection (r : Bytes) : Section := ⟨le32 r 16, le32 r 20⟩

theorem word32_bytes (b : Buffer) (i : Nat) {k n : Nat} (h : k + 4 ≤ n) :
    word32 b (i + k : Nat) = le32 (b.bytes i n) k := by
  unfold word32
  refine le32_congr fun j hj => ?_
  rw [Nat.zero_add, ← peek_eq b _ hj, ← peek_eq b _ (show k + j < n by omega)]
  push_cast
  rw [Int.add_assoc]

theorem sectionTable_eq (b : Buffer) : sectionTable b = (headerRecords b).map recordSection := by
  unfold sectionTable headerRecords
  rw [List.map_map]
  refine List.map_congr_left fun i _ => ?_
  simp only [Function.comp_apply, recordSection, ← word32_bytes b _ (show 16 + 4 ≤ 40 by decide),
    ← word32_bytes b _ (show 20 + 4 ≤ 40 by decide)]
  rfl

/-- Where no two offsets are 2 GiB apart, the sections are sorted by them. -/
theorem sorted_ascending (hd : Distinct u) (hn : Narrow u) {l : List Section}
    (hl : l.Perm (sectionTable u)) :
    (sortSections l).Pairwise fun x y => x.pointerToRawData < y.pointerToRawData := by
  rw [sortSections_eq]
  have hgt : ∀ x ∈ l, ∀ y ∈ l, after x y = true ↔ y.pointerToRawData < x.pointerToRawData :=
    fun x hx y hy => after_iff (hn x (hl.mem_iff.mp hx) y (hl.mem_iff.mp hy))
      (hn y (hl.mem_iff.mp hy) x (hl.mem_iff.mp hx))
  have hle := sort_ascending hgt
  have hne : (sort after l).Pairwise fun x y => x.pointerToRawData ≠ y.pointerToRawData :=
    List.pairwise_map.mp (((sort_perm l).trans hl).map _ |>.nodup_iff.mpr hd)
  exact (hle.and hne).imp fun h => Nat.lt_of_le_of_ne h.1 h.2

theorem sorted_unique (hd : Distinct u) (hn : Narrow u) {l : List Section}
    (hl : l.Perm (sectionTable u)) : sortSections l = sortSections (sectionTable u) := by
  have hperm : (sortSections l).Perm (sortSections (sectionTable u)) :=
    (sortSections_perm l).trans (hl.trans (sortSections_perm _).symm)
  exact hperm.eq_of_pairwise (fun a b _ _ h h' => absurd (Nat.lt_trans h h') (Nat.lt_irrefl _))
    (sorted_ascending hd hn hl) (sorted_ascending hd hn (.refl _))

theorem Rearranges.fields (h : WellFormed u) (hv : Rearranges u v) :
    peHdrOffset v = peHdrOffset u ∧ sizeOfHeaders v = sizeOfHeaders u ∧
      numberOfSections v = numberOfSections u ∧ signatureSize v = signatureSize u := by
  have hcs := checkSum_secDir u
  have hsec := h.secDir_le
  have htab := h.tableStart_le
  have hhead := h.headers
  obtain ⟨hpe, hn, -, hh⟩ := fields_congr fun i h0 h1 =>
    hv.keeps i h0 (by omega) (by omega)
  refine ⟨hpe, hh, hn, ?_⟩
  have hdir : secDir v = secDir u := by
    unfold secDir
    rw [hpe]
  unfold signatureSize
  rw [hdir]
  exact word32_congr fun k h1 h2 => hv.keeps k (by omega) (by omega) (by omega)

theorem Rearranges.sectionTable (hv : Rearranges u v) :
    (sectionTable v).Perm (sectionTable u) := by
  rw [sectionTable_eq, sectionTable_eq]
  exact hv.perm.map _

theorem Rearranges.recorded (h : WellFormed u) (hd : Distinct u) (hn : Narrow u)
    (hv : Rearranges u v) : recorded v = recorded u := by
  obtain ⟨hpe, hh, -, hsig⟩ := hv.fields h
  have hsort := sorted_unique hd hn hv.sectionTable
  unfold PeCoverage.recorded restRegion PeCoverage.sectionsEnd checkSum secDir
  rw [hpe, hh, hsort, hv.size, hsig]

/-- Behind the headers nothing is in the section table. -/
theorem Rearranges.behind (h : WellFormed u) (hv : Rearranges u v) :
    hashed v ((PeCoverage.recorded u).drop 3) = hashed u ((PeCoverage.recorded u).drop 3) := by
  have htab := h.tableStart_le
  have hlt := size_lt u
  have hkeep : ∀ i : Int, sizeOfHeaders u ≤ i → i < u.size → v.peek i = u.peek i :=
    fun i h1 h2 => hv.keeps i (by omega) h2 (by omega)
  rw [show (PeCoverage.recorded u).drop 3 =
    ((sortSections (PeImage.sectionTable u)).filter (·.sizeOfRawData ≠ 0)).map sectionRegion ++
      restRegion u from rfl, hashed_append, hashed_append]
  refine congrArg₂ (· ++ ·) ?_ ?_
  · refine hashed_congr fun r hr i h1 h2 => ?_
    obtain ⟨x, hx, rfl⟩ := List.mem_map.mp hr
    have hin := h.sections x (mem_sorted hx)
    dsimp only [sectionRegion] at h1 h2
    exact hkeep i (by omega) (by omega)
  · unfold restRegion
    cases ho : PeCoverage.sectionsEnd u with
    | none => rfl
    | some offset =>
      have hin := h.sectionsEnd ho
      dsimp only
      split
      · refine hashed_congr fun r hr i h1 h2 => ?_
        obtain rfl := List.mem_singleton.mp hr
        dsimp only at h1 h2
        rw [h.unsigned, toUintn_of_lt (by omega) (by omega)] at h2
        exact hkeep i (by omega) (by omega)
      · rfl

theorem Rearranges.sameSections (h : WellFormed u) (hpos : 0 < numberOfSections u)
    (hd : Distinct u) (hn : Narrow u) (hv : Rearranges u v) : SameSections u v := by
  obtain ⟨-, -, hnum, -⟩ := hv.fields h
  have hrec := hv.recorded h hd hn
  refine ⟨fun mem => ⟨parseImage_returns hpos, parseImage_returns (by omega)⟩, ?_,
    sorted_ascending hd hn hv.sectionTable⟩
  intro mem mem' image image' hu hv'
  rw [parseImage_ok hu, parseImage_ok hv', hrec]
  exact ⟨rfl, hv.behind h⟩

/-! ## Offsets that are far apart -/

theorem byteAt_flatten {rs : List Bytes} {n i k : Nat} (hlen : ∀ r ∈ rs, r.length = n)
    (hi : i < rs.length) (hk : k < n) : byteAt rs.flatten (n * i + k) = byteAt rs[i] k := by
  induction rs generalizing i with
  | nil => exact absurd hi (Nat.not_lt_zero _)
  | cons r rs ih =>
    have hr := hlen r (by simp)
    rw [List.flatten_cons, byteAt_append, hr]
    cases i with
    | zero =>
      rw [Nat.mul_zero, Nat.zero_add, if_pos hk]
      rfl
    | succ i =>
      rw [if_neg (by rw [Nat.mul_succ]; omega), show n * (i + 1) + k - n = n * i + k by
        rw [Nat.mul_succ]
        omega]
      exact ih (fun r hr => hlen r (by simp [hr])) (by simpa using hi)

theorem headerRecords_length {r : Bytes} (hr : r ∈ headerRecords b) : r.length = 40 := by
  obtain ⟨i, -, rfl⟩ := List.mem_map.mp hr
  exact bytes_length _ _ _

theorem length_headerRecords (b : Buffer) : (headerRecords b).length = numberOfSections b := by
  rw [headerRecords, List.length_map, List.length_range]

/-- The image with other bytes where the section headers start. -/
def rearranged (u : Buffer) (d : Bytes) (h : tableStart u + d.length ≤ u.data.length) : Buffer :=
  ⟨splice u.data (tableStart u) d, u.around, (length_splice h).symm ▸ u.size_lt⟩

section Rearranged

variable {d : Bytes} {hfit : tableStart u + d.length ≤ u.data.length}

theorem rearranged_size : (rearranged u d hfit).size = u.size :=
  congrArg Int.ofNat (length_splice hfit)

theorem rearranged_outside {i : Int}
    (h : ¬ (tableStart u ≤ i ∧ i < tableStart u + d.length)) :
    (rearranged u d hfit).peek i = u.peek i := by
  have hd : (rearranged u d hfit).data = splice u.data (tableStart u) d := rfl
  unfold Buffer.peek
  rw [rearranged_size, hd]
  split
  · rw [byteAt_splice hfit, if_neg (by omega)]
  · rfl

theorem rearranged_inside {k : Nat} (hk : k < d.length) :
    (rearranged u d hfit).peek (tableStart u + k : Nat) = byteAt d k := by
  have hd : (rearranged u d hfit).data = splice u.data (tableStart u) d := rfl
  have hs : u.size = u.data.length := rfl
  unfold Buffer.peek
  rw [rearranged_size, hd, if_pos (by omega), Int.toNat_natCast, byteAt_splice hfit,
    if_pos (by omega), Nat.add_sub_cancel_left]

end Rearranged

/-- The section headers can be put into any order. -/
theorem exists_rearranged (h : WellFormed u) {rs : List Bytes} (hp : rs.Perm (headerRecords u)) :
    ∃ v, Rearranges u v ∧ headerRecords v = rs := by
  have hsec := h.secDir_le
  have htab := h.tableStart_le
  have hhead := h.headers
  have hcs := checkSum_secDir u
  have hs : u.size = u.data.length := rfl
  have hlen : ∀ r ∈ rs, r.length = 40 := fun r hr => headerRecords_length (hp.mem_iff.mp hr)
  have hcount : rs.length = numberOfSections u := by rw [hp.length_eq, length_headerRecords]
  have hflat : rs.flatten.length = 40 * numberOfSections u := by
    rw [List.length_flatten, ← hcount, List.map_congr_left hlen]
    simp [Nat.mul_comm]
  have hend : tableEnd u = tableStart u + rs.flatten.length := by rw [hflat, tableEnd]
  have hfit : tableStart u + rs.flatten.length ≤ u.data.length := by omega
  have hkeeps : ∀ i : Int, 0 ≤ i → i < u.size → ¬ (tableStart u ≤ i ∧ i < tableEnd u) →
      (rearranged u rs.flatten hfit).peek i = u.peek i :=
    fun i _ _ hi => rearranged_outside (by omega)
  obtain ⟨hpe, hn, hopt, -⟩ := fields_congr fun i h0 h1 => hkeeps i h0 (by omega) (by omega)
  have hrecords : headerRecords (rearranged u rs.flatten hfit) = rs := by
    refine List.ext_getElem (by rw [length_headerRecords, hn, hcount]) fun i h1 h2 => ?_
    have hstart : tableStart (rearranged u rs.flatten hfit) = tableStart u := by
      unfold tableStart
      rw [hpe, hopt]
    have h40 := hlen rs[i] (List.getElem_mem h2)
    simp only [headerRecords, List.getElem_map, List.getElem_range, hstart]
    refine ext_byteAt (by rw [bytes_length, h40]) fun k hk => ?_
    rw [bytes_length] at hk
    have hin : 40 * i + k < rs.flatten.length := by omega
    have hat : ((tableStart u + 40 * i : Nat) : Int) + k = (tableStart u + (40 * i + k) : Nat) := by
      push_cast
      omega
    rw [← peek_eq _ _ hk, ← byteAt_flatten hlen h2 hk, hat, rearranged_inside hin]
  exact ⟨_, ⟨rearranged_size, hkeeps, by rw [hrecords]; exact hp⟩, hrecords⟩

theorem pointer_lt (r : Bytes) : (recordSection r).pointerToRawData < 2 ^ 32 := le32_lt _ _

/-- The difference to an offset 2 GiB and more in front is negative as an `int`. -/
theorem after_far {x y : Section} (hx : x.pointerToRawData < 2 ^ 32)
    (h : y.pointerToRawData + 2 ^ 31 ≤ x.pointerToRawData) : after x y = false := by
  unfold after PeImage.compare toInt
  rw [decide_eq_false_iff_not, Int.bmod_def]
  split <;> omega

/-- Ascending records, cut where they are 2 GiB behind the first one and put together the other
way round, stay as they are. -/
theorem chain_of_halves {x : Bytes} {rs : List Bytes}
    (h : (x :: rs).Pairwise fun a b =>
      (recordSection a).pointerToRawData ≤ (recordSection b).pointerToRawData) :
    ((x :: rs).filter (fun r => !decide ((recordSection r).pointerToRawData <
        (recordSection x).pointerToRawData + 2 ^ 31)) ++
      (x :: rs).filter fun r => decide ((recordSection r).pointerToRawData <
        (recordSection x).pointerToRawData + 2 ^ 31)).IsChain fun a b =>
      after (recordSection a) (recordSection b) = false := by
  have hmin : ∀ r ∈ x :: rs, (recordSection x).pointerToRawData ≤
      (recordSection r).pointerToRawData := by
    intro r hr
    rcases List.mem_cons.mp hr with rfl | hr
    · exact Nat.le_refl _
    · exact (List.pairwise_cons.mp h).1 r hr
  have hhalf : ∀ {p : Bytes → Bool}, (∀ a ∈ x :: rs, ∀ b ∈ x :: rs, p a = true → p b = true →
      (recordSection b).pointerToRawData < (recordSection a).pointerToRawData + 2 ^ 31) →
      ((x :: rs).filter p).IsChain fun a b =>
        after (recordSection a) (recordSection b) = false := by
    intro p hp
    refine List.Pairwise.isChain ((h.filter p).imp_of_mem fun {a b} ha hb hle => ?_)
    obtain ⟨ha, hpa⟩ := List.mem_filter.mp ha
    obtain ⟨hb, hpb⟩ := List.mem_filter.mp hb
    rw [← Bool.not_eq_true, after_iff (hp b hb a ha hpb hpa) (hp a ha b hb hpa hpb)]
    exact Nat.not_lt.mpr hle
  refine List.isChain_append.mpr ⟨hhalf fun a ha b hb h1 h2 => ?_, hhalf fun a ha b hb h1 h2 => ?_,
    fun a ha b hb => ?_⟩
  · have := pointer_lt b
    simp only [Bool.not_eq_true', decide_eq_false_iff_not] at h1
    omega
  · have := hmin a ha
    simp only [decide_eq_true_eq] at h2
    omega
  · obtain ⟨-, hfar⟩ := List.mem_filter.mp (List.mem_of_getLast? ha)
    rw [List.filter_cons_of_pos (by simp), List.head?_cons, Option.mem_some_iff] at hb
    subst hb
    simp only [Bool.not_eq_true', decide_eq_false_iff_not, Nat.not_lt] at hfar
    exact after_far (pointer_lt a) hfar

/-- Where two offsets are 2 GiB apart, the section headers can be in an order in which the sort
leaves them, though it is not ascending. -/
theorem exists_unsorted (h : WellFormed u) (hw : ¬ Narrow u) :
    ∃ v, Rearranges u v ∧ ¬ (sortSections (sectionTable v)).Pairwise
      fun x y => x.pointerToRawData < y.pointerToRawData := by
  have hfar : ∃ x ∈ headerRecords u, ∃ y ∈ headerRecords u,
      (recordSection y).pointerToRawData + 2 ^ 31 ≤ (recordSection x).pointerToRawData := by
    simp only [Narrow, not_forall, Nat.not_lt] at hw
    obtain ⟨x, hx, y, hy, hxy⟩ := hw
    rw [sectionTable_eq] at hx hy
    obtain ⟨r, hr, rfl⟩ := List.mem_map.mp hx
    obtain ⟨r', hr', rfl⟩ := List.mem_map.mp hy
    exact ⟨r, hr, r', hr', hxy⟩
  obtain ⟨last, hlast, other, hother, hwide⟩ := hfar
  have hperm := List.mergeSort_perm (headerRecords u) fun a b =>
    decide ((recordSection a).pointerToRawData ≤ (recordSection b).pointerToRawData)
  have hsorted := @List.pairwise_mergeSort _ (fun a b : Bytes =>
    decide ((recordSection a).pointerToRawData ≤ (recordSection b).pointerToRawData))
    (fun a b c => by simp only [decide_eq_true_eq]; omega)
    (fun a b => by simp only [Bool.or_eq_true, decide_eq_true_eq]; omega) (headerRecords u)
  simp only [decide_eq_true_eq] at hsorted
  generalize List.mergeSort (headerRecords u) _ = rs at hperm hsorted
  cases rs with
  | nil => rw [← hperm.mem_iff] at hlast; cases hlast
  | cons x rs =>
    have hchain := chain_of_halves hsorted
    have hhalves := (List.perm_append_comm.trans (List.filter_append_perm (fun r : Bytes =>
      decide ((recordSection r).pointerToRawData < (recordSection x).pointerToRawData + 2 ^ 31))
      (x :: rs))).trans hperm
    obtain ⟨v, hv, hrecords⟩ := exists_rearranged h hhalves
    refine ⟨v, hv, fun hasc => ?_⟩
    rw [sectionTable_eq, hrecords, sortSections_eq, sort_of_chain ((List.isChain_map _).mpr hchain),
      List.map_append, List.pairwise_append] at hasc
    have hmin : (recordSection x).pointerToRawData ≤ (recordSection other).pointerToRawData := by
      rcases List.mem_cons.mp (hperm.mem_iff.mpr hother) with rfl | ho
      · exact Nat.le_refl _
      · exact (List.pairwise_cons.mp hsorted).1 other ho
    have hlt := hasc.2.2 (recordSection last) (List.mem_map_of_mem (List.mem_filter.mpr
      ⟨hperm.mem_iff.mpr hlast, by simp; omega⟩)) (recordSection x)
      (List.mem_map_of_mem (List.mem_filter.mpr ⟨by simp, by simp⟩))
    omega

/-! ## The exact condition -/

theorem Rearranges.refl (u : Buffer) : Rearranges u u := ⟨rfl, fun _ _ _ _ => rfl, .refl _⟩

theorem parseImage_stuck (h : WellFormed u) (h0 : numberOfSections u = 0) :
    parseImage u (fun _ => true) = .stuck := by
  have hd := h.dos
  have htable : sectionTable u = [] := by
    unfold sectionTable
    rw [h0]
    rfl
  have hsig : parseSignature u (signatureAddress u) (signatureSize u) = .ok none := by
    rw [h.unsigned]
    rfl
  unfold parseImage
  rw [if_neg (by omega), if_neg (not_not.mpr hd.2), hsig, htable]
  rfl

def sectionRecord (x : Section) : Bytes :=
  List.replicate 16 0 ++ enc32 x.sizeOfRawData ++ enc32 x.pointerToRawData ++ List.replicate 16 0

/-- Headers of 320 bytes, the last 80 of which are the section headers. -/
def twoHeaders (x y : Section) : Bytes :=
  [0x4D, 0x5A] ++ List.replicate 58 0 ++ enc32 64 ++ List.replicate 6 0 ++ enc16 2 ++
    List.replicate 12 0 ++ enc16 152 ++ List.replicate 62 0 ++ enc32 320 ++ List.replicate 88 0 ++
    sectionRecord x ++ sectionRecord y

theorem length_twoHeaders (x y : Section) : (twoHeaders x y).length = 320 := by
  simp only [twoHeaders, sectionRecord, List.length_append, List.length_replicate, length_enc32,
    length_enc16, List.length_cons, List.length_nil]

/-- An image with two section headers and `n` zeroes behind them. -/
def twoSections (x y : Section) (n : Nat) (h : 320 + n < 2 ^ 32) : Buffer where
  data := twoHeaders x y ++ List.replicate n 0
  around _ := 0
  size_lt := by
    rw [List.length_append, length_twoHeaders, List.length_replicate]
    omega

section TwoSections

variable {x y : Section} {n : Nat} {h : 320 + n < 2 ^ 32}

theorem twoSections_size : (twoSections x y n h).size = 320 + n := by
  unfold Buffer.size twoSections
  rw [List.length_append, length_twoHeaders, List.length_replicate]
  rfl

theorem twoSections_peek {i : Nat} (hi : i < 320) :
    (twoSections x y n h).peek i = byteAt (twoHeaders x y) i := by
  unfold Buffer.peek
  rw [twoSections_size, if_pos (by omega), Int.toNat_natCast, twoSections, byteAt_append,
    if_pos (by rw [length_twoHeaders]; exact hi)]

theorem twoSections_word32 {i : Nat} (hi : i + 4 ≤ 320) :
    word32 (twoSections x y n h) i = le32 (twoHeaders x y) i := by
  unfold word32
  refine le32_congr fun k hk => ?_
  rw [Nat.zero_add, ← peek_eq _ _ hk, ← twoSections_peek (by omega)]
  push_cast
  rfl

theorem twoSections_word16 {i : Nat} (hi : i + 2 ≤ 320) :
    word16 (twoSections x y n h) i = le16 (twoHeaders x y) i := by
  unfold word16
  refine le16_congr fun k hk => ?_
  rw [Nat.zero_add, ← peek_eq _ _ hk, ← twoSections_peek (by omega)]
  push_cast
  rfl

theorem twoSections_magic : word16 (twoSections x y n h) 0 = dosSignature := by
  have h0 : byteAt (twoHeaders x y) 0 = 0x4D := rfl
  have h1 : byteAt (twoHeaders x y) 1 = 0x5A := rfl
  have hword := @twoSections_word16 x y n h 0 (by decide)
  rw [Nat.cast_zero, le16, h0, Nat.zero_add, h1] at hword
  rw [hword]
  decide

theorem twoSections_peHdrOffset : peHdrOffset (twoSections x y n h) = 64 :=
  (twoSections_word32 (by decide) : word32 _ (60 : Nat) = _).trans rfl

theorem twoSections_numberOfSections : numberOfSections (twoSections x y n h) = 2 := by
  unfold numberOfSections
  rw [twoSections_peHdrOffset]
  exact (twoSections_word16 (by decide) : word16 _ (70 : Nat) = _).trans rfl

theorem twoSections_sizeOfOptionalHeader : sizeOfOptionalHeader (twoSections x y n h) = 152 := by
  unfold sizeOfOptionalHeader
  rw [twoSections_peHdrOffset]
  exact (twoSections_word16 (by decide) : word16 _ (84 : Nat) = _).trans rfl

theorem twoSections_sizeOfHeaders : sizeOfHeaders (twoSections x y n h) = 320 := by
  unfold sizeOfHeaders
  rw [twoSections_peHdrOffset]
  exact (twoSections_word32 (by decide) : word32 _ (148 : Nat) = _).trans rfl

theorem twoSections_signatureSize : signatureSize (twoSections x y n h) = 0 := by
  unfold signatureSize secDir
  rw [twoSections_peHdrOffset]
  exact (twoSections_word32 (by decide) : word32 _ (236 : Nat) = _).trans rfl

theorem twoSections_table (hx : x.sizeOfRawData < 2 ^ 32 ∧ x.pointerToRawData < 2 ^ 32)
    (hy : y.sizeOfRawData < 2 ^ 32 ∧ y.pointerToRawData < 2 ^ 32) :
    sectionTable (twoSections x y n h) = [x, y] := by
  have hword : ∀ {i v : Nat}, i + 4 ≤ 320 → le32 (twoHeaders x y) i = le32 (enc32 v) 0 →
      v < 2 ^ 32 → word32 (twoSections x y n h) i = v := by
    intro i v hi hle hv
    rw [twoSections_word32 hi, hle, le32_enc32, u32_of_lt hv]
  have hxs := @hword 256 x.sizeOfRawData (by decide) rfl hx.1
  have hxp := @hword 260 x.pointerToRawData (by decide) rfl hx.2
  have hys := @hword 296 y.sizeOfRawData (by decide) rfl hy.1
  have hyp := @hword 300 y.pointerToRawData (by decide) rfl hy.2
  unfold sectionTable
  rw [twoSections_peHdrOffset, twoSections_numberOfSections, twoSections_sizeOfOptionalHeader]
  simp only [List.range_succ, List.range_zero, List.nil_append, List.cons_append, List.map_cons,
    List.map_nil]
  rw [hxs, hxp, hys, hyp]

theorem twoSections_wellFormed
    (hx : 320 ≤ x.pointerToRawData ∧ x.pointerToRawData + x.sizeOfRawData ≤ 320 + n)
    (hy : 320 ≤ y.pointerToRawData ∧ y.pointerToRawData + y.sizeOfRawData ≤ 320 + n) :
    WellFormed (twoSections x y n h) := by
  have htable := @twoSections_table x y n h (by omega) (by omega)
  refine ⟨⟨?_, ?_⟩, twoSections_signatureSize, ?_, ?_, ?_, fun z hz => ?_, ?_⟩
  · rw [twoSections_size]
    omega
  · exact twoSections_magic
  · rw [twoSections_sizeOfOptionalHeader]
  · rw [tableEnd, tableStart, twoSections_peHdrOffset, twoSections_sizeOfOptionalHeader,
      twoSections_numberOfSections, twoSections_sizeOfHeaders]
  · rw [twoSections_sizeOfHeaders, twoSections_size]
    omega
  · rw [htable] at hz
    rw [twoSections_sizeOfHeaders, twoSections_size]
    rcases List.mem_cons.mp hz with rfl | hz
    · omega
    · obtain rfl := List.mem_singleton.mp hz
      omega
  · rw [twoSections_size]
    omega

end TwoSections

end LsvmTools.PeSigning
