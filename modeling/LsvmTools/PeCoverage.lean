import LsvmTools.CpioSafe
import LsvmTools.Lib.Ranges
import LsvmTools.PeImage

/-! # What the hash of an image covers

The regions of an image are all of it but the checksum, the security directory entry and
the certificate table exactly where the headers, the sections and the rest of the image
follow one another, with the certificate table in the only gap. -/
namespace LsvmTools.PeCoverage
open Lib.ByteString Lib.Program Lib.Ranges Cpio CpioFormat CpioSafe PeImage

variable {b b' : Buffer} {mem : Nat → Bool} {image : Image} {regions : List Region}

/-! ## Coverage -/

def Has (r : Region) (i : Int) : Prop := r.data ≤ i ∧ i < r.data + r.size

/-- The checksum, the security directory entry and the certificate table. -/
def Excluded (b : Buffer) (i : Int) : Prop :=
  (checkSum b ≤ i ∧ i < checkSum b + 4) ∨ (secDir b ≤ i ∧ i < secDir b + 8) ∨
    signatureAddress b ≤ i ∧ i < signatureAddress b + signatureSize b

/-- The byte sequence that is hashed. -/
def hashed (b : Buffer) (regions : List Region) : Bytes := regions.flatMap (regionBytes b)

/-- The regions lie in the image, do not meet, and are all of it but what is excluded. -/
structure Covers (b : Buffer) (image : Image) : Prop where
  inside : ∀ r ∈ image.regions, 0 ≤ r.data ∧ r.data + r.size ≤ b.size
  disjoint : image.regions.Pairwise fun r r' => ∀ i, Has r i → ¬ Has r' i
  bytes : ∀ i, 0 ≤ i → i < b.size → ((∃ r ∈ image.regions, Has r i) ↔ ¬ Excluded b i)
  changes : ∀ b' : Buffer, b'.size = b.size →
    (∃ i, 0 ≤ i ∧ i < b.size ∧ ¬ Excluded b i ∧ b'.peek i ≠ b.peek i) →
    hashed b' image.regions ≠ hashed b image.regions

/-- The certificate table. -/
def certificates (b : Buffer) : Range :=
  ⟨signatureAddress b, signatureAddress b + signatureSize b⟩

/-- Where the raw data of the final section ends. -/
def sectionsEnd (b : Buffer) : Option Nat :=
  ((sortSections (sectionTable b)).getLast?).map endOfSection

def sectionRange (x : Section) : Range :=
  ⟨x.pointerToRawData, x.pointerToRawData + x.sizeOfRawData⟩

/-- The headers after the security directory entry, the raw data of the sections, and what
follows the final one up to the size of the certificate table from the end. -/
def pieces (b : Buffer) : List Range :=
  ⟨secDir b + 8, sizeOfHeaders b⟩ :: (sectionTable b).map sectionRange ++
    match sectionsEnd b with
    | some offset => if offset < b.size then [⟨offset, b.size - signatureSize b⟩] else []
    | none => []

/-- The pieces follow one another from the security directory entry to the end of the
image, but for the certificate table; and nothing of the headers or the pieces is in it. -/
structure Whole (b : Buffer) : Prop where
  headers : secDir b + 8 ≤ sizeOfHeaders b ∧ sizeOfHeaders b ≤ b.size
  rest : ∀ offset ∈ sectionsEnd b, offset < b.size → offset + signatureSize b ≤ b.size
  apart : ∀ r ∈ ⟨0, checkSum b⟩ :: ⟨checkSum b + 4, secDir b⟩ :: pieces b,
    r.Apart (certificates b)
  follow : Follow (certificates b) (secDir b + 8) (ordered (pieces b)) b.size

/-! ## What is recorded -/

def sectionRegion (x : Section) : Region := ⟨x.pointerToRawData, x.sizeOfRawData⟩

theorem appendRegion_ok {data size : Int} {out : List Region}
    (h : appendRegion mem regions data size = .ok out) : out = regions ++ [⟨data, size⟩] := by
  unfold appendRegion at h
  split at h
  · cases h; rfl
  · cases h

theorem appendSections_ok {sections : List Section} {out : List Region}
    (h : appendSections mem sections regions = .ok out) :
    out = regions ++ (sections.filter (·.sizeOfRawData ≠ 0)).map sectionRegion := by
  induction sections generalizing regions with
  | nil => cases h; simp
  | cons x rest ih =>
    rw [appendSections] at h
    split at h
    · rename_i hx
      obtain ⟨out', h1, h2⟩ := Out.bind_eq_ok.mp h
      rw [ih h2, appendRegion_ok h1]
      simp [hx, sectionRegion]
    · rename_i hx
      rw [ih h]
      simp [hx]

def restRegion (b : Buffer) : List Region :=
  match sectionsEnd b with
  | some offset =>
    if offset < b.size then [⟨offset, toUintn (b.size - signatureSize b - offset)⟩] else []
  | none => []

theorem appendRest_ok {out : List Region}
    (h : appendRest b mem (sortSections (sectionTable b)) regions = .ok out) :
    out = regions ++ restRegion b := by
  unfold appendRest at h
  unfold restRegion sectionsEnd
  split at h
  · cases h
  · rename_i x hx
    rw [hx]
    simp only at h
    split at h
    · rename_i hlt
      rw [appendRegion_ok h]
      simp [hlt]
    · rename_i hlt
      cases h
      simp [hlt]

/-- The regions of an image that is accepted. -/
def recorded (b : Buffer) : List Region :=
  ⟨0, checkSum b⟩ :: ⟨checkSum b + 4, secDir b - (checkSum b + 4)⟩ ::
    ⟨secDir b + 8, toUintn (sizeOfHeaders b - (secDir b + 8))⟩ ::
    ((sortSections (sectionTable b)).filter (·.sizeOfRawData ≠ 0)).map sectionRegion ++ restRegion b

theorem parseImage_ok (h : parseImage b mem = .ok image) : image.regions = recorded b := by
  unfold parseImage at h
  split at h
  · cases h
  · split at h
    · cases h
    · obtain ⟨r1, h1, h⟩ := Out.bind_eq_ok.mp h
      obtain ⟨signature, -, h⟩ := Out.bind_eq_ok.mp h
      obtain ⟨r2, h2, h⟩ := Out.bind_eq_ok.mp h
      obtain ⟨r3, h3, h⟩ := Out.bind_eq_ok.mp h
      split at h
      · cases h
      · obtain ⟨r4, h4, h⟩ := Out.bind_eq_ok.mp h
        obtain ⟨r5, h5, h⟩ := Out.bind_eq_ok.mp h
        cases h
        rw [appendRest_ok h5, appendSections_ok h4, appendRegion_ok h3, appendRegion_ok h2,
          appendRegion_ok h1]
        simp [recorded]

/-! ## Sorting -/

theorem bubble_perm (x : Section) (rest : List Section) : (bubble x rest).Perm (x :: rest) := by
  induction rest generalizing x with
  | nil => exact .refl _
  | cons y rest ih =>
    rw [bubble]
    split
    · exact ((ih x).cons y).trans (.swap x y rest)
    · exact (ih y).cons x

theorem pass_perm (sections : List Section) : (pass sections).Perm sections := by
  cases sections with
  | nil => exact .refl _
  | cons x rest => exact bubble_perm x rest

theorem passes_perm (n : Nat) (sections : List Section) : (pass^[n] sections).Perm sections := by
  induction n with
  | zero => exact .refl _
  | succ n ih =>
    rw [Function.iterate_succ_apply']
    exact (pass_perm _).trans ih

theorem sortSections_perm (sections : List Section) : (sortSections sections).Perm sections :=
  passes_perm _ sections

theorem compare_pos {x y : Section} (hx : x.pointerToRawData < 2 ^ 31)
    (hy : y.pointerToRawData < 2 ^ 31) :
    compare x y > 0 ↔ y.pointerToRawData < x.pointerToRawData := by
  unfold PeImage.compare
  rw [toInt_of_lt (by omega) (by omega)]
  omega

/-- A pass moves a section that starts last to the end. -/
theorem bubble_last {x : Section} {rest : List Section}
    (hlt : ∀ y ∈ x :: rest, y.pointerToRawData < 2 ^ 31) :
    ∃ y, (bubble x rest).getLast? = some y ∧
      ∀ z ∈ x :: rest, z.pointerToRawData ≤ y.pointerToRawData := by
  induction rest generalizing x with
  | nil => exact ⟨x, rfl, fun z hz => by rw [List.mem_singleton.mp hz]⟩
  | cons y rest ih =>
    have hcompare := compare_pos (hlt x (by simp)) (hlt y (by simp))
    have hnil : ∀ z : Section, bubble z rest ≠ [] := fun z hz => by
      have := (bubble_perm z rest).length_eq
      rw [hz] at this
      cases this
    rw [bubble]
    split
    · rename_i hgt
      obtain ⟨m, hm, hmax⟩ := ih (x := x) fun z hz => hlt z (by
        rcases List.mem_cons.mp hz with rfl | hz <;> simp [*])
      refine ⟨m, by rw [List.getLast?_cons_of_ne_nil (hnil x)]; exact hm, fun z hz => ?_⟩
      have hxm := hmax x (by simp)
      have hyx := hcompare.mp hgt
      rcases List.mem_cons.mp hz with rfl | hz
      · exact hxm
      · rcases List.mem_cons.mp hz with rfl | hz
        · omega
        · exact hmax z (by simp [hz])
    · rename_i hle
      obtain ⟨m, hm, hmax⟩ := ih (x := y) fun z hz => hlt z (by simp [hz])
      refine ⟨m, by rw [List.getLast?_cons_of_ne_nil (hnil y)]; exact hm, fun z hz => ?_⟩
      have hym := hmax y (by simp)
      rcases List.mem_cons.mp hz with rfl | hz
      · have := mt hcompare.mpr hle
        omega
      · exact hmax z hz

/-- Below 2 GiB the final section is one that starts last. -/
theorem final_section {sections : List Section} {y : Section}
    (hlt : ∀ x ∈ sections, x.pointerToRawData < 2 ^ 31)
    (hy : (sortSections sections).getLast? = some y) :
    ∀ x ∈ sections, x.pointerToRawData ≤ y.pointerToRawData := by
  intro x hx
  by_cases h1 : sections.length ≤ 1
  · obtain ⟨z, rfl⟩ := List.length_eq_one_iff.mp (show sections.length = 1 by
      have := List.length_pos_of_mem hx
      omega)
    have hz : y = z := by simpa [sortSections, PeImage.pass, bubble] using hy.symm
    rw [List.mem_singleton.mp hx, hz]
  · obtain ⟨n, hn⟩ : ∃ n, sections.length - 1 = n + 1 := ⟨sections.length - 2, by omega⟩
    have hprev := passes_perm n sections
    unfold sortSections at hy
    rw [hn, Function.iterate_succ_apply'] at hy
    cases hl : pass^[n] sections with
    | nil =>
      rw [hl] at hprev
      rw [hprev.symm.eq_nil] at hx
      cases hx
    | cons z rest =>
      rw [hl] at hprev hy
      obtain ⟨m, hm, hmax⟩ := bubble_last (x := z)
        fun w hw => hlt w (hprev.mem_iff.mp hw)
      rw [PeImage.pass, hm] at hy
      cases hy
      exact hmax x (hprev.mem_iff.mpr hx)

/-! ## Regions as ranges -/

def range (r : Region) : Range := ⟨r.data, r.data + r.size⟩

/-- The pieces in the order in which they are recorded. -/
def sorted (b : Buffer) : List Range :=
  ⟨secDir b + 8, sizeOfHeaders b⟩ ::
    ((sortSections (sectionTable b)).filter (·.sizeOfRawData ≠ 0)).map sectionRange ++
    match sectionsEnd b with
    | some offset => if offset < b.size then [⟨offset, b.size - signatureSize b⟩] else []
    | none => []

theorem same_pieces (b : Buffer) : Same (pieces b) (sorted b) := by
  have hsections : (((sectionTable b).map sectionRange).filter fun r => decide r.Nonempty).Perm
      ((((sortSections (sectionTable b)).filter (·.sizeOfRawData ≠ 0)).map sectionRange).filter
        fun r => decide r.Nonempty) := by
    have hne : ∀ x : Section, decide (sectionRange x).Nonempty = decide (x.sizeOfRawData ≠ 0) := by
      intro x
      refine decide_eq_decide.mpr ?_
      show (x.pointerToRawData : Int) < x.pointerToRawData + x.sizeOfRawData ↔ _
      omega
    have hfilter : ∀ l : List Section, ((l.filter (·.sizeOfRawData ≠ 0)).map sectionRange).filter
        (fun r => decide r.Nonempty) = (l.map sectionRange).filter fun r => decide r.Nonempty := by
      intro l
      rw [List.filter_map, List.filter_map, List.filter_filter]
      congr 1
      refine List.filter_congr fun x _ => ?_
      simp only [Function.comp_apply, hne, Bool.and_self]
    rw [hfilter]
    exact ((sortSections_perm _).symm.map _).filter _
  unfold Same pieces sorted
  rw [List.filter_append, List.filter_append]
  refine List.Perm.append ?_ (.refl _)
  rw [List.filter_cons, List.filter_cons]
  split
  · exact hsections.cons _
  · exact hsections

theorem word32_lt (b : Buffer) (i : Int) : word32 b i < 2 ^ 32 := le32_lt ..

/-- A size that would be negative is larger than any image. -/
theorem toUintn_neg {x : Int} (h0 : x < 0) (h : -2 ^ 35 < x) : 2 ^ 63 < toUintn x := by
  unfold toUintn
  omega

theorem sizeOfHeaders_lt (b : Buffer) : sizeOfHeaders b < 2 ^ 32 := word32_lt ..

theorem signatureSize_lt (b : Buffer) : signatureSize b < 2 ^ 32 := word32_lt ..

theorem secDir_lt (b : Buffer) : secDir b < 2 ^ 33 := by
  have := word32_lt b 60
  unfold secDir peHdrOffset
  omega

theorem checkSum_secDir (b : Buffer) : secDir b = checkSum b + 80 := rfl

theorem sectionsEnd_lt {offset : Nat} (h : offset ∈ sectionsEnd b) : offset < 2 ^ 32 := by
  obtain ⟨x, -, rfl⟩ := Option.mem_map.mp h
  exact u32_lt _

/-- Where the sizes do not wrap, the ranges of the regions are these. -/
theorem recorded_ranges (hheaders : secDir b + 8 ≤ sizeOfHeaders b)
    (hrest : ∀ offset ∈ sectionsEnd b, offset < b.size → offset + signatureSize b ≤ b.size) :
    (recorded b).map range = ⟨0, checkSum b⟩ :: ⟨checkSum b + 4, secDir b⟩ :: sorted b := by
  have hh := sizeOfHeaders_lt b
  have hlt := size_lt b
  have hsize : toUintn ((sizeOfHeaders b : Int) - (secDir b + 8)) =
      sizeOfHeaders b - (secDir b + 8) := toUintn_of_lt (by omega) (by omega)
  have htail : (restRegion b).map range = match sectionsEnd b with
      | some offset => if offset < b.size then [⟨offset, b.size - signatureSize b⟩] else []
      | none => [] := by
    unfold restRegion
    cases hend : sectionsEnd b with
    | none => rfl
    | some offset =>
      simp only
      split
      · rename_i hin
        have hle := hrest offset hend hin
        rw [toUintn_of_lt (by omega) (by omega)]
        simp only [List.map_cons, List.map_nil, range, List.cons.injEq, Range.mk.injEq, and_true,
          true_and]
        omega
      · rfl
  have hsections : ∀ l : List Section, (l.map sectionRegion).map range = l.map sectionRange := by
    intro l
    rw [List.map_map]
    rfl
  unfold recorded sorted
  rw [List.map_append, List.map_cons, List.map_cons, List.map_cons, hsections, htail, hsize]
  simp only [range, List.cons_append, List.cons.injEq, Range.mk.injEq, and_true, true_and]
  omega

/-! ## The exact condition -/

theorem headers_of_inside (h : ∀ r ∈ recorded b, 0 ≤ r.data ∧ r.data + r.size ≤ b.size) :
    secDir b + 8 ≤ sizeOfHeaders b ∧ sizeOfHeaders b ≤ b.size := by
  have hlt := size_lt b
  have hs := secDir_lt b
  have hh := sizeOfHeaders_lt b
  have hregion := h ⟨secDir b + 8, toUintn (sizeOfHeaders b - (secDir b + 8))⟩ (by
    unfold recorded
    simp)
  simp only at hregion
  by_cases hle : secDir b + 8 ≤ sizeOfHeaders b
  · rw [toUintn_of_lt (by omega) (by omega)] at hregion
    exact ⟨hle, by omega⟩
  · have := toUintn_neg (x := (sizeOfHeaders b : Int) - (secDir b + 8)) (by omega) (by omega)
    omega

theorem rest_of_inside (h : ∀ r ∈ recorded b, 0 ≤ r.data ∧ r.data + r.size ≤ b.size) :
    ∀ offset ∈ sectionsEnd b, offset < b.size → offset + signatureSize b ≤ b.size := by
  intro offset hend hin
  have hlt := size_lt b
  have hs := signatureSize_lt b
  have ho := sectionsEnd_lt hend
  have hregion := h ⟨offset, toUintn (b.size - signatureSize b - offset)⟩ (by
    unfold recorded restRegion
    rw [Option.mem_def.mp hend]
    simp [hin])
  simp only at hregion
  by_contra hne
  have := toUintn_neg (x := b.size - signatureSize b - offset) (by omega) (by omega)
  omega

/-- A byte that is hashed from one place only shows in the hash. -/
theorem hashed_ne {i : Int} {r : Region} (hr : r ∈ regions) (hi : Has r i)
    (hne : b'.peek i ≠ b.peek i) : hashed b' regions ≠ hashed b regions := by
  intro heq
  induction regions with
  | nil => cases hr
  | cons r' rest ih =>
    unfold hashed at heq
    rw [List.flatMap_cons, List.flatMap_cons] at heq
    obtain ⟨h1, h2⟩ := List.append_inj heq (by
      unfold regionBytes
      rw [bytes_length, bytes_length])
    rcases List.mem_cons.mp hr with rfl | hr
    · have hk := peek_eq b' r.data (k := (i - r.data).toNat) (n := r.size.toNat) (by
        have := hi.1
        have := hi.2
        omega)
      have hk' := peek_eq b r.data (k := (i - r.data).toNat) (n := r.size.toNat) (by
        have := hi.1
        have := hi.2
        omega)
      unfold regionBytes at h1
      rw [h1, ← hk', show r.data + ((i - r.data).toNat : Int) = i by have := hi.1; omega] at hk
      exact hne hk
    · exact ih hr h2

theorem exists_range {i : Int} (rs : List Region) :
    (∃ r ∈ rs, Has r i) ↔ ∃ x ∈ rs.map range, x.Has i := by
  constructor
  · rintro ⟨r, hr, hi⟩
    exact ⟨range r, List.mem_map_of_mem hr, hi⟩
  · rintro ⟨x, hx, hi⟩
    obtain ⟨r, hr, rfl⟩ := List.mem_map.mp hx
    exact ⟨r, hr, hi⟩

theorem inside_iff (rs : List Region) :
    (∀ r ∈ rs, 0 ≤ r.data ∧ r.data + r.size ≤ b.size) ↔
      ∀ x ∈ rs.map range, 0 ≤ x.lo ∧ x.hi ≤ b.size := by
  rw [List.forall_mem_map]
  rfl

theorem disjoint_iff (rs : List Region) :
    (rs.Pairwise fun r r' => ∀ i, Has r i → ¬ Has r' i) ↔ (rs.map range).Pairwise Range.Apart := by
  rw [List.pairwise_map]
  rfl

theorem Covers.whole (hregions : image.regions = recorded b) (h : Covers b image) : Whole b := by
  obtain ⟨hinside, hdisjoint, hbytes, -⟩ := h
  rw [hregions] at hinside hdisjoint hbytes
  have hheaders := headers_of_inside hinside
  have hrest := rest_of_inside hinside
  have hranges := recorded_ranges hheaders.1 hrest
  have hcs := checkSum_secDir b
  rw [inside_iff, hranges] at hinside
  rw [disjoint_iff, hranges] at hdisjoint
  have hcover : ∀ i, 0 ≤ i → i < b.size →
      ((∃ x ∈ ⟨0, checkSum b⟩ :: ⟨checkSum b + 4, secDir b⟩ :: sorted b, x.Has i) ↔
        ¬ Excluded b i) := by
    intro i h0 h1
    rw [← hranges, ← exists_range]
    exact hbytes i h0 h1
  obtain ⟨hfirst, htail⟩ := List.pairwise_cons.mp hdisjoint
  obtain ⟨hsecond, htail⟩ := List.pairwise_cons.mp htail
  -- A byte of a range is in the image, so it is not excluded.
  have hout : ∀ x ∈ (⟨0, checkSum b⟩ : Range) :: ⟨checkSum b + 4, secDir b⟩ :: sorted b,
      ∀ i, x.Has i → ¬ Excluded b i := by
    intro x hx i hi
    have hin := hinside x hx
    have h1 := hi.1
    have h2 := hi.2
    exact (hcover i (by omega) (by omega)).mp ⟨x, hx, hi⟩
  have hsorted : ∀ x ∈ sorted b, x.Nonempty → secDir b + 8 ≤ x.lo ∧ x.hi ≤ b.size := by
    intro x hx hne
    have hin := hinside x (by simp [hx])
    have hhas : x.Has x.lo := ⟨Int.le_refl _, hne⟩
    have h1 := hfirst x (by simp [hx]) x.lo
    have h2 := hsecond x hx x.lo
    have h3 := hout x (by simp [hx]) x.lo hhas
    unfold Range.Has at h1 h2
    unfold Excluded at h3
    refine ⟨?_, hin.2⟩
    by_contra hlt
    by_cases hc1 : x.lo < checkSum b
    · exact h1 ⟨hin.1, hc1⟩ hhas
    · by_cases hc2 : x.lo < secDir b
      · by_cases hc3 : x.lo < checkSum b + 4
        · exact h3 (.inl ⟨by omega, hc3⟩)
        · exact h2 ⟨by simp only; omega, hc2⟩ hhas
      · exact h3 (.inr (.inl ⟨by omega, by omega⟩))
  refine ⟨hheaders, hrest, ?_, (follow_ordered (same_pieces b)).mpr
    ⟨by omega, hsorted, htail, fun i h0 h1 => ?_⟩⟩
  · have hcert : ∀ x ∈ (⟨0, checkSum b⟩ : Range) :: ⟨checkSum b + 4, secDir b⟩ :: sorted b,
        x.Apart (certificates b) := fun x hx i hi hc => hout x hx i hi (.inr (.inr hc))
    have hpieces : ∀ x ∈ pieces b, x.Apart (certificates b) :=
      (same_pieces b).symm.forall_apart fun x hx => hcert x (by simp [hx])
    intro x hx
    rcases List.mem_cons.mp hx with rfl | hx
    · exact hcert _ (by simp)
    · rcases List.mem_cons.mp hx with rfl | hx
      · exact hcert _ (by simp)
      · exact hpieces x hx
  · by_cases hc : (certificates b).Has i
    · exact .inr hc
    · have hex : ¬ Excluded b i := by
        rintro (he | he | he)
        · omega
        · omega
        · exact hc he
      obtain ⟨x, hx, hi⟩ := (hcover i (by omega) h1).mpr hex
      rcases List.mem_cons.mp hx with rfl | hx
      · have := hi.2
        simp only at this
        omega
      · rcases List.mem_cons.mp hx with rfl | hx
        · have := hi.2
          simp only at this
          omega
        · exact .inl ⟨x, hx, hi⟩

/-- Empty pieces lie in the image too. -/
theorem sorted_inside (hheaders : secDir b + 8 ≤ sizeOfHeaders b ∧ sizeOfHeaders b ≤ b.size)
    (hsorted : ∀ x ∈ sorted b, x.Nonempty → secDir b + 8 ≤ x.lo ∧ x.hi ≤ b.size) :
    ∀ x ∈ sorted b, 0 ≤ x.lo ∧ x.hi ≤ b.size := by
  intro x hx
  by_cases hne : x.Nonempty
  · have := hsorted x hx hne
    omega
  · have hx' := hx
    unfold sorted at hx'
    rcases List.mem_append.mp hx' with hx' | hx'
    · rcases List.mem_cons.mp hx' with rfl | hx'
      · exact ⟨by simp only; omega, hheaders.2⟩
      · obtain ⟨y, hy, rfl⟩ := List.mem_map.mp hx'
        have hy' : y.sizeOfRawData ≠ 0 := by simpa using (List.mem_filter.mp hy).2
        refine absurd ?_ hne
        show (y.pointerToRawData : Int) < y.pointerToRawData + y.sizeOfRawData
        omega
    · split at hx'
      · split at hx'
        · rw [List.mem_singleton.mp hx']
          exact ⟨by simp only; omega, by simp only; omega⟩
        · cases hx'
      · cases hx'

theorem Whole.covers (hregions : image.regions = recorded b) (h : Whole b) : Covers b image := by
  obtain ⟨hheaders, hrest, hapart, hfollow⟩ := h
  have hranges := recorded_ranges hheaders.1 hrest
  have hcs := checkSum_secDir b
  obtain ⟨-, hsorted, htail, hall⟩ := (follow_ordered (same_pieces b)).mp hfollow
  have hcert : ∀ x ∈ sorted b, x.Apart (certificates b) :=
    (same_pieces b).forall_apart fun x hx => hapart x (by simp [hx])
  have hfirst := hapart ⟨0, checkSum b⟩ (by simp)
  have hsecond := hapart ⟨checkSum b + 4, secDir b⟩ (by simp)
  -- What is recorded after the headers lies after them.
  have hafter : ∀ x ∈ sorted b, ∀ i, x.Has i → secDir b + 8 ≤ i ∧ i < b.size := by
    intro x hx i hi
    have h1 := hi.1
    have h2 := hi.2
    have hin := hsorted x hx (by unfold Range.Nonempty; omega)
    omega
  have hbytes : ∀ i, 0 ≤ i → i < b.size →
      ((∃ x ∈ ⟨0, checkSum b⟩ :: ⟨checkSum b + 4, secDir b⟩ :: sorted b, x.Has i) ↔
        ¬ Excluded b i) := by
    intro i h0 h1
    constructor
    · rintro ⟨x, hx, hi⟩ he
      rcases List.mem_cons.mp hx with rfl | hx
      · have h2 : i < checkSum b := hi.2
        rcases he with he | he | he
        · omega
        · omega
        · exact hfirst i hi he
      · rcases List.mem_cons.mp hx with rfl | hx
        · have h2 : checkSum b + 4 ≤ i := hi.1
          have h3 : i < secDir b := hi.2
          rcases he with he | he | he
          · omega
          · omega
          · exact hsecond i hi he
        · have h2 := hafter x hx i hi
          rcases he with he | he | he
          · omega
          · omega
          · exact hcert x hx i hi he
    · intro he
      unfold Excluded at he
      by_cases hc1 : i < checkSum b
      · exact ⟨_, List.mem_cons_self, h0, hc1⟩
      · by_cases hc2 : i < secDir b
        · refine ⟨_, List.mem_cons_of_mem _ List.mem_cons_self, ?_, hc2⟩
          show (checkSum b : Int) + 4 ≤ i
          omega
        · rcases hall i (by omega) h1 with ⟨x, hx, hi⟩ | hi
          · exact ⟨x, by simp [hx], hi⟩
          · exact absurd (Or.inr (Or.inr hi)) he
  have hinside : ∀ r ∈ recorded b, 0 ≤ r.data ∧ r.data + r.size ≤ b.size := by
    rw [inside_iff, hranges]
    intro x hx
    rcases List.mem_cons.mp hx with rfl | hx
    · exact ⟨Int.le_refl 0, by simp only; omega⟩
    · rcases List.mem_cons.mp hx with rfl | hx
      · exact ⟨by simp only; omega, by simp only; omega⟩
      · exact sorted_inside hheaders hsorted x hx
  refine ⟨?_, ?_, ?_, ?_⟩
  · rw [hregions]
    exact hinside
  · rw [hregions, disjoint_iff, hranges]
    refine .cons ?_ (.cons ?_ htail)
    · intro x hx i hi hx'
      have h2 : i < checkSum b := hi.2
      rcases List.mem_cons.mp hx with rfl | hx
      · have h3 : (checkSum b : Int) + 4 ≤ i := hx'.1
        omega
      · have := hafter x hx i hx'
        omega
    · intro x hx i hi hx'
      have h2 : i < secDir b := hi.2
      have := hafter x hx i hx'
      omega
  · intro i h0 h1
    rw [hregions, exists_range, hranges]
    exact hbytes i h0 h1
  · rintro b' - ⟨i, h0, h1, he, hne⟩
    rw [hregions]
    obtain ⟨x, hx⟩ := (hbytes i h0 h1).mpr he
    rw [← hranges] at hx
    obtain ⟨r, hr, hi⟩ := (exists_range (recorded b)).mpr ⟨x, hx⟩
    exact hashed_ne hr hi hne

/-- An image whose only section has one byte, some bytes after the headers. -/
def sampleBytes (gap : Nat) : Bytes :=
  [77, 90] ++ List.replicate 58 0 ++ enc32 64 ++ [80, 69, 0, 0] ++ [0, 0] ++ enc16 1 ++
    List.replicate 12 0 ++ enc16 240 ++ [0, 0] ++ List.replicate 60 0 ++ enc32 368 ++
    List.replicate 176 0 ++ List.replicate 16 0 ++ enc32 1 ++ enc32 (368 + gap) ++
    List.replicate 16 0 ++ List.replicate gap 0 ++ [7]

theorem length_sampleBytes (gap : Nat) : (sampleBytes gap).length = 369 + gap := by
  simp only [sampleBytes, List.length_append, List.length_replicate, length_enc16, length_enc32,
    List.length_cons, List.length_nil]
  omega

def sample (gap : Nat) (h : gap < 1024) : Buffer :=
  ⟨sampleBytes gap, fun _ => 0, by rw [length_sampleBytes]; omega⟩

/-- The section follows the headers. -/
@[irreducible] def tight : Buffer := sample 0 (by omega)

/-- There is a byte between them. -/
@[irreducible] def gapped : Buffer := sample 1 (by omega)

/-- What is recorded of such an image. -/
def sampleImage (gap : Nat) : Image :=
  ⟨[⟨0, 152⟩, ⟨156, 76⟩, ⟨240, 128⟩, ⟨368 + gap, 1⟩], none⟩

end LsvmTools.PeCoverage
