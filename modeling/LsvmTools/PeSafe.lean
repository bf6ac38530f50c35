import LsvmTools.PeCoverage
import LsvmTools.Lib.Precondition

/-! # Parsing any bytes

`parseChecked` is `ParseImage` with its reads: it has no result where a field, the certificate
header or the section table is not inside the image, where the final section of an empty table
is looked at, or where the size of a region would be negative. An image is parsed safely exactly
where the offsets that the parse comes to are right, for nothing but the size of the DOS header
is ever compared with the size of the image. -/
namespace LsvmTools.PeSafe
open Lib.ByteString Lib.Program Lib.Precondition Cpio CpioFormat CpioSafe PeImage PeCoverage

variable (b : Buffer) (mem : Nat → Bool)

/-! ## Reads -/

def fetch16 (i : Nat) : Out Unit Nat := do
  demand ((i : Int) + 2 ≤ b.size)
  pure (word16 b i)

def fetch32 (i : Nat) : Out Unit Nat := do
  demand ((i : Int) + 4 ≤ b.size)
  pure (word32 b i)

/-- The size of a region. -/
def difference (x y : Int) : Out Unit Int := do
  demand (y ≤ x)
  pure (toUintn (x - y))

def parseSignatureChecked (address size : Nat) : Out Unit (Option (Int × Int)) :=
  if size = 0 then pure none
  else do
    let type ← fetch16 b (address + 6)
    if type ≠ 2 then .err ()
    else do
      let headerSize ← fetch32 b address
      pure (some (address + 8, toUintn (headerSize - 8)))

/-- The copy of the section headers. -/
def fetchTable : Out Unit (List Section) := do
  let opt ← fetch16 b (peHdrOffset b + 20)
  let n ← fetch16 b (peHdrOffset b + 6)
  demand (n = 0 ∨ ((peHdrOffset b + 24 + opt + 40 * n : Nat) : Int) ≤ b.size)
  pure (sectionTable b)

def appendRestChecked (sections : List Section) (regions : List Region) :
    Out Unit (List Region) :=
  match sections.getLast? with
  | none => .stuck
  | some x =>
    let offset := endOfSection x
    if offset < b.size then do
      let size ← fetch32 b (secDir b + 4)
      let n ← difference (b.size - size) offset
      appendRegion mem regions offset n
    else pure regions

/-- The regions from the second one on. -/
def recordRegions (peHdr : Nat) (regions : List Region) : Out Unit (List Region) := do
  let regions ← appendRegion mem regions (peHdr + 92 : Nat) 76
  let headers ← fetch32 b (peHdr + 84)
  let n ← difference headers (peHdr + 176 : Nat)
  let regions ← appendRegion mem regions (peHdr + 176 : Nat) n
  let count ← fetch16 b (peHdr + 6)
  if !mem (u32 (40 * count)) then .err ()
  else do
    let table ← fetchTable b
    let sections := sortSections table
    let regions ← appendSections mem sections regions
    appendRestChecked b mem sections regions

def parseChecked : Out Unit Image :=
  if b.size < 64 then .err ()
  else do
    let magic ← fetch16 b 0
    if magic ≠ dosSignature then .err ()
    else do
      let peHdr ← fetch32 b 60
      let regions ← appendRegion mem [] 0 (peHdr + 88 : Nat)
      let address ← fetch32 b (peHdr + 168)
      let size ← fetch32 b (peHdr + 172)
      let signature ← parseSignatureChecked b address size
      let regions ← recordRegions b mem peHdr regions
      pure ⟨regions, signature⟩

/-- `ParseImage` parses the image safely: it reads inside the image, no size is negative, and a
signature that it reports lies in the image. -/
structure Safe : Prop where
  returns : parseChecked b mem ≠ .stuck
  signature : ∀ image, parseImage b mem = .ok image →
    ∀ s ∈ image.signature, 0 ≤ s.1 ∧ s.1 + s.2 ≤ b.size

/-! ## The condition -/

/-- The regions of the sections that have one. -/
def filled : Nat := (sectionTable b).countP (·.sizeOfRawData ≠ 0)

/-- The memory for the first `n` regions suffices. -/
def Room (n : Nat) : Prop := ∀ k < n, mem (u32 (16 * (k + 1))) = true

/-- The parse comes to the security directory entry. -/
def Started : Prop := 64 ≤ b.size ∧ word16 b 0 = dosSignature ∧ Room mem 1

/-- It gets past the signature. -/
def Signed : Prop :=
  Started b mem ∧ (signatureSize b ≠ 0 → word16 b (signatureAddress b + 6) = 2) ∧ Room mem 2

/-- It comes to the section headers. -/
def Listed : Prop := Signed b mem ∧ Room mem 3 ∧ mem (u32 (40 * numberOfSections b)) = true

/-- It gets past the sections. -/
def Recorded : Prop := Listed b mem ∧ Room mem (3 + filled b)

/-- The image is accepted. -/
def Accepted : Prop :=
  Recorded b mem ∧ ∀ offset ∈ sectionsEnd b, offset < b.size → Room mem (4 + filled b)

/-- The offsets that the parse comes to are right. -/
structure Trusted : Prop where
  directory : Started b mem → secDir b + 8 ≤ b.size
  certificate : Started b mem → signatureSize b ≠ 0 → signatureAddress b + 8 ≤ b.size
  headers : Signed b mem → secDir b + 8 ≤ sizeOfHeaders b
  table : Listed b mem → 0 < numberOfSections b ∧
    peHdrOffset b + 24 + sizeOfOptionalHeader b + 40 * numberOfSections b ≤ b.size
  rest : Recorded b mem → ∀ offset ∈ sectionsEnd b, offset < b.size →
    offset + signatureSize b ≤ b.size
  signature : Accepted b mem → signatureSize b ≠ 0 → 8 ≤ word32 b (signatureAddress b) ∧
    signatureAddress b + word32 b (signatureAddress b) ≤ b.size

/-! ## Preconditions -/

section Rules

variable {b mem} {regions : List Region}

theorem meets_fetch16 {i : Nat} {Q : Nat → Prop} :
    Meets (fetch16 b i) Q ↔ (i : Int) + 2 ≤ b.size ∧ Q (word16 b i) := by
  rw [fetch16, meets_bind, meets_demand, meets_pure]

theorem meets_fetch32 {i : Nat} {Q : Nat → Prop} :
    Meets (fetch32 b i) Q ↔ (i : Int) + 4 ≤ b.size ∧ Q (word32 b i) := by
  rw [fetch32, meets_bind, meets_demand, meets_pure]

theorem meets_difference {x y : Int} {Q : Int → Prop} :
    Meets (difference x y) Q ↔ y ≤ x ∧ Q (toUintn (x - y)) := by
  rw [difference, meets_bind, meets_demand, meets_pure]

theorem meets_appendRegion {data size : Int} {Q : List Region → Prop} :
    Meets (appendRegion mem regions data size) Q ↔
      (mem (u32 (16 * (regions.length + 1))) = true → Q (regions ++ [⟨data, size⟩])) := by
  rw [appendRegion, meets_ite, meets_pure, meets_err]
  simp

theorem room_succ {n : Nat} : Room mem (n + 1) ↔ Room mem n ∧ mem (u32 (16 * (n + 1))) = true := by
  unfold Room
  rw [Nat.forall_lt_succ_right]

/-- The sections take memory for a region each, but for the empty ones. -/
theorem meets_appendSections {sections : List Section} {Q : List Region → Prop} :
    Meets (appendSections mem sections regions) Q ↔
      ((∀ k < sections.countP (·.sizeOfRawData ≠ 0),
          mem (u32 (16 * (regions.length + k + 1))) = true) →
        Q (regions ++ (sections.filter (·.sizeOfRawData ≠ 0)).map sectionRegion)) := by
  induction sections generalizing regions with
  | nil =>
    rw [appendSections, meets_pure]
    simp
  | cons x rest ih =>
    rw [appendSections, meets_ite, meets_bind, meets_appendRegion]
    by_cases hx : x.sizeOfRawData = 0
    · have hcount : (x :: rest).countP (·.sizeOfRawData ≠ 0) =
          rest.countP (·.sizeOfRawData ≠ 0) := by simp [hx]
      have hfilter : (x :: rest).filter (·.sizeOfRawData ≠ 0) =
          rest.filter (·.sizeOfRawData ≠ 0) := by simp [hx]
      rw [hcount, hfilter, ← ih]
      simp only [hx, ne_eq, not_true_eq_false, false_imp_iff, not_false_eq_true, true_imp_iff,
        true_and]
    · have hlen : (regions ++ [sectionRegion x]).length = regions.length + 1 := by simp
      have hcount : (x :: rest).countP (·.sizeOfRawData ≠ 0) =
          rest.countP (·.sizeOfRawData ≠ 0) + 1 := by simp [hx]
      have hfilter : regions ++ ((x :: rest).filter (·.sizeOfRawData ≠ 0)).map sectionRegion =
          regions ++ [sectionRegion x] ++
            (rest.filter (·.sizeOfRawData ≠ 0)).map sectionRegion := by simp [hx]
      have hstep : (∀ k < rest.countP (·.sizeOfRawData ≠ 0) + 1,
            mem (u32 (16 * (regions.length + k + 1))) = true) ↔
          mem (u32 (16 * (regions.length + 1))) = true ∧
            ∀ k < rest.countP (·.sizeOfRawData ≠ 0),
              mem (u32 (16 * (regions.length + 1 + k + 1))) = true := by
        rw [Nat.forall_lt_succ_left]
        simp only [Nat.add_zero, Nat.add_assoc, Nat.add_comm 1]
      rw [hcount, hfilter, hstep, and_imp, ← hlen, ← ih]
      simp only [hx, ne_eq, not_false_eq_true, true_imp_iff, not_true_eq_false, false_imp_iff,
        and_true]
      rfl

theorem meets_parseSignature {address size : Nat} {Q : Option (Int × Int) → Prop} :
    Meets (parseSignatureChecked b address size) Q ↔ (size = 0 → Q none) ∧
      (size ≠ 0 → (address : Int) + 8 ≤ b.size ∧ (word16 b (address + 6 : Nat) = 2 →
        Q (some (address + 8, toUintn (word32 b address - 8))))) := by
  rw [parseSignatureChecked, meets_ite, meets_pure, meets_bind, meets_fetch16, meets_ite,
    meets_err, meets_bind, meets_fetch32]
  simp only [meets_pure, implies_true, true_and, ne_eq, not_not]
  refine and_congr_right fun _ => imp_congr_right fun _ => ?_
  constructor
  · rintro ⟨h, ht⟩
    exact ⟨by omega, fun h2 => (ht h2).2⟩
  · rintro ⟨h, ht⟩
    exact ⟨by omega, fun h2 => ⟨by omega, ht h2⟩⟩

theorem meets_fetchTable {Q : List Section → Prop} (h : (secDir b : Int) ≤ b.size) :
    Meets (fetchTable b) Q ↔ (numberOfSections b = 0 ∨
      (peHdrOffset b + 24 + sizeOfOptionalHeader b + 40 * numberOfSections b : Nat) ≤ b.size) ∧
        Q (sectionTable b) := by
  unfold secDir at h
  rw [fetchTable, meets_bind, meets_fetch16, meets_bind, meets_fetch16, meets_bind, meets_demand,
    meets_pure, and_iff_right (by omega), and_iff_right (by omega)]
  rfl

theorem meets_appendRest {sections : List Section} {P : Prop}
    (h : (secDir b : Int) + 8 ≤ b.size) :
    Meets (appendRestChecked b mem sections regions) (fun _ => P) ↔
      ∃ x, sections.getLast? = some x ∧ (endOfSection x < b.size →
        endOfSection x + signatureSize b ≤ b.size ∧
          (mem (u32 (16 * (regions.length + 1))) = true → P)) ∧ (b.size ≤ endOfSection x → P) := by
  unfold appendRestChecked
  split
  · rename_i hx
    rw [meets_stuck, hx]
    simp
  · rename_i x hx
    have hfetch : ((secDir b + 4 : Nat) : Int) + 4 ≤ b.size := by omega
    have hsize : ((word32 b (secDir b + 4 : Nat) : Nat) : Int) = signatureSize b := rfl
    rw [hx, meets_ite, meets_bind, meets_fetch32, meets_bind, meets_difference,
      meets_appendRegion, meets_pure, and_iff_right hfetch, hsize]
    simp only [Option.some.injEq, exists_eq_left', Int.not_lt]
    refine and_congr_left fun _ => imp_congr_right fun _ => and_congr_left fun _ => ?_
    omega

theorem sorted_countP (b : Buffer) :
    (sortSections (sectionTable b)).countP (·.sizeOfRawData ≠ 0) = filled b :=
  (sortSections_perm _).countP_eq _

theorem room_add {n m : Nat} :
    Room mem (n + m) ↔ Room mem n ∧ ∀ k < m, mem (u32 (16 * (n + k + 1))) = true := by
  induction m with
  | zero => simp
  | succ m ih => rw [← Nat.add_assoc, room_succ, ih, Nat.forall_lt_succ_right, and_assoc]

/-- What the parse comes to after the signature, which has to satisfy `P`. -/
def Goes (b : Buffer) (mem : Nat → Bool) (P : Prop) : Prop :=
  Room mem 2 → secDir b + 8 ≤ sizeOfHeaders b ∧
    (Room mem 3 ∧ mem (u32 (40 * numberOfSections b)) = true →
      (numberOfSections b = 0 ∨ (peHdrOffset b + 24 + sizeOfOptionalHeader b +
        40 * numberOfSections b : Nat) ≤ b.size) ∧
      (Room mem (3 + filled b) → ∃ offset, sectionsEnd b = some offset ∧
        (offset < b.size → offset + signatureSize b ≤ b.size ∧
          (Room mem (4 + filled b) → P)) ∧ (b.size ≤ offset → P)))

theorem meets_recordRegions {r : Region} {P : Prop} (hroom : Room mem 1)
    (h : (secDir b : Int) + 8 ≤ b.size) :
    Meets (recordRegions b mem (peHdrOffset b) [r]) (fun _ => P) ↔ Goes b mem P := by
  rw [recordRegions, Goes]
  simp only [meets_bind, meets_appendRegion, meets_fetch32, meets_fetch16, meets_difference,
    meets_ite, meets_err, meets_appendSections]
  have h2 : mem (u32 (16 * ([r].length + 1))) = true ↔ Room mem 2 := by
    rw [room_succ, and_iff_right hroom]
    rfl
  rw [h2]
  refine imp_congr_right fun hr2 => ?_
  have h84 : ((peHdrOffset b + 84 : Nat) : Int) + 4 ≤ b.size := by
    unfold secDir at h
    omega
  have h6 : ((peHdrOffset b + 6 : Nat) : Int) + 2 ≤ b.size := by omega
  rw [and_iff_right h84]
  refine and_congr Int.ofNat_le ?_
  have h3 : ∀ x y : Region, mem (u32 (16 * (([r] ++ [x]).length + 1))) = true ↔ Room mem 3 := by
    intro x _
    rw [room_succ, and_iff_right hr2]
    rfl
  rw [h3 _ r, and_imp]
  refine imp_congr_right fun hr3 => ?_
  rw [and_iff_right h6, Bool.not_eq_true', Bool.not_eq_false, implies_true, true_and]
  refine imp_congr_right fun _ => ?_
  rw [meets_fetchTable (by omega), sorted_countP]
  refine and_congr_right fun _ => ?_
  have hn : (∀ k < filled b, mem (u32 (16 * (3 + k + 1))) = true) ↔ Room mem (3 + filled b) := by
    rw [room_add, and_iff_right hr3]
  refine Iff.trans (imp_congr_left hn) (imp_congr_right fun hrn => ?_)
  rw [meets_appendRest h]
  have hlast : ∀ rs : List Region, rs.length = 3 + filled b →
      (mem (u32 (16 * (rs.length + 1))) = true ↔ Room mem (4 + filled b)) := by
    intro rs hrs
    rw [show 4 + filled b = 3 + filled b + 1 by omega, room_succ, and_iff_right hrn, hrs]
  rw [hlast _ (by
    rw [List.length_append, List.length_map, ← List.countP_eq_length_filter, sorted_countP]
    rfl)]
  unfold sectionsEnd
  cases (sortSections (sectionTable b)).getLast? <;> simp

theorem meets_parseChecked {Q : Option (Int × Int) → Prop} :
    Meets (parseChecked b mem) (fun image => Q image.signature) ↔
      (Started b mem → secDir b + 8 ≤ b.size ∧
        (signatureSize b = 0 → Goes b mem (Q none)) ∧
        (signatureSize b ≠ 0 → signatureAddress b + 8 ≤ b.size ∧
          (word16 b (signatureAddress b + 6) = 2 → Goes b mem (Q
            (some (signatureAddress b + 8, toUintn (word32 b (signatureAddress b) - 8))))))) := by
  have hroom : mem (u32 (16 * (([] : List Region).length + 1))) = true ↔ Room mem 1 := by
    unfold Room
    simp
  rw [parseChecked, meets_ite, meets_err, meets_bind, meets_fetch16, meets_ite, meets_err,
    meets_bind, meets_fetch32, meets_bind, meets_appendRegion, hroom]
  simp only [meets_bind, meets_fetch32, meets_parseSignature, meets_pure, List.nil_append,
    Nat.cast_ofNat]
  rw [implies_true, true_and, implies_true, true_and, not_not, Int.not_lt]
  constructor
  · rintro h ⟨h64, hmagic, h1⟩
    obtain ⟨-, hdir, hnone, hsome⟩ := ((h h64).2 hmagic).2 h1
    have hsec : (secDir b : Int) + 8 ≤ b.size := by
      unfold secDir peHdrOffset
      push_cast at hdir ⊢
      omega
    refine ⟨hsec, fun h0 => ?_, fun hne => ?_⟩
    · exact (meets_recordRegions h1 hsec).mp (hnone h0)
    · exact ⟨(hsome hne).1, fun ht => (meets_recordRegions h1 hsec).mp ((hsome hne).2 ht)⟩
  · intro h h64
    refine ⟨by omega, fun hmagic => ⟨by omega, fun h1 => ?_⟩⟩
    obtain ⟨hsec, hnone, hsome⟩ := h ⟨h64, hmagic, h1⟩
    have hdir : ((word32 b 60 + 172 : Nat) : Int) + 4 ≤ b.size := by
      unfold secDir peHdrOffset at hsec
      push_cast at hsec ⊢
      omega
    refine ⟨by omega, hdir, fun h0 => ?_, fun hne => ?_⟩
    · exact (meets_recordRegions h1 hsec).mpr (hnone h0)
    · exact ⟨(hsome hne).1, fun ht => (meets_recordRegions h1 hsec).mpr ((hsome hne).2 ht)⟩

/-- The signature lies in the image. -/
def Inside (b : Buffer) (signature : Option (Int × Int)) : Prop :=
  ∀ s ∈ signature, 0 ≤ s.1 ∧ s.1 + s.2 ≤ b.size

theorem inside_none : Inside b none := fun _ h => (by cases h)

theorem inside_some {address : Nat} {i : Int} :
    Inside b (some (address + 8, toUintn (word32 b i - 8))) ↔
      8 ≤ word32 b i ∧ address + word32 b i ≤ b.size := by
  have hlt := word32_lt b i
  have hsize := size_lt b
  have hmem : Inside b (some (address + 8, toUintn (word32 b i - 8))) ↔
      0 ≤ (address : Int) + 8 ∧ (address : Int) + 8 + toUintn (word32 b i - 8) ≤ b.size := by
    simp [Inside]
  rw [hmem]
  by_cases h8 : 8 ≤ word32 b i
  · rw [toUintn_of_lt (by omega) (by omega)]
    omega
  · have := toUintn_neg (x := (word32 b i : Int) - 8) (by omega) (by omega)
    omega

theorem sectionsEnd_some (h : 0 < numberOfSections b) : ∃ offset, sectionsEnd b = some offset := by
  have hlen : (sortSections (sectionTable b)).length = numberOfSections b := by
    rw [(sortSections_perm _).length_eq, sectionTable, List.length_map, List.length_range]
  unfold sectionsEnd
  rw [List.getLast?_eq_some_getLast (List.ne_nil_of_length_pos (by omega))]
  exact ⟨_, rfl⟩

theorem sectionsEnd_none (h : numberOfSections b = 0) : sectionsEnd b = none := by
  unfold sectionsEnd sectionTable
  rw [h]
  rfl

end Rules

/-! ## The same result -/

section Same

variable {b mem} {α : Type} {regions : List Region} {m : Out Unit α}

theorem checked_fetch16 {i : Nat} {k : Nat → Out Unit α} (h : Checked (k (word16 b i)) m) :
    Checked (fetch16 b i >>= k) m := by
  unfold fetch16
  rw [bind_assoc]
  exact .demand h

theorem checked_fetch32 {i : Nat} {k : Nat → Out Unit α} (h : Checked (k (word32 b i)) m) :
    Checked (fetch32 b i >>= k) m := by
  unfold fetch32
  rw [bind_assoc]
  exact .demand h

theorem checked_difference {x y : Int} {k : Int → Out Unit α}
    (h : Checked (k (toUintn (x - y))) m) :
    Checked (difference x y >>= k) m := by
  unfold difference
  rw [bind_assoc]
  exact .demand h

theorem parseSignature_checked (address size : Nat) :
    Checked (parseSignatureChecked b address size) (parseSignature b address size) :=
  .ite (.refl _) (checked_fetch16 (.ite (.refl _) (checked_fetch32 (.refl _))))

theorem appendRest_checked (sections : List Section) :
    Checked (appendRestChecked b mem sections regions) (appendRest b mem sections regions) := by
  unfold appendRestChecked appendRest
  cases sections.getLast? with
  | none => exact .stuck _
  | some x =>
    refine .ite ?_ (.refl _)
    exact checked_fetch32 (checked_difference (.refl _))

theorem fetchTable_checked {k : List Section → Out Unit α} (h : Checked (k (sectionTable b)) m) :
    Checked (fetchTable b >>= k) m := by
  unfold fetchTable
  rw [bind_assoc]
  refine checked_fetch16 ?_
  rw [bind_assoc]
  refine checked_fetch16 ?_
  rw [bind_assoc]
  exact .demand h

/-- Where it has a result, that is the result of `ParseImage`. -/
theorem parseImage_checked : Checked (parseChecked b mem) (parseImage b mem) := by
  have hp : word32 b ((60 : Nat) : Int) = peHdrOffset b := rfl
  have h1 : ((peHdrOffset b + 88 : Nat) : Int) = checkSum b := rfl
  have h2 : ((peHdrOffset b + 92 : Nat) : Int) = checkSum b + 4 := rfl
  have h3 : (76 : Int) = secDir b - (checkSum b + 4) := by
    rw [checkSum_secDir]
    omega
  have h4 : ((peHdrOffset b + 176 : Nat) : Int) = secDir b + 8 := rfl
  unfold parseChecked parseImage
  refine .ite (.refl _) (checked_fetch16 ?_)
  refine .ite (.refl _) (checked_fetch32 ?_)
  unfold recordRegions
  rw [hp, h1, h2, h3, h4]
  refine .bind (.refl _) fun regions => ?_
  refine checked_fetch32 (checked_fetch32 ?_)
  refine .bind (parseSignature_checked _ _) fun signature => ?_
  rw [bind_assoc]
  refine .bind (.refl _) fun regions => ?_
  rw [bind_assoc]
  refine checked_fetch32 ?_
  rw [bind_assoc]
  refine checked_difference ?_
  rw [bind_assoc]
  refine .bind (.refl _) fun regions => ?_
  rw [bind_assoc]
  refine checked_fetch16 ?_
  have hn : word16 b ((peHdrOffset b + 6 : Nat) : Int) = numberOfSections b := rfl
  rw [hn]
  by_cases hc : (!mem (u32 (40 * numberOfSections b))) = true
  · rw [if_pos hc, if_pos hc]
    exact .refl _
  · rw [if_neg hc, if_neg hc, bind_assoc]
    refine fetchTable_checked ?_
    dsimp only
    rw [bind_assoc]
    refine .bind (.refl _) fun regions => ?_
    exact .bind (appendRest_checked _) fun regions => .refl _

end Same

/-! ## The exact condition -/

section Exact

variable {b mem}

theorem safe_iff_meets :
    Safe b mem ↔ Meets (parseChecked b mem) fun image => Inside b image.signature := by
  constructor
  · intro h
    have heq := parseImage_checked h.returns
    exact ⟨h.returns, fun image hi => h.signature image (heq.trans hi)⟩
  · intro h
    have heq := parseImage_checked h.returns
    exact ⟨h.returns, fun image hi => h.ok image (heq.symm.trans hi)⟩

/-- The size in the certificate header, if there is one, counts the header and ends in the
image. -/
def SignatureEnds (b : Buffer) : Prop :=
  signatureSize b ≠ 0 → 8 ≤ word32 b (signatureAddress b) ∧
    signatureAddress b + word32 b (signatureAddress b) ≤ b.size

theorem goes_signature : ((signatureSize b = 0 → Goes b mem (Inside b none)) ∧
      (signatureSize b ≠ 0 → signatureAddress b + 8 ≤ b.size ∧
        (word16 b (signatureAddress b + 6) = 2 → Goes b mem (Inside b
          (some (signatureAddress b + 8, toUintn (word32 b (signatureAddress b) - 8))))))) ↔
    (signatureSize b ≠ 0 → signatureAddress b + 8 ≤ b.size) ∧
      ((signatureSize b ≠ 0 → word16 b (signatureAddress b + 6) = 2) →
        Goes b mem (SignatureEnds b)) := by
  by_cases h0 : signatureSize b = 0
  · have hends : SignatureEnds b = Inside b none :=
      propext ⟨fun _ => inside_none, fun _ hne => absurd h0 hne⟩
    simp [hends, h0]
  · have hends : SignatureEnds b = Inside b
        (some (signatureAddress b + 8, toUintn (word32 b (signatureAddress b) - 8))) :=
      propext ⟨fun h => inside_some.mpr (h h0), fun h _ => inside_some.mp h⟩
    simp [hends, h0]

theorem filled_zero (h : numberOfSections b = 0) : filled b = 0 := by
  unfold filled sectionTable
  rw [h]
  rfl

theorem Goes.table {P : Prop} (h : Goes b mem P) (h2 : Room mem 2)
    (hlisted : Room mem 3 ∧ mem (u32 (40 * numberOfSections b)) = true) :
    0 < numberOfSections b ∧
      peHdrOffset b + 24 + sizeOfOptionalHeader b + 40 * numberOfSections b ≤ b.size := by
  obtain ⟨htable, hgoes⟩ := (h h2).2 hlisted
  have hpos : 0 < numberOfSections b := by
    refine Nat.pos_of_ne_zero fun h0 => ?_
    rw [filled_zero h0] at hgoes
    obtain ⟨offset, hend, -⟩ := hgoes hlisted.1
    rw [sectionsEnd_none h0] at hend
    cases hend
  have hin := htable.resolve_left (Nat.ne_of_gt hpos)
  push_cast at hin
  exact ⟨hpos, hin⟩

end Exact

/-- For every image, `ParseImage` reads nothing but the image, looks at no section that is not
there, computes no negative size and reports a signature inside the image exactly if the
offsets that it comes to are right. -/
theorem parsed_safely_iff (b : Buffer) (mem : Nat → Bool) : Safe b mem ↔ Trusted b mem := by
  rw [safe_iff_meets, meets_parseChecked]
  simp only [goes_signature]
  constructor
  · intro h
    refine ⟨fun hs => (h hs).1, fun hs => (h hs).2.1, ?_, ?_, ?_, ?_⟩
    · rintro ⟨hs, htype, h2⟩
      exact ((h hs).2.2 htype h2).1
    · rintro ⟨⟨hs, htype, h2⟩, hlisted⟩
      exact ((h hs).2.2 htype).table h2 hlisted
    · rintro ⟨⟨⟨hs, htype, h2⟩, hlisted⟩, hrec⟩ offset hend hlt
      obtain ⟨offset', hend', hin, -⟩ := (((h hs).2.2 htype h2).2 hlisted).2 hrec
      cases hend.symm.trans hend'
      exact (hin hlt).1
    · rintro ⟨⟨⟨⟨hs, htype, h2⟩, hlisted⟩, hrec⟩, hlast⟩
      obtain ⟨offset, hend, hin, hout⟩ := (((h hs).2.2 htype h2).2 hlisted).2 hrec
      by_cases hlt : (offset : Int) < b.size
      · exact (hin hlt).2 (hlast offset hend hlt)
      · exact hout (Int.not_lt.mp hlt)
  · intro h hs
    refine ⟨h.directory hs, h.certificate hs, fun htype h2 => ?_⟩
    have hsigned : Signed b mem := ⟨hs, htype, h2⟩
    refine ⟨h.headers hsigned, fun hl => ?_⟩
    have hlisted : Listed b mem := ⟨hsigned, hl⟩
    obtain ⟨hpos, htable⟩ := h.table hlisted
    refine ⟨.inr (by push_cast; exact htable), fun hrec => ?_⟩
    have hrecorded : Recorded b mem := ⟨hlisted, hrec⟩
    obtain ⟨offset, hend⟩ := sectionsEnd_some hpos
    refine ⟨offset, hend, fun hlt => ⟨h.rest hrecorded offset hend hlt, fun hroom => ?_⟩,
      fun hge => ?_⟩
    · exact h.signature ⟨hrecorded, fun _ _ _ => hroom⟩
    · refine h.signature ⟨hrecorded, fun offset' hend' hlt => ?_⟩
      cases hend.symm.trans hend'
      omega

/-! ## A header without an image -/

/-- A DOS header whose PE header would start at its own first byte. -/
def dosHeader : Buffer :=
  ⟨[0x4D, 0x5A] ++ List.replicate 62 0, fun _ => 0, by decide⟩

/-- The security directory entry is read behind the image. -/
theorem directory_outside : ¬ ∀ b mem, Safe b mem := by
  intro h
  have hsafe := (h dosHeader fun _ => true).returns
  exact hsafe (by decide +kernel)

end LsvmTools.PeSafe
