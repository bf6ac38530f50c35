import LsvmTools.TpmSeal

/-! # Capping

`TPM2X_Cap`, `TPM2X_CapAll` and `CapPCR`. Capping is checked by reading before and behind:
`CapPCR` reads the PCR that it caps, `TPM2X_CapAll` reads PCR 0 in every round. -/
namespace LsvmTools.PcrCap
open Lib.ByteString Lib.Program PeImage ShaHash Measurement MeasurePolicy TpmBlob TpmSeal

variable {τ Ctx Ctx' α : Type}

/-! ## The code -/

/-- The commands that capping issues. -/
structure PcrTpm (τ : Type) where
  pcrRead : (pcrSelectionIn : PcrSelection) → Command τ DigestList
  pcrExtend : (pcrHandle : Nat) → (hashAlg : UInt16) → (digest : Sized 64) → Command τ Unit

def ask (command : Command τ α) : Prog τ Rc α where
  exec t := match command t with
    | (.ok a, t) => .ok a t
    | (.error rc, t) => .err rc t

variable (tpm : PcrTpm τ) (sha1 : Sha Ctx SHA1Hash) (sha256 : Sha Ctx' SHA256Hash)
  (uninit : Hashes)

/-- The selection of one PCR. -/
def selectOne (hashAlg : UInt16) (i : Fin maxPcrs) : PcrSelection :=
  (PcrSelection.none hashAlg).selectPCR i

/-- The first digest of a list; its size is that of the hash value asked for. -/
def firstDigest (n : Nat) (pcrValues : DigestList) : Out Rc (Digest n) :=
  match pcrValues.digests with
  | [] => .stuck
  | d :: _ => if h : d.bytes.length = n then .ok ⟨d.bytes, h⟩ else .err rcFailure

/-- `TPM2X_ReadPCRSHA1` and `TPM2X_ReadPCRSHA256`. The selection has bits for `maxPcrs`. -/
def readPCR (hashAlg : UInt16) (n pcrNumber : Nat) : Prog τ Rc (Digest n) :=
  if h : pcrNumber < maxPcrs then do
    let pcrValues ← ask (tpm.pcrRead (selectOne hashAlg ⟨pcrNumber, h⟩))
    .read fun _ => firstDigest n pcrValues
  else .stuck

def readPCRSHA1 (pcrNumber : Nat) : Prog τ Rc SHA1Hash := readPCR tpm algSha1 20 pcrNumber

def readPCRSHA256 (pcrNumber : Nat) : Prog τ Rc SHA256Hash := readPCR tpm algSha256 32 pcrNumber

def zeros : Bytes := List.replicate 20 0

/-- `TPM2X_Cap`. Whether the hashes could be computed is not looked at. -/
def cap (pcrHandle : Nat) : Prog τ Rc Unit := do
  ask (tpm.pcrExtend pcrHandle algSha1
    (sized sha1_le ((computeSHA sha1 zeros).getD uninit.sha1)))
  ask (tpm.pcrExtend pcrHandle algSha256
    (sized sha256_le ((computeSHA sha256 zeros).getD uninit.sha256)))

/-- The loop that saves the values, of which the code reads those of PCR 0. -/
def saveValues : Nat → Prog τ Rc (List Hashes)
  | 0 => pure []
  | n + 1 => do
    let sha1 ← readPCRSHA1 tpm 0
    let sha256 ← readPCRSHA256 tpm 0
    let saved ← saveValues n
    pure (⟨sha1, sha256⟩ :: saved)

/-- The loop that caps each PCR. -/
def capEach : List Nat → Prog τ Rc Unit
  | [] => pure ()
  | i :: is => do
    cap tpm sha1 sha256 uninit i
    capEach is

/-- The loop that compares, again with PCR 0. -/
def checkValues : List Hashes → Prog τ Rc Unit
  | [] => pure ()
  | saved :: rest => do
    let sha1 ← readPCRSHA1 tpm 0
    if sha1 = saved.sha1 then .throw rcFailure
    else do
      let sha256 ← readPCRSHA256 tpm 0
      if sha256 = saved.sha256 then .throw rcFailure
      else checkValues rest

/-- `PCR_COUNT` of `TPM2X_CapAll`. -/
abbrev pcrCount : Nat := 16

/-- `TPM2X_CapAll`. -/
def capAll : Prog τ Rc Unit := do
  let saved ← saveValues tpm pcrCount
  capEach tpm sha1 sha256 uninit (List.range pcrCount)
  checkValues tpm saved

/-- `CapPCR`. -/
def capPCR (pcr : Nat) : Prog τ Unit Unit := do
  let pcrBefore ← (readPCRSHA256 tpm pcr).mapErr fun _ => ()
  (cap tpm sha1 sha256 uninit pcr).mapErr fun _ => ()
  let pcrAfter ← (readPCRSHA256 tpm pcr).mapErr fun _ => ()
  if pcrBefore = pcrAfter then .throw () else pure ()

/-! ## TPMs that read what is there -/

/-- `value t i` are the values of PCR `i`. A read fails or delivers the value of the PCR that
is selected, and leaves all values alone. -/
structure Reads (value : τ → Fin maxPcrs → Hashes) : Prop where
  sha1 : ∀ i t d t', Grants (tpm.pcrRead (selectOne algSha1 i)) t d t' →
    d.digests = [sized sha1_le (value t i).sha1]
  sha256 : ∀ i t d t', Grants (tpm.pcrRead (selectOne algSha256 i)) t d t' →
    d.digests = [sized sha256_le (value t i).sha256]
  keeps : ∀ sel t, value (tpm.pcrRead sel t).2 = value t

section Steps

variable {tpm} {value : τ → Fin maxPcrs → Hashes} {t u : τ}

theorem ask_ok {command : Command τ α} {a : α} :
    (ask command).run t = .ok a u ↔ Grants command t a u := by
  unfold Grants Prog.run ask
  dsimp only
  split <;> rename_i hc <;> rw [hc] <;> simp

theorem firstDigest_sized {n : Nat} (h : n ≤ 64) {d : Digest n} {l : DigestList}
    (hl : l.digests = [sized h d]) : firstDigest n l = .ok d := by
  have hlen : (sized h d).bytes.length = n := d.size
  unfold firstDigest
  rw [hl]
  dsimp only
  rw [dif_pos hlen]
  rfl

/-- A read within the bank `hashAlg`. -/
theorem readPCR_ok {hashAlg : UInt16} {n : Nat} (hn : n ≤ 64) {bank : τ → Fin maxPcrs → Digest n}
    (hreads : ∀ i t d t', Grants (tpm.pcrRead (selectOne hashAlg i)) t d t' →
      d.digests = [sized hn (bank t i)]) {pcrNumber : Nat} {d : Digest n} :
    (readPCR tpm hashAlg n pcrNumber).run t = .ok d u ↔ ∃ h : pcrNumber < maxPcrs,
      d = bank t ⟨pcrNumber, h⟩ ∧
        ∃ l, Grants (tpm.pcrRead (selectOne hashAlg ⟨pcrNumber, h⟩)) t l u := by
  unfold readPCR
  by_cases h : pcrNumber < maxPcrs
  · rw [dif_pos h, Prog.bind_eq_ok]
    constructor
    · rintro ⟨l, u', hl, hd⟩
      rw [ask_ok] at hl
      obtain ⟨hd, rfl⟩ := Prog.read_eq_ok.mp hd
      rw [firstDigest_sized hn (hreads _ _ _ _ hl)] at hd
      cases hd
      exact ⟨h, rfl, l, hl⟩
    · rintro ⟨_, rfl, l, hl⟩
      exact ⟨l, u, ask_ok.mpr hl,
        Prog.read_eq_ok.mpr ⟨firstDigest_sized hn (hreads _ _ _ _ hl), rfl⟩⟩
  · rw [dif_neg h]
    constructor
    · intro hr
      cases hr
    · rintro ⟨h', _⟩
      exact absurd h' h

theorem Reads.readPCRSHA1_ok (hreads : Reads tpm value) {pcrNumber : Nat} {d : SHA1Hash} :
    (readPCRSHA1 tpm pcrNumber).run t = .ok d u ↔ ∃ h : pcrNumber < maxPcrs,
      d = (value t ⟨pcrNumber, h⟩).sha1 ∧
        ∃ l, Grants (tpm.pcrRead (selectOne algSha1 ⟨pcrNumber, h⟩)) t l u :=
  readPCR_ok sha1_le hreads.sha1

theorem Reads.readPCRSHA256_ok (hreads : Reads tpm value) {pcrNumber : Nat} {d : SHA256Hash} :
    (readPCRSHA256 tpm pcrNumber).run t = .ok d u ↔ ∃ h : pcrNumber < maxPcrs,
      d = (value t ⟨pcrNumber, h⟩).sha256 ∧
        ∃ l, Grants (tpm.pcrRead (selectOne algSha256 ⟨pcrNumber, h⟩)) t l u :=
  readPCR_ok sha256_le hreads.sha256

theorem Reads.keep (hreads : Reads tpm value) {sel : PcrSelection} {l : DigestList}
    (h : Grants (tpm.pcrRead sel) t l u) : value u = value t := by
  have hkeeps := hreads.keeps sel t
  unfold Grants at h
  rwa [h] at hkeeps

end Steps

/-! ## Runs of commands -/

theorem zero_lt_maxPcrs : 0 < maxPcrs := by decide

/-- PCR 0. -/
def pcr0 : Fin maxPcrs := ⟨0, zero_lt_maxPcrs⟩

/-- PCR 0 can be read in both banks, so many times in a row. -/
def ReadsThrough : Nat → τ → τ → Prop
  | 0, t, u => u = t
  | n + 1, t, u => ∃ l t₁ l' t₂, Grants (tpm.pcrRead (selectOne algSha1 pcr0)) t l t₁ ∧
      Grants (tpm.pcrRead (selectOne algSha256 pcr0)) t₁ l' t₂ ∧ ReadsThrough n t₂ u

/-- The PCR can be extended in both banks. -/
def ExtendsTo (i : Nat) (t u : τ) : Prop :=
  ∃ t₁, Grants (tpm.pcrExtend i algSha1
      (sized sha1_le ((computeSHA sha1 zeros).getD uninit.sha1))) t () t₁ ∧
    Grants (tpm.pcrExtend i algSha256
      (sized sha256_le ((computeSHA sha256 zeros).getD uninit.sha256))) t₁ () u

/-- The PCRs can be extended one after the other. -/
def ExtendsThrough : List Nat → τ → τ → Prop
  | [], t, u => u = t
  | i :: is, t, u => ∃ t₁, ExtendsTo tpm sha1 sha256 uninit i t t₁ ∧ ExtendsThrough is t₁ u

section Loops

variable {tpm sha1 sha256 uninit} {value : τ → Fin maxPcrs → Hashes} {t u : τ}

theorem Reads.readSHA1_0 (hreads : Reads tpm value) {d : SHA1Hash} :
    (readPCRSHA1 tpm 0).run t = .ok d u ↔
      d = (value t pcr0).sha1 ∧ ∃ l, Grants (tpm.pcrRead (selectOne algSha1 pcr0)) t l u := by
  rw [hreads.readPCRSHA1_ok]
  exact ⟨fun ⟨_, h⟩ => h, fun h => ⟨zero_lt_maxPcrs, h⟩⟩

theorem Reads.readSHA256_0 (hreads : Reads tpm value) {d : SHA256Hash} :
    (readPCRSHA256 tpm 0).run t = .ok d u ↔
      d = (value t pcr0).sha256 ∧ ∃ l, Grants (tpm.pcrRead (selectOne algSha256 pcr0)) t l u := by
  rw [hreads.readPCRSHA256_ok]
  exact ⟨fun ⟨_, h⟩ => h, fun h => ⟨zero_lt_maxPcrs, h⟩⟩

theorem ReadsThrough.keep (hreads : Reads tpm value) {n : Nat} (h : ReadsThrough tpm n t u) :
    value u = value t := by
  induction n generalizing t with
  | zero => rw [show u = t from h]
  | succ n ih =>
    obtain ⟨l, t₁, l', t₂, h₁, h₂, h⟩ := h
    rw [ih h, hreads.keep h₂, hreads.keep h₁]

theorem cap_ok {i : Nat} : (cap tpm sha1 sha256 uninit i).run t = .ok () u ↔
    ExtendsTo tpm sha1 sha256 uninit i t u := by
  rw [cap, Prog.bind_eq_ok]
  simp only [ask_ok, ExtendsTo]
  constructor
  · rintro ⟨_, t₁, h₁, h₂⟩
    exact ⟨t₁, h₁, h₂⟩
  · rintro ⟨t₁, h₁, h₂⟩
    exact ⟨(), t₁, h₁, h₂⟩

theorem capEach_ok {is : List Nat} : (capEach tpm sha1 sha256 uninit is).run t = .ok () u ↔
    ExtendsThrough tpm sha1 sha256 uninit is t u := by
  induction is generalizing t with
  | nil =>
    rw [capEach, Prog.run_pure, ExtendsThrough]
    constructor
    · intro h
      cases h
      rfl
    · rintro rfl
      rfl
  | cons i is ih =>
    rw [capEach, Prog.bind_eq_ok, ExtendsThrough]
    constructor
    · rintro ⟨_, t₁, h₁, h₂⟩
      exact ⟨t₁, cap_ok.mp h₁, ih.mp h₂⟩
    · rintro ⟨t₁, h₁, h₂⟩
      exact ⟨(), t₁, cap_ok.mpr h₁, ih.mpr h₂⟩

/-- What is saved are so many copies of the values of PCR 0. -/
theorem saveValues_ok (hreads : Reads tpm value) {n : Nat} {saved : List Hashes} :
    (saveValues tpm n).run t = .ok saved u ↔
      saved = List.replicate n (value t pcr0) ∧ ReadsThrough tpm n t u := by
  induction n generalizing t saved with
  | zero =>
    rw [saveValues, Prog.run_pure, ReadsThrough]
    constructor
    · intro h
      cases h
      exact ⟨rfl, rfl⟩
    · rintro ⟨rfl, rfl⟩
      rfl
  | succ n ih =>
    simp only [saveValues, Prog.bind_eq_ok, hreads.readSHA1_0, hreads.readSHA256_0, ReadsThrough]
    constructor
    · rintro ⟨_, t₁, ⟨rfl, l, h₁⟩, _, t₂, ⟨rfl, l', h₂⟩, rest, u', hs, hp⟩
      cases hp
      obtain ⟨rfl, h₃⟩ := ih.mp hs
      refine ⟨?_, l, t₁, l', t₂, h₁, h₂, h₃⟩
      rw [List.replicate_succ, hreads.keep h₂, hreads.keep h₁]
    · rintro ⟨rfl, l, t₁, l', t₂, h₁, h₂, h₃⟩
      refine ⟨_, t₁, ⟨rfl, l, h₁⟩, _, t₂, ⟨rfl, l', h₂⟩, _, u, ih.mpr ⟨rfl, h₃⟩, ?_⟩
      rw [Prog.run_pure, List.replicate_succ, hreads.keep h₂, hreads.keep h₁]

/-- The comparison passes where both values of PCR 0 differ from the saved ones. -/
theorem checkValues_ok (hreads : Reads tpm value) {n : Nat} {saved : Hashes} :
    (checkValues tpm (List.replicate n saved)).run t = .ok () u ↔ ReadsThrough tpm n t u ∧
      (n = 0 ∨ (value t pcr0).sha1 ≠ saved.sha1 ∧ (value t pcr0).sha256 ≠ saved.sha256) := by
  induction n generalizing t with
  | zero =>
    rw [List.replicate_zero, checkValues, Prog.run_pure, ReadsThrough]
    constructor
    · intro h
      cases h
      exact ⟨rfl, .inl rfl⟩
    · rintro ⟨rfl, _⟩
      rfl
  | succ n ih =>
    rw [List.replicate_succ, checkValues]
    simp only [Prog.bind_eq_ok, hreads.readSHA1_0, ReadsThrough]
    constructor
    · rintro ⟨_, t₁, ⟨rfl, l, h₁⟩, h⟩
      by_cases hsha1 : (value t pcr0).sha1 = saved.sha1
      · rw [if_pos hsha1] at h
        cases h
      rw [if_neg hsha1] at h
      simp only [Prog.bind_eq_ok, hreads.readSHA256_0] at h
      obtain ⟨_, t₂, ⟨rfl, l', h₂⟩, h⟩ := h
      rw [hreads.keep h₁] at h
      by_cases hsha256 : (value t pcr0).sha256 = saved.sha256
      · rw [if_pos hsha256] at h
        cases h
      rw [if_neg hsha256, ih] at h
      exact ⟨⟨l, t₁, l', t₂, h₁, h₂, h.1⟩, .inr ⟨hsha1, hsha256⟩⟩
    · rintro ⟨⟨l, t₁, l', t₂, h₁, h₂, h₃⟩, hne⟩
      obtain ⟨hsha1, hsha256⟩ := hne.resolve_left (Nat.succ_ne_zero n)
      refine ⟨_, t₁, ⟨rfl, l, h₁⟩, ?_⟩
      rw [if_neg hsha1]
      simp only [Prog.bind_eq_ok, hreads.readSHA256_0]
      refine ⟨_, t₂, ⟨rfl, l', h₂⟩, ?_⟩
      rw [hreads.keep h₁, if_neg hsha256, ih, hreads.keep h₂, hreads.keep h₁]
      exact ⟨h₃, .inr ⟨hsha1, hsha256⟩⟩

end Loops

/-! ## Whether capping is seen -/

section Seen

variable (value : τ → Fin maxPcrs → Hashes)

/-- The PCRs that `TPM2X_CapAll` caps have other values than before, in both banks. -/
def AllChanged (t u : τ) : Prop :=
  ∀ i : Fin maxPcrs, i.val < pcrCount →
    (value u i).sha1 ≠ (value t i).sha1 ∧ (value u i).sha256 ≠ (value t i).sha256

/-- The SHA-256 value of the PCR is not what it was before. -/
def Changed (pcr : Nat) (t u : τ) : Prop :=
  ∃ h : pcr < maxPcrs, (value u ⟨pcr, h⟩).sha256 ≠ (value t ⟨pcr, h⟩).sha256

/-- Where `TPM2X_CapAll` succeeds it has changed every PCR. -/
def CapAllChanges (t : τ) : Prop :=
  ∀ u, (capAll tpm sha1 sha256 uninit).run t = .ok () u → AllChanged value t u

/-- Where `CapPCR` succeeds it has changed its PCR. -/
def CapPCRChanges (pcr : Nat) (t : τ) : Prop :=
  ∀ u, (capPCR tpm sha1 sha256 uninit pcr).run t = .ok () u → Changed value pcr t u

/-- No command fails and PCR 0 takes on new values, but some other of the PCRs keeps its
value in a bank. -/
def Overlooked (t : τ) : Prop :=
  ∃ t₁ t₂ t₃, ReadsThrough tpm pcrCount t t₁ ∧
    ExtendsThrough tpm sha1 sha256 uninit (List.range pcrCount) t₁ t₂ ∧
    ReadsThrough tpm pcrCount t₂ t₃ ∧
    (value t₂ pcr0).sha1 ≠ (value t pcr0).sha1 ∧
    (value t₂ pcr0).sha256 ≠ (value t pcr0).sha256 ∧
    ∃ i : Fin maxPcrs, 0 < i.val ∧ i.val < pcrCount ∧
      ((value t₂ i).sha1 = (value t i).sha1 ∨ (value t₂ i).sha256 = (value t i).sha256)

variable {tpm sha1 sha256 uninit value} {t u : τ}

/-- `TPM2X_CapAll` succeeds where no command fails and PCR 0 takes on new values. -/
theorem capAll_ok (hreads : Reads tpm value) :
    (capAll tpm sha1 sha256 uninit).run t = .ok () u ↔
      ∃ t₁ t₂, ReadsThrough tpm pcrCount t t₁ ∧
        ExtendsThrough tpm sha1 sha256 uninit (List.range pcrCount) t₁ t₂ ∧
        ReadsThrough tpm pcrCount t₂ u ∧
        (value t₂ pcr0).sha1 ≠ (value t pcr0).sha1 ∧
        (value t₂ pcr0).sha256 ≠ (value t pcr0).sha256 := by
  rw [capAll]
  simp only [Prog.bind_eq_ok]
  constructor
  · rintro ⟨saved, t₁, hsave, _, t₂, hext, hcheck⟩
    obtain ⟨rfl, hread⟩ := (saveValues_ok hreads).mp hsave
    obtain ⟨hread', hne⟩ := (checkValues_ok hreads).mp hcheck
    exact ⟨t₁, t₂, hread, capEach_ok.mp hext, hread', hne.resolve_left (by decide)⟩
  · rintro ⟨t₁, t₂, hread, hext, hread', hne⟩
    exact ⟨_, t₁, (saveValues_ok hreads).mpr ⟨rfl, hread⟩, (), t₂, capEach_ok.mpr hext,
      (checkValues_ok hreads).mpr ⟨hread', .inr hne⟩⟩

theorem mapErr_ok {ε ε' : Type} {f : ε → ε'} {m : Prog τ ε α} {a : α} :
    (m.mapErr f).run t = .ok a u ↔ m.run t = .ok a u := by
  rw [Prog.run_mapErr]
  cases m.run t <;> simp

/-- `CapPCR` compares the values of the PCR that it caps. -/
theorem capPCR_changes (hreads : Reads tpm value) (pcr : Nat) :
    CapPCRChanges tpm sha1 sha256 uninit value pcr t := by
  intro u h
  rw [capPCR] at h
  simp only [Prog.bind_eq_ok, mapErr_ok] at h
  obtain ⟨before, t₁, hbefore, _, t₂, _, after, t₃, hafter, h⟩ := h
  obtain ⟨hlt, rfl, l, hl⟩ := hreads.readPCRSHA256_ok.mp hbefore
  obtain ⟨_, rfl, l', hl'⟩ := hreads.readPCRSHA256_ok.mp hafter
  by_cases heq : (value t ⟨pcr, hlt⟩).sha256 = (value t₂ ⟨pcr, hlt⟩).sha256
  · rw [if_pos heq] at h
    cases h
  rw [if_neg heq] at h
  cases h
  refine ⟨hlt, fun hsame => heq ?_⟩
  rw [← hsame, hreads.keep hl']

theorem capAll_changes_iff (hreads : Reads tpm value) :
    CapAllChanges tpm sha1 sha256 uninit value t ↔
      ¬ Overlooked tpm sha1 sha256 uninit value t := by
  constructor
  · rintro h ⟨t₁, t₂, t₃, hread, hext, hread', hsha1, hsha256, i, _, hi, hsame⟩
    have hall := h t₃ ((capAll_ok hreads).mpr ⟨t₁, t₂, hread, hext, hread', hsha1, hsha256⟩) i hi
    rw [hread'.keep hreads] at hall
    exact hsame.elim hall.1 hall.2
  · intro h u hrun i hi
    obtain ⟨t₁, t₂, hread, hext, hread', hsha1, hsha256⟩ := (capAll_ok hreads).mp hrun
    rw [hread'.keep hreads]
    -- PCR 0 is the one that the code compares; what it says of the others is the condition.
    by_cases h0 : i = pcr0
    · rw [h0]
      exact ⟨hsha1, hsha256⟩
    have hpos : 0 < i.val := Nat.pos_of_ne_zero fun hz => h0 (Fin.ext hz)
    by_contra hsame
    refine h ⟨t₁, t₂, u, hread, hext, hread', hsha1, hsha256, i, hpos, hi, ?_⟩
    tauto

end Seen

/-! ## A TPM that extends PCR 0 only -/

def flag (n : Nat) (b : Bool) : Digest n :=
  ⟨List.replicate n (if b then 1 else 0), List.length_replicate⟩

/-- The state says in which banks PCR 0 was extended. -/
def firstValue (t : Bool × Bool) (i : Fin maxPcrs) : Hashes :=
  if i = pcr0 then ⟨flag 20 t.1, flag 32 t.2⟩ else ⟨flag 20 false, flag 32 false⟩

theorem single_le (d : Sized 64) : [d].length ≤ 8 := by
  rw [List.length_singleton]
  decide

/-- It answers for the PCR of a selection of one, and reports each extension as a success. -/
def firstTpm : PcrTpm (Bool × Bool) where
  pcrRead sel t :=
    match (List.finRange maxPcrs).find? (selectOne sel.hash · = sel) with
    | none => (.error rcFailure, t)
    | some i =>
      let d := if sel.hash = algSha1 then sized sha1_le (firstValue t i).sha1
        else sized sha256_le (firstValue t i).sha256
      (.ok ⟨[d], single_le d⟩, t)
  pcrExtend i hashAlg _ t :=
    if i ≠ 0 then (.ok (), t)
    else if hashAlg = algSha1 then (.ok (), (true, t.2))
    else (.ok (), (t.1, true))

theorem find_sha1 (i : Fin maxPcrs) :
    (List.finRange maxPcrs).find? (selectOne algSha1 · = selectOne algSha1 i) = some i := by
  revert i
  decide

theorem find_sha256 (i : Fin maxPcrs) :
    (List.finRange maxPcrs).find? (selectOne algSha256 · = selectOne algSha256 i) = some i := by
  revert i
  decide

theorem firstTpm_reads : Reads firstTpm firstValue where
  sha1 i t d t' h := by
    unfold Grants firstTpm at h
    dsimp only at h
    rw [show (selectOne algSha1 i).hash = algSha1 from rfl, find_sha1] at h
    cases h
    rfl
  sha256 i t d t' h := by
    unfold Grants firstTpm at h
    dsimp only at h
    rw [show (selectOne algSha256 i).hash = algSha256 from rfl, find_sha256] at h
    cases h
    rfl
  keeps sel t := by
    unfold firstTpm
    dsimp only
    split <;> rfl

def firstSha1 : Sha Bytes SHA1Hash := sha (fun _ => .zero 20) true

def firstSha256 : Sha Bytes SHA256Hash := sha (fun _ => .zero 32) true

def firstUninit : Hashes := ⟨.zero 20, .zero 32⟩

end LsvmTools.PcrCap
