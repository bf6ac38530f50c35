import LsvmTools.DbxHashes
import LsvmTools.Lib.Rounds

/-! # Reading signature lists

`CheckImageDB` of `uefidb.c`, and what both readers of signature lists need of their data.
Both check that a list is inside the buffer, but what they check of the sizes within it leaves
room for loops that do not end, for a division by zero and for reads behind the buffer. -/
namespace LsvmTools.SignatureLists
open Lib.ByteString Lib.Program Lib.Loop Lib.Precondition Lib.Rounds DbxHashes

/-! ## `CheckImageDB` -/

/-- `SignatureListSize`. -/
def listSize (rest : Bytes) : Nat := le32 rest 16

/-- `SignatureHeaderSize`. -/
def headerSize (rest : Bytes) : Nat := le32 rest 20

/-- `SignatureSize`. -/
def signatureSize (rest : Bytes) : Nat := le32 rest 24

/-- The size of the signatures of a list, a `UINT32`. -/
def sigDataSize (rest : Bytes) : Nat :=
  u32 (listSize rest + 2 ^ 64 - (28 + headerSize rest))

section Check

variable (mem : Mem) (checkCert : Bytes → Bool) (quiet : Bool)

/-- The loop of `_SearchSignatures` over `n` signatures of size `size`; the result is a copy of
the one that matches, if any. The owner is read, and `CheckCert` is given what follows it. -/
def searchLoop (size : Nat) : Nat → Bytes → Out Unit (Option Bytes)
  | 0, _ => .ok none
  | n + 1, rest =>
    demand (16 ≤ size ∧ size ≤ rest.length) >>= fun _ =>
      if checkCert ((rest.take size).drop 16) = true then
        if mem size = true then .ok (some (rest.take size)) else .err ()
      else searchLoop size n (rest.drop size)

/-- `_SearchSignatures` of the list that `rest` begins with. -/
def searchSignatures (rest : Bytes) : Out Unit (Option Bytes) :=
  if signatureSize rest = 0 then .stuck
  else if sigDataSize rest % signatureSize rest ≠ 0 then .err ()
  else searchLoop mem checkCert (signatureSize rest) (sigDataSize rest / signatureSize rest)
    (rest.drop (28 + headerSize rest))

/-- A round of the loop over the lists. The sum of the sizes is a `UINT32`; where the search is
not quiet, the signature header is dumped. -/
def checkRound (rest : Bytes) : Out Unit (Step Bytes (Option Bytes)) :=
  if rest = [] then .ok (.done none)
  else if rest.length < 28 then .err ()
  else if rest.length < listSize rest then .err ()
  else if u32 (headerSize rest + signatureSize rest) + 28 > listSize rest then .err ()
  else
    demand (quiet = true ∨ 28 + headerSize rest ≤ rest.length) >>= fun _ =>
      searchSignatures mem checkCert rest >>= fun found =>
        match found with
        | some result => .ok (.done (some result))
        | none => .ok (.next (rest.drop (listSize rest)))

/-- `CheckImageDB`: the result is none where no signature matches. -/
def checkImageDB (database : Bytes) : Exec Unit (Option Bytes) :=
  loop (checkRound mem checkCert quiet) database

end Check

/-! ## The law -/

/-- The list that `rest` begins with is inside `rest`, and its headers are inside it. -/
structure SizesFit (rest : Bytes) : Prop where
  header : 28 ≤ rest.length
  list : listSize rest ≤ rest.length
  signatureHeader : 28 + headerSize rest ≤ listSize rest

/-- What a loop over lists may go on from: there is no list, or its sizes fit. -/
def Good (rest : Bytes) : Prop := rest = [] ∨ SizesFit rest

/-- `CheckImageDB` terminates, reads only what is in the buffer, divides by no zero, and refuses
each list whose sizes do not fit. -/
def CheckSafe (checkCert : Bytes → Bool) (quiet : Bool) (database : Bytes) : Prop :=
  ∀ mem, Sound (checkRound mem checkCert quiet) Good database

/-- A round of `LoadDBXHashes`. -/
def hashesRound (mem : Mem) (s : Bytes × List ShaHash.SHA256Hash) :
    Out Unit (Step (Bytes × List ShaHash.SHA256Hash) (List ShaHash.SHA256Hash)) :=
  if s.1 = [] then .ok (.done s.2) else loadList mem s.1 s.2 >>= fun t => .ok (.next t)

/-- The same of `LoadDBXHashes`. -/
structure LoadSafe (data : Bytes) : Prop where
  terminates : ∀ mem, (loadDBXHashes mem data).Terminates
  returns : ∀ mem, ¬ (loadDBXHashes mem data).Ends .stuck
  refuses : ∀ mem body, data ≠ [] → skipOptionalDBXHeader data = .ok body →
    ∀ t, Comes (hashesRound mem) (body, []) t → ¬ Good t.1 →
      hashesRound mem t = .err ()

/-! ## When `CheckImageDB` is safe -/

/-- The list passes the checks of `CheckImageDB`. -/
def Passes (rest : Bytes) : Prop :=
  28 ≤ rest.length ∧ listSize rest ≤ rest.length ∧
    u32 (headerSize rest + signatureSize rest) + 28 ≤ listSize rest

/-- How many signatures the list has. -/
def numEntries (rest : Bytes) : Nat := sigDataSize rest / signatureSize rest

/-- What `CheckCert` is given of the `i`th signature. -/
def certOf (rest : Bytes) (i : Nat) : Bytes :=
  ((((rest.drop (28 + headerSize rest)).drop (i * signatureSize rest)).take
    (signatureSize rest)).drop 16)

/-- What `CheckImageDB` needs of a list that passes its checks: its signatures are of some size,
the header is in the buffer where it is dumped, and, where the signatures are searched, the
header is in the list and each signature has an owner. -/
def CheckListSafe (quiet : Bool) (rest : Bytes) : Prop :=
  Passes rest → (quiet = true ∨ 28 + headerSize rest ≤ rest.length) ∧ signatureSize rest ≠ 0 ∧
    (sigDataSize rest % signatureSize rest = 0 →
      28 + headerSize rest ≤ listSize rest ∧ (sigDataSize rest = 0 ∨ 16 ≤ signatureSize rest))

/-- The search of the list finds nothing, and what follows the list is `next`. -/
structure CheckFollows (checkCert : Bytes → Bool) (rest next : Bytes) : Prop where
  ne_nil : rest ≠ []
  passes : Passes rest
  divides : sigDataSize rest % signatureSize rest = 0
  unmatched : ∀ i, i < numEntries rest → checkCert (certOf rest i) = false
  next_eq : next = rest.drop (listSize rest)

section Check

variable {mem : Mem} {checkCert : Bytes → Bool} {quiet : Bool} {rest next : Bytes} {n size : Nat}

theorem searchLoop_returns (hsize : n = 0 ∨ 16 ≤ size) (hfits : n * size ≤ rest.length) :
    searchLoop mem checkCert size n rest ≠ .stuck := by
  induction n generalizing rest with
  | zero => intro h; cases h
  | succ n ih =>
    have h16 : 16 ≤ size := hsize.resolve_left (Nat.succ_ne_zero n)
    have hle : size + n * size ≤ rest.length := by rwa [Nat.add_comm, ← Nat.succ_mul]
    have hone : 16 ≤ size ∧ size ≤ rest.length := ⟨h16, Nat.le_trans (Nat.le_add_right _ _) hle⟩
    rw [searchLoop, demand, if_pos hone, Out.ok_bind]
    split
    · split <;> exact fun h => by cases h
    · refine ih (.inr h16) ?_
      rw [List.length_drop]
      exact Nat.le_sub_of_add_le' hle

theorem drop_succ (i : Nat) : rest.drop ((i + 1) * size) = (rest.drop size).drop (i * size) := by
  rw [List.drop_drop, Nat.succ_mul, Nat.add_comm]

theorem searchLoop_eq_none_iff : searchLoop mem checkCert size n rest = .ok none ↔
    ∀ i, i < n → (16 ≤ size ∧ size ≤ (rest.drop (i * size)).length) ∧
      checkCert (((rest.drop (i * size)).take size).drop 16) = false := by
  induction n generalizing rest with
  | zero => exact ⟨fun _ i hi => absurd hi (Nat.not_lt_zero i), fun _ => rfl⟩
  | succ n ih =>
    rw [searchLoop, demand]
    constructor
    · intro h
      split at h
      · rename_i hone
        rw [Out.ok_bind] at h
        split at h
        · split at h <;> cases h
        · rename_i hcheck
          intro i hi
          cases i with
          | zero => simpa using And.intro hone hcheck
          | succ i =>
            rw [drop_succ]
            exact ih.mp h i (Nat.lt_of_succ_lt_succ hi)
      · cases h
    · intro h
      have hfirst := h 0 (Nat.succ_pos n)
      rw [Nat.zero_mul, List.drop_zero] at hfirst
      rw [if_pos hfirst.1, Out.ok_bind, hfirst.2, if_neg (by decide)]
      refine ih.mpr fun i hi => ?_
      rw [← drop_succ]
      exact h (i + 1) (Nat.succ_lt_succ hi)

theorem read_of_fits (hsize : n = 0 ∨ 16 ≤ size) (hfits : n * size ≤ rest.length) (i : Nat)
    (hi : i < n) : 16 ≤ size ∧ size ≤ (rest.drop (i * size)).length := by
  refine ⟨hsize.resolve_left (Nat.ne_zero_of_lt hi), ?_⟩
  have hle : (i + 1) * size ≤ n * size := Nat.mul_le_mul_right size hi
  rw [Nat.succ_mul] at hle
  rw [List.length_drop]
  omega

/-- With memory the search does not fail. -/
theorem searchLoop_ne_err (hmem : mem size = true) {e : Unit} :
    searchLoop mem checkCert size n rest ≠ .err e := by
  induction n generalizing rest with
  | zero => intro h; cases h
  | succ n ih =>
    rw [searchLoop, demand]
    split
    · rw [Out.ok_bind]
      split
      · exact fun h => by cases h
      · exact ih
    · exact fun h => by cases h

theorem size_of_searched (hn : n ≠ 0) (h : searchLoop mem checkCert size n rest ≠ .stuck) :
    16 ≤ size := by
  obtain ⟨n, rfl⟩ := Nat.exists_eq_succ_of_ne_zero hn
  rw [searchLoop, demand] at h
  split at h
  · rename_i hone
    exact hone.1
  · exact absurd rfl h

/-- The round at a list that passes the checks. -/
theorem checkRound_of_passes (hne : rest ≠ []) (hp : Passes rest) :
    checkRound mem checkCert quiet rest =
      demand (quiet = true ∨ 28 + headerSize rest ≤ rest.length) >>= fun _ =>
        searchSignatures mem checkCert rest >>= fun found =>
          match found with
          | some result => .ok (.done (some result))
          | none => .ok (.next (rest.drop (listSize rest))) := by
  obtain ⟨hlen, hlist, hsum⟩ := hp
  unfold checkRound
  rw [if_neg hne, if_neg (Nat.not_lt.mpr hlen), if_neg (Nat.not_lt.mpr hlist),
    if_neg (Nat.not_lt.mpr hsum)]

theorem checkRound_of_not_passes (hne : rest ≠ []) (hp : ¬ Passes rest) :
    checkRound mem checkCert quiet rest = .err () := by
  unfold checkRound
  rw [if_neg hne]
  split
  · rfl
  · rename_i hlen
    split
    · rfl
    · rename_i hlist
      split
      · rfl
      · rename_i hsum
        exact absurd ⟨Nat.not_lt.mp hlen, Nat.not_lt.mp hlist, Nat.not_lt.mp hsum⟩ hp

theorem checkRound_next_iff : Next (checkRound mem checkCert quiet) rest next ↔
    rest ≠ [] ∧ Passes rest ∧ (quiet = true ∨ 28 + headerSize rest ≤ rest.length) ∧
      searchSignatures mem checkCert rest = .ok none ∧ next = rest.drop (listSize rest) := by
  unfold Next
  by_cases hne : rest = []
  · rw [checkRound, if_pos hne]
    exact ⟨fun h => (by cases h), fun h => absurd hne h.1⟩
  by_cases hp : Passes rest
  · rw [checkRound_of_passes hne hp, demand]
    split
    · rename_i hd
      rw [Out.ok_bind]
      cases hs : searchSignatures mem checkCert rest with
      | ok found =>
        cases found with
        | none => simp [hne, hp, hd, eq_comm]
        | some result => simp
      | err e => simp
      | stuck => simp
    · rename_i hd
      exact ⟨fun h => (by cases h), fun h => absurd h.2.2.1 hd⟩
  · rw [checkRound_of_not_passes hne hp]
    exact ⟨fun h => (by cases h), fun h => absurd h.2.1 hp⟩

theorem follows_of_next (h : Next (checkRound mem checkCert quiet) rest next) :
    CheckFollows checkCert rest next := by
  obtain ⟨hne, hp, -, hs, rfl⟩ := checkRound_next_iff.mp h
  unfold searchSignatures at hs
  split at hs
  · cases hs
  · split at hs
    · cases hs
    · rename_i hdiv
      exact ⟨hne, hp, not_not.mp hdiv, fun i hi => (searchLoop_eq_none_iff.mp hs i hi).2, rfl⟩

theorem numEntries_fit (h : SizesFit rest) :
    numEntries rest * signatureSize rest ≤ (rest.drop (28 + headerSize rest)).length := by
  have hdata : sigDataSize rest ≤ (rest.drop (28 + headerSize rest)).length := by
    have hwrap : (listSize rest + 2 ^ 64 - (28 + headerSize rest)) =
        listSize rest - (28 + headerSize rest) + 2 ^ 64 := Nat.sub_add_comm h.signatureHeader
    have hlt : listSize rest - (28 + headerSize rest) < 2 ^ 32 :=
      Nat.lt_of_le_of_lt (Nat.sub_le _ _) (le32_lt _ _)
    have heq : sigDataSize rest = listSize rest - (28 + headerSize rest) := by
      unfold sigDataSize u32
      rw [hwrap]
      omega
    rw [heq, List.length_drop]
    exact Nat.sub_le_sub_right h.list _
  exact Nat.le_trans (Nat.div_mul_le_self _ _) hdata

/-- Where the list is as `CheckImageDB` needs it, the round delivers, and goes on only from a
list whose sizes fit. -/
theorem CheckListSafe.meets (h : CheckListSafe quiet rest) (hne : rest ≠ []) :
    Meets (checkRound mem checkCert quiet rest) fun _ => Good rest := by
  by_cases hp : Passes rest
  · obtain ⟨hdump, hzero, hfit⟩ := h hp
    rw [checkRound_of_passes hne hp, meets_bind, meets_demand]
    refine ⟨hdump, ?_⟩
    unfold searchSignatures
    rw [if_neg hzero]
    split
    · exact meets_err.mpr trivial
    · rename_i hdiv
      obtain ⟨hheader, howner⟩ := hfit (not_not.mp hdiv)
      have hfits : SizesFit rest := ⟨hp.1, hp.2.1, hheader⟩
      have hn : numEntries rest = 0 ∨ 16 ≤ signatureSize rest :=
        howner.imp_left fun h0 => by rw [numEntries, h0, Nat.zero_div]
      refine meets_bind.mpr ⟨searchLoop_returns hn (numEntries_fit hfits), fun found _ => ?_⟩
      cases found <;> exact meets_ok.mpr (.inr hfits)
  · rw [checkRound_of_not_passes hne hp]
    exact meets_err.mpr trivial

theorem safe_of_meets (hmem : ∀ size, mem size = true) (hne : rest ≠ [])
    (h : Meets (checkRound mem checkCert quiet rest) fun _ => Good rest) :
    CheckListSafe quiet rest := by
  intro hp
  rw [checkRound_of_passes hne hp, meets_bind, meets_demand, meets_bind] at h
  obtain ⟨hdump, hsearch⟩ := h
  have hreturns := hsearch.returns
  have hzero : signatureSize rest ≠ 0 := by
    intro h0
    exact hreturns (if_pos h0)
  refine ⟨hdump, hzero, fun hdiv => ?_⟩
  have hloop : searchSignatures mem checkCert rest = searchLoop mem checkCert
      (signatureSize rest) (numEntries rest) (rest.drop (28 + headerSize rest)) := by
    rw [searchSignatures, if_neg hzero, if_neg (not_not.mpr hdiv)]
    rfl
  constructor
  · cases hs : searchSignatures mem checkCert rest with
    | ok found =>
      have hgood := hsearch.ok found hs
      have hfit : Good rest := by
        cases found <;> exact hgood.ok _ rfl
      exact (hfit.resolve_left hne).signatureHeader
    | err e => exact absurd (hloop ▸ hs) (searchLoop_ne_err (hmem _))
    | stuck => exact absurd hs hreturns
  · by_cases h0 : numEntries rest = 0
    · left
      have hmul := Nat.div_add_mod (sigDataSize rest) (signatureSize rest)
      rw [hdiv, Nat.add_zero] at hmul
      rw [← hmul]
      exact Nat.mul_eq_zero.mpr (.inr h0)
    · exact .inr (size_of_searched h0 (hloop ▸ hreturns))

theorem next_of_follows (hs : CheckListSafe quiet rest) (h : CheckFollows checkCert rest next) :
    Next (checkRound mem checkCert quiet) rest next := by
  obtain ⟨hdump, hzero, hfit⟩ := hs h.passes
  obtain ⟨hheader, howner⟩ := hfit h.divides
  have hfits : SizesFit rest := ⟨h.passes.1, h.passes.2.1, hheader⟩
  have hn : numEntries rest = 0 ∨ 16 ≤ signatureSize rest :=
    howner.imp_left fun h0 => by rw [numEntries, h0, Nat.zero_div]
  refine checkRound_next_iff.mpr ⟨h.ne_nil, h.passes, hdump, ?_, h.next_eq⟩
  rw [searchSignatures, if_neg hzero, if_neg (not_not.mpr h.divides)]
  exact searchLoop_eq_none_iff.mpr fun i hi =>
    ⟨read_of_fits hn (numEntries_fit hfits) i hi, h.unmatched i hi⟩

theorem next_shrinks (h : Next (checkRound mem checkCert quiet) rest next) :
    next.length < rest.length := by
  obtain ⟨hne, hp, -, -, rfl⟩ := checkRound_next_iff.mp h
  have hsize : 28 ≤ listSize rest := Nat.le_trans (Nat.le_add_left _ _) hp.2.2
  rw [List.length_drop]
  have := hp.1
  omega

end Check

/-- `CheckImageDB` is safe exactly where it finds each list it comes to as it needs it. -/
theorem checkSafe_iff {checkCert : Bytes → Bool} {quiet : Bool} {database : Bytes} :
    CheckSafe checkCert quiet database ↔
      ∀ rest, Relation.ReflTransGen (CheckFollows checkCert) database rest → rest ≠ [] →
        CheckListSafe quiet rest := by
  have hround : ∀ mem, Sound (checkRound mem checkCert quiet) Good database ↔
      ∀ rest, Comes (checkRound mem checkCert quiet) database rest →
        Meets (checkRound mem checkCert quiet rest) fun _ => Good rest :=
    fun mem => sound_iff List.length fun _ _ _ hn => next_shrinks hn
  constructor
  · intro h rest hcomes hne
    have hmeets := (hround fun _ => true).mp (h _)
    refine safe_of_meets (fun _ => rfl) hne (hmeets rest ?_)
    clear hne
    induction hcomes with
    | refl => exact .refl
    | tail _ hf ih =>
      exact ih.tail (next_of_follows (safe_of_meets (fun _ => rfl) hf.ne_nil (hmeets _ ih)) hf)
  · intro h mem
    refine (hround mem).mpr fun rest hcomes => ?_
    by_cases hne : rest = []
    · rw [checkRound, if_pos hne]
      exact meets_ok.mpr (.inl hne)
    · have hfollows : Relation.ReflTransGen (CheckFollows checkCert) database rest :=
        Relation.ReflTransGen.mono (fun _ _ hn => follows_of_next hn) _ _ hcomes
      exact (h rest hfollows hne).meets hne

/-! ## When `LoadDBXHashes` is safe -/

/-- How many signatures `LoadDBXHashes` takes the list to have; the size without the headers is
a `UINTN`. -/
def numSignatures (rest : Bytes) : Nat :=
  (listSize rest + 2 ^ 64 - (28 + headerSize rest)) % 2 ^ 64 / signatureSize rest

/-- What follows the headers of the list. -/
def signatures (rest : Bytes) : Bytes := rest.drop (28 + headerSize rest)

/-- A signature that says it is a hash, and is not of the size of one. -/
def Refused (size : Nat) (rest : Bytes) : Prop := rest.take 16 = sigSha256 ∧ size ≠ 48

/-- What is read of a signature is there: its owner, and its hash if it is one. -/
def InBounds (size : Nat) (rest : Bytes) : Prop :=
  16 ≤ rest.length ∧ (rest.take 16 = sigSha256 → size = 48 → 48 ≤ rest.length)

/-- None of `n` signatures is refused. -/
def Accepted (size n : Nat) (rest : Bytes) : Prop :=
  ∀ i, i < n → ¬ Refused size (rest.drop (i * size))

/-- Each of `n` signatures up to the first that is refused is in bounds. -/
def Ahead (size n : Nat) (rest : Bytes) : Prop :=
  ∀ i, i < n → Accepted size i rest → InBounds size (rest.drop (i * size))

/-- What `LoadDBXHashes` needs of a list of SHA-256 hashes whose header is in the buffer: its
signatures are of some size, each up to the first that is refused is in the buffer, and, where
none is refused, the header is in the list. -/
def HashListSafe (rest : Bytes) : Prop :=
  signatureSize rest ≠ 0 ∧
    Ahead (signatureSize rest) (numSignatures rest) (signatures rest) ∧
    (Accepted (signatureSize rest) (numSignatures rest) (signatures rest) →
      28 + headerSize rest ≤ listSize rest)

/-- What `LoadDBXHashes` needs of a list that passes its checks. -/
def LoadListSafe (rest : Bytes) : Prop :=
  28 ≤ rest.length → listSize rest ≤ rest.length →
    (rest.take 16 ≠ certSha256 → 28 + headerSize rest ≤ listSize rest) ∧
    (rest.take 16 = certSha256 → 28 + headerSize rest ≤ rest.length → HashListSafe rest)

/-- The list is skipped, or its hashes are taken, and what follows is `next`. -/
structure LoadFollows (rest next : Bytes) : Prop where
  ne_nil : rest ≠ []
  header : 28 ≤ rest.length
  list : listSize rest ≤ rest.length
  other : rest.take 16 ≠ certSha256 → next = rest.drop (listSize rest)
  hashes : rest.take 16 = certSha256 → 28 + headerSize rest ≤ rest.length ∧
    Accepted (signatureSize rest) (numSignatures rest) (signatures rest) ∧
    next = (signatures rest).drop (numSignatures rest * signatureSize rest)

/-- What `SkipOptionalDBXHeader` reads is there. -/
def HeaderRead (data : Bytes) : Prop :=
  20 ≤ data.length ∧ (le32 data 16 + 16 ≤ data.length → 40 ≤ data.length)

section Load

variable {mem : Mem} {rest next : Bytes} {n size : Nat} {hashes hashes' : List ShaHash.SHA256Hash}

theorem size_eq_iff (hsize : size < 2 ^ 32) : (size + 2 ^ 64 - 16) % 2 ^ 64 = 32 ↔ size = 48 := by
  omega

theorem loadSignature_meets (hsize : size < 2 ^ 32) (h : InBounds size rest) :
    Meets (loadSignature mem size rest hashes) fun _ => ¬ Refused size rest := by
  unfold loadSignature
  rw [if_neg (Nat.not_lt.mpr h.1)]
  by_cases ho : rest.take 16 = sigSha256
  · rw [if_neg (not_not.mpr ho)]
    by_cases hs : size = 48
    · rw [if_neg (not_not.mpr ((size_eq_iff hsize).mpr hs)), appendElem]
      have hhash : 32 ≤ (rest.drop 16).length := by
        rw [List.length_drop]
        exact Nat.le_sub_of_add_le (h.2 ho hs)
      split
      · exact meets_err.mpr trivial
      · exact meets_ok.mpr fun hr => hr.2 hs
    · rw [if_pos (mt (size_eq_iff hsize).mp hs)]
      exact meets_err.mpr trivial
  · rw [if_pos ho]
    exact meets_ok.mpr fun hr => ho hr.1

theorem inBounds_of_returns (hsize : size < 2 ^ 32) (hmem : ∀ n, mem n = true)
    (h : loadSignature mem size rest hashes ≠ .stuck) : InBounds size rest := by
  unfold loadSignature at h
  split at h
  · exact absurd rfl h
  · rename_i hlen
    refine ⟨Nat.not_lt.mp hlen, fun ho hs => ?_⟩
    rw [if_neg (not_not.mpr ho), if_neg (not_not.mpr ((size_eq_iff hsize).mpr hs)), appendElem,
      if_neg (by simp [hmem])] at h
    split at h
    · rename_i hhash
      rw [List.length_drop] at hhash
      omega
    · exact absurd rfl h

theorem loadSignature_ok (hsize : size < 2 ^ 32) (hmem : ∀ n, mem n = true)
    (h : InBounds size rest) (hr : ¬ Refused size rest) :
    ∃ hashes', loadSignature mem size rest hashes = .ok hashes' := by
  unfold loadSignature
  rw [if_neg (Nat.not_lt.mpr h.1)]
  by_cases ho : rest.take 16 = sigSha256
  · have hs : size = 48 := by
      by_contra hs
      exact hr ⟨ho, hs⟩
    have hhash : 32 ≤ (rest.drop 16).length := by
      rw [List.length_drop]
      exact Nat.le_sub_of_add_le (h.2 ho hs)
    rw [if_neg (not_not.mpr ho), if_neg (not_not.mpr ((size_eq_iff hsize).mpr hs)), appendElem,
      if_neg (by simp [hmem]), dif_pos hhash]
    exact ⟨_, rfl⟩
  · rw [if_pos ho]
    exact ⟨hashes, rfl⟩

theorem accepted_succ :
    Accepted size (n + 1) rest ↔ ¬ Refused size rest ∧ Accepted size n (rest.drop size) := by
  constructor
  · intro h
    refine ⟨by simpa using h 0 (Nat.succ_pos n), fun i hi => ?_⟩
    rw [← drop_succ]
    exact h (i + 1) (Nat.succ_lt_succ hi)
  · rintro ⟨h0, h⟩ i hi
    cases i with
    | zero => simpa using h0
    | succ i =>
      rw [drop_succ]
      exact h i (Nat.lt_of_succ_lt_succ hi)

theorem ahead_succ : Ahead size (n + 1) rest ↔
    InBounds size rest ∧ (¬ Refused size rest → Ahead size n (rest.drop size)) := by
  constructor
  · intro h
    refine ⟨by simpa using h 0 (Nat.succ_pos n) fun j hj => absurd hj (Nat.not_lt_zero j), ?_⟩
    intro h0 i hi hacc
    rw [← drop_succ]
    exact h (i + 1) (Nat.succ_lt_succ hi) (accepted_succ.mpr ⟨h0, hacc⟩)
  · rintro ⟨h0, h⟩ i hi hacc
    cases i with
    | zero => simpa using h0
    | succ i =>
      obtain ⟨hfirst, hrest⟩ := accepted_succ.mp hacc
      rw [drop_succ]
      exact h hfirst i (Nat.lt_of_succ_lt_succ hi) hrest

theorem loadSignatures_meets (hsize : size < 2 ^ 32) (h : Ahead size n rest) :
    Meets (loadSignatures mem size n rest hashes) fun r =>
      r.1 = rest.drop (n * size) ∧ Accepted size n rest := by
  induction n generalizing rest hashes with
  | zero => exact meets_ok.mpr ⟨by simp, fun i hi => absurd hi (Nat.not_lt_zero i)⟩
  | succ n ih =>
    obtain ⟨hone, hrest⟩ := ahead_succ.mp h
    rw [loadSignatures, meets_bind]
    refine (loadSignature_meets hsize hone).mono fun hashes hr => (ih (hrest hr)).mono ?_
    rintro r ⟨hr1, hacc⟩
    exact ⟨hr1.trans (drop_succ n).symm, accepted_succ.mpr ⟨hr, hacc⟩⟩

theorem ahead_of_returns (hsize : size < 2 ^ 32) (hmem : ∀ n, mem n = true)
    (h : loadSignatures mem size n rest hashes ≠ .stuck) : Ahead size n rest := by
  induction n generalizing rest hashes with
  | zero => exact fun i hi => absurd hi (Nat.not_lt_zero i)
  | succ n ih =>
    rw [loadSignatures] at h
    have hsig : loadSignature mem size rest hashes ≠ .stuck := by
      intro hs
      rw [hs] at h
      exact h rfl
    have hone := inBounds_of_returns hsize hmem hsig
    refine ahead_succ.mpr ⟨hone, fun hr => ?_⟩
    obtain ⟨hashes', hok⟩ := loadSignature_ok hsize hmem hone hr
    rw [hok, Out.ok_bind] at h
    exact ih h

theorem loadSignatures_ok (hsize : size < 2 ^ 32) (hmem : ∀ n, mem n = true)
    (h : Ahead size n rest) (hacc : Accepted size n rest) :
    ∃ hashes', loadSignatures mem size n rest hashes = .ok (rest.drop (n * size), hashes') := by
  induction n generalizing rest hashes with
  | zero => exact ⟨hashes, by simp [loadSignatures]⟩
  | succ n ih =>
    obtain ⟨hone, hrest⟩ := ahead_succ.mp h
    obtain ⟨hr, hmore⟩ := accepted_succ.mp hacc
    obtain ⟨hashes₁, hok⟩ := loadSignature_ok hsize hmem hone hr
    rw [loadSignatures, hok, Out.ok_bind, drop_succ]
    exact ih (hrest hr) hmore

theorem loadSignatures_rest {t : Bytes × List ShaHash.SHA256Hash}
    (h : loadSignatures mem size n rest hashes = .ok t) : t.1 = rest.drop (n * size) := by
  induction n generalizing rest hashes with
  | zero =>
    cases h
    simp
  | succ n ih =>
    rw [loadSignatures, Out.bind_eq_ok] at h
    obtain ⟨hashes', -, hmore⟩ := h
    rw [ih hmore, drop_succ]

theorem signatureSize_lt (rest : Bytes) : signatureSize rest < 2 ^ 32 := le32_lt _ _

/-- The round at a list that passes the checks and is skipped. -/
theorem hashesRound_other (hne : rest ≠ []) (hlen : 28 ≤ rest.length)
    (hlist : listSize rest ≤ rest.length) (ht : rest.take 16 ≠ certSha256) :
    hashesRound mem (rest, hashes) = .ok (.next (rest.drop (listSize rest), hashes)) := by
  have hlist' : ¬ rest.length < le32 rest 16 := Nat.not_lt.mpr hlist
  unfold hashesRound loadList
  dsimp only
  rw [if_neg hne, if_neg (Nat.not_lt.mpr hlen), if_neg hlist', if_pos ht]
  rfl

/-- The round at a list of hashes that passes the checks. -/
theorem hashesRound_hashes (hne : rest ≠ []) (hlen : 28 ≤ rest.length)
    (hlist : listSize rest ≤ rest.length) (ht : rest.take 16 = certSha256) :
    hashesRound mem (rest, hashes) =
      (if rest.length < 28 + headerSize rest then .err ()
        else if signatureSize rest = 0 then .stuck
        else loadSignatures mem (signatureSize rest) (numSignatures rest) (signatures rest)
          hashes) >>= fun t => .ok (.next t) := by
  have hlist' : ¬ rest.length < le32 rest 16 := Nat.not_lt.mpr hlist
  unfold hashesRound loadList
  dsimp only
  rw [if_neg hne, if_neg (Nat.not_lt.mpr hlen), if_neg hlist', if_neg (not_not.mpr ht)]
  rfl

theorem hashesRound_refused (hne : rest ≠ [])
    (h : ¬ (28 ≤ rest.length ∧ listSize rest ≤ rest.length)) :
    hashesRound mem (rest, hashes) = .err () := by
  unfold hashesRound loadList
  dsimp only
  rw [if_neg hne]
  by_cases hlen : rest.length < 28
  · rw [if_pos hlen]
    rfl
  · have hlist : rest.length < le32 rest 16 := by
      by_contra hlist
      exact h ⟨Nat.not_lt.mp hlen, Nat.not_lt.mp hlist⟩
    rw [if_neg hlen, if_pos hlist]
    rfl

/-- Where the list is as `LoadDBXHashes` needs it, the round delivers, goes on only from a list
whose sizes fit, and goes on with what follows. -/
theorem LoadListSafe.meets (h : LoadListSafe rest) (hne : rest ≠ []) :
    Meets (hashesRound mem (rest, hashes)) fun a =>
      Good rest ∧ ∀ t, a = .next t → LoadFollows rest t.1 := by
  by_cases hp : 28 ≤ rest.length ∧ listSize rest ≤ rest.length
  · obtain ⟨hlen, hlist⟩ := hp
    obtain ⟨hother, hhashes⟩ := h hlen hlist
    by_cases ht : rest.take 16 = certSha256
    · rw [hashesRound_hashes hne hlen hlist ht]
      split
      · exact meets_err.mpr trivial
      · rename_i hskip
        obtain ⟨hzero, hahead, hfit⟩ := hhashes ht (Nat.not_lt.mp hskip)
        rw [if_neg hzero, meets_bind]
        refine (loadSignatures_meets (signatureSize_lt rest) hahead).mono fun t ht' => ?_
        refine meets_ok.mpr ⟨.inr ⟨hlen, hlist, hfit ht'.2⟩, ?_⟩
        rintro u ⟨⟩
        exact ⟨hne, hlen, hlist, fun hno => absurd ht hno,
          fun _ => ⟨Nat.not_lt.mp hskip, ht'.2, ht'.1⟩⟩
    · rw [hashesRound_other hne hlen hlist ht]
      refine meets_ok.mpr ⟨.inr ⟨hlen, hlist, hother ht⟩, ?_⟩
      rintro u ⟨⟩
      exact ⟨hne, hlen, hlist, fun _ => rfl, fun hyes => absurd hyes ht⟩
  · rw [hashesRound_refused hne hp]
    exact meets_err.mpr trivial

theorem loadListSafe_of_meets (hmem : ∀ n, mem n = true) (hne : rest ≠ [])
    (h : Meets (hashesRound mem (rest, hashes)) fun _ => Good rest) : LoadListSafe rest := by
  intro hlen hlist
  constructor
  · intro ht
    rw [hashesRound_other hne hlen hlist ht, meets_ok] at h
    exact (h.resolve_left hne).signatureHeader
  · intro ht hskip
    rw [hashesRound_hashes hne hlen hlist ht, if_neg (Nat.not_lt.mpr hskip)] at h
    have hzero : signatureSize rest ≠ 0 := by
      intro h0
      rw [if_pos h0] at h
      exact h.returns rfl
    rw [if_neg hzero, meets_bind] at h
    have hahead := ahead_of_returns (signatureSize_lt rest) hmem h.returns
    refine ⟨hzero, hahead, fun hacc => ?_⟩
    obtain ⟨hashes', hok⟩ := loadSignatures_ok (signatureSize_lt rest) hmem hahead hacc
    have hgood : Good rest := (h.ok _ hok).ok _ rfl
    exact (hgood.resolve_left hne).signatureHeader

theorem next_of_loadFollows (hmem : ∀ n, mem n = true) (hs : LoadListSafe rest)
    (h : LoadFollows rest next) :
    ∃ hashes', Next (hashesRound mem) (rest, hashes) (next, hashes') := by
  by_cases ht : rest.take 16 = certSha256
  · obtain ⟨hskip, hacc, rfl⟩ := h.hashes ht
    obtain ⟨hzero, hahead, -⟩ := (hs h.header h.list).2 ht hskip
    obtain ⟨hashes', hok⟩ := loadSignatures_ok (signatureSize_lt rest) hmem hahead hacc
    refine ⟨hashes', ?_⟩
    unfold Next
    rw [hashesRound_hashes h.ne_nil h.header h.list ht, if_neg (Nat.not_lt.mpr hskip),
      if_neg hzero, hok]
    rfl
  · obtain rfl := h.other ht
    exact ⟨hashes, hashesRound_other h.ne_nil h.header h.list ht⟩

end Load

section Hashes

variable {data body : Bytes}

/-- `LoadDBXHashes` needs what `SkipOptionalDBXHeader` reads, and each list it comes to as it
needs it. -/
def DataSafe (data : Bytes) : Prop :=
  HeaderRead data ∧ ∀ body, skipOptionalDBXHeader data = .ok body →
    ∀ rest, Relation.ReflTransGen LoadFollows body rest → rest ≠ [] → LoadListSafe rest

theorem skip_eq_stuck_iff : skipOptionalDBXHeader data = .stuck ↔ ¬ HeaderRead data := by
  unfold skipOptionalDBXHeader HeaderRead
  dsimp only
  constructor
  · intro h hread
    rw [if_neg (Nat.not_lt.mpr hread.1)] at h
    split at h
    · rename_i hsize
      rw [if_neg (Nat.not_lt.mpr (hread.2 hsize))] at h
      split at h <;> cases h
    · cases h
  · intro h
    split
    · rfl
    · rename_i hlen
      split
      · rename_i hsize
        split
        · rfl
        · rename_i hread
          exact absurd ⟨Nat.not_lt.mp hlen, fun _ => Nat.not_lt.mp hread⟩ h
      · rename_i hsize
        exact absurd ⟨Nat.not_lt.mp hlen, fun hyes => absurd hyes hsize⟩ h

theorem skip_ne_err {e : Unit} : skipOptionalDBXHeader data ≠ .err e := by
  unfold skipOptionalDBXHeader
  dsimp only
  intro h
  split at h
  · cases h
  · split at h
    · split at h
      · cases h
      · split at h <;> cases h
    · cases h

theorem loadRound_eq (mem : Mem) : loadRound mem = fun s => .of (hashesRound mem s) := by
  funext s
  unfold loadRound hashesRound
  split <;> rfl

theorem loadDBXHashes_ends {mem : Mem} {r : Out Unit (List ShaHash.SHA256Hash)} (hne : data ≠ [])
    (hskip : skipOptionalDBXHeader data = .ok body) :
    (loadDBXHashes mem data).Ends r ↔ (loop (hashesRound mem) (body, [])).Ends r := by
  unfold loadDBXHashes
  rw [if_neg hne, loadRound_eq, Exec.of_bind, hskip]

theorem loadSafe_iff_sound (hne : data ≠ []) (hskip : skipOptionalDBXHeader data = .ok body) :
    LoadSafe data ↔ ∀ mem, Sound (hashesRound mem) (fun s => Good s.1) (body, []) := by
  constructor
  · intro h mem
    refine ⟨?_, fun hs => h.returns mem ((loadDBXHashes_ends hne hskip).mpr hs), ?_⟩
    · obtain ⟨r, hr⟩ := h.terminates mem
      exact ⟨r, (loadDBXHashes_ends hne hskip).mp hr⟩
    · exact fun t ht hg => ⟨(), h.refuses mem body hne hskip t ht hg⟩
  · intro h
    refine ⟨fun mem => ?_, fun mem hs => (h mem).returns ((loadDBXHashes_ends hne hskip).mp hs),
      fun mem body' _ hskip' t ht hg => ?_⟩
    · obtain ⟨r, hr⟩ := (h mem).terminates
      exact ⟨r, (loadDBXHashes_ends hne hskip).mpr hr⟩
    · rw [hskip] at hskip'
      obtain rfl := Out.ok.inj hskip'
      obtain ⟨e, he⟩ := (h mem).refuses t ht hg
      exact he

theorem hashesRound_shrinks {mem : Mem} {s t : Bytes × List ShaHash.SHA256Hash} (hg : Good s.1)
    (h : Next (hashesRound mem) s t) : t.1.length < s.1.length := by
  obtain ⟨rest, hashes⟩ := s
  by_cases hne : rest = []
  · unfold Next hashesRound at h
    rw [if_pos hne] at h
    cases h
  have hfit := hg.resolve_left hne
  have h28 := hfit.header
  dsimp only at h28 ⊢
  by_cases ht : rest.take 16 = certSha256
  · unfold Next at h
    rw [hashesRound_hashes hne hfit.header hfit.list ht, Out.bind_eq_ok] at h
    obtain ⟨u, hu, ht'⟩ := h
    cases ht'
    split at hu
    · cases hu
    · split at hu
      · cases hu
      · rw [loadSignatures_rest hu, signatures, List.length_drop, List.length_drop]
        omega
  · unfold Next at h
    rw [hashesRound_other hne hfit.header hfit.list ht] at h
    cases h
    have := hfit.signatureHeader
    dsimp only at this ⊢
    rw [List.length_drop]
    omega

theorem sound_iff_lists :
    (∀ mem, Sound (hashesRound mem) (fun s => Good s.1) (body, [])) ↔
      ∀ rest, Relation.ReflTransGen LoadFollows body rest → rest ≠ [] → LoadListSafe rest := by
  have hround : ∀ mem, Sound (hashesRound mem) (fun s => Good s.1) (body, []) ↔
      ∀ t, Comes (hashesRound mem) (body, []) t → Meets (hashesRound mem t) fun _ => Good t.1 :=
    fun mem => sound_iff (fun s => s.1.length) fun _ _ hg hn => hashesRound_shrinks hg hn
  constructor
  · intro h rest hcomes hne
    have hmeets := (hround fun _ => true).mp (h _)
    have hreach : ∃ hashes, Comes (hashesRound fun _ => true) (body, []) (rest, hashes) := by
      clear hne
      induction hcomes with
      | refl => exact ⟨[], .refl⟩
      | tail _ hf ih =>
        obtain ⟨hashes, hr⟩ := ih
        have hsafe := loadListSafe_of_meets (fun _ => rfl) hf.ne_nil (hmeets _ hr)
        obtain ⟨hashes', hnext⟩ := next_of_loadFollows (fun _ => rfl) hsafe hf
        exact ⟨hashes', hr.tail hnext⟩
    obtain ⟨hashes, hr⟩ := hreach
    exact loadListSafe_of_meets (fun _ => rfl) hne (hmeets _ hr)
  · intro h mem
    refine (hround mem).mpr fun t hcomes => ?_
    have hlists : Relation.ReflTransGen LoadFollows body t.1 := by
      induction hcomes with
      | refl => exact .refl
      | @tail u v _ hn ih =>
        by_cases hne : u.1 = []
        · unfold Next hashesRound at hn
          rw [if_pos hne] at hn
          cases hn
        · exact ih.tail (((h u.1 ih hne).meets hne).ok _ hn |>.2 v rfl)
    by_cases hne : t.1 = []
    · unfold hashesRound
      rw [if_pos hne]
      exact meets_ok.mpr (.inl hne)
    · exact ((h t.1 hlists hne).meets hne).mono fun _ ha => ha.1

/-- `LoadDBXHashes` is safe exactly where there are no data, or they are as it needs them. -/
theorem loadSafe_iff : LoadSafe data ↔ data = [] ∨ DataSafe data := by
  by_cases hne : data = []
  · refine iff_of_true ?_ (.inl hne)
    have hrun : ∀ mem, loadDBXHashes mem data = .throw () := fun mem => if_pos hne
    refine ⟨fun mem => ?_, fun mem h => ?_, fun mem body hno => absurd hne hno⟩
    · rw [hrun]
      exact Exec.terminates_of _
    · rw [hrun] at h
      cases Exec.ends_of.mp h
  rw [or_iff_right hne]
  cases hskip : skipOptionalDBXHeader data with
  | ok body =>
    have hread : HeaderRead data := by
      by_contra hno
      rw [skip_eq_stuck_iff.mpr hno] at hskip
      cases hskip
    rw [loadSafe_iff_sound hne hskip, sound_iff_lists]
    constructor
    · intro h
      refine ⟨hread, fun body' hskip' => ?_⟩
      rw [hskip] at hskip'
      cases hskip'
      exact h
    · exact fun h => h.2 body hskip
  | err e => exact absurd hskip skip_ne_err
  | stuck =>
    refine iff_of_false (fun h => h.returns (fun _ => true) ?_) fun h => ?_
    · unfold loadDBXHashes
      rw [if_neg hne, Exec.of_bind, hskip]
    · exact skip_eq_stuck_iff.mp hskip h.1

end Hashes

/-- A list of another type with the size zero. -/
def zeroList : Bytes := List.replicate 40 0

end LsvmTools.SignatureLists
