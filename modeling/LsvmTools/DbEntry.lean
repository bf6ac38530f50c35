import LsvmTools.DbxUpdate
import LsvmTools.SealReported
import LsvmTools.SignatureLists

/-! # Sealing for secure boot

`SealLSVMLoadPolicy` looks the image up in the db variable with `CheckImageDB` and measures
what it finds there as `db.Entry`. What `CheckImageDB` reports for a db without a match is no
error, so that nothing is measured in its place. -/
namespace LsvmTools.DbEntry
open Lib.ByteString Lib.Program Lib.Loop Lib.Rounds Strings Measurement MeasurePolicy TpmSeal
  SignatureLists
open DbxUpdate (policy secureBootPolicy namedVar initialVars varsMax releaseLSVMLoadPolicy)

/-! ## The functions -/

/-- What `SealPolicy` is called with. -/
structure Call where
  vars : List Var
  policy : Policy
  dataIn : Bytes

section Seal

variable (env : Env) (checkCert : (image cert : Bytes) → Bool)

/-- `_InitLSVMLoadPolicy`; the variables are those of `env`. -/
def initLSVMLoadPolicy (lsvmload : Bytes) : Exec Unit (List Var) :=
  if lsvmload.length = 0 then .throw ()
  else
    match env.loadEFIVar (text "D719B2CB3D3A4596A3BCDAD00E67656F") (text "db") with
    | none => .throw ()
    | some db => do
      let result ← checkImageDB env.mem (checkCert lsvmload) true db
      if env.vars.length = varsMax then .throw ()
      else pure (env.vars ++
        [namedVar "D719B2CB3D3A4596A3BCDAD00E67656F-db.Entry" (result.getD [])])

/-- `SealLSVMLoadPolicy`: the call of `SealPolicy`, if it comes to that, and what is left in
`_vars`. `sizeIn` has 16 bits. -/
def sealLSVMLoadPolicy (lsvmload : Bytes) (sealForSecureBoot : Bool) (dataIn : Option Bytes) :
    Exec Unit (Option Call × List Var) :=
  match dataIn with
  | none => pure (none, env.vars)
  | some dataIn =>
    let sizeIn := dataIn.length % 2 ^ 16
    if lsvmload.length = 0 ∨ sizeIn = 0 then pure (none, env.vars)
    else if sealForSecureBoot = true then do
      let initialized ← (initLSVMLoadPolicy env checkCert lsvmload).attempt
      match initialized with
      | none => pure (none, env.vars)
      | some vars =>
        pure (some ⟨vars, secureBootPolicy, dataIn.take sizeIn⟩, releaseLSVMLoadPolicy vars)
    else pure (some ⟨env.vars, policy, dataIn.take sizeIn⟩, env.vars)

end Seal

/-- The rest of what `SealPolicy` depends on: a TPM, whether the hash computations succeed and
what the variables hold before. -/
structure Tpm2 (τ : Type) where
  tpm : Tpm τ
  sha1Works : Bool
  sha256Works : Bool
  works : Nat → Works
  uninit : Nat → Hashes
  blob : BlobVar

/-- The call, with the TPM. -/
def Call.seal {τ : Type} (env : Env) (d : Tpm2 τ) (call : Call) : Prog (World τ) Unit Bytes :=
  sealPolicy d.tpm (ShaHash.sha env.sha1 d.sha1Works) (ShaHash.sha env.sha256 d.sha256Works)
    { env with vars := call.vars } d.works d.uninit call.policy call.dataIn d.blob

/-! ## Signatures -/

/-- The `i`th signature of the list that `rest` begins with. -/
def entryOf (rest : Bytes) (i : Nat) : Bytes :=
  ((rest.drop (28 + headerSize rest)).drop (i * signatureSize rest)).take (signatureSize rest)

/-- The list is followed by `next`, going by its size. -/
def ListNext (rest next : Bytes) : Prop :=
  28 ≤ listSize rest ∧ listSize rest ≤ rest.length ∧ next = rest.drop (listSize rest)

/-- `entry` is a signature in one of the lists of the db variable. -/
def EntryOf (db entry : Bytes) : Prop :=
  ∃ rest i, Relation.ReflTransGen ListNext db rest ∧ listSize rest ≤ rest.length ∧
    28 + headerSize rest + (i + 1) * signatureSize rest ≤ listSize rest ∧
    16 ≤ signatureSize rest ∧ entry = entryOf rest i

/-- What is read of the `i`th signature is in the buffer. -/
def InBuffer (rest : Bytes) (i : Nat) : Prop :=
  16 ≤ signatureSize rest ∧ signatureSize rest ≤
    ((rest.drop (28 + headerSize rest)).drop (i * signatureSize rest)).length

/-- The search is over the signatures of the list. -/
structure Searched (rest : Bytes) : Prop where
  ne_nil : rest ≠ []
  passes : Passes rest
  nonzero : signatureSize rest ≠ 0
  divides : sigDataSize rest % signatureSize rest = 0

/-- The search of the list matches none of its signatures. -/
structure Unmatched (checkCert : Bytes → Bool) (rest next : Bytes) : Prop extends
    Searched rest where
  read : ∀ i, i < numEntries rest → InBuffer rest i ∧ checkCert (certOf rest i) = false
  next_eq : next = rest.drop (listSize rest)

/-- The search of the list ends with its `i`th signature. -/
structure Hit (checkCert : Bytes → Bool) (rest : Bytes) (i : Nat) : Prop extends
    Searched rest where
  lt : i < numEntries rest
  before : ∀ j, j < i → InBuffer rest j ∧ checkCert (certOf rest j) = false
  inBuffer : InBuffer rest i
  accepted : checkCert (certOf rest i) = true

section Search

variable {mem : DbxHashes.Mem} {checkCert : Bytes → Bool} {rest next entry : Bytes} {n size : Nat}

theorem searchLoop_eq_some_iff : searchLoop mem checkCert size n rest = .ok (some entry) ↔
    mem size = true ∧ ∃ i, i < n ∧
      (∀ j, j < i → (16 ≤ size ∧ size ≤ (rest.drop (j * size)).length) ∧
        checkCert (((rest.drop (j * size)).take size).drop 16) = false) ∧
      (16 ≤ size ∧ size ≤ (rest.drop (i * size)).length) ∧
      checkCert (((rest.drop (i * size)).take size).drop 16) = true ∧
      entry = (rest.drop (i * size)).take size := by
  induction n generalizing rest with
  | zero =>
    refine ⟨fun h => (by cases h), ?_⟩
    rintro ⟨-, i, hi, -⟩
    exact absurd hi (Nat.not_lt_zero i)
  | succ n ih =>
    rw [searchLoop, Lib.Precondition.demand]
    constructor
    · intro h
      split at h
      · rename_i hone
        rw [Out.ok_bind] at h
        split at h
        · rename_i hcheck
          split at h
          · rename_i hmem
            cases h
            exact ⟨hmem, 0, Nat.succ_pos n, fun j hj => absurd hj (Nat.not_lt_zero j),
              by simpa using hone, by simpa using hcheck, by simp⟩
          · cases h
        · rename_i hcheck
          obtain ⟨hmem, i, hi, hbefore, hrest⟩ := ih.mp h
          rw [← drop_succ] at hrest
          refine ⟨hmem, i + 1, Nat.succ_lt_succ hi, fun j hj => ?_, hrest⟩
          cases j with
          | zero => simpa using And.intro hone hcheck
          | succ j =>
            rw [drop_succ]
            exact hbefore j (Nat.lt_of_succ_lt_succ hj)
      · cases h
    · rintro ⟨hmem, i, hi, hbefore, hone, hcheck, rfl⟩
      cases i with
      | zero =>
        rw [Nat.zero_mul, List.drop_zero] at hone hcheck ⊢
        rw [if_pos hone, Out.ok_bind, if_pos hcheck, if_pos hmem]
      | succ i =>
        have hfirst := hbefore 0 (Nat.succ_pos i)
        rw [Nat.zero_mul, List.drop_zero] at hfirst
        rw [if_pos hfirst.1, Out.ok_bind, hfirst.2, if_neg (by decide)]
        rw [drop_succ] at hone hcheck
        refine ih.mpr ⟨hmem, i, Nat.lt_of_succ_lt_succ hi, fun j hj => ?_, hone, hcheck, by
          rw [drop_succ]⟩
        rw [← drop_succ]
        exact hbefore (j + 1) (Nat.succ_lt_succ hj)

theorem searchSignatures_ok {found : Option Bytes} :
    searchSignatures mem checkCert rest = .ok found ↔
      signatureSize rest ≠ 0 ∧ sigDataSize rest % signatureSize rest = 0 ∧
        searchLoop mem checkCert (signatureSize rest) (numEntries rest)
          (rest.drop (28 + headerSize rest)) = .ok found := by
  unfold searchSignatures
  split
  · rename_i hzero
    exact ⟨fun h => (by cases h), fun h => absurd hzero h.1⟩
  · rename_i hzero
    split
    · rename_i hdiv
      exact ⟨fun h => (by cases h), fun h => absurd h.2.1 hdiv⟩
    · rename_i hdiv
      exact ⟨fun h => ⟨hzero, not_not.mp hdiv, h⟩, fun h => h.2.2⟩

theorem next_iff : Next (checkRound mem checkCert true) rest next ↔
    Unmatched checkCert rest next := by
  rw [checkRound_next_iff, searchSignatures_ok, searchLoop_eq_none_iff]
  constructor
  · rintro ⟨hne, hp, -, ⟨hzero, hdiv, hall⟩, hnext⟩
    exact ⟨⟨hne, hp, hzero, hdiv⟩, hall, hnext⟩
  · intro h
    exact ⟨h.ne_nil, h.passes, .inl rfl, ⟨h.nonzero, h.divides, h.read⟩, h.next_eq⟩

theorem comes_iff {db : Bytes} : Comes (checkRound mem checkCert true) db rest ↔
    Relation.ReflTransGen (Unmatched checkCert) db rest := by
  have hrel : Next (checkRound mem checkCert true) = Unmatched checkCert := by
    funext rest next
    exact propext next_iff
  rw [Comes, hrel]

theorem round_done_iff {found : Option Bytes} :
    checkRound mem checkCert true rest = .ok (.done found) ↔
      rest = [] ∧ found = none ∨
        ∃ i, Hit checkCert rest i ∧ mem (signatureSize rest) = true ∧
          found = some (entryOf rest i) := by
  by_cases hne : rest = []
  · rw [checkRound, if_pos hne]
    constructor
    · intro h
      cases h
      exact .inl ⟨hne, rfl⟩
    · rintro (⟨-, rfl⟩ | ⟨i, hit, -⟩)
      · rfl
      · exact absurd hne hit.ne_nil
  by_cases hp : Passes rest
  · rw [checkRound_of_passes hne hp, Lib.Precondition.demand, if_pos (.inl rfl), Out.ok_bind,
      Out.bind_eq_ok]
    constructor
    · rintro ⟨found', hs, h⟩
      cases found' with
      | none => cases h
      | some entry =>
        cases h
        obtain ⟨hzero, hdiv, hloop⟩ := searchSignatures_ok.mp hs
        obtain ⟨hmem, i, hi, hbefore, hone, hcheck, rfl⟩ := searchLoop_eq_some_iff.mp hloop
        exact .inr ⟨i, ⟨⟨hne, hp, hzero, hdiv⟩, hi, hbefore, hone, hcheck⟩, hmem, rfl⟩
    · rintro (⟨h, -⟩ | ⟨i, hit, hmem, rfl⟩)
      · exact absurd h hne
      · refine ⟨some (entryOf rest i), searchSignatures_ok.mpr ⟨hit.nonzero, hit.divides, ?_⟩, rfl⟩
        exact searchLoop_eq_some_iff.mpr
          ⟨hmem, i, hit.lt, hit.before, hit.inBuffer, hit.accepted, rfl⟩
  · rw [checkRound_of_not_passes hne hp]
    constructor
    · intro h
      cases h
    · rintro (⟨h, -⟩ | ⟨i, hit, -⟩)
      · exact absurd h hne
      · exact absurd hit.passes hp

/-- What `CheckImageDB` finds. -/
theorem checkImageDB_ok_iff {db : Bytes} {found : Option Bytes} :
    (checkImageDB mem checkCert true db).Ends (.ok found) ↔
      ∃ rest, Relation.ReflTransGen (Unmatched checkCert) db rest ∧
        (rest = [] ∧ found = none ∨ ∃ i, Hit checkCert rest i ∧
          mem (signatureSize rest) = true ∧ found = some (entryOf rest i)) := by
  unfold checkImageDB
  simp only [ends_ok_iff, comes_iff, round_done_iff]

end Search

/-! ## The law -/

def dbEntryPath : Bytes := text "D719B2CB3D3A4596A3BCDAD00E67656F-db.Entry"

/-- The policy names `db.Entry` once, for PCR 7, and what is hashed for it is `entry`. -/
def Measured (env : Env) (policy : Policy) (entry : Bytes) : Prop :=
  policy.entries.countP (·.path.bytes = dbEntryPath) = 1 ∧
    ∃ ent ∈ policy.entries, ent.path.bytes = dbEntryPath ∧ ent.type = .efivar ∧ ent.pcr = 7 ∧
      ∃ guid text name, splitVariablePath env ent.path.bytes = some (guid, text, name) ∧
        loadVariable env ent.path.bytes text name = .ok entry

/-- Sealing for secure boot succeeds only with a signature of the db that `CheckCert` accepts
for the image, and that is what is measured; and every call leaves `_vars` as it was. -/
structure SealsMatch (checkCert : (image cert : Bytes) → Bool) (db lsvmload : Bytes) : Prop where
  entry : ∀ env : Env, env.vars = initialVars → dbEntryPath.length < env.pathMax →
    env.loadEFIVar (text "D719B2CB3D3A4596A3BCDAD00E67656F") (text "db") = some db →
    ∀ dataIn call vars,
      (sealLSVMLoadPolicy env checkCert lsvmload true dataIn).Ends (.ok (some call, vars)) →
      ∀ (τ : Type) (d : Tpm2 τ) w out w', (call.seal env d).run w = .ok out w' →
        ∃ entry, EntryOf db entry ∧ checkCert lsvmload (entry.drop 16) = true ∧
          Measured { env with vars := call.vars } call.policy entry
  restored : ∀ (env : Env) sealForSecureBoot dataIn call vars,
    (sealLSVMLoadPolicy env checkCert lsvmload sealForSecureBoot dataIn).Ends
      (.ok (call, vars)) → vars = env.vars

/-- The search does not run out of lists, and what it ends with is a signature of the db, but
for one that is too large to be hashed. -/
def Matches (checkCert : Bytes → Bool) (db : Bytes) : Prop :=
  ∀ rest, Relation.ReflTransGen (Unmatched checkCert) db rest →
    rest ≠ [] ∧ ∀ i, Hit checkCert rest i → signatureSize rest + 36 < 2 ^ 32 →
      EntryOf db (entryOf rest i)

section Calls

variable {env : Env} {checkCert : (image cert : Bytes) → Bool} {lsvmload db : Bytes}
  {sealForSecureBoot : Bool} {dataIn : Option Bytes} {call : Call} {vars : List Var}

theorem init_ok_iff : (initLSVMLoadPolicy env checkCert lsvmload).Ends (.ok vars) ↔
    lsvmload ≠ [] ∧ ∃ db, env.loadEFIVar (text "D719B2CB3D3A4596A3BCDAD00E67656F") (text "db") =
      some db ∧ ∃ found, (checkImageDB env.mem (checkCert lsvmload) true db).Ends (.ok found) ∧
        env.vars.length ≠ varsMax ∧ vars = env.vars ++
          [namedVar "D719B2CB3D3A4596A3BCDAD00E67656F-db.Entry" (found.getD [])] := by
  unfold initLSVMLoadPolicy
  split
  · rename_i hnil
    refine iff_of_false (fun h => ?_) fun h => h.1 (List.length_eq_zero_iff.mp hnil)
    cases Exec.ends_of.mp h
  · rename_i hne
    have hne' : lsvmload ≠ [] := fun h => hne (List.length_eq_zero_iff.mpr h)
    split
    · rename_i hload
      refine iff_of_false (fun h => ?_) ?_
      · cases Exec.ends_of.mp h
      · rintro ⟨-, db, hdb, -⟩
        rw [hload] at hdb
        cases hdb
    · rename_i db hload
      rw [Exec.ends_bind_ok]
      constructor
      · rintro ⟨found, hfound, h⟩
        split at h
        · cases Exec.ends_of.mp h
        · rename_i hmax
          exact ⟨hne', db, hload, found, hfound, hmax, Out.ok.inj (Exec.ends_pure.mp h)⟩
      · rintro ⟨-, db', hdb, found, hfound, hmax, rfl⟩
        rw [hload] at hdb
        cases hdb
        refine ⟨found, hfound, ?_⟩
        rw [if_neg hmax]
        exact Exec.ends_pure.mpr rfl

/-- Where `SealPolicy` is called for secure boot, and with what. -/
theorem seal_call_iff :
    (sealLSVMLoadPolicy env checkCert lsvmload true dataIn).Ends (.ok (some call, vars)) ↔
      ∃ data, dataIn = some data ∧ data.length % 2 ^ 16 ≠ 0 ∧
        (initLSVMLoadPolicy env checkCert lsvmload).Ends (.ok call.vars) ∧
        call.policy = secureBootPolicy ∧ call.dataIn = data.take (data.length % 2 ^ 16) ∧
        vars = releaseLSVMLoadPolicy call.vars := by
  unfold sealLSVMLoadPolicy
  cases dataIn with
  | none =>
    refine iff_of_false (fun h => ?_) fun ⟨_, h, _⟩ => (by cases h)
    cases Exec.ends_pure.mp h
  | some data =>
    dsimp only
    rw [if_pos rfl]
    split
    · rename_i hnull
      refine iff_of_false (fun h => ?_) ?_
      · cases Exec.ends_pure.mp h
      · rintro ⟨data', hdata, hsize, hinit, -⟩
        cases hdata
        exact (init_ok_iff.mp hinit).1 (List.length_eq_zero_iff.mp (hnull.resolve_right hsize))
    · rename_i hnull
      rw [Exec.ends_bind_ok]
      constructor
      · rintro ⟨initialized, hinit, h⟩
        cases initialized with
        | none => cases Exec.ends_pure.mp h
        | some vars' =>
          cases Exec.ends_pure.mp h
          exact ⟨data, rfl, fun h => hnull (.inr h), Exec.attempt_some.mp hinit, rfl, rfl, rfl⟩
      · rintro ⟨data', hdata, -, hinit, hpolicy, hdataIn, rfl⟩
        cases hdata
        refine ⟨some call.vars, Exec.attempt_some.mpr hinit, Exec.ends_pure.mpr ?_⟩
        rw [← hpolicy, ← hdataIn]

/-- `_vars` is the same after a call as before. -/
theorem vars_restored {call : Option Call}
    (h : (sealLSVMLoadPolicy env checkCert lsvmload sealForSecureBoot dataIn).Ends
      (.ok (call, vars))) : vars = env.vars := by
  cases sealForSecureBoot with
  | true =>
    cases call with
    | some call =>
      obtain ⟨-, -, -, hinit, -, -, rfl⟩ := seal_call_iff.mp h
      obtain ⟨-, -, -, found, -, -, hvars⟩ := init_ok_iff.mp hinit
      rw [hvars]
      exact DbxUpdate.release_append env.vars _
    | none =>
      unfold sealLSVMLoadPolicy at h
      split at h
      · cases Exec.ends_pure.mp h
        rfl
      · dsimp only at h
        split at h
        · cases Exec.ends_pure.mp h
          rfl
        · rw [if_pos rfl, Exec.ends_bind_ok] at h
          obtain ⟨initialized, -, h⟩ := h
          cases initialized with
          | none =>
            cases Exec.ends_pure.mp h
            rfl
          | some vars' => cases Exec.ends_pure.mp h
  | false =>
    unfold sealLSVMLoadPolicy at h
    split at h
    · cases Exec.ends_pure.mp h
      rfl
    · dsimp only at h
      split at h
      · cases Exec.ends_pure.mp h
        rfl
      · rw [if_neg (by decide)] at h
        cases Exec.ends_pure.mp h
        rfl

/-! ## What is measured -/

theorem dbEntry_once :
    secureBootPolicy.entries.countP (·.path.bytes = dbEntryPath) = 1 := by decide

theorem dbEntry_entry : ∃ ent, secureBootPolicy.entries[6]? = some ent ∧
    ent.path.bytes = dbEntryPath ∧ ent.type = .efivar ∧ ent.pcr = 7 :=
  ⟨_, rfl, by decide, rfl, rfl⟩

/-- The variable that is added is the one that is found. -/
theorem varsFind_dbEntry (data : Bytes) (henv : env.vars = initialVars ++
    [namedVar "D719B2CB3D3A4596A3BCDAD00E67656F-db.Entry" data]) :
    varsFind env dbEntryPath =
      some (namedVar "D719B2CB3D3A4596A3BCDAD00E67656F-db.Entry" data) := by
  have hnone : initialVars.find? (·.name.bytes = dbEntryPath) = none := by decide
  have hname : (namedVar "D719B2CB3D3A4596A3BCDAD00E67656F-db.Entry" data).name.bytes =
      dbEntryPath := by
    show Strings.cstr _ = _
    decide
  rw [varsFind, henv, List.find?_append, hnone, Option.none_or]
  exact List.find?_cons_of_pos (by simpa using hname)

theorem load_dbEntry {data text name : Bytes} (henv : env.vars = initialVars ++
    [namedVar "D719B2CB3D3A4596A3BCDAD00E67656F-db.Entry" data]) (hlt : data.length < 2 ^ 32)
    (hmem : env.mem data.length = true) :
    loadVariable env dbEntryPath text name = .ok data := by
  have hload : varsLoad env dbEntryPath = .ok data := by
    unfold varsLoad
    rw [varsFind_dbEntry data henv]
    dsimp only [namedVar]
    rw [u32_of_lt hlt, if_neg (by simp [hmem]), if_neg (Nat.lt_irrefl _)]
    rfl
  unfold loadVariable loadVariableOrFile
  rw [hload]
  rfl

/-- A sealing that succeeds has measured the policy. -/
theorem measured_of_sealed {τ : Type} {d : Tpm2 τ} {w w' : World τ} {out : Bytes}
    (h : (call.seal env d).run w = .ok out w') :
    ∃ banks, measurePolicy { env with vars := call.vars } d.works d.uninit call.policy =
      .ok banks := by
  unfold Call.seal sealPolicy at h
  split at h
  · cases h
  · obtain ⟨banks, hb, -⟩ := Prog.read_bind_eq_ok.mp h
    exact ⟨banks, hb⟩

theorem split_name {guid : Guid.EfiGuid} {txt name : Bytes}
    (hpath : dbEntryPath.length < env.pathMax)
    (h : splitVariablePath env dbEntryPath = some (guid, txt, name)) : name.length = 2 := by
  have hcopy : strlcpy dbEntryPath env.pathMax = dbEntryPath :=
    List.take_of_length_le (Nat.le_sub_one_of_lt hpath)
  have hcut : (cutExtension dbEntryPath).dropWhile (· ≠ 45) = 45 :: text "db" := by decide
  unfold splitVariablePath at h
  dsimp only at h
  rw [hcopy, hcut] at h
  obtain ⟨guid', -, h⟩ := Option.bind_eq_some_iff.mp h
  cases h
  rfl

/-- In a policy that was measured `db.Entry` was hashed. -/
theorem hashed_of_ok {works : Nat → Works} {uninit : Nat → Hashes} {banks : PCRBanks}
    {data : Bytes} (henv : env.vars = initialVars ++
      [namedVar "D719B2CB3D3A4596A3BCDAD00E67656F-db.Entry" data]) (hlt : data.length < 2 ^ 32)
    (hmem : env.mem data.length = true)
    (h : measurePolicy env works uninit secureBootPolicy = .ok banks) :
    ∃ guid txt name, splitVariablePath env dbEntryPath = some (guid, txt, name) ∧
      ∃ hashes, hashVariable env .all guid name data = .ok hashes := by
  obtain ⟨ent, hent, hpath, htype, -⟩ := dbEntry_entry
  have hpasses : Passes env (works 6) ent := passes_of_ok h hent
  rcases hpasses with hno | ⟨⟨hashes, hm⟩, -⟩
  · rw [htype] at hno
    cases hno
  · unfold measurement at hm
    rw [htype, hpath] at hm
    change variableHashes env dbEntryPath = .ok hashes at hm
    unfold variableHashes at hm
    obtain ⟨⟨guid, txt, name⟩, hsplit, hm⟩ := Out.bind_eq_ok.mp hm
    dsimp only at hm
    rw [load_dbEntry henv hlt hmem, Out.ok_bind] at hm
    cases hs : splitVariablePath env dbEntryPath with
    | none =>
      rw [hs] at hsplit
      cases hsplit
    | some x =>
      rw [hs] at hsplit
      cases hsplit
      exact ⟨guid, txt, name, rfl, hashes, hm⟩

/-- A policy that was measured had its `db.Entry` measured. -/
theorem measured_of_ok {works : Nat → Works} {uninit : Nat → Hashes} {banks : PCRBanks}
    {data : Bytes} (henv : env.vars = initialVars ++
      [namedVar "D719B2CB3D3A4596A3BCDAD00E67656F-db.Entry" data]) (hlt : data.length < 2 ^ 32)
    (hmem : env.mem data.length = true)
    (h : measurePolicy env works uninit secureBootPolicy = .ok banks) :
    Measured env secureBootPolicy data := by
  obtain ⟨ent, hent, hpath, htype, hpcr⟩ := dbEntry_entry
  obtain ⟨guid, txt, name, hsplit, -⟩ := hashed_of_ok henv hlt hmem h
  refine ⟨dbEntry_once, ent, List.mem_of_getElem? hent, hpath, htype, hpcr, ?_⟩
  rw [hpath]
  exact ⟨guid, txt, name, hsplit, load_dbEntry henv hlt hmem⟩

/-- What was hashed was not too large. -/
theorem fits_of_ok {works : Nat → Works} {uninit : Nat → Hashes} {banks : PCRBanks}
    {data : Bytes} (henv : env.vars = initialVars ++
      [namedVar "D719B2CB3D3A4596A3BCDAD00E67656F-db.Entry" data])
    (hpath : dbEntryPath.length < env.pathMax) (hlt : data.length < 2 ^ 32)
    (hmem : env.mem data.length = true)
    (h : measurePolicy env works uninit secureBootPolicy = .ok banks) :
    data.length + 36 < 2 ^ 32 := by
  obtain ⟨guid, txt, name, hsplit, hashes, hh⟩ := hashed_of_ok henv hlt hmem h
  have hname := split_name hpath hsplit
  unfold hashVariable at hh
  dsimp only at hh
  split at hh
  · cases hh
  · split at hh
    · cases hh
    · rename_i hsize
      have := u32_lt (32 + 2 * name.length + data.length)
      omega

/-- What is measured is the variable that was added. -/
theorem Measured.eq {data entry : Bytes} {policy : Policy} (h : Measured env policy entry)
    (henv : env.vars = initialVars ++
      [namedVar "D719B2CB3D3A4596A3BCDAD00E67656F-db.Entry" data]) (hlt : data.length < 2 ^ 32)
    (hmem : env.mem data.length = true) : entry = data := by
  obtain ⟨-, ent, -, hpath, -, -, guid, text, name, -, hload⟩ := h
  rw [hpath, load_dbEntry henv hlt hmem] at hload
  exact (Out.ok.inj hload).symm

/-- A signature has an owner. -/
theorem entryOf_ne_nil {db entry : Bytes} (h : EntryOf db entry) : entry ≠ [] := by
  obtain ⟨rest, i, -, hle, hfits, howner, rfl⟩ := h
  rw [Nat.succ_mul] at hfits
  intro hnil
  have hlen := congrArg List.length hnil
  rw [entryOf, List.length_take, List.length_drop, List.length_drop, List.length_nil] at hlen
  omega

theorem length_entryOf {rest : Bytes} {i : Nat} (h : InBuffer rest i) :
    (entryOf rest i).length = signatureSize rest := by
  rw [entryOf, List.length_take]
  exact Nat.min_eq_left h.2

end Calls

/-! ## A machine on which sealing succeeds -/

theorem noDigest_le : ([] : Bytes).length ≤ 64 := Nat.zero_le 64

theorem noPrivate_le : ([] : Bytes).length ≤ 910 := Nat.zero_le 910

/-- A TPM that carries out each command. -/
def obligingTpm : Tpm Unit where
  startAuthSession _ _ t := (.ok 0x03000000, t)
  policyPassword _ t := (.ok (), t)
  pcrRead _ t := (.ok ⟨[], noDigests_le⟩, t)
  policyPCR _ _ _ t := (.ok (), t)
  policyGetDigest _ t := (.ok ⟨[], noDigest_le⟩, t)
  createPrimary _ t := (.ok 0x80000000, t)
  create _ _ _ _ t := (.ok ⟨⟨[], noPrivate_le⟩, srkPublic, ⟨[], noDigest_le⟩⟩, t)
  flushContext _ t := t

theorem one_le : ([1] : Bytes).length ≤ maxDataSize := by decide

/-- PCRs 7 and 11. -/
theorem sealData_obliging (pcrs : Fin maxPcrs → ShaHash.SHA256Hash) (log : List TpmSeal.Event) :
    ∃ blob w, (sealData obligingTpm (ShaHash.sha (fun _ => ShaHash.Digest.zero 20) true)
      (ShaHash.sha (fun _ => ShaHash.Digest.zero 32) true) 0x80000000 (some pcrs) 2176 [1]
        none).run ⟨(), log⟩ = .ok (some blob) w ∧
      (TpmBlob.serializeBlob blob TpmBlob.sizeofBlob).passes (fun _ => true) = true := by
  refine ⟨_, _, rfl, ?_⟩
  decide

theorem emptyFile_lt : ([] : Bytes).length < 2 ^ 63 := by decide

/-- A machine with the db variable `db`, and with nothing in other variables. -/
def machine (db : Bytes) (vars : List Var) : Env where
  sha1 _ := ShaHash.Digest.zero 20
  sha256 _ := ShaHash.Digest.zero 32
  vars := vars
  loadFile _ := some ⟨[], fun _ => 0, emptyFile_lt⟩
  loadEFIVar _ _ := some db
  mem _ := true
  pathMax := 4096

/-- What `_vars` holds while `SealPolicy` is called. -/
abbrev entryVars (data : Bytes) : List Var :=
  initialVars ++ [namedVar "D719B2CB3D3A4596A3BCDAD00E67656F-db.Entry" data]

/-- What is loaded under a name other than `db.Entry` is small. -/
theorem load_other {db data path : Bytes} (hpath : path ≠ dbEntryPath) :
    ∃ d, loadVariableOrFile (machine db (entryVars data)) path = .ok d ∧ d.length ≤ 4 := by
  have hname : (namedVar "D719B2CB3D3A4596A3BCDAD00E67656F-db.Entry" data).name.bytes =
      dbEntryPath := by
    show Strings.cstr _ = _
    decide
  have hfind : varsFind (machine db (entryVars data)) path =
      initialVars.find? (·.name.bytes = path) := by
    have hlast : List.find? (fun v : Var => decide (v.name.bytes = path))
        [namedVar "D719B2CB3D3A4596A3BCDAD00E67656F-db.Entry" data] = none := by
      rw [List.find?_singleton, if_neg]
      rw [hname]
      simpa using hpath.symm
    show (entryVars data).find? _ = _
    rw [List.find?_append, hlast, Option.or_none]
  have hsmall : ∀ var ∈ initialVars, var.data.length ≤ 4 := by decide
  unfold loadVariableOrFile varsLoad
  rw [hfind]
  cases hv : initialVars.find? (·.name.bytes = path) with
  | none => exact ⟨[], rfl, Nat.zero_le 4⟩
  | some var =>
    have hlen := hsmall var (List.mem_of_find?_eq_some hv)
    dsimp only
    rw [u32_of_lt (by omega), if_neg (by simp [machine]), if_neg (Nat.lt_irrefl _)]
    exact ⟨var.data, rfl, hlen⟩

theorem split_entries : secureBootPolicy.entries.all (fun ent =>
    ent.type = .binary && ent.path.bytes ≠ dbEntryPath ||
      ent.type = .efivar && (splitVariablePath (machine [] []) ent.path.bytes).any fun x =>
        x.2.2.length ≤ 10) = true := by
  decide

theorem split_dbEntry :
    (splitVariablePath (machine [] []) dbEntryPath).any (fun x => x.2.2.length = 2) = true := by
  decide

theorem hashVariable_ok {env : Env} (hmem : ∀ n, env.mem n = true) (guid : Guid.EfiGuid)
    {name data : Bytes} (hlt : 32 + 2 * name.length + data.length < 2 ^ 32) :
    ∃ h, hashVariable env .all guid name data = .ok h := by
  unfold hashVariable
  dsimp only
  rw [u32_of_lt hlt, if_neg (by simp [hmem]), if_neg (Nat.lt_irrefl _)]
  exact ⟨_, rfl⟩

/-- Each entry of the policy can be measured. -/
theorem measurement_ok {db data : Bytes} (hlt : data.length + 36 < 2 ^ 32) {ent : PolicyEntry}
    (h : ent ∈ secureBootPolicy.entries) :
    ent.type ≠ .cap ∧ ∃ hashes, measurement (machine db (entryVars data)) ent = .ok hashes := by
  have hent := List.all_eq_true.mp split_entries ent h
  simp only [Bool.or_eq_true, Bool.and_eq_true, decide_eq_true_eq] at hent
  unfold measurement
  rcases hent with ⟨ht, hpath⟩ | ⟨ht, hs⟩
  · obtain ⟨d, hd, -⟩ := @load_other db data _ hpath
    rw [ht]
    refine ⟨by decide, hashBoth (machine db (entryVars data)) (ShaHash.read32 d), ?_⟩
    show fileHashes _ _ = _
    rw [fileHashes, hd]
    rfl
  · rw [ht]
    refine ⟨by decide, ?_⟩
    obtain ⟨⟨guid, text, name⟩, hsplit, hname⟩ := (Option.any_eq_true _ _).mp hs
    have hsplit' : splitVariablePath (machine db (entryVars data)) ent.path.bytes =
        some (guid, text, name) := hsplit
    have hload : ∃ d, loadVariable (machine db (entryVars data)) ent.path.bytes text name = .ok d ∧
        32 + 2 * name.length + d.length < 2 ^ 32 := by
      by_cases hpath : ent.path.bytes = dbEntryPath
      · rw [hpath]
        refine ⟨data, load_dbEntry rfl (by omega) rfl, ?_⟩
        have htwo := (Option.any_eq_true _ _).mp split_dbEntry
        obtain ⟨x, hx, htwo⟩ := htwo
        rw [← hpath, hsplit] at hx
        cases hx
        simp only [decide_eq_true_eq] at htwo
        omega
      · obtain ⟨d, hd, hsmall⟩ := @load_other db data _ hpath
        refine ⟨d, ?_, ?_⟩
        · unfold loadVariable
          rw [hd]
          rfl
        · simp only [decide_eq_true_eq] at hname
          omega
    obtain ⟨d, hd, hfits⟩ := hload
    obtain ⟨hashes, hh⟩ := @hashVariable_ok (machine db (entryVars data)) (fun _ => rfl) guid _ _
      hfits
    refine ⟨hashes, ?_⟩
    show variableHashes _ _ = _
    rw [variableHashes, hsplit']
    show (loadVariable _ _ _ _ >>= fun data => _) = _
    rw [hd]
    exact hh

theorem measurePolicy_ok {db data : Bytes} (hlt : data.length + 36 < 2 ^ 32) :
    ∃ banks, measurePolicy (machine db (entryVars data)) (fun _ => .all)
      (fun _ => ⟨ShaHash.Digest.zero 20, ShaHash.Digest.zero 32⟩) secureBootPolicy = .ok banks ∧
      banks.pcrMask = 2176 := by
  have hpasses : ∀ k ent, secureBootPolicy.entries[k]? = some ent →
      Passes (machine db (entryVars data)) ((fun _ => Works.all) (0 + k)) ent := by
    intro k ent hk
    obtain ⟨-, hm⟩ := @measurement_ok db _ hlt _ (List.mem_of_getElem? hk)
    exact .inr ⟨hm, .inr rfl, rfl⟩
  obtain ⟨banks, hb⟩ := (@measureEntries_ok_iff (machine db (entryVars data)) (fun _ => .all)
    (fun _ => ⟨ShaHash.Digest.zero 20, ShaHash.Digest.zero 32⟩) 0 secureBootPolicy.entries
    .empty).mpr hpasses
  refine ⟨banks, hb, ?_⟩
  have hfolded := @measureEntries_folded (machine db (entryVars data)) (fun _ => .all)
    (fun _ => ⟨ShaHash.Digest.zero 20, ShaHash.Digest.zero 32⟩) 0 secureBootPolicy.entries .empty
    banks (fun _ _ _ _ => rfl) hb
  rw [hfolded.1]
  rfl

/-- On such a machine sealing with `data` as `db.Entry` succeeds. -/
theorem seal_succeeds {db data : Bytes} (hlt : data.length + 36 < 2 ^ 32) :
    ∃ (d : Tpm2 Unit) (w : World Unit),
      (((Call.mk (entryVars data) secureBootPolicy [1]).seal (machine db initialVars) d).run
        w).passes fun _ _ => true := by
  obtain ⟨banks, hb, hmask⟩ := @measurePolicy_ok db _ hlt
  obtain ⟨blob, w₁, hseal, hser⟩ := sealData_obliging banks.pcrs256 [.primary 0x80000000]
  obtain ⟨out, hout, -⟩ := Out.of_passes hser
  refine ⟨⟨obligingTpm, true, true, fun _ => .all, fun _ => ⟨ShaHash.Digest.zero 20,
    ShaHash.Digest.zero 32⟩, none⟩, ⟨(), []⟩, ?_⟩
  rw [← hmask] at hseal
  have hunder := SealReported.sealUnder_ok hseal
  rw [serialize, hout] at hunder
  have hrun := @SealReported.sealPolicy_primary _ _ _ obligingTpm
    (ShaHash.sha (fun _ => ShaHash.Digest.zero 20) true)
    (ShaHash.sha (fun _ => ShaHash.Digest.zero 32) true) _ _ _ _ [1] none banks ⟨(), []⟩
    0x80000000 () (by decide) one_le hb rfl
  rw [Prog.run_after, List.nil_append, hunder] at hrun
  exact (congrArg (Res.passes fun _ _ => true) hrun).trans rfl

/-! ## When sealing is right -/

section Law

variable {checkCert : (image cert : Bytes) → Bool} {db lsvmload : Bytes}

/-- What the search finds is what is measured, if sealing succeeds. -/
theorem found_measured {found : Option Bytes} (h : SealsMatch checkCert db lsvmload)
    (hne : lsvmload ≠ [])
    (hfound : (checkImageDB (fun _ => true) (checkCert lsvmload) true db).Ends (.ok found))
    (hlt : (found.getD []).length + 36 < 2 ^ 32) : EntryOf db (found.getD []) := by
  obtain ⟨d, w, hpasses⟩ := @seal_succeeds db _ hlt
  obtain ⟨out, w', hrun, -⟩ := Res.of_passes hpasses
  have hinit : (initLSVMLoadPolicy (machine db initialVars) checkCert lsvmload).Ends
      (.ok (entryVars (found.getD []))) :=
    init_ok_iff.mpr ⟨hne, db, rfl, found, hfound, show initialVars.length ≠ varsMax by decide, rfl⟩
  have hcall : (sealLSVMLoadPolicy (machine db initialVars) checkCert lsvmload true
      (some [1])).Ends (.ok (some ⟨entryVars (found.getD []), secureBootPolicy, [1]⟩,
        releaseLSVMLoadPolicy (entryVars (found.getD [])))) :=
    seal_call_iff.mpr ⟨[1], rfl, by decide, hinit, rfl, rfl, rfl⟩
  obtain ⟨entry, hentry, -, hmeasured⟩ :=
    h.entry (machine db initialVars) rfl
      (show dbEntryPath.length < 4096 by decide) rfl _ _ _ hcall Unit d w out w' hrun
  have heq := hmeasured.eq rfl (by omega) rfl
  rwa [heq] at hentry

theorem matches_of_seals (h : SealsMatch checkCert db lsvmload) (hne : lsvmload ≠ []) :
    Matches (checkCert lsvmload) db := by
  intro rest hrest
  constructor
  · intro hnil
    have hentry := found_measured h hne
      (checkImageDB_ok_iff.mpr ⟨rest, hrest, .inl ⟨hnil, rfl⟩⟩) (by decide)
    exact entryOf_ne_nil hentry rfl
  · intro i hit hlt
    refine found_measured h hne (checkImageDB_ok_iff.mpr ⟨rest, hrest, .inr ⟨i, hit, rfl, rfl⟩⟩) ?_
    rw [Option.getD_some, length_entryOf hit.inBuffer]
    exact hlt

theorem seals_of_matches (h : lsvmload = [] ∨ Matches (checkCert lsvmload) db) :
    SealsMatch checkCert db lsvmload := by
  refine ⟨fun env hvars hpath hload dataIn call vars hcall τ d w out w' hrun => ?_,
    fun env sealForSecureBoot dataIn call vars hcall => vars_restored hcall⟩
  obtain ⟨data, -, -, hinit, hpolicy, -, -⟩ := seal_call_iff.mp hcall
  obtain ⟨hne, db', hdb, found, hfound, -, hcallvars⟩ := init_ok_iff.mp hinit
  rw [hload] at hdb
  cases hdb
  obtain ⟨rest, hrest, hcase⟩ := checkImageDB_ok_iff.mp hfound
  obtain ⟨hnonempty, hentry⟩ := h.resolve_left hne rest hrest
  rcases hcase with ⟨hnil, -⟩ | ⟨i, hit, hmem, rfl⟩
  · exact absurd hnil hnonempty
  · obtain ⟨banks, hbanks⟩ := measured_of_sealed hrun
    rw [hpolicy] at hbanks ⊢
    rw [hvars, Option.getD_some] at hcallvars
    have hlen := length_entryOf hit.inBuffer
    have hlt : (entryOf rest i).length < 2 ^ 32 := by
      rw [hlen]
      exact le32_lt _ _
    have hmem' : env.mem (entryOf rest i).length = true := by
      rw [hlen]
      exact hmem
    have hmeasured := @measured_of_ok { env with vars := call.vars } _ _ _ _ hcallvars hlt hmem'
      hbanks
    have hfits := @fits_of_ok { env with vars := call.vars } _ _ _ _ hcallvars hpath hlt hmem'
      hbanks
    rw [hlen] at hfits
    exact ⟨entryOf rest i, hentry i hit hfits, hit.accepted, hmeasured⟩

end Law

/-- A list with one signature, of an owner without data. -/
def oneSignature : Bytes :=
  List.replicate 16 0 ++ enc32 44 ++ enc32 0 ++ enc32 16 ++ List.replicate 16 0

section Update

variable {env : Env} {checkCert : (image cert : Bytes) → Bool} {lsvmload : Bytes}
  {sealForSecureBoot : Bool} {dataIn : Option Bytes} {call : Option Call} {vars : List Var}
  {e : DbxUpdate.Env}

/-- What `CheckImageDB` hands to its caller. -/
def handed : Out Unit (Option Bytes) → Option Bytes
  | .ok found => some (found.getD [])
  | _ => none

/-- The environment of the update is this one. -/
structure Agrees (env : Env) (checkCert : (image cert : Bytes) → Bool) (lsvmload : Bytes)
    (e : DbxUpdate.Env) : Prop where
  loadEFIVar : e.loadEFIVar = env.loadEFIVar
  checkImageDB : ∀ db, ∃ r, (checkImageDB env.mem (checkCert lsvmload) true db).Ends r ∧
    e.checkImageDB db lsvmload = handed r

theorem init_agrees (h : Agrees env checkCert lsvmload e) :
    (initLSVMLoadPolicy env checkCert lsvmload).Ends (.ok vars) ↔
      DbxUpdate.initLSVMLoadPolicy e env.vars lsvmload = some vars := by
  rw [init_ok_iff, DbxUpdate.initLSVMLoadPolicy]
  split
  · rename_i hnil
    exact iff_of_false (fun hc => hc.1 (List.length_eq_zero_iff.mp hnil)) fun hc => (by cases hc)
  · rename_i hne
    simp only [h.loadEFIVar, Option.bind_eq_bind, Option.bind_eq_some_iff]
    constructor
    · rintro ⟨-, db, hdb, found, hfound, hmax, rfl⟩
      obtain ⟨r, hr, hcheck⟩ := h.checkImageDB db
      cases hr.unique hfound
      exact ⟨db, hdb, _, hcheck, by rw [if_neg hmax]⟩
    · rintro ⟨db, hdb, result, hresult, hvars⟩
      obtain ⟨r, hr, hcheck⟩ := h.checkImageDB db
      rw [hcheck] at hresult
      split at hvars
      · cases hvars
      · rename_i hmax
        cases hvars
        cases r with
        | ok found =>
          cases hresult
          exact ⟨fun hnil => hne (by rw [hnil]; rfl), db, hdb, found, hr, hmax, rfl⟩
        | err e => cases hresult
        | stuck => cases hresult

/-- Where sealing has a result, the model of the update has the same. -/
theorem seal_agrees (h : Agrees env checkCert lsvmload e)
    (hends : (sealLSVMLoadPolicy env checkCert lsvmload sealForSecureBoot dataIn).Ends
      (.ok (call, vars))) :
    DbxUpdate.sealLSVMLoadPolicy e env.vars lsvmload sealForSecureBoot dataIn =
      (call.bind fun c => e.sealPolicy c.vars c.policy c.dataIn, vars) := by
  unfold sealLSVMLoadPolicy at hends
  unfold DbxUpdate.sealLSVMLoadPolicy
  split at hends
  · cases Exec.ends_pure.mp hends
    rfl
  · dsimp only at hends ⊢
    split at hends
    · rename_i hnull
      cases Exec.ends_pure.mp hends
      rw [if_pos hnull]
      rfl
    · rename_i hnull
      rw [if_neg hnull]
      split at hends
      · rename_i hsecure
        rw [if_pos hsecure]
        obtain ⟨initialized, hinit, hends⟩ := Exec.ends_bind_ok.mp hends
        cases initialized with
        | some vars' =>
          cases Exec.ends_pure.mp hends
          rw [(init_agrees h).mp (Exec.attempt_some.mp hinit)]
          rfl
        | none =>
          cases Exec.ends_pure.mp hends
          cases hv : DbxUpdate.initLSVMLoadPolicy e env.vars lsvmload with
          | none => rfl
          | some vars' =>
            have hboth := ((init_agrees h).mpr hv).attempt.unique hinit
            cases hboth
      · rename_i hsecure
        cases Exec.ends_pure.mp hends
        rw [if_neg hsecure]
        rfl

end Update

end LsvmTools.DbEntry
