import LsvmTools.MeasurePolicy
import LsvmTools.TpmBlob

/-! # Sealing with the TPM

The policies of `tpm2.c`, sealing under them, and `SealPolicy`. A TPM is what each
of its commands answers in each of its states; the commands that it carried out are kept in
a log. -/
namespace LsvmTools.TpmSeal
open Lib.ByteString Lib.Program PeImage ShaHash MeasurePolicy TpmBlob

/-! ## Types -/

/-- A `TPM_RC` other than `TPM_RC_SUCCESS`. -/
structure Rc where
  code : UInt32
  ne : code ≠ 0
deriving DecidableEq

theorem failure_ne : (0x101 : UInt32) ≠ 0 := by decide

/-- `TPM_RC_FAILURE`. -/
def rcFailure : Rc := ⟨0x101, failure_ne⟩

abbrev Handle := UInt32

/-- `TPM_ALG_SHA1`. -/
def algSha1 : UInt16 := 0x0004

/-- `TPM_ALG_SHA256`. -/
def algSha256 : UInt16 := 0x000B

/-- `TPMS_PCR_SELECTION`. -/
structure PcrSelection where
  hash : UInt16
  pcrSelect : Sized 3
deriving DecidableEq

/-- `TPML_DIGEST`. -/
structure DigestList where
  digests : List (Sized 64)
  count_le : digests.length ≤ 8

/-- What `TPM2_Create` puts out. -/
structure Created where
  outPrivate : Sized 910
  outPublic : Tpm2bPublic
  creationHash : Sized 64

/-- `TPM2X_MAX_DATA_SIZE`. -/
abbrev maxDataSize : Nat := 128

/-- A command: its answer, and the TPM after it. -/
abbrev Command (τ α : Type) := τ → Except Rc α × τ

structure Tpm (τ : Type) where
  startAuthSession : (trial : Bool) → (authHash : UInt16) → Command τ Handle
  policyPassword : (policySession : Handle) → Command τ Unit
  pcrRead : (pcrSelectionIn : PcrSelection) → Command τ DigestList
  policyPCR : (policySession : Handle) → (pcrDigest : Sized 64) → (pcrs : PcrSelection) →
    Command τ Unit
  policyGetDigest : (policySession : Handle) → Command τ (Sized 64)
  createPrimary : (inPublic : Tpm2bPublic) → Command τ Handle
  create : (parent : Handle) → (data : Sized maxDataSize) → (inPublic : Tpm2bPublic) →
    (creationPCR : PcrSelection) → Command τ Created
  flushContext : Handle → τ → τ

/-- A command that was carried out. -/
inductive Event where
  | started (session : Handle)
  | password (session : Handle)
  | read (sel : PcrSelection)
  | pcrPolicy (session : Handle) (pcrDigest : Sized 64) (sel : PcrSelection)
  | policyDigest (session : Handle) (digest : Sized 64)
  | primary (key : Handle)
  | created (parent : Handle) (data : Sized maxDataSize) (inPublic : Tpm2bPublic)
      (sel : PcrSelection) (out : Created)
  | loaded (parent object : Handle)
  | unsealed (object session : Handle)
  | flushed (handle : Handle)

structure World (τ : Type) where
  tpm : τ
  log : List Event

variable {τ Ctx Ctx' α : Type}

def call (command : Command τ α) (event : α → Event) : Prog (World τ) Rc α where
  exec w := match command w.tpm with
    | (.ok a, t) => .ok a ⟨t, w.log ++ [event a]⟩
    | (.error rc, t) => .err rc ⟨t, w.log⟩

/-! ## Policies -/

theorem selectNone_le : ([0, 0, 0] : Bytes).length ≤ 3 := by decide

def PcrSelection.none (hash : UInt16) : PcrSelection := ⟨hash, ⟨[0, 0, 0], selectNone_le⟩⟩

theorem selectPCR_le (s : Sized 3) (k : Nat) (x : UInt8) : (s.bytes.set k x).length ≤ 3 := by
  rw [List.length_set]
  exact s.size_le

/-- `TPMS_PCR_SELECTION_SelectPCR`. -/
def PcrSelection.selectPCR (self : PcrSelection) (n : Fin maxPcrs) : PcrSelection where
  hash := self.hash
  pcrSelect :=
    ⟨self.pcrSelect.bytes.set (n.val / 8)
        (byteAt self.pcrSelect.bytes (n.val / 8) ||| UInt8.ofNat (1 <<< (n.val % 8))),
      selectPCR_le _ _ _⟩

/-- The PCRs that the loops over `pcrMask & (1 << i)` meet. -/
def selected (pcrMask : Nat) : List (Fin maxPcrs) :=
  (List.finRange maxPcrs).filter fun i => pcrMask.testBit i

def selection (hash : UInt16) (pcrMask : Nat) : PcrSelection :=
  (selected pcrMask).foldl .selectPCR (.none hash)

theorem digest_le {n : Nat} (h : n ≤ 64) (d : Digest n) : d.buf.length ≤ 64 := by
  rw [d.size]
  exact h

/-- A hash value in a `TPM2B_DIGEST`. -/
def sized {n : Nat} (h : n ≤ 64) (d : Digest n) : Sized 64 := ⟨d.buf, digest_le h d⟩

theorem sha1_le : 20 ≤ 64 := by decide

theorem sha256_le : 32 ≤ 64 := by decide

theorem noDigests_le : ([] : List (Sized 64)).length ≤ 8 := by decide

theorem push_le {ds : List (Sized 64)} (d : Sized 64) (h : ds.length < 8) :
    (ds ++ [d]).length ≤ 8 := by
  rw [List.length_append]
  exact h

/-- Fill the next of the eight digests. -/
def DigestList.push (list : DigestList) (d : Sized 64) : Out Rc DigestList :=
  if h : list.digests.length < 8 then .ok ⟨list.digests ++ [d], push_le d h⟩ else .stuck

/-- The loop that copies the predicted values. -/
def predictPCRs (pcrs : Fin maxPcrs → SHA256Hash) :
    List (Fin maxPcrs) → DigestList → Out Rc DigestList
  | [], list => .ok list
  | i :: is, list => do
    let list ← list.push (sized sha256_le (pcrs i))
    predictPCRs pcrs is list

variable (tpm : Tpm τ) (sha1 : Sha Ctx SHA1Hash) (sha256 : Sha Ctx' SHA256Hash)

/-- The values of the PCRs: the predicted ones if there are any, else those of the TPM. -/
def gatherPCRs (predictive : Option (Fin maxPcrs → SHA256Hash)) (pcrMask : Nat)
    (pcrSelectionIn : PcrSelection) : Prog (World τ) Rc DigestList :=
  match predictive with
  | some pcrs => .read fun _ => predictPCRs pcrs (selected pcrMask) ⟨[], noDigests_le⟩
  | none => call (tpm.pcrRead pcrSelectionIn) fun _ => .read pcrSelectionIn

/-- Hash the PCRs together. -/
def hashPCRs (hashAlg : UInt16) (pcrValues : DigestList) : Option (Sized 64) :=
  let data := pcrValues.digests.flatMap (·.bytes)
  if hashAlg = algSha1 then (computeSHA sha1 data).map (sized sha1_le)
  else (computeSHA sha256 data).map (sized sha256_le)

/-- The end of `TPM2X_BuildPolicy`. Where the hash fails, what is returned is the success of
the command before it. -/
def createPCRPolicy (policySession : Handle) (hashAlg : UInt16) (pcrMask : Nat)
    (pcrValues : DigestList) : Prog (World τ) Rc Unit :=
  if pcrValues.digests.length ≠ (selected pcrMask).length then .throw rcFailure
  else match hashPCRs sha1 sha256 hashAlg pcrValues with
    | none => pure ()
    | some pcrDigest =>
      call (tpm.policyPCR policySession pcrDigest (selection hashAlg pcrMask)) fun _ =>
        .pcrPolicy policySession pcrDigest (selection hashAlg pcrMask)

/-- `TPM2X_BuildPolicy`. -/
def buildPolicy (policySession : Handle) (predictive : Option (Fin maxPcrs → SHA256Hash))
    (pcrMask : Nat) (hashAlg : UInt16) : Prog (World τ) Rc Unit :=
  if hashAlg ≠ algSha1 ∧ hashAlg ≠ algSha256 then .throw rcFailure
  else do
    call (tpm.policyPassword policySession) fun _ => .password policySession
    let pcrValues ← gatherPCRs tpm predictive pcrMask (selection hashAlg pcrMask)
    createPCRPolicy tpm sha1 sha256 policySession hashAlg pcrMask pcrValues

/-! ## Sealing -/

/-- `TPM2X_StartAuthSession`. -/
def startAuthSession (trial : Bool) (alg : UInt16) : Prog (World τ) Rc Handle :=
  if alg ≠ algSha1 ∧ alg ≠ algSha256 then .throw rcFailure
  else call (tpm.startAuthSession trial alg) .started

/-- `TPM2_FlushContext`, whose result is not looked at. -/
def flush (handle : Handle) (w : World τ) : World τ :=
  ⟨tpm.flushContext handle w.tpm, w.log ++ [.flushed handle]⟩

/-- The public area of the storage root key. -/
def srkPublic : Tpm2bPublic :=
  ⟨0, ⟨algSha256, 0x30472, ⟨[], Nat.zero_le 64⟩,
    .rsa ⟨.block .aes 128 0x0043, .null, 2048, 0⟩ ⟨[], Nat.zero_le 256⟩⟩⟩

/-- `TPM2X_CreateSRKKey`. -/
def createSRKKey : Prog (World τ) Rc Handle := call (tpm.createPrimary srkPublic) .primary

/-- The public area of a sealed object. -/
def sealedPublic (policyDigest : Sized 64) : Tpm2bPublic :=
  ⟨0, ⟨algSha256, 0, policyDigest, .keyedHash .null ⟨[], Nat.zero_le 64⟩⟩⟩

def blobOf (out : Created) (creationPCR : PcrSelection) : Blob :=
  ⟨out.outPrivate, out.outPublic, out.creationHash, creationPCR.pcrSelect⟩

/-- The part of `TPM2X_Seal` behind `TPM2X_BuildPolicy`. -/
def createSealed (parentKey : Handle) (pcrMask : Nat) (data : Sized maxDataSize)
    (policyHandle : Handle) : Prog (World τ) Rc Blob := do
  let policyDigest ← call (tpm.policyGetDigest policyHandle) (.policyDigest policyHandle)
  let inPublic := sealedPublic policyDigest
  let creationPCR := selection algSha256 pcrMask
  let out ← call (tpm.create parentKey data inPublic creationPCR)
    (.created parentKey data inPublic creationPCR)
  pure (blobOf out creationPCR)

/-- What the caller has in `*blob`; `none` is memory that holds no blob. -/
abbrev BlobVar := Option Blob

/-- `TPM2X_Seal` within its session. Where the policy cannot be built, what is returned is
the success of starting the session. -/
def sealIn (parentKey : Handle) (predictive : Option (Fin maxPcrs → SHA256Hash)) (pcrMask : Nat)
    (data : Sized maxDataSize) (blob : BlobVar) (policyHandle : Handle) :
    Prog (World τ) Rc BlobVar := do
  let built ← (buildPolicy tpm sha1 sha256 policyHandle predictive pcrMask algSha256).attempt
  match built with
  | none => pure blob
  | some () => do
    let sealed ← createSealed tpm parentKey pcrMask data policyHandle
    pure (some sealed)

/-- `TPM2X_Seal`. -/
def sealData (parentKey : Handle) (predictive : Option (Fin maxPcrs → SHA256Hash))
    (pcrMask : Nat) (data : Bytes) (blob : BlobVar) : Prog (World τ) Rc BlobVar :=
  if h : data.length ≤ maxDataSize then do
    let policyHandle ← startAuthSession tpm true algSha256
    (sealIn tpm sha1 sha256 parentKey predictive pcrMask ⟨data, h⟩ blob policyHandle).after
      (flush tpm policyHandle)
  else .throw rcFailure

section SealPolicy

variable (env : Measurement.Env) (works : Nat → Measurement.Works)
  (uninit : Nat → Measurement.Hashes)

/-- `TPM2X_SerializeBlob` of what `SealPolicy` has in `blob`. -/
def serialize (blob : BlobVar) : Out Unit Bytes :=
  match blob with
  | some blob => serializeBlob blob sizeofBlob
  | none => .stuck

/-- The part of `SealPolicy` that has the storage root key. -/
def sealUnder (banks : PCRBanks) (dataIn : Bytes) (blob : BlobVar) (srkHandle : Handle) :
    Prog (World τ) Unit Bytes := do
  let blob ← (sealData tpm sha1 sha256 srkHandle (some banks.pcrs256) banks.pcrMask dataIn
    blob).mapErr fun _ => ()
  .read fun _ => serialize blob

/-- `SealPolicy`. `blob` is what its variable holds before. -/
def sealPolicy (policy : Policy) (dataIn : Bytes) (blob : BlobVar) :
    Prog (World τ) Unit Bytes :=
  if dataIn = [] then .throw ()
  else do
    let banks ← .read fun _ => measurePolicy env works uninit policy
    if dataIn.length > maxDataSize then .throw ()
    else do
      let srkHandle ← (createSRKKey tpm).mapErr fun _ => ()
      (sealUnder tpm sha1 sha256 banks dataIn blob srkHandle).after (flush tpm srkHandle)

end SealPolicy

/-! ## Runs -/

/-- The command is carried out. -/
def Grants (command : Command τ α) (t : τ) (a : α) (t' : τ) : Prop := command t = (.ok a, t')

/-- The command fails. -/
def Refuses (command : Command τ α) (t : τ) : Prop := ∃ rc t', command t = (.error rc, t')

section Runs

variable {command : Command τ α} {event : α → Event} {t t' : τ} {a : α} {log : List Event}

theorem grants_or_refuses (command : Command τ α) (t : τ) :
    (∃ a t', Grants command t a t') ∨ Refuses command t := by
  unfold Grants Refuses
  obtain ⟨r, t'⟩ := command t
  cases r with
  | ok a => exact .inl ⟨a, t', rfl⟩
  | error rc => exact .inr ⟨rc, t', rfl⟩

theorem Grants.unique {a' : α} {u : τ} (h : Grants command t a t') (h' : Grants command t a' u) :
    a = a' ∧ t' = u := by
  unfold Grants at h h'
  rw [h] at h'
  cases h'
  exact ⟨rfl, rfl⟩

theorem Grants.not_refuses (h : Grants command t a t') : ¬ Refuses command t := by
  rintro ⟨rc, u, hr⟩
  unfold Grants at h
  rw [h] at hr
  cases hr

theorem call_ok (h : Grants command t a t') :
    (call command event).run ⟨t, log⟩ = .ok a ⟨t', log ++ [event a]⟩ := by
  unfold Grants at h
  simp only [call, Prog.run, h]

theorem call_err (h : Refuses command t) :
    ∃ rc u, (call command event).run ⟨t, log⟩ = .err rc ⟨u, log⟩ := by
  obtain ⟨rc, u, hr⟩ := h
  exact ⟨rc, u, by simp only [call, Prog.run, hr]⟩

end Runs

end LsvmTools.TpmSeal
