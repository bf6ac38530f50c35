import LsvmTools.TpmBlobCodec
import LsvmTools.TpmSeal

/-! # What sealing reports

`TPM2X_Seal` looks at the result of every command but loses two failures: that of
`TPM2X_BuildPolicy`, which does not reach its result variable, and that of the hash, which
`TPM2X_BuildPolicy` leaves with the success of the command before. -/
namespace LsvmTools.SealReported
open Lib.ByteString Lib.Program PeImage ShaHash Measurement MeasurePolicy TpmBlob TpmBlobCodec TpmSeal

variable {τ Ctx Ctx' : Type}
variable (tpm : Tpm τ) (sha1 : Sha Ctx SHA1Hash) (sha256 : Sha Ctx' SHA256Hash)
  (parentKey session : Handle) (predictive : Option (Fin maxPcrs → SHA256Hash)) (pcrMask : Nat)

/-! ## How the commands answer -/

/-- The values that the policy is made of. -/
def Gathers (t : τ) (pcrValues : DigestList) (t' : τ) : Prop :=
  match predictive with
  | some pcrs => pcrValues.digests = (selected pcrMask).map (fun i => sized sha256_le (pcrs i)) ∧
      t' = t
  | none => Grants (tpm.pcrRead (selection algSha256 pcrMask)) t pcrValues t'

/-- One of the commands of `TPM2X_BuildPolicy` fails, or `TPM2_PCR_Read` delivers too few
values. -/
def Refused (t : τ) : Prop :=
  Refuses (tpm.policyPassword session) t ∨
    ∃ t₁, Grants (tpm.policyPassword session) t () t₁ ∧
      (predictive = none ∧ Refuses (tpm.pcrRead (selection algSha256 pcrMask)) t₁ ∨
        ∃ pcrValues t₂, Gathers tpm predictive pcrMask t₁ pcrValues t₂ ∧
          (pcrValues.digests.length ≠ (selected pcrMask).length ∨
            pcrValues.digests.length = (selected pcrMask).length ∧
              ∃ d, hashPCRs sha1 sha256 algSha256 pcrValues = some d ∧
                Refuses (tpm.policyPCR session d (selection algSha256 pcrMask)) t₂))

/-- The list of digests has no room for the predicted values. -/
def Overflows (t : τ) : Prop :=
  predictive ≠ none ∧ 8 < (selected pcrMask).length ∧
    ∃ t', Grants (tpm.policyPassword session) t () t'

/-- Up to the hash all is well. -/
def Gathered (t : τ) (pcrValues : DigestList) (t' : τ) : Prop :=
  ∃ t₁, Grants (tpm.policyPassword session) t () t₁ ∧
    Gathers tpm predictive pcrMask t₁ pcrValues t' ∧
    pcrValues.digests.length = (selected pcrMask).length

/-- The hash fails. -/
def Unhashed (t t' : τ) : Prop :=
  ∃ pcrValues, Gathered tpm session predictive pcrMask t pcrValues t' ∧
    hashPCRs sha1 sha256 algSha256 pcrValues = none

/-- The policy is made, with `PolicyPCR` for the digest `d`. -/
def Made (t : τ) (d : Sized 64) (t' : τ) : Prop :=
  ∃ pcrValues t₂, Gathered tpm session predictive pcrMask t pcrValues t₂ ∧
    hashPCRs sha1 sha256 algSha256 pcrValues = some d ∧
    Grants (tpm.policyPCR session d (selection algSha256 pcrMask)) t₂ () t'

/-- What `TPM2_Create` puts out where the policy digest has been obtained. -/
def Creates (data : Sized maxDataSize) (t : τ) (policyDigest : Sized 64) (out : Created)
    (t' : τ) : Prop :=
  ∃ t₁, Grants (tpm.policyGetDigest session) t policyDigest t₁ ∧
    Grants (tpm.create parentKey data (sealedPublic policyDigest) (selection algSha256 pcrMask))
      t₁ out t'

/-- What a policy that was not made leaves in `*blob`, with no failure reported. -/
def Leaves (data : Sized maxDataSize) (blob : BlobVar) (t : τ) (blob' : BlobVar) : Prop :=
  Refused tpm sha1 sha256 session predictive pcrMask t ∧ blob' = blob ∨
    ∃ t₁ policyDigest out t₂, Unhashed tpm sha1 sha256 session predictive pcrMask t t₁ ∧
      Creates tpm parentKey session pcrMask data t₁ policyDigest out t₂ ∧
      blob' = some (blobOf out (selection algSha256 pcrMask))

/-! ## The policy -/

section Policy

variable {tpm sha1 sha256 parentKey session predictive pcrMask}
variable {t t' : τ} {log : List Event} {pcrValues : DigestList} {d : Sized 64}

theorem predictPCRs_eq (pcrs : Fin maxPcrs → SHA256Hash) (is : List (Fin maxPcrs))
    (list : DigestList) :
    (∃ l, predictPCRs pcrs is list = .ok l ∧ list.digests.length + is.length ≤ 8 ∧
      l.digests = list.digests ++ is.map (fun i => sized sha256_le (pcrs i))) ∨
    predictPCRs pcrs is list = .stuck ∧ 8 < list.digests.length + is.length := by
  induction is generalizing list with
  | nil => exact .inl ⟨list, rfl, list.count_le, by simp⟩
  | cons i is ih =>
    by_cases h : list.digests.length < 8
    · rcases ih ⟨list.digests ++ [sized sha256_le (pcrs i)], push_le _ h⟩ with
        ⟨l, hl, hle, hd⟩ | ⟨hs, hlt⟩
      · refine .inl ⟨l, ?_, ?_, ?_⟩
        · rw [predictPCRs, DigestList.push, dif_pos h]
          exact hl
        · simp only [List.length_append, List.length_cons, List.length_nil] at hle ⊢
          omega
        · rw [hd, List.append_assoc]
          rfl
      · refine .inr ⟨?_, ?_⟩
        · rw [predictPCRs, DigestList.push, dif_pos h]
          exact hs
        · simp only [List.length_append, List.length_cons, List.length_nil] at hlt ⊢
          omega
    · refine .inr ⟨?_, ?_⟩
      · rw [predictPCRs, DigestList.push, dif_neg h]
        rfl
      · rw [List.length_cons]
        omega

theorem digestList_ext {l l' : DigestList} (h : l.digests = l'.digests) : l = l' := by
  cases l
  cases l'
  cases h
  rfl

/-- The events of gathering. -/
def OnlyReads (pcrMask : Nat) (reads : List Event) : Prop :=
  ∀ e ∈ reads, e = .read (selection algSha256 pcrMask)

theorem gatherPCRs_ok (h : Gathers tpm predictive pcrMask t pcrValues t') :
    ∃ reads, OnlyReads pcrMask reads ∧
      (gatherPCRs tpm predictive pcrMask (selection algSha256 pcrMask)).run ⟨t, log⟩ =
        .ok pcrValues ⟨t', log ++ reads⟩ := by
  cases predictive with
  | none =>
    refine ⟨[.read (selection algSha256 pcrMask)], by simp [OnlyReads], ?_⟩
    exact call_ok h
  | some pcrs =>
    obtain ⟨hd, rfl⟩ := h
    refine ⟨[], by simp [OnlyReads], ?_⟩
    rw [List.append_nil]
    have hlen : (selected pcrMask).length ≤ 8 := by
      have hle := pcrValues.count_le
      rwa [hd, List.length_map] at hle
    rcases predictPCRs_eq pcrs (selected pcrMask) ⟨[], noDigests_le⟩ with
      ⟨l, hl, -, hl'⟩ | ⟨-, hlt⟩
    · have heq : l = pcrValues := digestList_ext (by rw [hl', hd]; rfl)
      rw [heq] at hl
      exact Prog.read_ok hl
    · simp at hlt
      omega

theorem gatherPCRs_err (h : predictive = none ∧
    Refuses (tpm.pcrRead (selection algSha256 pcrMask)) t) :
    ∃ rc u, (gatherPCRs tpm predictive pcrMask (selection algSha256 pcrMask)).run ⟨t, log⟩ =
      .err rc ⟨u, log⟩ := by
  obtain ⟨rfl, h⟩ := h
  exact call_err h

theorem gatherPCRs_stuck (hp : predictive ≠ none) (h : 8 < (selected pcrMask).length) :
    (gatherPCRs tpm predictive pcrMask (selection algSha256 pcrMask)).run ⟨t, log⟩ = .stuck := by
  cases predictive with
  | none => exact absurd rfl hp
  | some pcrs =>
    rcases predictPCRs_eq pcrs (selected pcrMask) ⟨[], noDigests_le⟩ with
      ⟨l, -, hle, -⟩ | ⟨hs, -⟩
    · simp at hle
      omega
    · exact Prog.read_stuck hs

theorem gathers_cases (tpm : Tpm τ) (predictive : Option (Fin maxPcrs → SHA256Hash))
    (pcrMask : Nat) (t : τ) :
    (∃ pcrValues t', Gathers tpm predictive pcrMask t pcrValues t') ∨
      (predictive = none ∧ Refuses (tpm.pcrRead (selection algSha256 pcrMask)) t) ∨
      predictive ≠ none ∧ 8 < (selected pcrMask).length := by
  cases predictive with
  | none =>
    rcases grants_or_refuses (tpm.pcrRead (selection algSha256 pcrMask)) t with ⟨l, t', h⟩ | h
    · exact .inl ⟨l, t', h⟩
    · exact .inr (.inl ⟨rfl, h⟩)
  | some pcrs =>
    by_cases h : 8 < (selected pcrMask).length
    · exact .inr (.inr ⟨by simp, h⟩)
    · refine .inl ⟨⟨(selected pcrMask).map (fun i => sized sha256_le (pcrs i)), ?_⟩, t, rfl, rfl⟩
      rw [List.length_map]
      omega

theorem createPCRPolicy_ok (hn : pcrValues.digests.length = (selected pcrMask).length)
    (hd : hashPCRs sha1 sha256 algSha256 pcrValues = some d)
    (h : Grants (tpm.policyPCR session d (selection algSha256 pcrMask)) t () t') :
    (createPCRPolicy tpm sha1 sha256 session algSha256 pcrMask pcrValues).run ⟨t, log⟩ =
      .ok () ⟨t', log ++ [.pcrPolicy session d (selection algSha256 pcrMask)]⟩ := by
  rw [createPCRPolicy, if_neg (by simp [hn]), hd]
  exact call_ok h

theorem createPCRPolicy_unhashed (hn : pcrValues.digests.length = (selected pcrMask).length)
    (hd : hashPCRs sha1 sha256 algSha256 pcrValues = none) :
    (createPCRPolicy tpm sha1 sha256 session algSha256 pcrMask pcrValues).run ⟨t, log⟩ =
      .ok () ⟨t, log⟩ := by
  rw [createPCRPolicy, if_neg (by simp [hn]), hd]
  rfl

theorem createPCRPolicy_err (h : pcrValues.digests.length ≠ (selected pcrMask).length ∨
    pcrValues.digests.length = (selected pcrMask).length ∧
      ∃ d, hashPCRs sha1 sha256 algSha256 pcrValues = some d ∧
        Refuses (tpm.policyPCR session d (selection algSha256 pcrMask)) t) :
    ∃ rc u, (createPCRPolicy tpm sha1 sha256 session algSha256 pcrMask pcrValues).run ⟨t, log⟩ =
      .err rc ⟨u, log⟩ := by
  rcases h with h | ⟨hn, d, hd, h⟩
  · rw [createPCRPolicy, if_pos h]
    exact ⟨rcFailure, t, rfl⟩
  · rw [createPCRPolicy, if_neg (by simp [hn]), hd]
    exact call_err h

theorem buildPolicy_eq (w : World τ) :
    (buildPolicy tpm sha1 sha256 session predictive pcrMask algSha256).run w =
      (call (tpm.policyPassword session) (fun _ => .password session) >>= fun _ =>
        gatherPCRs tpm predictive pcrMask (selection algSha256 pcrMask) >>= fun pcrValues =>
        createPCRPolicy tpm sha1 sha256 session algSha256 pcrMask pcrValues).run w := by
  rw [buildPolicy, if_neg (by decide)]

theorem gathered_run (h : Gathered tpm session predictive pcrMask t pcrValues t') :
    ∃ reads, OnlyReads pcrMask reads ∧
      (buildPolicy tpm sha1 sha256 session predictive pcrMask algSha256).run ⟨t, log⟩ =
        (createPCRPolicy tpm sha1 sha256 session algSha256 pcrMask pcrValues).run
          ⟨t', log ++ .password session :: reads⟩ := by
  obtain ⟨t₁, hp, hg, -⟩ := h
  obtain ⟨reads, hr, hrun⟩ := gatherPCRs_ok hg
  refine ⟨reads, hr, ?_⟩
  rw [buildPolicy_eq, Prog.bind_ok (call_ok hp), Prog.bind_ok hrun, List.append_assoc]
  rfl

theorem made_run (h : Made tpm sha1 sha256 session predictive pcrMask t d t') :
    ∃ reads, OnlyReads pcrMask reads ∧
      (buildPolicy tpm sha1 sha256 session predictive pcrMask algSha256).run ⟨t, log⟩ =
        .ok () ⟨t', log ++ .password session ::
          (reads ++ [.pcrPolicy session d (selection algSha256 pcrMask)])⟩ := by
  obtain ⟨pcrValues, t₂, hg, hd, hp⟩ := h
  obtain ⟨reads, hr, hrun⟩ := @gathered_run _ _ _ _ sha1 sha256 _ _ _ _ _ log _ hg
  obtain ⟨-, -, -, hn⟩ := hg
  refine ⟨reads, hr, ?_⟩
  rw [hrun, createPCRPolicy_ok hn hd hp, List.append_assoc]
  rfl

theorem unhashed_run (h : Unhashed tpm sha1 sha256 session predictive pcrMask t t') :
    ∃ reads, OnlyReads pcrMask reads ∧
      (buildPolicy tpm sha1 sha256 session predictive pcrMask algSha256).run ⟨t, log⟩ =
        .ok () ⟨t', log ++ .password session :: reads⟩ := by
  obtain ⟨pcrValues, hg, hd⟩ := h
  obtain ⟨reads, hr, hrun⟩ := @gathered_run _ _ _ _ sha1 sha256 _ _ _ _ _ log _ hg
  obtain ⟨-, -, -, hn⟩ := hg
  exact ⟨reads, hr, by rw [hrun, createPCRPolicy_unhashed hn hd]⟩

theorem overflows_run (h : Overflows tpm session predictive pcrMask t) :
    (buildPolicy tpm sha1 sha256 session predictive pcrMask algSha256).run ⟨t, log⟩ =
      .stuck := by
  obtain ⟨hp, hlt, t₁, hg⟩ := h
  rw [buildPolicy_eq, Prog.bind_ok (call_ok hg), Prog.bind_stuck (gatherPCRs_stuck hp hlt)]

/-- No object is created. -/
def NoneCreated (events : List Event) : Prop :=
  ∀ parent data inPublic sel out, Event.created parent data inPublic sel out ∉ events

theorem noneCreated_password (session : Handle) {reads : List Event}
    (h : OnlyReads pcrMask reads) : NoneCreated (.password session :: reads) := by
  intro parent data inPublic sel out hm
  rcases List.mem_cons.mp hm with he | hm
  · cases he
  · cases h _ hm

theorem refused_run (h : Refused tpm sha1 sha256 session predictive pcrMask t) :
    ∃ rc u events, NoneCreated events ∧
      (buildPolicy tpm sha1 sha256 session predictive pcrMask algSha256).run ⟨t, log⟩ =
        .err rc ⟨u, log ++ events⟩ := by
  have hnil : NoneCreated [] := fun _ _ _ _ _ hm => by cases hm
  rcases h with h | ⟨t₁, hp, h⟩
  · obtain ⟨rc, u, hrun⟩ := call_err h
    exact ⟨rc, u, [], hnil, by rw [buildPolicy_eq, Prog.bind_err hrun, List.append_nil]⟩
  · rcases h with h | ⟨pcrValues, t₂, hg, h⟩
    · obtain ⟨rc, u, hrun⟩ := gatherPCRs_err h
      refine ⟨rc, u, [.password session], @noneCreated_password pcrMask session [] ?_, ?_⟩
      · exact fun e he => by cases he
      · rw [buildPolicy_eq, Prog.bind_ok (call_ok hp), Prog.bind_err hrun]
    · obtain ⟨reads, hr, hrun⟩ := gatherPCRs_ok hg
      obtain ⟨rc, u, herr⟩ :=
        createPCRPolicy_err h
      refine ⟨rc, u, .password session :: reads, noneCreated_password session hr, ?_⟩
      rw [buildPolicy_eq, Prog.bind_ok (call_ok hp), Prog.bind_ok hrun, herr, List.append_assoc]
      rfl

/-- There is no other way for the commands to answer. -/
theorem answers (t : τ) :
    Refused tpm sha1 sha256 session predictive pcrMask t ∨
      Overflows tpm session predictive pcrMask t ∨
      (∃ t', Unhashed tpm sha1 sha256 session predictive pcrMask t t') ∨
      ∃ d t', Made tpm sha1 sha256 session predictive pcrMask t d t' := by
  rcases grants_or_refuses (tpm.policyPassword session) t with ⟨a, t₁, hp⟩ | hp
  · rcases gathers_cases tpm predictive pcrMask t₁ with ⟨pcrValues, t₂, hg⟩ | hg | hg
    · by_cases hn : pcrValues.digests.length = (selected pcrMask).length
      · cases hd : hashPCRs sha1 sha256 algSha256 pcrValues with
        | none => exact .inr (.inr (.inl ⟨t₂, pcrValues, ⟨t₁, hp, hg, hn⟩, hd⟩))
        | some d =>
          rcases grants_or_refuses (tpm.policyPCR session d (selection algSha256 pcrMask)) t₂ with
            ⟨a, t₃, hq⟩ | hq
          · exact .inr (.inr (.inr ⟨d, t₃, pcrValues, t₂, ⟨t₁, hp, hg, hn⟩, hd, hq⟩))
          · exact .inl (.inr ⟨t₁, hp, .inr ⟨pcrValues, t₂, hg, .inr ⟨hn, d, hd, hq⟩⟩⟩)
      · exact .inl (.inr ⟨t₁, hp, .inr ⟨pcrValues, t₂, hg, .inl hn⟩⟩)
    · exact .inl (.inr ⟨t₁, hp, .inl hg⟩)
    · exact .inr (.inl ⟨hg.1, hg.2, t₁, hp⟩)
  · exact .inl (.inl hp)

end Policy

/-! ## Sealing -/

section Seal

variable {tpm sha1 sha256 parentKey session predictive pcrMask}
variable {t t' : τ} {log : List Event} {policyDigest : Sized 64} {out : Created}
  {data : Sized maxDataSize} {blob blob' : BlobVar}

/-- No policy is made for the PCRs. -/
def NoPolicy (events : List Event) : Prop :=
  ∀ session d sel, Event.pcrPolicy session d sel ∉ events

/-- The events of `createSealed`. -/
def creation (parentKey session : Handle) (pcrMask : Nat) (data : Sized maxDataSize)
    (policyDigest : Sized 64) (out : Created) : List Event :=
  [.policyDigest session policyDigest,
    .created parentKey data (sealedPublic policyDigest) (selection algSha256 pcrMask) out]

theorem createSealed_ok (h : Creates tpm parentKey session pcrMask data t policyDigest out t') :
    (createSealed tpm parentKey pcrMask data session).run ⟨t, log⟩ =
      .ok (blobOf out (selection algSha256 pcrMask))
        ⟨t', log ++ creation parentKey session pcrMask data policyDigest out⟩ := by
  obtain ⟨t₁, hd, hc⟩ := h
  rw [createSealed, Prog.bind_ok (call_ok hd), Prog.bind_ok (call_ok hc), List.append_assoc]
  rfl

theorem createSealed_cases (t : τ) (log : List Event) :
    (∃ policyDigest out t', Creates tpm parentKey session pcrMask data t policyDigest out t') ∨
      ∃ rc w, (createSealed tpm parentKey pcrMask data session).run ⟨t, log⟩ = .err rc w := by
  rcases grants_or_refuses (tpm.policyGetDigest session) t with ⟨d, t₁, hd⟩ | hd
  · rcases grants_or_refuses (tpm.create parentKey data (sealedPublic d)
      (selection algSha256 pcrMask)) t₁ with ⟨out, t₂, hc⟩ | hc
    · exact .inl ⟨d, out, t₂, t₁, hd, hc⟩
    · obtain ⟨rc, u, hrun⟩ := call_err hc
      refine .inr ⟨rc, ⟨u, log ++ [.policyDigest session d]⟩, ?_⟩
      rw [createSealed, Prog.bind_ok (call_ok hd), Prog.bind_err hrun]
  · obtain ⟨rc, u, hrun⟩ := call_err hd
    exact .inr ⟨rc, _, by rw [createSealed, Prog.bind_err hrun]⟩

theorem sealIn_built {w w' : World τ}
    (h : (buildPolicy tpm sha1 sha256 session predictive pcrMask algSha256).run w = .ok () w') :
    (sealIn tpm sha1 sha256 parentKey predictive pcrMask data blob session).run w =
      (createSealed tpm parentKey pcrMask data session >>= fun sealed =>
        pure (some sealed)).run w' := by
  have hrun : (buildPolicy tpm sha1 sha256 session predictive pcrMask algSha256).attempt.run w =
      .ok (some ()) w' := by rw [Prog.run_attempt, h]
  rw [sealIn, Prog.bind_ok hrun]

theorem sealIn_unbuilt {w w' : World τ} {rc : Rc}
    (h : (buildPolicy tpm sha1 sha256 session predictive pcrMask algSha256).run w = .err rc w') :
    (sealIn tpm sha1 sha256 parentKey predictive pcrMask data blob session).run w =
      .ok blob w' := by
  have hrun : (buildPolicy tpm sha1 sha256 session predictive pcrMask algSha256).attempt.run w =
      .ok none w' := by rw [Prog.run_attempt, h]
  rw [sealIn, Prog.bind_ok hrun]
  rfl

theorem sealIn_overflows (h : Overflows tpm session predictive pcrMask t) :
    (sealIn tpm sha1 sha256 parentKey predictive pcrMask data blob session).run ⟨t, log⟩ =
      .stuck := by
  have hrun : (buildPolicy tpm sha1 sha256 session predictive pcrMask algSha256).attempt.run
      ⟨t, log⟩ = .stuck := by rw [Prog.run_attempt, overflows_run h]
  rw [sealIn, Prog.bind_stuck hrun]

theorem sealIn_leaves
    (h : Leaves tpm sha1 sha256 parentKey session predictive pcrMask data blob t blob') :
    ∃ u events, (NoneCreated events ∨ NoPolicy events) ∧
      (sealIn tpm sha1 sha256 parentKey predictive pcrMask data blob session).run ⟨t, log⟩ =
        .ok blob' ⟨u, log ++ events⟩ := by
  rcases h with ⟨h, rfl⟩ | ⟨t₁, policyDigest, out, t₂, hu, hc, rfl⟩
  · obtain ⟨rc, u, events, he, hrun⟩ := refused_run h
    exact ⟨u, events, .inl he, sealIn_unbuilt hrun⟩
  · obtain ⟨reads, hr, hrun⟩ := unhashed_run hu
    refine ⟨t₂, .password session :: reads ++
      creation parentKey session pcrMask data policyDigest out, .inr ?_, ?_⟩
    · intro s d sel hm
      rcases List.mem_append.mp hm with hm | hm
      · rcases List.mem_cons.mp hm with he | hm
        · cases he
        · cases hr _ hm
      · simp [creation] at hm
    · rw [sealIn_built hrun, Prog.bind_ok (createSealed_ok hc), List.append_assoc]
      rfl

theorem sealIn_else (ho : ¬ Overflows tpm session predictive pcrMask t)
    (hl : ∀ blob', ¬ Leaves tpm sha1 sha256 parentKey session predictive pcrMask data blob t
      blob') :
    (∃ rc w, (sealIn tpm sha1 sha256 parentKey predictive pcrMask data blob session).run
      ⟨t, log⟩ = .err rc w) ∨
    ∃ d policyDigest out u reads, OnlyReads pcrMask reads ∧
      (sealIn tpm sha1 sha256 parentKey predictive pcrMask data blob session).run ⟨t, log⟩ =
        .ok (some (blobOf out (selection algSha256 pcrMask)))
          ⟨u, log ++ (.password session ::
            (reads ++ [.pcrPolicy session d (selection algSha256 pcrMask)]) ++
              creation parentKey session pcrMask data policyDigest out)⟩ := by
  rcases answers t with h | h | ⟨t₁, h⟩ | ⟨d, t₁, h⟩
  · exact absurd (.inl ⟨h, rfl⟩) (hl blob)
  · exact absurd h ho
  · obtain ⟨reads, -, hrun⟩ := unhashed_run h
    rcases createSealed_cases t₁ (log ++ .password session :: reads) with
      ⟨policyDigest, out, t₂, hc⟩ | ⟨rc, w, herr⟩
    · exact absurd (.inr ⟨t₁, policyDigest, out, t₂, h, hc, rfl⟩) (hl _)
    · exact .inl ⟨rc, w, by rw [sealIn_built hrun, Prog.bind_err herr]⟩
  · obtain ⟨reads, hr, hrun⟩ := made_run h
    rcases createSealed_cases t₁ (log ++ .password session ::
        (reads ++ [.pcrPolicy session d (selection algSha256 pcrMask)])) with
      ⟨policyDigest, out, t₂, hc⟩ | ⟨rc, w, herr⟩
    · refine .inr ⟨d, policyDigest, out, t₂, reads, hr, ?_⟩
      rw [sealIn_built hrun, Prog.bind_ok (createSealed_ok hc), List.append_assoc]
      rfl
    · exact .inl ⟨rc, w, by rw [sealIn_built hrun, Prog.bind_err herr]⟩

end Seal

/-! ## The law -/

/-- What was sealed: the log between shows a session in which the password and the policy for
the PCRs were carried out, its digest, and the creation under that digest, whose outputs the
blob holds. -/
def Sealed (log log' : List Event) (data : Bytes) (blob : Blob) : Prop :=
  ∃ session d policyDigest reads data' out, OnlyReads pcrMask reads ∧ data'.bytes = data ∧
    log' = log ++ (.started session :: .password session ::
      (reads ++ [.pcrPolicy session d (selection algSha256 pcrMask)]) ++
        creation parentKey session pcrMask data' policyDigest out ++ [.flushed session]) ∧
    blob.priv = out.outPrivate ∧ blob.pub = out.outPublic

/-- What `TPM2X_Seal` owes its caller. -/
structure SealReports (data : Bytes) (blob : BlobVar) (w : World τ) : Prop where
  ok : ∀ blob' w', (sealData tpm sha1 sha256 parentKey predictive pcrMask data blob).run w =
    .ok blob' w' → ∃ sealed, blob' = some sealed ∧
      Sealed parentKey pcrMask w.log w'.log data sealed
  returns : (sealData tpm sha1 sha256 parentKey predictive pcrMask data blob).run w ≠ .stuck

/-- A session is started in which a policy that was not made goes unnoticed. -/
def Unnoticed (data : Sized maxDataSize) (blob : BlobVar) (t : τ) : Prop :=
  ∃ session t₁, Grants (tpm.startAuthSession true algSha256) t session t₁ ∧
    (Overflows tpm session predictive pcrMask t₁ ∨
      ∃ blob', Leaves tpm sha1 sha256 parentKey session predictive pcrMask data blob t₁ blob')

section Law

variable {tpm sha1 sha256 parentKey session predictive pcrMask}
variable {t t₁ : τ} {log events : List Event} {data : Sized maxDataSize} {blob blob' : BlobVar}

theorem not_sealed {bytes : Bytes} {sealed : Blob} (h : NoneCreated events ∨ NoPolicy events) :
    ¬ Sealed parentKey pcrMask log (log ++ events) bytes sealed := by
  rintro ⟨s, d, policyDigest, reads, data', out, -, -, heq, -, -⟩
  rw [List.append_cancel_left heq] at h
  rcases h with h | h
  · exact h parentKey data' (sealedPublic policyDigest) (selection algSha256 pcrMask) out
      (by simp [creation])
  · exact h s d (selection algSha256 pcrMask) (by simp)

theorem sealData_started (h : Grants (tpm.startAuthSession true algSha256) t session t₁) :
    (sealData tpm sha1 sha256 parentKey predictive pcrMask data.bytes blob).run ⟨t, log⟩ =
      ((sealIn tpm sha1 sha256 parentKey predictive pcrMask data blob session).after
        (flush tpm session)).run ⟨t₁, log ++ [.started session]⟩ := by
  have hstart : (startAuthSession tpm true algSha256).run ⟨t, log⟩ =
      .ok session ⟨t₁, log ++ [.started session]⟩ := by
    rw [startAuthSession, if_neg (by decide)]
    exact call_ok h
  rw [sealData, dif_pos data.size_le, Prog.bind_ok hstart]

theorem sealData_refused (h : Refuses (tpm.startAuthSession true algSha256) t) :
    ∃ rc w, (sealData tpm sha1 sha256 parentKey predictive pcrMask data.bytes blob).run ⟨t, log⟩ =
      .err rc w := by
  obtain ⟨rc, u, hrun⟩ := call_err h
  refine ⟨rc, ⟨u, log⟩, ?_⟩
  have hstart : (startAuthSession tpm true algSha256).run ⟨t, log⟩ = .err rc ⟨u, log⟩ := by
    rw [startAuthSession, if_neg (by decide)]
    exact hrun
  rw [sealData, dif_pos data.size_le, Prog.bind_err hstart]

theorem sealData_overflows (h : Grants (tpm.startAuthSession true algSha256) t session t₁)
    (ho : Overflows tpm session predictive pcrMask t₁) :
    (sealData tpm sha1 sha256 parentKey predictive pcrMask data.bytes blob).run ⟨t, log⟩ =
      .stuck := by
  rw [sealData_started h, Prog.run_after, sealIn_overflows ho]

theorem sealData_leaves (h : Grants (tpm.startAuthSession true algSha256) t session t₁)
    (hl : Leaves tpm sha1 sha256 parentKey session predictive pcrMask data blob t₁ blob') :
    ∃ w', (sealData tpm sha1 sha256 parentKey predictive pcrMask data.bytes blob).run ⟨t, log⟩ =
      .ok blob' w' ∧ ∃ events, w'.log = log ++ events ∧
        (NoneCreated events ∨ NoPolicy events) := by
  obtain ⟨u, events, he, hrun⟩ := sealIn_leaves hl
  refine ⟨flush tpm session ⟨u, log ++ [.started session] ++ events⟩, ?_,
    .started session :: events ++ [.flushed session], ?_, ?_⟩
  · rw [sealData_started h, Prog.run_after, hrun]
  · simp [flush]
  · refine he.imp (fun hn => ?_) (fun hn => ?_)
    · intro parent d inPublic sel out hm
      exact hn parent d inPublic sel out (by simpa using hm)
    · intro s d sel hm
      exact hn s d sel (by simpa using hm)

/-- Where nothing goes unnoticed, `TPM2X_Seal` fails or has sealed. -/
theorem sealData_else
    (h : ¬ Unnoticed tpm sha1 sha256 parentKey predictive pcrMask data blob t) :
    (∃ rc w', (sealData tpm sha1 sha256 parentKey predictive pcrMask data.bytes blob).run
      ⟨t, log⟩ = .err rc w') ∨
    ∃ sealed w', (sealData tpm sha1 sha256 parentKey predictive pcrMask data.bytes blob).run
      ⟨t, log⟩ = .ok (some sealed) w' ∧
        Sealed parentKey pcrMask log w'.log data.bytes sealed := by
  rcases grants_or_refuses (tpm.startAuthSession true algSha256) t with ⟨session, t₁, hs⟩ | hs
  · have ho : ¬ Overflows tpm session predictive pcrMask t₁ :=
      fun ho => h ⟨session, t₁, hs, .inl ho⟩
    have hl : ∀ blob', ¬ Leaves tpm sha1 sha256 parentKey session predictive pcrMask data blob t₁
        blob' := fun blob' hl => h ⟨session, t₁, hs, .inr ⟨blob', hl⟩⟩
    rcases sealIn_else ho hl with
      ⟨rc, w, hrun⟩ | ⟨d, policyDigest, out, u, reads, hr, hrun⟩
    · exact .inl ⟨rc, flush tpm session w, by rw [sealData_started hs, Prog.run_after, hrun]⟩
    · refine .inr ⟨_, _, by rw [sealData_started hs, Prog.run_after, hrun], session, d,
        policyDigest, reads, data, out, hr, rfl, ?_, rfl, rfl⟩
      simp [flush]
  · exact .inl (sealData_refused hs)

theorem SealReports.of_err {bytes : Bytes} {w w' : World τ} {rc : Rc}
    (h : (sealData tpm sha1 sha256 parentKey predictive pcrMask bytes blob).run w = .err rc w') :
    SealReports tpm sha1 sha256 parentKey predictive pcrMask bytes blob w := by
  refine ⟨fun b u hok => ?_, ?_⟩
  · rw [h] at hok
    cases hok
  · rw [h]
    rintro ⟨⟩

theorem sealData_long {bytes : Bytes} (h : ¬ bytes.length ≤ maxDataSize) (w : World τ) :
    (sealData tpm sha1 sha256 parentKey predictive pcrMask bytes blob).run w =
      .err rcFailure w := by
  rw [sealData, dif_neg h]
  rfl

end Law

/-- `TPM2X_Seal` reports exactly where nothing goes unnoticed. -/
theorem sealReports_iff (data : Bytes) (blob : BlobVar) (w : World τ) :
    SealReports tpm sha1 sha256 parentKey predictive pcrMask data blob w ↔
      ∀ h : data.length ≤ maxDataSize,
        ¬ Unnoticed tpm sha1 sha256 parentKey predictive pcrMask ⟨data, h⟩ blob w.tpm := by
  constructor
  · rintro hr hlen ⟨session, t₁, hs, ho | ⟨blob', hl⟩⟩
    · have hst := @sealData_overflows _ _ _ _ sha1 sha256 parentKey _ _ _ _ _ w.log
        ⟨data, hlen⟩ blob hs ho
      exact hr.returns hst
    · obtain ⟨w', hrun, events, hlog, he⟩ := sealData_leaves hs hl
      obtain ⟨sealed, -, hsealed⟩ := hr.ok blob' w' hrun
      rw [hlog] at hsealed
      exact not_sealed he hsealed
  · intro h
    by_cases hlen : data.length ≤ maxDataSize
    · rcases sealData_else (h hlen) with ⟨rc, w', hrun⟩ | ⟨sealed, w', hrun, hs⟩
      · exact .of_err hrun
      · refine ⟨fun b u hok => ?_, by rw [hrun]; rintro ⟨⟩⟩
        rw [hrun] at hok
        cases hok
        exact ⟨sealed, rfl, hs⟩
    · exact .of_err (sealData_long hlen w)

/-! ## Sealing a policy -/

section SealPolicy

variable (env : Env) (works : Nat → Works) (uninit : Nat → Hashes) (policy : Policy)

/-- What `SealPolicy` owes its caller. -/
structure PolicyReports (dataIn : Bytes) (blob : BlobVar) (w : World τ) : Prop where
  ok : ∀ dataOut w', (sealPolicy tpm sha1 sha256 env works uninit policy dataIn blob).run w =
    .ok dataOut w' → ∃ banks srkHandle sealed log',
      measurePolicy env works uninit policy = .ok banks ∧
      Sealed srkHandle banks.pcrMask (w.log ++ [.primary srkHandle]) log' dataIn sealed ∧
      w'.log = log' ++ [.flushed srkHandle] ∧ serializeBlob sealed sizeofBlob = .ok dataOut
  returns : (sealPolicy tpm sha1 sha256 env works uninit policy dataIn blob).run w ≠ .stuck

/-- A policy that was not made goes unnoticed, and the blob that it leaves can be serialized
or is none at all. -/
def PolicyUnnoticed (banks : PCRBanks) (dataIn : Sized maxDataSize) (blob : BlobVar) (t : τ) :
    Prop :=
  ∃ srkHandle t₁, Grants (tpm.createPrimary srkPublic) t srkHandle t₁ ∧
    ∃ session t₂, Grants (tpm.startAuthSession true algSha256) t₁ session t₂ ∧
      (Overflows tpm session (some banks.pcrs256) banks.pcrMask t₂ ∨
        ∃ blob', Leaves tpm sha1 sha256 srkHandle session (some banks.pcrs256) banks.pcrMask
          dataIn blob t₂ blob' ∧ serialize blob' ≠ .err ())

/-- The measurements have no result, or what comes after them goes unnoticed. -/
def PolicySlips (dataIn : Bytes) (blob : BlobVar) (t : τ) : Prop :=
  measurePolicy env works uninit policy = .stuck ∨
    ∃ banks, measurePolicy env works uninit policy = .ok banks ∧
      ∃ h : dataIn.length ≤ maxDataSize,
        PolicyUnnoticed tpm sha1 sha256 banks ⟨dataIn, h⟩ blob t

variable {tpm sha1 sha256 env works uninit policy}
variable {dataIn : Bytes} {blob : BlobVar} {banks : PCRBanks} {w w' : World τ}

theorem PolicyReports.of_err
    (h : (sealPolicy tpm sha1 sha256 env works uninit policy dataIn blob).run w = .err () w') :
    PolicyReports tpm sha1 sha256 env works uninit policy dataIn blob w := by
  refine ⟨fun dataOut u hok => ?_, ?_⟩
  · rw [h] at hok
    cases hok
  · rw [h]
    rintro ⟨⟩

theorem sealPolicy_measured (hd : dataIn ≠ []) (hlen : dataIn.length ≤ maxDataSize)
    (hm : measurePolicy env works uninit policy = .ok banks) :
    (sealPolicy tpm sha1 sha256 env works uninit policy dataIn blob).run w =
      ((createSRKKey tpm).mapErr (fun _ => ()) >>= fun srkHandle =>
        (sealUnder tpm sha1 sha256 banks dataIn blob srkHandle).after (flush tpm srkHandle)).run
          w := by
  have hread := Prog.read_ok (f := fun _ => measurePolicy env works uninit policy) (s := w) hm
  rw [sealPolicy, if_neg hd, Prog.bind_ok hread, if_neg (Nat.not_lt.mpr hlen)]

theorem sealPolicy_primary {srkHandle : Handle} {t₁ : τ} (hd : dataIn ≠ [])
    (hlen : dataIn.length ≤ maxDataSize) (hm : measurePolicy env works uninit policy = .ok banks)
    (hp : Grants (tpm.createPrimary srkPublic) w.tpm srkHandle t₁) :
    (sealPolicy tpm sha1 sha256 env works uninit policy dataIn blob).run w =
      ((sealUnder tpm sha1 sha256 banks dataIn blob srkHandle).after (flush tpm srkHandle)).run
        ⟨t₁, w.log ++ [.primary srkHandle]⟩ := by
  have hrun : ((createSRKKey tpm).mapErr fun _ => ()).run w =
      .ok srkHandle ⟨t₁, w.log ++ [.primary srkHandle]⟩ := by
    rw [Prog.run_mapErr, createSRKKey, call_ok hp]
  rw [sealPolicy_measured hd hlen hm, Prog.bind_ok hrun]

theorem sealUnder_ok {srkHandle : Handle} {blob' : BlobVar}
    (h : (sealData tpm sha1 sha256 srkHandle (some banks.pcrs256) banks.pcrMask dataIn blob).run
      w = .ok blob' w') :
    (sealUnder tpm sha1 sha256 banks dataIn blob srkHandle).run w =
      match serialize blob' with
      | .ok dataOut => .ok dataOut w'
      | .err _ => .err () w'
      | .stuck => .stuck := by
  have hrun : ((sealData tpm sha1 sha256 srkHandle (some banks.pcrs256) banks.pcrMask dataIn
      blob).mapErr fun _ => ()).run w = .ok blob' w' := by rw [Prog.run_mapErr, h]
  rw [sealUnder, Prog.bind_ok hrun]
  cases serialize blob' with
  | ok dataOut => rfl
  | err e => rfl
  | stuck => rfl

theorem sealUnder_stuck {srkHandle : Handle}
    (h : (sealData tpm sha1 sha256 srkHandle (some banks.pcrs256) banks.pcrMask dataIn blob).run
      w = .stuck) :
    (sealUnder tpm sha1 sha256 banks dataIn blob srkHandle).run w = .stuck := by
  have hrun : ((sealData tpm sha1 sha256 srkHandle (some banks.pcrs256) banks.pcrMask dataIn
      blob).mapErr fun _ => ()).run w = .stuck := by rw [Prog.run_mapErr, h]
  rw [sealUnder, Prog.bind_stuck hrun]

theorem sealUnder_err {srkHandle : Handle} {rc : Rc}
    (h : (sealData tpm sha1 sha256 srkHandle (some banks.pcrs256) banks.pcrMask dataIn blob).run
      w = .err rc w') :
    (sealUnder tpm sha1 sha256 banks dataIn blob srkHandle).run w = .err () w' := by
  have hrun : ((sealData tpm sha1 sha256 srkHandle (some banks.pcrs256) banks.pcrMask dataIn
      blob).mapErr fun _ => ()).run w = .err () w' := by rw [Prog.run_mapErr, h]
  rw [sealUnder, Prog.bind_err hrun]

/-- What goes unnoticed does not get reported. -/
theorem not_policyReports (hd : dataIn ≠ []) (hlen : dataIn.length ≤ maxDataSize)
    (hm : measurePolicy env works uninit policy = .ok banks)
    (h : PolicyUnnoticed tpm sha1 sha256 banks ⟨dataIn, hlen⟩ blob w.tpm) :
    ¬ PolicyReports tpm sha1 sha256 env works uninit policy dataIn blob w := by
  obtain ⟨srkHandle, t₁, hp, session, t₂, hs, h⟩ := h
  intro hr
  have hrun := @sealPolicy_primary _ _ _ tpm sha1 sha256 _ _ _ _ _ blob _ _ _ _ hd hlen hm hp
  rcases h with ho | ⟨blob', hl, hser⟩
  · have hst := sealUnder_stuck (@sealData_overflows _ _ _ _ sha1 sha256 srkHandle _ _ _ _ _
      (w.log ++ [.primary srkHandle]) ⟨dataIn, hlen⟩ blob hs ho)
    exact hr.returns (by rw [hrun, Prog.run_after, hst])
  · obtain ⟨u, hok, events, hlog, he⟩ := sealData_leaves hs hl
    rw [Prog.run_after, sealUnder_ok hok] at hrun
    cases hout : serialize blob' with
    | err e => exact hser hout
    | stuck =>
      rw [hout] at hrun
      exact hr.returns hrun
    | ok dataOut =>
      rw [hout] at hrun
      obtain ⟨banks', srk', sealed, log', -, hsealed, hlog', -⟩ := hr.ok _ _ hrun
      have hlast : w.log ++ [.primary srkHandle] ++ events ++ [.flushed srkHandle] =
          log' ++ [.flushed srk'] := by rw [← hlog', ← hlog]; rfl
      obtain ⟨hpre, hflushed⟩ := List.append_inj' hlast rfl
      cases hflushed
      rw [← hpre] at hsealed
      exact not_sealed he hsealed

/-- Where nothing goes unnoticed, what `SealPolicy` reports is so. -/
theorem policyReports_of_not (hd : dataIn ≠ []) (hlen : dataIn.length ≤ maxDataSize)
    (hm : measurePolicy env works uninit policy = .ok banks)
    (h : ¬ PolicyUnnoticed tpm sha1 sha256 banks ⟨dataIn, hlen⟩ blob w.tpm) :
    PolicyReports tpm sha1 sha256 env works uninit policy dataIn blob w := by
  rcases grants_or_refuses (tpm.createPrimary srkPublic) w.tpm with ⟨srkHandle, t₁, hp⟩ | hp
  · have hrun :=
      @sealPolicy_primary _ _ _ tpm sha1 sha256 _ _ _ _ _ blob _ _ _ _ hd hlen hm hp
    by_cases hu : Unnoticed tpm sha1 sha256 srkHandle (some banks.pcrs256) banks.pcrMask
        ⟨dataIn, hlen⟩ blob t₁
    · obtain ⟨session, t₂, hs, ho | ⟨blob', hl⟩⟩ := hu
      · exact absurd ⟨srkHandle, t₁, hp, session, t₂, hs, .inl ho⟩ h
      · have hser : serialize blob' = .err () := by
          by_contra hne
          exact h ⟨srkHandle, t₁, hp, session, t₂, hs, .inr ⟨blob', hl, hne⟩⟩
        obtain ⟨u, hok, -⟩ := sealData_leaves hs hl
        rw [Prog.run_after, sealUnder_ok hok, hser] at hrun
        exact .of_err hrun
    · rcases sealData_else hu with
        ⟨rc, u, herr⟩ | ⟨sealed, u, hok, hsealed⟩
      · rw [Prog.run_after, sealUnder_err herr] at hrun
        exact .of_err hrun
      · rw [Prog.run_after, sealUnder_ok hok, serialize] at hrun
        cases hout : serializeBlob sealed sizeofBlob with
        | stuck => exact absurd hout (serializeBlob_returns sealed sizeofBlob)
        | err e =>
          rw [hout] at hrun
          exact .of_err hrun
        | ok out =>
          rw [hout] at hrun
          refine ⟨fun dataOut w' hok' => ?_, by rw [hrun]; rintro ⟨⟩⟩
          rw [hrun] at hok'
          cases hok'
          exact ⟨banks, srkHandle, sealed, u.log, hm, hsealed, rfl, hout⟩
  · obtain ⟨rc, u, hrun⟩ := call_err hp
    have hsrk : ((createSRKKey tpm).mapErr fun _ => ()).run w = .err () ⟨u, w.log⟩ := by
      rw [Prog.run_mapErr, createSRKKey, hrun]
    exact .of_err (by rw [sealPolicy_measured hd hlen hm, Prog.bind_err hsrk])

/-- `SealPolicy` reports exactly where nothing goes unnoticed. -/
theorem policyReports_iff (dataIn : Bytes) (blob : BlobVar) (w : World τ) :
    PolicyReports tpm sha1 sha256 env works uninit policy dataIn blob w ↔
      dataIn = [] ∨
        ¬ PolicySlips tpm sha1 sha256 env works uninit policy dataIn blob w.tpm := by
  constructor
  · intro hr
    by_cases hd : dataIn = []
    · exact .inl hd
    · refine .inr ?_
      rintro (hst | ⟨banks, hm, hlen, hu⟩)
      · have hread := Prog.read_stuck (f := fun _ => measurePolicy env works uninit policy)
          (s := w) hst
        exact hr.returns (by rw [sealPolicy, if_neg hd, Prog.bind_stuck hread])
      · exact not_policyReports hd hlen hm hu hr
  · intro h
    by_cases hd : dataIn = []
    · have hrun : (sealPolicy tpm sha1 sha256 env works uninit policy dataIn blob).run w =
          .err () w := by
        rw [sealPolicy, if_pos hd]
        rfl
      exact .of_err hrun
    · have hn := h.resolve_left hd
      cases hm : measurePolicy env works uninit policy with
      | stuck => exact absurd (.inl hm) hn
      | err e =>
        have hread := Prog.read_err (f := fun _ => measurePolicy env works uninit policy)
          (s := w) hm
        exact .of_err (by rw [sealPolicy, if_neg hd, Prog.bind_err hread])
      | ok banks =>
        by_cases hlen : dataIn.length ≤ maxDataSize
        · exact policyReports_of_not hd hlen hm fun hu => hn (.inr ⟨banks, hm, hlen, hu⟩)
        · have hread := Prog.read_ok (f := fun _ => measurePolicy env works uninit policy)
            (s := w) hm
          have hrun : (sealPolicy tpm sha1 sha256 env works uninit policy dataIn blob).run w =
              .err () w := by
            rw [sealPolicy, if_neg hd, Prog.bind_ok hread, if_pos (Nat.lt_of_not_le hlen)]
            rfl
          exact .of_err hrun

end SealPolicy

/-- A TPM that starts sessions and refuses all else. -/
def startingTpm : Tpm Unit where
  startAuthSession _ _ t := (.ok 0x03000000, t)
  policyPassword _ t := (.error rcFailure, t)
  pcrRead _ t := (.error rcFailure, t)
  policyPCR _ _ _ t := (.error rcFailure, t)
  policyGetDigest _ t := (.error rcFailure, t)
  createPrimary _ t := (.error rcFailure, t)
  create _ _ _ _ t := (.error rcFailure, t)
  flushContext _ t := t

end LsvmTools.SealReported
