import LsvmTools.SealReported

/-! # Predicted and live policies

`TPM2X_BuildPolicy` takes the values of the PCRs from the caller or from the TPM. The two
paths lead to the same policy as long as the values fit into one list of digests. -/
namespace LsvmTools.PcrPrediction
open Lib.ByteString Lib.Program PeImage ShaHash MeasurePolicy TpmBlob TpmSeal SealReported

variable {τ Ctx Ctx' : Type}

/-! ## Selections -/

/-- The selection has the bit of PCR `i`. -/
def Selects (sel : PcrSelection) (i : Fin maxPcrs) : Bool :=
  (byteAt sel.pcrSelect.bytes (i.val / 8)).toNat.testBit (i.val % 8)

theorem testBit_bit {k j : Nat} (hk : k < 8) :
    (UInt8.ofNat (1 <<< k)).toNat.testBit j = decide (j = k) := by
  have hlt : 1 <<< k < 256 := by
    rw [Nat.one_shiftLeft]
    exact Nat.pow_lt_pow_right (by decide) hk
  rw [UInt8.toNat_ofNat', Nat.mod_eq_of_lt hlt, Nat.one_shiftLeft, Nat.testBit_two_pow]
  simp [eq_comm]

theorem byteAt_set {bs : Bytes} {k : Nat} (x : UInt8) (j : Nat) (hk : k < bs.length) :
    byteAt (bs.set k x) j = if j = k then x else byteAt bs j := by
  unfold byteAt
  by_cases h : j = k
  · subst h
    simp [List.getD, hk]
  · rw [if_neg h]
    simp [List.getD, List.getElem?_set_ne (Ne.symm h)]

theorem selects_selectPCR {sel : PcrSelection} (h : sel.pcrSelect.bytes.length = 3)
    (n i : Fin maxPcrs) : Selects (sel.selectPCR n) i = (Selects sel i || decide (i = n)) := by
  have hn : n.val / 8 < sel.pcrSelect.bytes.length := by
    have := n.isLt
    unfold maxPcrs at this
    omega
  unfold Selects PcrSelection.selectPCR
  rw [byteAt_set _ _ hn]
  by_cases hbyte : i.val / 8 = n.val / 8
  · rw [if_pos hbyte, UInt8.toNat_or, Nat.testBit_or, testBit_bit (Nat.mod_lt _ (by decide)),
      hbyte]
    congr 1
    rw [decide_eq_decide, Fin.ext_iff]
    omega
  · rw [if_neg hbyte]
    have hne : i ≠ n := fun he => hbyte (by rw [he])
    simp [hne]

theorem selects_foldl (is : List (Fin maxPcrs)) {sel : PcrSelection}
    (h : sel.pcrSelect.bytes.length = 3) (i : Fin maxPcrs) :
    Selects (is.foldl .selectPCR sel) i = (Selects sel i || decide (i ∈ is)) := by
  induction is generalizing sel with
  | nil => simp
  | cons n is ih =>
    have hlen : (sel.selectPCR n).pcrSelect.bytes.length = 3 := by
      rw [PcrSelection.selectPCR, List.length_set, h]
    rw [List.foldl_cons, ih hlen, selects_selectPCR h, Bool.or_assoc]
    simp

/-- The code selects the PCRs whose bits the mask has. -/
theorem selects_selection (hash : UInt16) (pcrMask : Nat) (i : Fin maxPcrs) :
    Selects (selection hash pcrMask) i = pcrMask.testBit i.val := by
  rw [selection, selects_foldl _ rfl]
  have hnone : ∀ i : Fin maxPcrs, (byteAt [0, 0, 0] (i.val / 8)).toNat.testBit (i.val % 8) =
      false := by decide
  have hnone : Selects (.none hash) i = false := hnone i
  rw [hnone, Bool.false_or, selected]
  simp

theorem hash_foldl (is : List (Fin maxPcrs)) (sel : PcrSelection) :
    (is.foldl PcrSelection.selectPCR sel).hash = sel.hash := by
  induction is generalizing sel with
  | nil => rfl
  | cons n is ih => exact ih _

/-! ## What the TPM is taken to do -/

/-- `bank t` are the SHA-256 values of the PCRs. -/
structure Behaves (tpm : Tpm τ) (bank : τ → Fin maxPcrs → SHA256Hash) : Prop where
  /-- `TPM2_PCR_Read` delivers the selected values in ascending order, at most eight. -/
  pcrRead : ∀ sel t, sel.hash = algSha256 → ∃ l t', Grants (tpm.pcrRead sel) t l t' ∧
    l.digests = (((List.finRange maxPcrs).filter (Selects sel)).take 8).map
      (fun i => sized sha256_le (bank t i))
  /-- `TPM2_PolicyPassword` leaves the PCRs alone. -/
  policyPassword : ∀ session t t', Grants (tpm.policyPassword session) t () t' → bank t' = bank t
  /-- Whether `TPM2_PolicyPCR` succeeds depends on its arguments. -/
  policyPCR : ∀ session d sel t t', Refuses (tpm.policyPCR session d sel) t →
    Refuses (tpm.policyPCR session d sel) t'

/-! ## What is issued -/

/-- The commands that make up a policy. -/
inductive PolicyCommand where
  | password
  | pcr (pcrDigest : Sized 64) (sel : PcrSelection)
deriving DecidableEq

def policyCommand : Event → Option PolicyCommand
  | .password _ => some .password
  | .pcrPolicy _ d sel => some (.pcr d sel)
  | _ => none

/-- The commands of the policy that were carried out between two states. -/
def issued (w w' : World τ) : List PolicyCommand :=
  (w'.log.drop w.log.length).filterMap policyCommand

variable (tpm : Tpm τ) (sha1 : Sha Ctx SHA1Hash) (sha256 : Sha Ctx' SHA256Hash)
  (session : Handle) (pcrMask : Nat)

/-- Building the policy for predicted values, or for those of the TPM. -/
def build (predictive : Option (Fin maxPcrs → SHA256Hash)) : Prog (World τ) Rc Unit :=
  buildPolicy tpm sha1 sha256 session predictive pcrMask algSha256

/-- The data that the policy hashes. -/
def pcrData (pcrs : Fin maxPcrs → SHA256Hash) : Bytes :=
  (selected pcrMask).flatMap fun i => (pcrs i).buf

/-- Predicting the values that the TPM has. -/
structure Agrees (bank : τ → Fin maxPcrs → SHA256Hash) (w : World τ) : Prop where
  /-- Both fail, or both issue the same. -/
  same : (∃ rc u rc' u', (build tpm sha1 sha256 session pcrMask (some (bank w.tpm))).run w =
      .err rc u ∧ (build tpm sha1 sha256 session pcrMask none).run w = .err rc' u') ∨
    ∃ u u', (build tpm sha1 sha256 session pcrMask (some (bank w.tpm))).run w = .ok () u ∧
      (build tpm sha1 sha256 session pcrMask none).run w = .ok () u' ∧ issued w u = issued w u'
  /-- Neither path leaves its list. -/
  inside : (build tpm sha1 sha256 session pcrMask (some (bank w.tpm))).run w ≠ .stuck ∧
    (build tpm sha1 sha256 session pcrMask none).run w ≠ .stuck
  /-- What was sealed for these values, in whatever state, is unsealed where the values are
  the same, and nowhere else if the hash tells them apart. -/
  unseals : ∀ v v' session' session'' u u',
    (build tpm sha1 sha256 session' pcrMask (some (bank w.tpm))).run v = .ok () u →
    (build tpm sha1 sha256 session'' pcrMask none).run v' = .ok () u' →
    ((∀ i ∈ selected pcrMask, bank v'.tpm i = bank w.tpm i) → issued v u = issued v' u') ∧
    ((computeSHA sha256 (pcrData pcrMask (bank w.tpm)) =
        computeSHA sha256 (pcrData pcrMask (bank v'.tpm)) →
      pcrData pcrMask (bank w.tpm) = pcrData pcrMask (bank v'.tpm)) →
      issued v u = issued v' u' → ∀ i ∈ selected pcrMask, bank v'.tpm i = bank w.tpm i)

/-! ## Runs -/

section Runs

variable {tpm sha1 sha256 session pcrMask}
variable {bank : τ → Fin maxPcrs → SHA256Hash} {predictive : Option (Fin maxPcrs → SHA256Hash)}
  {pcrs : Fin maxPcrs → SHA256Hash} {t t' : τ} {w w' : World τ} {pcrValues : DigestList}

theorem issued_append (w : World τ) (t : τ) (events : List Event) :
    issued w ⟨t, w.log ++ events⟩ = events.filterMap policyCommand := by
  unfold issued
  rw [List.drop_left]

theorem commands_reads {reads : List Event} (h : OnlyReads pcrMask reads) :
    reads.filterMap policyCommand = [] := by
  rw [List.filterMap_eq_nil_iff]
  intro e he
  rw [h e he]
  rfl

theorem filterMap_password (session : Handle) (events : List Event) :
    (Event.password session :: events).filterMap policyCommand =
      .password :: events.filterMap policyCommand := rfl

/-- The commands for the answer of the hash. -/
def commandsFor (pcrMask : Nat) (d : Option (Sized 64)) : List PolicyCommand :=
  .password :: match d with
    | some d => [.pcr d (selection algSha256 pcrMask)]
    | none => []

theorem commandsFor_inj {d d' : Option (Sized 64)}
    (h : commandsFor pcrMask d = commandsFor pcrMask d') : d = d' := by
  unfold commandsFor at h
  cases d <;> cases d' <;> simp_all

theorem made_issued {d : Sized 64}
    (h : Made tpm sha1 sha256 session predictive pcrMask w.tpm d t') :
    ∃ u, (build tpm sha1 sha256 session pcrMask predictive).run w = .ok () u ∧
      issued w u = commandsFor pcrMask (some d) := by
  obtain ⟨reads, hr, hrun⟩ := made_run h
  refine ⟨_, hrun, ?_⟩
  rw [issued_append, filterMap_password, List.filterMap_append, commands_reads hr]
  rfl

theorem unhashed_issued
    (h : Unhashed tpm sha1 sha256 session predictive pcrMask w.tpm t') :
    ∃ u, (build tpm sha1 sha256 session pcrMask predictive).run w = .ok () u ∧
      issued w u = commandsFor pcrMask none := by
  obtain ⟨reads, hr, hrun⟩ := unhashed_run h
  refine ⟨_, hrun, ?_⟩
  rw [issued_append, filterMap_password, commands_reads hr]
  rfl

/-- What a policy that was built has issued. -/
theorem ok_issued (h : (build tpm sha1 sha256 session pcrMask predictive).run w = .ok () w') :
    ∃ pcrValues t', Gathered tpm session predictive pcrMask w.tpm pcrValues t' ∧
      issued w w' = commandsFor pcrMask (hashPCRs sha1 sha256 algSha256 pcrValues) := by
  rcases answers w.tpm with ha | ha | ⟨t', ha⟩ | ⟨d, t', ha⟩
  · obtain ⟨rc, u, events, -, hrun⟩ := refused_run ha
    rw [build, hrun] at h
    cases h
  · rw [build, overflows_run ha] at h
    cases h
  · obtain ⟨u, hrun, hi⟩ := unhashed_issued ha
    rw [hrun] at h
    cases h
    obtain ⟨pcrValues, hg, hd⟩ := ha
    exact ⟨pcrValues, t', hg, by rw [hi, hd]⟩
  · obtain ⟨u, hrun, hi⟩ := made_issued ha
    rw [hrun] at h
    cases h
    obtain ⟨pcrValues, t₂, hg, hd, -⟩ := ha
    exact ⟨pcrValues, t₂, hg, by rw [hi, hd]⟩

theorem filter_selects (pcrMask : Nat) :
    (List.finRange maxPcrs).filter (Selects (selection algSha256 pcrMask)) =
      selected pcrMask := by
  rw [selected]
  congr 1
  funext i
  exact selects_selection algSha256 pcrMask i

/-- The live path gets the first eight of the values. -/
theorem live_gathers (h : Behaves tpm bank) (t : τ) :
    ∃ pcrValues t', Gathers tpm none pcrMask t pcrValues t' ∧
      pcrValues.digests = ((selected pcrMask).take 8).map (fun i => sized sha256_le (bank t i)) := by
  obtain ⟨l, t', hg, hd⟩ := h.pcrRead (selection algSha256 pcrMask) t (hash_foldl _ _)
  rw [filter_selects] at hd
  exact ⟨l, t', hg, hd⟩

theorem live_values (h : Behaves tpm bank)
    (hg : Gathered tpm session none pcrMask t pcrValues t') :
    pcrValues.digests = (selected pcrMask).map (fun i => sized sha256_le (bank t i)) := by
  obtain ⟨t₁, hp, hr, hn⟩ := hg
  obtain ⟨l, t₂, hl, hd⟩ := live_gathers h t₁
  obtain ⟨rfl, -⟩ := Grants.unique hr hl
  rw [hd, List.length_map, List.length_take] at hn
  rw [hd, List.take_of_length_le (by omega), h.policyPassword session t t₁ hp]

theorem predicted_values (hg : Gathered tpm session (some pcrs) pcrMask t pcrValues t') :
    pcrValues.digests = (selected pcrMask).map (fun i => sized sha256_le (pcrs i)) := by
  obtain ⟨t₁, -, hr, -⟩ := hg
  exact hr.1

theorem hashPCRs_eq (h : pcrValues.digests =
    (selected pcrMask).map (fun i => sized sha256_le (pcrs i))) :
    hashPCRs sha1 sha256 algSha256 pcrValues =
      (computeSHA sha256 (pcrData pcrMask pcrs)).map (sized sha256_le) := by
  rw [hashPCRs, if_neg (by decide), h, List.flatMap_map]
  rfl

theorem digest_ext {n : Nat} {d d' : Digest n} (h : d.buf = d'.buf) : d = d' := by
  cases d
  cases d'
  cases h
  rfl

theorem sized_inj {n : Nat} {h : n ≤ 64} {d d' : Digest n} (he : sized h d = sized h d') :
    d = d' := by
  cases d
  cases d'
  simpa [sized] using he

theorem flatMap_buf_inj {n : Nat} {p p' : Fin maxPcrs → Digest n} {is : List (Fin maxPcrs)}
    (h : is.flatMap (fun i => (p i).buf) = is.flatMap (fun i => (p' i).buf)) :
    ∀ i ∈ is, p i = p' i := by
  induction is with
  | nil => simp
  | cons k is ih =>
    rw [List.flatMap_cons, List.flatMap_cons] at h
    obtain ⟨hk, hrest⟩ := List.append_inj h (by rw [(p k).size, (p' k).size])
    intro i hi
    rcases List.mem_cons.mp hi with rfl | hi
    · exact digest_ext hk
    · exact ih hrest i hi

theorem pcrData_congr {pcrs' : Fin maxPcrs → SHA256Hash}
    (h : ∀ i ∈ selected pcrMask, pcrs i = pcrs' i) : pcrData pcrMask pcrs = pcrData pcrMask pcrs' := by
  unfold pcrData
  exact List.flatMap_congr fun i hi => by rw [h i hi]

/-- Where a policy was built for the predicted values and one for those of the TPM, the same
was issued if and only if the hash answers the same. -/
theorem issued_eq_iff (h : Behaves tpm bank) {v v' u u' : World τ} {session' : Handle}
    (hu : (build tpm sha1 sha256 session pcrMask (some pcrs)).run v = .ok () u)
    (hu' : (build tpm sha1 sha256 session' pcrMask none).run v' = .ok () u') :
    issued v u = issued v' u' ↔ computeSHA sha256 (pcrData pcrMask pcrs) =
      computeSHA sha256 (pcrData pcrMask (bank v'.tpm)) := by
  obtain ⟨l, t, hg, hi⟩ := ok_issued hu
  obtain ⟨l', t', hg', hi'⟩ := ok_issued hu'
  rw [hi, hi', hashPCRs_eq (predicted_values hg), hashPCRs_eq (live_values h hg')]
  constructor
  · intro he
    exact Option.map_injective (fun _ _ => sized_inj) (commandsFor_inj he)
  · intro he
    rw [he]

theorem refused_err (h : Refused tpm sha1 sha256 session predictive pcrMask w.tpm) :
    ∃ rc u, (build tpm sha1 sha256 session pcrMask predictive).run w = .err rc u := by
  obtain ⟨rc, u, events, -, hrun⟩ := refused_run h
  exact ⟨rc, _, hrun⟩

/-- Where the values fit into the list, the two paths end alike. -/
theorem same_of_fits (h : Behaves tpm bank) (hle : (selected pcrMask).length ≤ 8) (w : World τ) :
    (∃ rc u rc' u', (build tpm sha1 sha256 session pcrMask (some (bank w.tpm))).run w =
      .err rc u ∧ (build tpm sha1 sha256 session pcrMask none).run w = .err rc' u') ∨
    ∃ u u', (build tpm sha1 sha256 session pcrMask (some (bank w.tpm))).run w = .ok () u ∧
      (build tpm sha1 sha256 session pcrMask none).run w = .ok () u' ∧
      issued w u = issued w u' := by
  rcases grants_or_refuses (tpm.policyPassword session) w.tpm with ⟨a, t₁, hp⟩ | hp
  · obtain ⟨l, t₂, hlive, hd⟩ := live_gathers h t₁
    rw [List.take_of_length_le hle, h.policyPassword session w.tpm t₁ hp] at hd
    have hpred : Gathers tpm (some (bank w.tpm)) pcrMask t₁ l t₁ := ⟨hd, rfl⟩
    have hn : l.digests.length = (selected pcrMask).length := by rw [hd, List.length_map]
    have hg : Gathered tpm session (some (bank w.tpm)) pcrMask w.tpm l t₁ := ⟨t₁, hp, hpred, hn⟩
    have hg' : Gathered tpm session none pcrMask w.tpm l t₂ := ⟨t₁, hp, hlive, hn⟩
    cases hash : hashPCRs sha1 sha256 algSha256 l with
    | none =>
      obtain ⟨u, hu, hi⟩ := unhashed_issued ⟨l, hg, hash⟩
      obtain ⟨u', hu', hi'⟩ := unhashed_issued ⟨l, hg', hash⟩
      exact .inr ⟨u, u', hu, hu', hi.trans hi'.symm⟩
    | some d =>
      rcases grants_or_refuses (tpm.policyPCR session d (selection algSha256 pcrMask)) t₁ with
        ⟨b, t₃, hq⟩ | hq
      · rcases grants_or_refuses (tpm.policyPCR session d (selection algSha256 pcrMask)) t₂ with
          ⟨b', t₄, hq'⟩ | hq'
        · obtain ⟨u, hu, hi⟩ := made_issued ⟨l, t₁, hg, hash, hq⟩
          obtain ⟨u', hu', hi'⟩ := made_issued ⟨l, t₂, hg', hash, hq'⟩
          exact .inr ⟨u, u', hu, hu', hi.trans hi'.symm⟩
        · exact absurd (h.policyPCR session d _ t₂ t₁ hq') hq.not_refuses
      · have hq' := h.policyPCR session d _ t₁ t₂ hq
        obtain ⟨rc, u, hu⟩ := refused_err (w := w)
          (.inr ⟨t₁, hp, .inr ⟨l, t₁, hpred, .inr ⟨hn, d, hash, hq⟩⟩⟩)
        obtain ⟨rc', u', hu'⟩ := refused_err (w := w)
          (.inr ⟨t₁, hp, .inr ⟨l, t₂, hlive, .inr ⟨hn, d, hash, hq'⟩⟩⟩)
        exact .inl ⟨rc, u, rc', u', hu, hu'⟩
  · obtain ⟨rc, u, hu⟩ := refused_err (.inl hp)
    obtain ⟨rc', u', hu'⟩ := refused_err (.inl hp)
    exact .inl ⟨rc, u, rc', u', hu, hu'⟩

end Runs

/-- The two paths agree exactly where at most eight PCRs are selected, or nothing comes of
the policy in the first place. -/
theorem agrees_iff {bank : τ → Fin maxPcrs → SHA256Hash} (h : Behaves tpm bank) (w : World τ) :
    Agrees tpm sha1 sha256 session pcrMask bank w ↔
      (selected pcrMask).length ≤ 8 ∨ Refuses (tpm.policyPassword session) w.tpm := by
  constructor
  · intro ha
    by_contra hn
    rw [not_or, Nat.not_le] at hn
    rcases grants_or_refuses (tpm.policyPassword session) w.tpm with ⟨a, t', hp⟩ | hp
    · exact ha.inside.1 (overflows_run ⟨by simp, hn.1, t', hp⟩)
    · exact hn.2 hp
  · intro hc
    have hsame : (∃ rc u rc' u',
        (build tpm sha1 sha256 session pcrMask (some (bank w.tpm))).run w = .err rc u ∧
          (build tpm sha1 sha256 session pcrMask none).run w = .err rc' u') ∨
        ∃ u u', (build tpm sha1 sha256 session pcrMask (some (bank w.tpm))).run w = .ok () u ∧
          (build tpm sha1 sha256 session pcrMask none).run w = .ok () u' ∧
            issued w u = issued w u' := by
      rcases hc with hle | hp
      · exact same_of_fits h hle w
      · obtain ⟨rc, u, hu⟩ := refused_err (.inl hp)
        obtain ⟨rc', u', hu'⟩ := refused_err (.inl hp)
        exact .inl ⟨rc, u, rc', u', hu, hu'⟩
    refine ⟨hsame, ?_, fun v v' session' session'' u u' hu hu' => ?_⟩
    · rcases hsame with ⟨rc, u, rc', u', hu, hu'⟩ | ⟨u, u', hu, hu', -⟩
      · exact ⟨by rw [hu]; rintro ⟨⟩, by rw [hu']; rintro ⟨⟩⟩
      · exact ⟨by rw [hu]; rintro ⟨⟩, by rw [hu']; rintro ⟨⟩⟩
    · rw [issued_eq_iff h hu hu']
      refine ⟨fun hv => ?_, fun htells he i hi => ?_⟩
      · rw [pcrData_congr hv]
      · exact (flatMap_buf_inj (htells he) i hi).symm

theorem take8_le (values : Fin maxPcrs → SHA256Hash) (is : List (Fin maxPcrs)) :
    ((is.take 8).map fun i => sized sha256_le (values i)).length ≤ 8 := by
  rw [List.length_map, List.length_take]
  exact Nat.min_le_left _ _

/-- A TPM whose state is the values of its PCRs. -/
def readingTpm : Tpm (Fin maxPcrs → SHA256Hash) where
  startAuthSession _ _ t := (.ok 0x03000000, t)
  policyPassword _ t := (.ok (), t)
  pcrRead sel t := (.ok ⟨_, take8_le t ((List.finRange maxPcrs).filter (Selects sel))⟩, t)
  policyPCR _ _ _ t := (.ok (), t)
  policyGetDigest _ t := (.error rcFailure, t)
  createPrimary _ t := (.error rcFailure, t)
  create _ _ _ _ t := (.error rcFailure, t)
  flushContext _ t := t

theorem readingTpm_behaves : Behaves readingTpm id := by
  refine ⟨fun sel t _ => ⟨_, t, rfl, rfl⟩, fun session t t' h => ?_, fun session d sel t t' h => ?_⟩
  · cases h
    rfl
  · obtain ⟨rc, u, h⟩ := h
    cases h

def zeroValues : Fin maxPcrs → SHA256Hash := fun _ => Digest.zero 32

/-- PCRs 7 and 11. -/
theorem agrees_two : Agrees readingTpm (sha (fun _ => Digest.zero 20) true)
    (sha (fun _ => Digest.zero 32) true) 0x03000000 0x0880 id ⟨zeroValues, []⟩ :=
  (agrees_iff readingTpm _ _ 0x03000000 0x0880 readingTpm_behaves ⟨zeroValues, []⟩).mpr
    (.inl (by decide))

/-- PCRs 0 to 8: the ninth predicted value is written behind the list. -/
theorem nine_overflow : ¬ Agrees readingTpm (sha (fun _ => Digest.zero 20) true)
    (sha (fun _ => Digest.zero 32) true) 0x03000000 0x01ff id ⟨zeroValues, []⟩ := by
  intro h
  exact h.inside.1 (overflows_run ⟨by simp, by decide, zeroValues, rfl⟩)

end LsvmTools.PcrPrediction
