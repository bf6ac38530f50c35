import LsvmTools.Lib.Ledger
import LsvmTools.TpmSeal

/-! # Handles of the TPM

`TPM2X_Unseal` and `UnsealKey`, and what becomes of the handles that these two,
`TPM2X_Seal` and `SealPolicy` get from the TPM: each is flushed once. `UnsealKey` has a path
on which it flushes a variable that holds none. -/
namespace LsvmTools.TpmHandles
open Lib.ByteString Lib.Program Lib.Ledger PeImage ShaHash MeasurePolicy TpmBlob TpmSeal

variable {τ Ctx Ctx' α β ε ε' : Type}

/-! ## The code -/

/-- A TPM with the commands of unsealing. -/
structure UnsealTpm (τ : Type) extends Tpm τ where
  readPublic : (objectHandle : Handle) → Command τ Tpm2bPublic
  load : (parentHandle : Handle) → (inPrivate : Sized 910) → (inPublic : Tpm2bPublic) →
    Command τ Handle
  unsealItem : (itemHandle session : Handle) → Command τ (Sized maxDataSize)

variable (tpm : UnsealTpm τ) (sha1 : Sha Ctx SHA1Hash) (sha256 : Sha Ctx' SHA256Hash)

/-- The exit of `TPM2X_Unseal`: a handle variable that is not marked null is flushed. -/
def flushBoth (sessionHandle sealedBlobHandle : Option Handle) (w : World τ) : World τ :=
  let w := match sessionHandle with
    | some h => flush tpm.toTpm h w
    | none => w
  match sealedBlobHandle with
  | some h => flush tpm.toTpm h w
  | none => w

/-- `TPM2X_Unseal`. `TPM2_Unseal` releases the session where it succeeds. -/
def unsealData (pcrMask : Nat) (parentKey : Handle) (blob : Blob) :
    Prog (World τ) Rc (Sized maxDataSize) :=
  let hashAlg := blob.pub.publicArea.nameAlg
  if hashAlg ≠ algSha1 ∧ hashAlg ≠ algSha256 then .throw rcFailure
  else do
    let session ← startAuthSession tpm.toTpm false hashAlg
    (buildPolicy tpm.toTpm sha1 sha256 session none pcrMask hashAlg).onErr
      (flushBoth tpm (some session) none)
    let sealedBlob ← (call (tpm.load parentKey blob.priv blob.pub) (.loaded parentKey)).onErr
      (flushBoth tpm (some session) none)
    let data ← (call (tpm.unsealItem sealedBlob session) fun _ => .unsealed sealedBlob session).onErr
      (flushBoth tpm (some session) (some sealedBlob))
    .modify (flushBoth tpm none (some sealedBlob))
    pure data

/-- `TPM2X_SRK_HANDLE`. -/
def srkHandleStatic : Handle := 0x81000001

/-- `TPM_RC_HANDLE`, whatever the handle's number. -/
def isHandle (rc : Rc) : Bool := rc.code &&& ~~~0xF00 = 0x08B

/-- What `_Get_SRK` delivers: its status and its two variables. -/
structure GotSrk where
  found : Bool
  srkHandle : Handle
  isHandleStatic : Bool

/-- `TPM2_ReadPublic`; its result code is looked at. -/
def readPublic (objectHandle : Handle) : Prog (World τ) Unit (Except Rc Tpm2bPublic) where
  exec w := match tpm.readPublic objectHandle w.tpm with
    | (r, t) => .ok r ⟨t, w.log⟩

/-- `_Get_SRK`, with what its variables hold before. -/
def getSRK (srkHandle : Handle) (isHandleStatic : Bool) : Prog (World τ) Unit GotSrk := do
  let rc ← readPublic tpm srkHandleStatic
  match rc with
  | .ok _ => pure ⟨true, srkHandleStatic, true⟩
  | .error rc =>
    if !isHandle rc then pure ⟨false, srkHandle, isHandleStatic⟩
    else do
      let created ← ((createSRKKey tpm.toTpm).attempt).mapErr fun _ => ()
      match created with
      | some handle => pure ⟨true, handle, false⟩
      | none => pure ⟨false, srkHandle, false⟩

/-- The mask of `UnsealKey`: PCR 7 and PCR 11. -/
def unsealMask : Nat := 1 <<< 7 ||| 1 <<< 11

/-- The part of `UnsealKey` behind `_Get_SRK`. Where no key is delivered, the status is still
the success of `_Get_SRK`. -/
def unsealUnder (sealedData : Blob) (mem : Nat → Bool) (srk : GotSrk) :
    Prog (World τ) Unit (Option Bytes) :=
  if !srk.found then .throw ()
  else do
    let key ← ((unsealData tpm sha1 sha256 unsealMask srk.srkHandle sealedData).mapErr
      fun _ => ()).attempt
    match key with
    | none => pure none
    | some key => pure (if mem key.bytes.length then some key.bytes else none)

/-- `UnsealKey`. `uninit` is what its variable for the key handle holds before, `mem` which
allocations succeed. -/
def unsealKey (uninit : Handle) (sealedData : Blob) (mem : Nat → Bool) :
    Prog (World τ) Unit (Option Bytes) := do
  let srk ← getSRK tpm uninit true
  (unsealUnder tpm sha1 sha256 sealedData mem srk).after
    (if srk.isHandleStatic then id else flush tpm.toTpm srk.srkHandle)

/-! ## Accounts -/

/-- Starting a session, loading an object and creating a key deliver a handle; flushing it,
or unsealing with a session, releases it. -/
def entry : Event → Option (Entry Handle)
  | .started session => some (.acquired session)
  | .primary key => some (.acquired key)
  | .loaded _ object => some (.acquired object)
  | .unsealed _ session => some (.released session)
  | .flushed handle => some (.released handle)
  | _ => none

/-- Of the handles that were delivered between two states, `held` are left. -/
def Accounts (w w' : World τ) (held : Multiset Handle) : Prop :=
  ∃ events, w'.log = w.log ++ events ∧ Leaves (events.filterMap entry) held

/-- The exits of a run. -/
def Exits (m : Prog (World τ) ε α) (w w' : World τ) : Prop :=
  (∃ a, m.run w = .ok a w') ∨ ∃ e, m.run w = .err e w'

/-- At each exit the handles that were delivered have been flushed, each once, and none else
was. -/
def FlushesOnce (m : Prog (World τ) ε α) (w : World τ) : Prop :=
  ∀ w', Exits m w w' → Accounts w w' 0

section Accounts

variable {w w₁ w' : World τ} {held : Multiset Handle} {command : Command τ α} {event : α → Event}

theorem Accounts.refl (w : World τ) : Accounts w w 0 := ⟨[], by simp, Leaves.nil⟩

/-- A further event. -/
theorem Accounts.snoc {e : Event} {t : τ} (h : Accounts w w₁ held)
    {held' : Multiset Handle}
    (hleaves : ∀ es, Leaves es held → Leaves (es ++ (entry e).toList) held') :
    Accounts w ⟨t, w₁.log ++ [e]⟩ held' := by
  obtain ⟨events, hlog, hl⟩ := h
  refine ⟨events ++ [e], by rw [hlog, List.append_assoc], ?_⟩
  have hentry : [e].filterMap entry = (entry e).toList := by
    rw [List.filterMap_cons, List.filterMap_nil]
    cases entry e <;> rfl
  rw [List.filterMap_append, hentry]
  exact hleaves _ hl

/-- An event of no handle. -/
theorem Accounts.neutral {e : Event} {t : τ} (h : Accounts w w₁ held) (he : entry e = none) :
    Accounts w ⟨t, w₁.log ++ [e]⟩ held := by
  refine h.snoc fun es hes => ?_
  rw [he, Option.toList_none, List.append_nil]
  exact hes

/-- An event that delivers a handle. -/
theorem Accounts.deliver {e : Event} {t : τ} {handle : Handle} (h : Accounts w w₁ held)
    (he : entry e = some (.acquired handle)) :
    Accounts w ⟨t, w₁.log ++ [e]⟩ (handle ::ₘ held) := by
  refine h.snoc fun es hes => ?_
  rw [he, Option.toList_some]
  exact hes.acquire handle

/-- An event that releases one. -/
theorem Accounts.release {e : Event} {t : τ} {handle : Handle}
    (h : Accounts w w₁ (handle ::ₘ held)) (he : entry e = some (.released handle)) :
    Accounts w ⟨t, w₁.log ++ [e]⟩ held := by
  refine h.snoc fun es hes => ?_
  rw [he, Option.toList_some]
  exact hes.release

theorem Accounts.same_log {t : τ} (h : Accounts w w₁ held) : Accounts w ⟨t, w₁.log⟩ held := h

theorem Accounts.flush {handle : Handle} (h : Accounts w w₁ (handle ::ₘ held)) (tpm : Tpm τ) :
    Accounts w (flush tpm handle w₁) held :=
  h.release rfl

end Accounts

/-! ## What programs hold

`Turns m p Q E`: started with `p` held, `m` holds `Q a` where it delivers `a`, and `E` where it
fails. -/

def Turns (m : Prog (World τ) ε α) (p : Multiset Handle) (Q : α → Multiset Handle)
    (E : Multiset Handle) : Prop :=
  ∀ w w₁, Accounts w w₁ p →
    (∀ a w', m.run w₁ = .ok a w' → Accounts w w' (Q a)) ∧
    ∀ e w', m.run w₁ = .err e w' → Accounts w w' E

section Turns

variable {m : Prog (World τ) ε α} {k : α → Prog (World τ) ε β} {p E F : Multiset Handle}
  {Q : α → Multiset Handle} {R : β → Multiset Handle} {w w₁ w' : World τ} {handle : Handle}

theorem Turns.pure (a : α) : Turns (Pure.pure a : Prog (World τ) ε α) p (fun _ => p) E := by
  refine fun w w₁ h => ⟨fun b w' hr => ?_, fun e w' hr => ?_⟩
  · cases hr
    exact h
  · cases hr

theorem Turns.throw (e : ε) : Turns (Prog.throw e : Prog (World τ) ε α) E Q E := by
  refine fun w w₁ h => ⟨fun b w' hr => ?_, fun e' w' hr => ?_⟩
  · cases hr
  · cases hr
    exact h

theorem Turns.read (f : World τ → Out ε α) : Turns (Prog.read f) p (fun _ => p) p := by
  refine fun w w₁ h => ⟨fun b w' hr => ?_, fun e' w' hr => ?_⟩
  · obtain ⟨-, rfl⟩ := Prog.read_eq_ok.mp hr
    exact h
  · obtain ⟨-, rfl⟩ := Prog.read_eq_err.mp hr
    exact h

theorem Turns.bind (hm : Turns m p Q E) (hk : ∀ a, Turns (k a) (Q a) R E) :
    Turns (m >>= k) p R E := by
  refine fun w w₁ h => ⟨fun b w' hr => ?_, fun e w' hr => ?_⟩
  · obtain ⟨a, w₂, ha, hb⟩ := Prog.bind_eq_ok.mp hr
    exact (hk a w w₂ ((hm w w₁ h).1 a w₂ ha)).1 b w' hb
  · rcases Prog.bind_eq_err.mp hr with he | ⟨a, w₂, ha, he⟩
    · exact (hm w w₁ h).2 e w' he
    · exact (hk a w w₂ ((hm w w₁ h).1 a w₂ ha)).2 e w' he

theorem Turns.mapErr (f : ε → ε') (hm : Turns m p Q E) : Turns (m.mapErr f) p Q E := by
  refine fun w w₁ h => ⟨fun a w' hr => ?_, fun e w' hr => ?_⟩ <;> rw [Prog.run_mapErr] at hr <;>
    cases hrun : m.run w₁ <;> rw [hrun] at hr <;> cases hr
  · exact (hm w w₁ h).1 _ _ hrun
  · exact (hm w w₁ h).2 _ _ hrun

theorem Turns.attempt (hm : Turns m p (fun _ => p) p) :
    Turns (m.attempt : Prog (World τ) ε (Option α)) p (fun _ => p) F := by
  refine fun w w₁ h => ⟨fun a w' hr => ?_, fun e w' hr => ?_⟩ <;> rw [Prog.run_attempt] at hr <;>
    cases hrun : m.run w₁ <;> rw [hrun] at hr <;> cases hr
  · exact (hm w w₁ h).1 _ _ hrun
  · exact (hm w w₁ h).2 _ _ hrun

/-- The state is changed at either exit. -/
theorem Turns.after {f : World τ → World τ} (hm : Turns m p (fun _ => E) E)
    (hf : ∀ w w₁, Accounts w w₁ E → Accounts w (f w₁) F) :
    Turns (m.after f) p (fun _ => F) F := by
  refine fun w w₁ h => ⟨fun a w' hr => ?_, fun e w' hr => ?_⟩ <;> rw [Prog.run_after] at hr <;>
    cases hrun : m.run w₁ <;> rw [hrun] at hr <;> cases hr
  · exact hf w _ ((hm w w₁ h).1 _ _ hrun)
  · exact hf w _ ((hm w w₁ h).2 _ _ hrun)

theorem Turns.onErr {f : World τ → World τ} (hm : Turns m p Q F)
    (hf : ∀ w w₁, Accounts w w₁ F → Accounts w (f w₁) E) : Turns (m.onErr f) p Q E := by
  refine fun w w₁ h => ⟨fun a w' hr => ?_, fun e w' hr => ?_⟩ <;> rw [Prog.run_onErr] at hr <;>
    cases hrun : m.run w₁ <;> rw [hrun] at hr <;> cases hr
  · exact (hm w w₁ h).1 _ _ hrun
  · exact hf w _ ((hm w w₁ h).2 _ _ hrun)

theorem Turns.modify {f : World τ → World τ}
    (hf : ∀ w w₁, Accounts w w₁ p → Accounts w (f w₁) F) :
    Turns (Prog.modify f : Prog (World τ) ε Unit) p (fun _ => F) E := by
  refine fun w w₁ h => ⟨fun a w' hr => ?_, fun e w' hr => ?_⟩
  · cases hr
    exact hf w w₁ h
  · cases hr

/-- A command, from what its event does. -/
theorem Turns.call {command : Command τ α} {event : α → Event}
    (he : ∀ a (w w₁ : World τ) (t : τ), Accounts w w₁ p → Accounts w ⟨t, w₁.log ++ [event a]⟩ (Q a)) :
    Turns (call command event) p Q p := by
  refine fun w w₁ h => ⟨fun a w' hr => ?_, fun e w' hr => ?_⟩ <;>
    unfold Prog.run TpmSeal.call at hr <;> dsimp only at hr <;> split at hr <;> cases hr
  · exact he _ _ _ _ h
  · exact h.same_log

theorem Turns.neutral {command : Command τ α} {event : α → Event}
    (he : ∀ a, entry (event a) = none) : Turns (TpmSeal.call command event) p (fun _ => p) p :=
  .call fun a _ _ _ h => h.neutral (he a)

theorem Turns.exits (hm : Turns m p (fun _ => E) E) (h : Accounts w w₁ p)
    (hexit : Exits m w₁ w') : Accounts w w' E := by
  rcases hexit with ⟨a, hr⟩ | ⟨e, hr⟩
  · exact (hm w w₁ h).1 a w' hr
  · exact (hm w w₁ h).2 e w' hr

theorem Turns.flushesOnce (hm : Turns m 0 (fun _ => 0) 0) (w : World τ) : FlushesOnce m w :=
  fun _ hexit => hm.exits (Accounts.refl w) hexit

end Turns

/-! ## The four functions -/

section Functions

variable {tpm sha1 sha256} {p : Multiset Handle} {session parentKey : Handle}
  {predictive : Option (Fin maxPcrs → SHA256Hash)} {pcrMask : Nat} {hashAlg : UInt16}

theorem startAuthSession_turns (tpm : Tpm τ) (trial : Bool) (alg : UInt16) :
    Turns (startAuthSession tpm trial alg) p (fun session => session ::ₘ p) p := by
  unfold startAuthSession
  split
  · exact .throw _
  · exact .call fun _ _ _ _ h => h.deliver rfl

theorem createSRKKey_turns (tpm : Tpm τ) :
    Turns (createSRKKey tpm) p (fun key => key ::ₘ p) p :=
  .call fun _ _ _ _ h => h.deliver rfl

theorem gatherPCRs_turns (tpm : Tpm τ) (sel : PcrSelection) :
    Turns (gatherPCRs tpm predictive pcrMask sel) p (fun _ => p) p := by
  unfold gatherPCRs
  split
  · exact .read _
  · exact .neutral fun _ => rfl

theorem createPCRPolicy_turns (tpm : Tpm τ) (pcrValues : DigestList) :
    Turns (createPCRPolicy tpm sha1 sha256 session hashAlg pcrMask pcrValues) p (fun _ => p) p := by
  unfold createPCRPolicy
  split
  · exact .throw _
  · split
    · exact .pure ()
    · exact .neutral fun _ => rfl

theorem buildPolicy_turns (tpm : Tpm τ) :
    Turns (buildPolicy tpm sha1 sha256 session predictive pcrMask hashAlg) p (fun _ => p) p := by
  unfold buildPolicy
  split
  · exact .throw _
  · refine .bind (.neutral fun _ => rfl) fun _ => ?_
    exact .bind (gatherPCRs_turns tpm _) fun _ => createPCRPolicy_turns tpm _

theorem createSealed_turns (tpm : Tpm τ) (data : Sized maxDataSize) :
    Turns (createSealed tpm parentKey pcrMask data session) p (fun _ => p) p := by
  unfold createSealed
  refine .bind (.neutral fun _ => rfl) fun _ => ?_
  exact .bind (.neutral fun _ => rfl) fun _ => .pure _

theorem sealIn_turns (tpm : Tpm τ) (data : Sized maxDataSize) (blob : BlobVar) :
    Turns (sealIn tpm sha1 sha256 parentKey predictive pcrMask data blob session) p
      (fun _ => p) p := by
  unfold sealIn
  refine .bind (.attempt (buildPolicy_turns tpm)) fun built => ?_
  cases built with
  | none => exact .pure _
  | some _ => exact .bind (createSealed_turns tpm data) fun _ => .pure _

theorem sealData_turns (tpm : Tpm τ) (data : Bytes) (blob : BlobVar) :
    Turns (sealData tpm sha1 sha256 parentKey predictive pcrMask data blob) p (fun _ => p) p := by
  unfold sealData
  split
  · exact .bind (startAuthSession_turns tpm true _) fun _ =>
      .after (sealIn_turns tpm _ blob) fun _ _ h => h.flush tpm
  · exact .throw _

theorem sealPolicy_turns (tpm : Tpm τ) (env : Measurement.Env) (works : Nat → Measurement.Works)
    (uninit : Nat → Measurement.Hashes) (policy : Policy) (dataIn : Bytes) (blob : BlobVar) :
    Turns (sealPolicy tpm sha1 sha256 env works uninit policy dataIn blob) p (fun _ => p) p := by
  unfold sealPolicy
  split
  · exact .throw _
  · refine .bind (.read _) fun banks => ?_
    split
    · exact .throw _
    · refine .bind (.mapErr _ (createSRKKey_turns tpm)) fun srkHandle => ?_
      refine .after ?_ fun _ _ h => h.flush tpm
      exact .bind (.mapErr _ (sealData_turns tpm dataIn blob)) fun _ => .read _

/-- The exit of `TPM2X_Unseal` with both handles. -/
theorem flushBoth_accounts {w w₁ : World τ} {object : Handle}
    (h : Accounts w w₁ (object ::ₘ session ::ₘ p)) :
    Accounts w (flushBoth tpm (some session) (some object) w₁) p := by
  rw [Multiset.cons_swap] at h
  exact (h.flush tpm.toTpm).flush tpm.toTpm

theorem unsealData_turns (blob : Blob) :
    Turns (unsealData tpm sha1 sha256 pcrMask parentKey blob) p (fun _ => p) p := by
  unfold unsealData
  dsimp only
  split
  · exact .throw _
  · refine .bind (startAuthSession_turns _ _ _) fun session => ?_
    refine .bind (.onErr (buildPolicy_turns _) fun _ _ h => h.flush _) fun _ => ?_
    refine .bind (.onErr (.call fun object _ _ _ h => h.deliver rfl) fun _ _ h => h.flush _)
      fun object => ?_
    -- `TPM2_Unseal` releases the session, the older of the two.
    have hunseal : Turns (call (tpm.unsealItem object session) fun _ => .unsealed object session)
        (object ::ₘ session ::ₘ p) (fun _ => object ::ₘ p) (object ::ₘ session ::ₘ p) :=
      .call fun _ _ _ _ h => by
        rw [Multiset.cons_swap] at h
        exact h.release rfl
    refine .bind (.onErr hunseal fun _ _ h => flushBoth_accounts h) fun data => ?_
    exact .bind (.modify fun _ _ h => h.flush _) fun _ => .pure _

theorem unsealUnder_turns (sealedData : Blob) (mem : Nat → Bool) (srk : GotSrk) :
    Turns (unsealUnder tpm sha1 sha256 sealedData mem srk) p (fun _ => p) p := by
  unfold unsealUnder
  split
  · exact .throw _
  · refine .bind (.attempt (.mapErr _ (unsealData_turns sealedData))) fun key => ?_
    cases key with
    | none => exact .pure _
    | some _ => exact .pure _

end Functions

/-! ## The key handle of `UnsealKey` -/

section SrkHandle

variable {tpm sha1 sha256} {uninit : Handle} {sealedData : Blob} {mem : Nat → Bool} {w w' : World τ}

/-- The well-known key is missing and no other can be created. -/
def SrkMissing (tpm : UnsealTpm τ) (t : τ) : Prop :=
  ∃ rc t₁, tpm.readPublic srkHandleStatic t = (.error rc, t₁) ∧ isHandle rc ∧
    Refuses (tpm.createPrimary srkPublic) t₁

/-- What `_Get_SRK` delivers: a static handle, the handle of a created key, or a variable that
nothing was written to. -/
theorem getSRK_cases (tpm : UnsealTpm τ) (uninit : Handle) (w : World τ) :
    (∃ srk t, (getSRK tpm uninit true).run w = .ok srk ⟨t, w.log⟩ ∧ srk.isHandleStatic = true ∧
      ¬ SrkMissing tpm w.tpm) ∨
    (∃ key t, (getSRK tpm uninit true).run w = .ok ⟨true, key, false⟩ ⟨t, w.log ++ [.primary key]⟩ ∧
      ¬ SrkMissing tpm w.tpm) ∨
    ∃ t, (getSRK tpm uninit true).run w = .ok ⟨false, uninit, false⟩ ⟨t, w.log⟩ ∧
      SrkMissing tpm w.tpm := by
  unfold SrkMissing
  cases hread : tpm.readPublic srkHandleStatic w.tpm with
  | mk r t =>
    have hrun : (readPublic tpm srkHandleStatic).run w = .ok r ⟨t, w.log⟩ := by
      simp only [readPublic, Prog.run, hread]
    rw [getSRK, Prog.bind_ok hrun]
    cases r with
    | ok pub =>
      refine .inl ⟨_, t, rfl, rfl, ?_⟩
      rintro ⟨rc, t₁, hr, -⟩
      cases hr
    | error rc =>
      dsimp only
      cases hrc : isHandle rc with
      | false =>
        refine .inl ⟨_, t, rfl, rfl, ?_⟩
        rintro ⟨rc', t₁, hr, hrc', -⟩
        cases hr
        rw [hrc] at hrc'
        cases hrc'
      | true =>
        have hcond : ¬ ((!true) = true) := by decide
        rw [if_neg hcond]
        rcases grants_or_refuses (tpm.createPrimary srkPublic) t with ⟨key, t', hg⟩ | hr
        · have hcreate : ((createSRKKey tpm.toTpm).attempt.mapErr fun _ : Rc => ()).run ⟨t, w.log⟩ =
              .ok (some key) ⟨t', w.log ++ [.primary key]⟩ := by
            rw [Prog.run_mapErr, Prog.run_attempt, createSRKKey, call_ok hg]
          rw [Prog.bind_ok hcreate]
          refine .inr (.inl ⟨key, t', rfl, ?_⟩)
          rintro ⟨rc', t₁, hr, -, href⟩
          cases hr
          exact hg.not_refuses href
        · obtain ⟨rc', t', hc⟩ := call_err hr
          have hcreate : ((createSRKKey tpm.toTpm).attempt.mapErr fun _ : Rc => ()).run ⟨t, w.log⟩ =
              .ok none ⟨t', w.log⟩ := by
            rw [Prog.run_mapErr, Prog.run_attempt, createSRKKey, hc]
          rw [Prog.bind_ok hcreate]
          exact .inr (.inr ⟨t', rfl, rc, t, rfl, hrc, hr⟩)

/-- The key handle that is to be flushed. -/
def GotSrk.held (srk : GotSrk) : Multiset Handle :=
  if srk.isHandleStatic then 0 else {srk.srkHandle}

theorem unsealTail_turns (srk : GotSrk) :
    Turns ((unsealUnder tpm sha1 sha256 sealedData mem srk).after
      (if srk.isHandleStatic then id else flush tpm.toTpm srk.srkHandle)) srk.held (fun _ => 0)
      0 := by
  refine .after (unsealUnder_turns sealedData mem srk) fun w w₁ h => ?_
  by_cases hs : srk.isHandleStatic = true
  · rw [GotSrk.held, if_pos hs] at h
    rw [if_pos hs]
    exact h
  · rw [GotSrk.held, if_neg hs] at h
    rw [if_neg hs]
    exact Accounts.flush h tpm.toTpm

/-- `UnsealKey` flushes what it should, except where it has no key at all: then it flushes what
its variable held before. -/
theorem unsealKey_flushes_iff (w : World τ) :
    FlushesOnce (unsealKey tpm sha1 sha256 uninit sealedData mem) w ↔ ¬ SrkMissing tpm w.tpm := by
  rcases getSRK_cases tpm uninit w with ⟨srk, t, hrun, hstatic, hnot⟩ | ⟨key, t, hrun, hnot⟩ |
    ⟨t, hrun, hmissing⟩
  · refine iff_of_true (fun w' hexit => ?_) hnot
    have hheld : Accounts w ⟨t, w.log⟩ srk.held := by
      rw [GotSrk.held, if_pos hstatic]
      exact (Accounts.refl w).same_log
    rw [Exits, unsealKey, Prog.bind_ok hrun] at hexit
    exact (unsealTail_turns srk).exits hheld hexit
  · refine iff_of_true (fun w' hexit => ?_) hnot
    have hheld : Accounts w ⟨t, w.log ++ [.primary key]⟩ (GotSrk.held ⟨true, key, false⟩) :=
      (Accounts.refl w).deliver rfl
    rw [Exits, unsealKey, Prog.bind_ok hrun] at hexit
    exact (unsealTail_turns _).exits hheld hexit
  · refine iff_of_false (fun hflush => ?_) (not_not_intro hmissing)
    have hexit : (unsealKey tpm sha1 sha256 uninit sealedData mem).run w =
        .err () (flush tpm.toTpm uninit ⟨t, w.log⟩) := by
      rw [unsealKey, Prog.bind_ok hrun]
      rfl
    obtain ⟨events, hlog, hleaves⟩ := hflush _ (.inr ⟨(), hexit⟩)
    cases List.append_cancel_left hlog
    have hmem := hleaves.released_acquired (List.mem_singleton.mpr rfl)
    cases List.mem_singleton.mp hmem

end SrkHandle

/-- Each handle is flushed once at each exit of the four functions, except that `UnsealKey`
flushes a handle that it was never given where the storage root key is missing and cannot be
created. -/
theorem handles_flushed_iff (parentKey parentKey' : Handle)
    (predictive : Option (Fin maxPcrs → SHA256Hash)) (pcrMask pcrMask' : Nat) (data : Bytes)
    (blobVar blobVar' : BlobVar) (blob : Blob) (env : Measurement.Env)
    (works : Nat → Measurement.Works) (uninit : Nat → Measurement.Hashes) (policy : Policy)
    (dataIn : Bytes) (srkHandle : Handle) (sealedData : Blob) (mem : Nat → Bool)
    (w w₁ w₂ w₃ : World τ) :
    (FlushesOnce (sealData tpm.toTpm sha1 sha256 parentKey predictive pcrMask data blobVar) w ∧
      FlushesOnce (unsealData tpm sha1 sha256 pcrMask' parentKey' blob) w₁ ∧
      FlushesOnce (sealPolicy tpm.toTpm sha1 sha256 env works uninit policy dataIn blobVar') w₂ ∧
      FlushesOnce (unsealKey tpm sha1 sha256 srkHandle sealedData mem) w₃) ↔
    ¬ SrkMissing tpm w₃.tpm := by
  rw [← unsealKey_flushes_iff w₃]
  constructor
  · rintro ⟨-, -, -, h⟩
    exact h
  · intro h
    exact ⟨(sealData_turns _ _ _).flushesOnce w, (unsealData_turns _).flushesOnce w₁,
      (sealPolicy_turns _ _ _ _ _ _ _).flushesOnce w₂, h⟩

/-- A TPM that has no keys and refuses everything. -/
def emptyTpm : UnsealTpm Unit where
  startAuthSession _ _ t := (.error rcFailure, t)
  policyPassword _ t := (.error rcFailure, t)
  pcrRead _ t := (.error rcFailure, t)
  policyPCR _ _ _ t := (.error rcFailure, t)
  policyGetDigest _ t := (.error rcFailure, t)
  createPrimary _ t := (.error rcFailure, t)
  create _ _ _ _ t := (.error rcFailure, t)
  flushContext _ t := t
  readPublic _ t := (.error ⟨0x18B, by decide⟩, t)
  load _ _ _ t := (.error rcFailure, t)
  unsealItem _ _ t := (.error rcFailure, t)

def emptyBlob : Blob :=
  ⟨.empty _, srkPublic, .empty _, ⟨[0, 0, 0], selectNone_le⟩⟩

/-- `UnsealKey` flushes 0xCCCCCCCC, which its variable happened to hold. -/
theorem unset_handle_flushed :
    ¬ FlushesOnce (unsealKey emptyTpm (sha (fun _ => Digest.zero 20) true)
      (sha (fun _ => Digest.zero 32) true) 0xCCCCCCCC emptyBlob fun _ => true) ⟨(), []⟩ := by
  intro h
  obtain ⟨events, hlog, hleaves⟩ := h ⟨(), [.flushed 0xCCCCCCCC]⟩ (.inr ⟨(), rfl⟩)
  cases hlog
  cases List.mem_singleton.mp (hleaves.released_acquired (List.mem_singleton.mpr rfl))

end LsvmTools.TpmHandles
