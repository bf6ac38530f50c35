import LsvmTools.Lib.KeyedFold
import LsvmTools.Measurement

/-! # Measuring a policy

A policy lists what is measured into which PCR. `MeasurePolicy` predicts the values of the
PCRs from it. Apart from capping, whose hashes are not checked, a measurement that fails makes
it fail, and the value of a PCR is the fold of the measurements that name it. -/
namespace LsvmTools.MeasurePolicy
open Lib.ByteString Lib.Program Lib.KeyedFold Strings ShaHash Measurement

inductive PolicyEntryType where
  | efivar
  | peimage
  | binary
  | binary32
  | cap
  | pcr
deriving DecidableEq

/-- `MAX_PCRS`. -/
abbrev maxPcrs : Nat := 16

instance : NeZero maxPcrs := ⟨by decide⟩

structure PolicyEntry where
  path : CStr
  type : PolicyEntryType
  pcr : Fin maxPcrs
  path_lt : path.bytes.length < 1024

/-- No more entries than `POLICY_MAX_ENTRIES`. -/
structure Policy where
  entries : List PolicyEntry
  nentries_le : entries.length ≤ 16

structure PCRBanks where
  pcrMask : Nat
  pcrs1 : Fin maxPcrs → SHA1Hash
  pcrs256 : Fin maxPcrs → SHA256Hash

namespace PCRBanks

def empty : PCRBanks := ⟨0, fun _ => Digest.zero 20, fun _ => Digest.zero 32⟩

def values (banks : PCRBanks) (k : Fin maxPcrs) : Hashes := ⟨banks.pcrs1 k, banks.pcrs256 k⟩

def setMask (banks : PCRBanks) (k : Fin maxPcrs) : PCRBanks :=
  { banks with pcrMask := banks.pcrMask ||| 1 <<< k.val }

def put (banks : PCRBanks) (k : Fin maxPcrs) (h : Hashes) : PCRBanks where
  pcrMask := banks.pcrMask
  pcrs1 := Function.update banks.pcrs1 k h.sha1
  pcrs256 := Function.update banks.pcrs256 k h.sha256

theorem values_put (banks : PCRBanks) (k : Fin maxPcrs) (h : Hashes) :
    (banks.put k h).values = Function.update banks.values k h := by
  funext j
  by_cases hj : j = k
  · subst hj
    simp [values, put]
  · simp [values, put, hj]

theorem ext_values {b b' : PCRBanks} (hm : b.pcrMask = b'.pcrMask) (hv : b.values = b'.values) :
    b = b' := by
  have h1 : b.pcrs1 = b'.pcrs1 := funext fun k => congrArg Hashes.sha1 (congrFun hv k)
  have h2 : b.pcrs256 = b'.pcrs256 := funext fun k => congrArg Hashes.sha256 (congrFun hv k)
  obtain ⟨m, f, g⟩ := b
  obtain ⟨m', f', g'⟩ := b'
  cases hm
  cases h1
  cases h2
  rfl

end PCRBanks

variable (env : Env)

/-- The switch of `MeasurePolicy`. `uninit` is what its variables hold before. -/
def measureEntry (works : Works) (uninit : Hashes) (ent : PolicyEntry) (pcr : Hashes) :
    Out Unit Hashes :=
  match ent.type with
  | .efivar => measureEFIVariable env works ent.path.bytes pcr
  | .peimage => measurePEImage env works ent.path.bytes pcr
  | .binary => measureBinaryFile env works ent.path.bytes pcr
  | .binary32 => measureBinaryFilePad32 env works ent.path.bytes pcr
  | .cap => measureCap env works uninit pcr
  | .pcr => pure pcr

variable (works : Nat → Works) (uninit : Nat → Hashes)

/-- The loop of `MeasurePolicy`, from entry `i` on. -/
def measureEntries : Nat → List PolicyEntry → PCRBanks → Out Unit PCRBanks
  | _, [], banks => pure banks
  | i, ent :: rest, banks => do
    let banks := banks.setMask ent.pcr
    let h ← measureEntry env (works i) (uninit i) ent (banks.values ent.pcr)
    measureEntries (i + 1) rest (banks.put ent.pcr h)

/-- `MeasurePolicy`. -/
def measurePolicy (policy : Policy) : Out Unit PCRBanks :=
  measureEntries env works uninit 0 policy.entries .empty

/-! ## What an entry contributes -/

/-- The measurement of an entry; there is none of an entry that only names a PCR. -/
def measurement (ent : PolicyEntry) : Out Unit Hashes :=
  match ent.type with
  | .efivar => variableHashes env ent.path.bytes
  | .peimage => imageHashes env ent.path.bytes
  | .binary => fileHashes env ent.path.bytes
  | .binary32 => paddedHashes env ent.path.bytes
  | .cap => pure (hashBoth env zeros)
  | .pcr => .err ()

/-- What the entry adds to the measurements of its PCR. -/
def contribution (ent : PolicyEntry) : List Hashes :=
  match measurement env ent with
  | .ok h => [h]
  | _ => []

/-- Measuring the entry fails: what it names cannot be loaded, or one of the hash
computations fails. -/
def Fails (works : Works) (ent : PolicyEntry) : Prop :=
  ent.type ≠ .pcr ∧
    (measurement env ent = .err () ∨ works.hashes = false ∨ works.extends = false)

/-- Nothing fails but, at most, the hashes of a cap. -/
def Passes (works : Works) (ent : PolicyEntry) : Prop :=
  ent.type = .pcr ∨
    (∃ h, measurement env ent = .ok h) ∧ (ent.type = .cap ∨ works.hashes = true) ∧
      works.extends = true

section Entry

variable {env} {w : Works} {u p : Hashes} {ent : PolicyEntry}

/-- What the entry extends its PCR with. -/
def usedHashes (env : Env) (w : Works) (u : Hashes) (ent : PolicyEntry) : Out Unit Hashes :=
  if ent.type = .cap then pure (capHashes env w u) else checked w (measurement env ent)

theorem measureEntry_eq (h : ent.type ≠ .pcr) : measureEntry env w u ent p =
    (usedHashes env w u ent >>= fun h => measure env w h p) := by
  unfold measureEntry usedHashes measurement
  cases htype : ent.type with
  | efivar => exact measureEFIVariable_eq env w _ _
  | peimage => exact measurePEImage_eq env w _ _
  | binary => exact measureBinaryFile_eq env w _ _
  | binary32 => exact measureBinaryFilePad32_eq env w _ _
  | cap => exact measureCap_eq env w _ _
  | pcr => exact absurd htype h

theorem measurement_cap (h : ent.type = .cap) :
    measurement env ent = .ok (hashBoth env zeros) := by
  unfold measurement
  rw [h]
  rfl

theorem usedHashes_ok (hcap : ent.type = .cap → w.hashes = true) {h : Hashes}
    (hu : usedHashes env w u ent = .ok h) : measurement env ent = .ok h := by
  unfold usedHashes at hu
  by_cases ht : ent.type = .cap
  · rw [if_pos ht, capHashes_all env (hcap ht)] at hu
    rw [measurement_cap ht]
    exact hu
  · rw [if_neg ht] at hu
    obtain ⟨h', hm, hc⟩ := Out.bind_eq_ok.mp hu
    split at hc
    · rw [hm]
      exact hc
    · cases hc

theorem usedHashes_ok_iff : (∃ h, usedHashes env w u ent = .ok h) ↔
    (∃ h, measurement env ent = .ok h) ∧ (ent.type = .cap ∨ w.hashes = true) := by
  unfold usedHashes
  by_cases ht : ent.type = .cap
  · rw [if_pos ht, measurement_cap ht]
    simp [ht]
  · rw [if_neg ht]
    unfold checked
    cases measurement env ent with
    | err e => simp
    | stuck => simp
    | ok h => cases hw : w.hashes <;> simp [ht]

theorem usedHashes_stuck (h : measurement env ent ≠ .stuck) : usedHashes env w u ent ≠ .stuck := by
  unfold usedHashes
  split
  · rintro ⟨⟩
  · unfold checked
    cases hm : measurement env ent with
    | err e => rintro ⟨⟩
    | stuck => exact absurd hm h
    | ok h => cases hw : w.hashes <;> simp

theorem measureEntry_pcr (h : ent.type = .pcr) : measureEntry env w u ent p = .ok p := by
  unfold measureEntry
  rw [h]
  rfl

theorem measureEntry_ok_iff :
    (∃ h, measureEntry env w u ent p = .ok h) ↔ Passes env w ent := by
  unfold Passes
  by_cases ht : ent.type = .pcr
  · simp [measureEntry_pcr ht, ht]
  · rw [measureEntry_eq ht, ← and_assoc, ← usedHashes_ok_iff (u := u)]
    cases usedHashes env w u ent with
    | err e => simp [ht]
    | stuck => simp [ht]
    | ok h => cases hx : w.extends <;> simp [ht, measure_eq, hx]

/-- What a measurement that succeeds does to the value of its PCR. -/
theorem measureEntry_value (hcap : ent.type = .cap → w.hashes = true) {h : Hashes}
    (he : measureEntry env w u ent p = .ok h) :
    h = (contribution env ent).foldl (extendBoth env) p := by
  by_cases ht : ent.type = .pcr
  · rw [measureEntry_pcr ht] at he
    have hm : measurement env ent = .err () := by
      unfold measurement
      rw [ht]
    unfold contribution
    rw [hm]
    exact (Out.ok.inj he).symm
  · rw [measureEntry_eq ht] at he
    obtain ⟨h', hu, hx⟩ := Out.bind_eq_ok.mp he
    unfold contribution
    rw [usedHashes_ok hcap hu]
    rw [measure_eq] at hx
    split at hx
    · exact (Out.ok.inj hx).symm
    · cases hx

theorem measureEntry_stuck (h : measurement env ent ≠ .stuck) :
    measureEntry env w u ent p ≠ .stuck := by
  by_cases ht : ent.type = .pcr
  · rw [measureEntry_pcr ht]
    rintro ⟨⟩
  · rw [measureEntry_eq ht]
    cases hu : usedHashes env w u ent with
    | err e => rintro ⟨⟩
    | stuck => exact absurd hu (usedHashes_stuck h)
    | ok h =>
      rw [Out.ok_bind, measure_eq]
      split <;> rintro ⟨⟩

theorem not_passes_of_fails (hf : Fails env w ent) (h : ent.type ≠ .cap ∨ w.hashes = true) :
    ¬ Passes env w ent := by
  obtain ⟨hp, hfail⟩ := hf
  rintro (ht | ⟨⟨h', hm⟩, hh, hx⟩)
  · exact hp ht
  · rcases hfail with he | he | he
    · rw [he] at hm
      cases hm
    · rw [he] at h hh
      simp at h hh
      exact h hh
    · rw [he] at hx
      cases hx

end Entry

/-! ## The loop -/

section Loop

variable {env} {w : Nat → Works} {u : Nat → Hashes}

/-- The value of a PCR after an entry that names it. -/
def stepValue (env : Env) (pcr : Hashes) (ent : PolicyEntry) : Hashes :=
  (contribution env ent).foldl (extendBoth env) pcr

def stepMask (mask : Nat) (ent : PolicyEntry) : Nat := mask ||| 1 <<< ent.pcr.val

/-- The banks after some entries. -/
def Folded (env : Env) (banks banks' : PCRBanks) (ents : List PolicyEntry) : Prop :=
  banks'.pcrMask = ents.foldl stepMask banks.pcrMask ∧
    banks'.values = foldKeyed PolicyEntry.pcr (stepValue env) banks.values ents

theorem measureEntries_cons (i : Nat) (ent : PolicyEntry) (ents : List PolicyEntry)
    (banks : PCRBanks) : measureEntries env w u i (ent :: ents) banks =
      (measureEntry env (w i) (u i) ent (banks.values ent.pcr) >>= fun h =>
        measureEntries env w u (i + 1) ents ((banks.setMask ent.pcr).put ent.pcr h)) := rfl

theorem measureEntries_ok_iff (i : Nat) (ents : List PolicyEntry) (banks : PCRBanks) :
    (∃ banks', measureEntries env w u i ents banks = .ok banks') ↔
      ∀ k ent, ents[k]? = some ent → Passes env (w (i + k)) ent := by
  induction ents generalizing i banks with
  | nil => simp [measureEntries]
  | cons ent ents ih =>
    have hhead : (∀ k e, (ent :: ents)[k]? = some e → Passes env (w (i + k)) e) ↔
        Passes env (w i) ent ∧ ∀ k e, ents[k]? = some e → Passes env (w (i + 1 + k)) e := by
      constructor
      · intro h
        refine ⟨h 0 ent rfl, fun k e he => ?_⟩
        have hk := h (k + 1) e he
        rwa [show i + (k + 1) = i + 1 + k by omega] at hk
      · rintro ⟨h0, hrest⟩ k e he
        cases k with
        | zero => cases he; exact h0
        | succ k =>
          rw [show i + (k + 1) = i + 1 + k by omega]
          exact hrest k e he
    rw [hhead, ← measureEntry_ok_iff (u := u i) (p := banks.values ent.pcr), measureEntries_cons]
    cases measureEntry env (w i) (u i) ent (banks.values ent.pcr) with
    | err e => simp
    | stuck => simp
    | ok h => simp [ih]

theorem measureEntries_folded {i : Nat} {ents : List PolicyEntry} {banks banks' : PCRBanks}
    (hcap : ∀ k ent, ents[k]? = some ent → ent.type = .cap → (w (i + k)).hashes = true)
    (h : measureEntries env w u i ents banks = .ok banks') :
    Folded env banks banks' ents := by
  induction ents generalizing i banks with
  | nil => cases h; exact ⟨rfl, rfl⟩
  | cons ent ents ih =>
    rw [measureEntries_cons] at h
    obtain ⟨v, hv, hrest⟩ := Out.bind_eq_ok.mp h
    have hrest := ih (fun k e he ht => by
      rw [show i + 1 + k = i + (k + 1) by omega]
      exact hcap (k + 1) e he ht) hrest
    have hvalue := measureEntry_value (hcap 0 ent rfl) hv
    refine ⟨hrest.1, ?_⟩
    rw [hrest.2, PCRBanks.values_put, foldKeyed_cons, hvalue]
    rfl

theorem measureEntries_stuck {i : Nat} {ents : List PolicyEntry} {banks : PCRBanks}
    (h : ∀ ent ∈ ents, measurement env ent ≠ .stuck) :
    measureEntries env w u i ents banks ≠ .stuck := by
  induction ents generalizing i banks with
  | nil => rintro ⟨⟩
  | cons ent ents ih =>
    rw [measureEntries_cons]
    have hent := measureEntry_stuck (w := w i) (u := u i) (p := banks.values ent.pcr)
      (h ent (by simp))
    cases hm : measureEntry env (w i) (u i) ent (banks.values ent.pcr) with
    | err e => rintro ⟨⟩
    | stuck => exact absurd hm hent
    | ok v => exact ih fun e he => h e (by simp [he])

theorem testBit_mask (mask : Nat) (ents : List PolicyEntry) (k : Nat) :
    (ents.foldl stepMask mask).testBit k = true ↔
      mask.testBit k = true ∨ ∃ ent ∈ ents, ent.pcr.val = k := by
  induction ents generalizing mask with
  | nil => simp
  | cons ent ents ih =>
    rw [List.foldl_cons, ih, stepMask, Nat.testBit_or, Bool.or_eq_true, Nat.one_shiftLeft,
      Nat.testBit_two_pow]
    simp [or_assoc]

theorem foldl_extendBoth (pcr : Hashes) (hs : List Hashes) :
    hs.foldl (extendBoth env) pcr =
      ⟨(hs.map (·.sha1)).foldl (extend env.sha1) pcr.sha1,
        (hs.map (·.sha256)).foldl (extend env.sha256) pcr.sha256⟩ := by
  induction hs generalizing pcr with
  | nil => rfl
  | cons h hs ih => exact ih _

theorem foldl_stepValue (pcr : Hashes) (ents : List PolicyEntry) :
    ents.foldl (stepValue env) pcr = (ents.flatMap (contribution env)).foldl (extendBoth env) pcr := by
  rw [List.foldl_flatMap]
  rfl

end Loop

/-! ## The law -/

/-- The measurements of the entries that name PCR `k`, in order. -/
def measurements (policy : Policy) (k : Fin maxPcrs) : List Hashes :=
  (policy.entries.filter (·.pcr = k)).flatMap (contribution env)

/-- The banks hold the folds of the measurements, and the mask the PCRs named. -/
structure Predicts (policy : Policy) (banks : PCRBanks) : Prop where
  sha1 : ∀ k, banks.pcrs1 k =
    ((measurements env policy k).map (·.sha1)).foldl (extend env.sha1) (Digest.zero 20)
  sha256 : ∀ k, banks.pcrs256 k =
    ((measurements env policy k).map (·.sha256)).foldl (extend env.sha256) (Digest.zero 32)
  mask : ∀ k, banks.pcrMask.testBit k = true ↔ ∃ ent ∈ policy.entries, ent.pcr.val = k

/-- The entries of each PCR are the same and in the same order. -/
def SamePerPCR (policy policy' : Policy) : Prop :=
  ∀ k, policy.entries.filter (·.pcr = k) = policy'.entries.filter (·.pcr = k)

/-- The hashes of a cap fail, and nothing else does. -/
def Swallows (policy : Policy) : Prop :=
  (∃ i ent, policy.entries[i]? = some ent ∧ ent.type = .cap ∧ (works i).hashes = false) ∧
    ∀ i ent, policy.entries[i]? = some ent → Passes env (works i) ent

/-- What `MeasurePolicy` owes its caller: the banks it delivers are the ones predicted,
entries of different PCRs may change places, and if a measurement fails so does the call. -/
structure Right (policy : Policy) : Prop where
  predicts : ∀ banks, measurePolicy env works uninit policy = .ok banks →
    Predicts env policy banks
  reorders : ∀ banks, measurePolicy env works uninit policy = .ok banks →
    ∀ works' uninit' policy', SamePerPCR policy policy' → ¬ Swallows env works' policy' →
      ∀ banks', measurePolicy env works' uninit' policy' = .ok banks' → banks' = banks
  reports : (∃ i ent, policy.entries[i]? = some ent ∧ Fails env (works i) ent) →
    (∀ banks, measurePolicy env works uninit policy ≠ .ok banks) ∧
      ((∀ ent ∈ policy.entries, measurement env ent ≠ .stuck) →
        measurePolicy env works uninit policy = .err ())

section Law

variable {env works uninit} {policy : Policy} {banks : PCRBanks}

theorem passes_of_ok (h : measurePolicy env works uninit policy = .ok banks) {i : Nat}
    {ent : PolicyEntry} (hi : policy.entries[i]? = some ent) : Passes env (works i) ent := by
  have hall := (measureEntries_ok_iff 0 policy.entries PCRBanks.empty).mp ⟨banks, h⟩ i ent hi
  rwa [Nat.zero_add] at hall

theorem folded_of_ok (hs : ¬ Swallows env works policy)
    (h : measurePolicy env works uninit policy = .ok banks) :
    Folded env .empty banks policy.entries := by
  refine measureEntries_folded (fun k ent hk ht => ?_) h
  by_contra hw
  rw [Nat.zero_add] at hw
  exact hs ⟨⟨k, ent, hk, ht, by simpa using hw⟩, fun i e hi => passes_of_ok h hi⟩

theorem value_of_folded (h : Folded env .empty banks policy.entries) (k : Fin maxPcrs) :
    banks.values k = (measurements env policy k).foldl (extendBoth env)
      ⟨Digest.zero 20, Digest.zero 32⟩ := by
  rw [h.2, foldKeyed_apply, foldl_stepValue]
  rfl

theorem predicts_of_folded (h : Folded env .empty banks policy.entries) :
    Predicts env policy banks := by
  have hvalue := value_of_folded h
  simp only [foldl_extendBoth] at hvalue
  refine ⟨fun k => congrArg Hashes.sha1 (hvalue k), fun k => congrArg Hashes.sha256 (hvalue k),
    fun k => ?_⟩
  rw [h.1, testBit_mask]
  simp [PCRBanks.empty]

theorem banks_eq {policy' : Policy} {banks' : PCRBanks} (hp : SamePerPCR policy policy')
    (h : Folded env .empty banks policy.entries) (h' : Folded env .empty banks' policy'.entries) :
    banks' = banks := by
  refine PCRBanks.ext_values ?_ ?_
  · refine Nat.eq_of_testBit_eq fun k => ?_
    have hmem : (∃ ent ∈ policy'.entries, ent.pcr.val = k) ↔
        ∃ ent ∈ policy.entries, ent.pcr.val = k := by
      constructor
      · rintro ⟨ent, he, rfl⟩
        have hf : ent ∈ policy'.entries.filter (·.pcr = ent.pcr) := by simp [he]
        rw [← hp] at hf
        exact ⟨ent, (List.mem_filter.mp hf).1, rfl⟩
      · rintro ⟨ent, he, rfl⟩
        have hf : ent ∈ policy.entries.filter (·.pcr = ent.pcr) := by simp [he]
        rw [hp] at hf
        exact ⟨ent, (List.mem_filter.mp hf).1, rfl⟩
    rw [Bool.eq_iff_iff, (predicts_of_folded h).mask, (predicts_of_folded h').mask, hmem]
  · funext k
    rw [value_of_folded h, value_of_folded h', measurements, measurements, hp]

end Law

/-- No files and no variables, and hashes that are all zero. -/
def bareEnv : Env where
  sha1 := fun _ => Digest.zero 20
  sha256 := fun _ => Digest.zero 32
  vars := []
  loadFile := fun _ => none
  loadEFIVar := fun _ _ => none
  mem := fun _ => true
  pathMax := 256

theorem noPath_noNul : (0 : UInt8) ∉ ([] : Bytes) := by decide

theorem noPath_lt : ([] : Bytes).length < 1024 := by decide

def capEntry : PolicyEntry := ⟨⟨[], noPath_noNul⟩, .cap, 11, noPath_lt⟩

theorem capEntry_le : [capEntry].length ≤ 16 := by decide

/-- One entry, which caps PCR 11. -/
def capPolicy : Policy := ⟨[capEntry], capEntry_le⟩

end LsvmTools.MeasurePolicy
