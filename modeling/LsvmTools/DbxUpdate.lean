import LsvmTools.CacheBlkdev
import LsvmTools.DiskBio
import LsvmTools.MeasurePolicy

/-! # Applying a dbx update

`ApplyDBXUpdate` with the sealing of `lsvmloadpolicy.c`, and the step of `efi_main` that calls
it. What each step meets is given; what the steps have done is kept in a log. -/
namespace LsvmTools.DbxUpdate
open Lib.ByteString Lib.Program Strings Measurement MeasurePolicy CacheBlkdev
open DiskBio (EfiStatus unsupported)

/-! ## The policies -/

theorem path_lt (s : String) : (cstr ((text s).take 1023)).length < 1024 :=
  Nat.lt_of_le_of_lt (List.takeWhile_prefix _).length_le
    (Nat.lt_succ_of_le (List.length_take_le 1023 (text s)))

def policyEntry (path : String) (type : PolicyEntryType) (pcr : Fin maxPcrs) : PolicyEntry :=
  ⟨⟨cstr ((text path).take 1023), noNul_cstr _⟩, type, pcr, path_lt path⟩

def policyEntries : List PolicyEntry :=
  [policyEntry "8BE4DF6193CA11D2AA0D00E098032B8C-SecureBoot.False" .efivar 7,
    policyEntry "8BE4DF6193CA11D2AA0D00E098032B8C-PK" .efivar 7,
    policyEntry "8BE4DF6193CA11D2AA0D00E098032B8C-KEK" .efivar 7,
    policyEntry "D719B2CB3D3A4596A3BCDAD00E67656F-db" .efivar 7,
    policyEntry "D719B2CB3D3A4596A3BCDAD00E67656F-dbx" .efivar 7,
    policyEntry "SEPARATOR" .binary 7,
    policyEntry "ALLOW_PREBOOT_SEALING" .binary 11,
    policyEntry "LINUX_SCENARIO_ID" .binary 11,
    policyEntry "LINUX_SCENARIO_VERSION" .binary 11]

def secureBootPolicyEntries : List PolicyEntry :=
  [policyEntry "8BE4DF6193CA11D2AA0D00E098032B8C-SecureBoot.True" .efivar 7,
    policyEntry "8BE4DF6193CA11D2AA0D00E098032B8C-PK" .efivar 7,
    policyEntry "8BE4DF6193CA11D2AA0D00E098032B8C-KEK" .efivar 7,
    policyEntry "D719B2CB3D3A4596A3BCDAD00E67656F-db" .efivar 7,
    policyEntry "D719B2CB3D3A4596A3BCDAD00E67656F-dbx" .efivar 7,
    policyEntry "SEPARATOR" .binary 7,
    policyEntry "D719B2CB3D3A4596A3BCDAD00E67656F-db.Entry" .efivar 7,
    policyEntry "ALLOW_PREBOOT_SEALING" .binary 11,
    policyEntry "LINUX_SCENARIO_ID" .binary 11,
    policyEntry "LINUX_SCENARIO_VERSION" .binary 11]

theorem policyEntries_le : policyEntries.length ≤ 16 := by decide

theorem secureBootPolicyEntries_le : secureBootPolicyEntries.length ≤ 16 := by decide

/-- `_policy`. -/
def policy : Policy := ⟨policyEntries, policyEntries_le⟩

/-- `_secureBootPolicy`. -/
def secureBootPolicy : Policy := ⟨secureBootPolicyEntries, secureBootPolicyEntries_le⟩

def namedVar (name : String) (data : Bytes) : Var := ⟨⟨cstr (text name), noNul_cstr _⟩, data⟩

/-- What `_vars` holds at first. -/
def initialVars : List Var :=
  [namedVar "8BE4DF6193CA11D2AA0D00E098032B8C-SecureBoot.False" [0x00],
    namedVar "8BE4DF6193CA11D2AA0D00E098032B8C-SecureBoot.True" [0x01],
    namedVar "SEPARATOR" [0x00, 0x00, 0x00, 0x00],
    namedVar "ALLOW_PREBOOT_SEALING" [0x10, 0x00, 0x00, 0x00],
    namedVar "LINUX_SCENARIO_ID" [0x02, 0x00, 0xF0, 0x00],
    namedVar "LINUX_SCENARIO_VERSION" [0x01, 0x00, 0x00, 0x00]]

/-- `VARS_MAX`. -/
def varsMax : Nat := 32

/-! ## The steps -/

/-- `EFI_SUCCESS`. -/
def success : EfiStatus := 0

/-- What each step meets. -/
structure Env where
  /-- The content of `/lsvmload/dbxupdate.bin`, if it can be loaded. -/
  loadFileFromBootFS : Option Bytes
  setVariable : (data : Bytes) → EfiStatus
  loadEFIVar : (guid name : Bytes) → Option Bytes
  /-- The image at `globals.lsvmloadPath`. -/
  efiLoadFile : Option Bytes
  checkImageDB : (db image : Bytes) → Option Bytes
  sealPolicy : List Var → Policy → (dataIn : Bytes) → Option Bytes
  efiPutFile : (data : Bytes) → EfiStatus
  removeFileFromBootFS : EfiStatus
  resetSystem : EfiStatus
  /-- `globals.unsealedKeys`. -/
  unsealedKeys : Option Bytes

inductive Event where
  | dbxSet (data : Bytes)
  | resealed (sealedkeys : Bytes)
  | keysWritten (sealedkeys : Bytes)
  | removed (cached : Bool)
  | reset
deriving DecidableEq

structure World (σ : Type) where
  cachedev : BlkdevImpl σ
  /-- `_vars`. -/
  vars : List Var
  log : List Event

/-- The parameters of `ApplyDBXUpdate`: which of them are not null. -/
structure Args where
  imageHandle : Bool
  tcg2Protocol : Bool
  bootfs : Bool
  reboot : Bool

variable (env : Env)

/-- `_TestSecureBootVariable`. -/
def testSecureBootVariable : Option Bool := do
  let data ← env.loadEFIVar (text "8BE4DF6193CA11D2AA0D00E098032B8C") (text "SecureBoot")
  if data.length ≠ 1 then none else some (byteAt data 0 ≠ 0)

/-- `_InitLSVMLoadPolicy`. -/
def initLSVMLoadPolicy (vars : List Var) (lsvmload : Bytes) : Option (List Var) :=
  if lsvmload.length = 0 then none
  else do
    let db ← env.loadEFIVar (text "D719B2CB3D3A4596A3BCDAD00E67656F") (text "db")
    let result ← env.checkImageDB db lsvmload
    if vars.length = varsMax then none
    else some (vars ++ [namedVar "D719B2CB3D3A4596A3BCDAD00E67656F-db.Entry" result])

/-- `_ReleaseLSVMLoadPolicy`. -/
def releaseLSVMLoadPolicy (vars : List Var) : List Var :=
  match vars.getLast? with
  | none => vars
  | some var =>
    if var.name.bytes ≠ text "D719B2CB3D3A4596A3BCDAD00E67656F-db.Entry" then vars
    else vars.dropLast

/-- `SealLSVMLoadPolicy`, with what it leaves in `_vars`. `sizeIn` has 16 bits. -/
def sealLSVMLoadPolicy (vars : List Var) (lsvmload : Bytes) (sealForSecureBoot : Bool)
    (dataIn : Option Bytes) : Option Bytes × List Var :=
  match dataIn with
  | none => (none, vars)
  | some dataIn =>
    let sizeIn := dataIn.length % 2 ^ 16
    if lsvmload.length = 0 ∨ sizeIn = 0 then (none, vars)
    else if sealForSecureBoot then
      match initLSVMLoadPolicy env vars lsvmload with
      | none => (none, vars)
      | some vars =>
        (env.sealPolicy vars secureBootPolicy (dataIn.take sizeIn), releaseLSVMLoadPolicy vars)
    else (env.sealPolicy vars policy (dataIn.take sizeIn), vars)

variable {σ : Type}

/-- The local variables of `ApplyDBXUpdate` that its caller gets to see. `reboot` is what was
stored through its pointer. -/
structure Frame (σ : Type) where
  status : EfiStatus
  reboot : Option Bool
  world : World σ

def emit (e : Event) : Prog (Frame σ) Unit Unit :=
  .modify fun f => { f with world := { f.world with log := f.world.log ++ [e] } }

/-- `globals.cachedev->SetFlags`, whose result is not looked at. -/
def setCachedevFlags (flags : UInt32) (w : World σ) : World σ :=
  match (setFlags flags).run w.cachedev with
  | .ok _ cachedev => { w with cachedev }
  | .err _ cachedev => { w with cachedev }
  | .stuck => w

/-- Load the file; where there is none the function succeeds. -/
def loadUpdate : Prog (Frame σ) Unit Bytes :=
  match env.loadFileFromBootFS with
  | some data => pure data
  | none => do
    .modify fun f => { f with status := success, reboot := some false }
    .throw ()

/-- Set the variable. -/
def setDbx (data : Bytes) : Prog (Frame σ) Unit Unit := do
  .modify fun f => { f with status := env.setVariable data }
  if env.setVariable data ≠ success then .throw () else emit (.dbxSet data)

/-- Rewrite the `sealedkeys` file. -/
def putSealedKeys (sealedkeys : Bytes) : Prog (Frame σ) Unit Unit := do
  emit (.resealed sealedkeys)
  if env.efiPutFile sealedkeys ≠ success then .throw () else emit (.keysWritten sealedkeys)

/-- Reseal the keys. Every error leaves `status` as it is. -/
def resealKeys : Prog (Frame σ) Unit Unit :=
  match testSecureBootVariable env with
  | none => .throw ()
  | some secureBoot =>
    match env.efiLoadFile with
    | none => .throw ()
    | some lsvmload => do
      let f ← .get
      let (sealedkeys, vars) :=
        sealLSVMLoadPolicy env f.world.vars lsvmload secureBoot env.unsealedKeys
      .modify fun f => { f with world := { f.world with vars } }
      match sealedkeys with
      | none => .throw ()
      | some sealedkeys => putSealedKeys env sealedkeys

/-- Remove `dbxupdate.bin` with caching disabled. -/
def removeUpdate : Prog (Frame σ) Unit Unit := do
  .modify fun f => { f with world := setCachedevFlags 0 f.world }
  if env.removeFileFromBootFS ≠ success then do
    .modify fun f => { f with world := setCachedevFlags 1 f.world }
    .throw ()
  else do
    let f ← .get
    emit (.removed (caching f.world.cachedev))
    .modify fun f => { f with world := setCachedevFlags 1 f.world }

variable (args : Args)

/-- `ApplyDBXUpdate` up to `done`. -/
def applyBody : Prog (Frame σ) Unit Unit := do
  .modify fun f => { f with reboot := if args.reboot then some true else none }
  if !args.imageHandle || !args.tcg2Protocol || !args.bootfs || !args.reboot then .throw ()
  else do
    let data ← loadUpdate env
    setDbx env data
    resealKeys env
    removeUpdate env

/-- `ApplyDBXUpdate`: what it returns and what it stores in `*reboot`. -/
def applyDBXUpdate : Prog (World σ) Unit (EfiStatus × Option Bool) where
  exec w := match (applyBody env args).run ⟨unsupported, none, w⟩ with
    | .ok _ f => .ok (f.status, f.reboot) f.world
    | .err _ f => .ok (f.status, f.reboot) f.world
    | .stuck => .stuck

/-- Where `efi_main` goes from the update. -/
inductive Next where
  | failed
  | quit
  | initrd
deriving DecidableEq

/-- The update step of `efi_main`. -/
def updateStep : Prog (World σ) Unit Next := do
  let (status, reboot) ← applyDBXUpdate env args
  if status ≠ success then pure .failed
  else if reboot = some true then do
    .modify fun w => { w with log := w.log ++ [.reset] }
    if env.resetSystem ≠ success then pure .quit else pure .initrd
  else pure .initrd

/-! ## What the update owes -/

/-- All of the update was done: dbx was set, the keys were sealed again and written, and the
update file was removed from the disk itself. -/
def Updated (w w' : World σ) : Prop :=
  ∃ data sealedkeys, env.loadFileFromBootFS = some data ∧
    w'.log = w.log ++
      [.dbxSet data, .resealed sealedkeys, .keysWritten sealedkeys, .removed false]

structure Complete (w : World σ) : Prop where
  /-- Success is reported for a whole update, or where there is none to apply. -/
  status : ∀ status reboot w', (applyDBXUpdate env args).run w = .ok (status, reboot) w' →
    status = success → (reboot = some true ∧ Updated env w w') ∨
      (reboot = some false ∧ env.loadFileFromBootFS = none)
  /-- The machine is reset after a whole update only. -/
  reset : ∀ next w', (updateStep env args).run w = .ok next w' →
    .reset ∈ w'.log.drop w.log.length →
    ∃ w₁, Updated env w w₁ ∧ w'.log = w₁.log ++ [.reset]
  /-- Caching is enabled again. -/
  caching : ∀ status reboot w', (applyDBXUpdate env args).run w = .ok (status, reboot) w' →
    caching w.cachedev = true → CacheBlkdev.caching w'.cachedev = true

/-- One of the parameters is null. -/
def Nulls (args : Args) : Prop :=
  (!args.imageHandle || !args.tcg2Protocol || !args.bootfs || !args.reboot) = true

/-- Every step after the setting of dbx succeeds. -/
def Goes (w : World σ) : Prop :=
  ∃ secureBoot lsvmload sealedkeys, testSecureBootVariable env = some secureBoot ∧
    env.efiLoadFile = some lsvmload ∧
    (sealLSVMLoadPolicy env w.vars lsvmload secureBoot env.unsealedKeys).1 = some sealedkeys ∧
    env.efiPutFile sealedkeys = success ∧ env.removeFileFromBootFS = success

/-! ## Runs -/

section Runs

variable {env args}
variable {w w' : World σ} {f : Frame σ} {data sealedkeys : Bytes}

theorem release_append (vars : List Var) (data : Bytes) : releaseLSVMLoadPolicy (vars ++
    [namedVar "D719B2CB3D3A4596A3BCDAD00E67656F-db.Entry" data]) = vars := by
  have hcstr : cstr (text "D719B2CB3D3A4596A3BCDAD00E67656F-db.Entry") =
      text "D719B2CB3D3A4596A3BCDAD00E67656F-db.Entry" := by decide
  have hname : (namedVar "D719B2CB3D3A4596A3BCDAD00E67656F-db.Entry" data).name.bytes =
      text "D719B2CB3D3A4596A3BCDAD00E67656F-db.Entry" := hcstr
  unfold releaseLSVMLoadPolicy
  rw [List.getLast?_concat]
  simp [hname]

/-- `_vars` is the same after sealing as before. -/
theorem sealLSVMLoadPolicy_vars (vars : List Var) (lsvmload : Bytes) (secureBoot : Bool)
    (dataIn : Option Bytes) :
    (sealLSVMLoadPolicy env vars lsvmload secureBoot dataIn).2 = vars := by
  unfold sealLSVMLoadPolicy
  cases dataIn with
  | none => rfl
  | some dataIn =>
    dsimp only
    split
    · rfl
    split
    · cases h : initLSVMLoadPolicy env vars lsvmload with
      | none => rfl
      | some vars' =>
        unfold initLSVMLoadPolicy at h
        split at h
        · cases h
        · simp only [Option.bind_eq_bind, Option.bind_eq_some_iff] at h
          obtain ⟨db, -, result, -, h⟩ := h
          split at h
          · cases h
          · cases h
            exact release_append vars result
    · rfl

theorem setCachedevFlags_eq {flags : UInt32} (h : flags &&& ~~~1 = 0) (w : World σ) :
    setCachedevFlags flags w = { w with cachedev := { w.cachedev with flags } } := by
  unfold setCachedevFlags setFlags
  rw [if_neg (not_not.mpr h)]
  rfl

theorem disable_eq (w : World σ) :
    setCachedevFlags 0 w = { w with cachedev := { w.cachedev with flags := 0 } } :=
  setCachedevFlags_eq (by decide) w

theorem enable_eq (w : World σ) :
    setCachedevFlags 1 w = { w with cachedev := { w.cachedev with flags := 1 } } :=
  setCachedevFlags_eq (by decide) w

theorem caching_zero (impl : BlkdevImpl σ) : caching { impl with flags := 0 } = false := by
  have h : ((0 : UInt32) &&& 1 != 0) = false := by decide
  exact h

theorem caching_one (impl : BlkdevImpl σ) : caching { impl with flags := 1 } = true := by
  have h : ((1 : UInt32) &&& 1 != 0) = true := by decide
  exact h

/-- Resealing either comes to its end or stops with the status as it is. -/
theorem resealKeys_cases (f : Frame σ) :
    (∃ secureBoot lsvmload sealedkeys, testSecureBootVariable env = some secureBoot ∧
      env.efiLoadFile = some lsvmload ∧
      (sealLSVMLoadPolicy env f.world.vars lsvmload secureBoot env.unsealedKeys).1 =
        some sealedkeys ∧ env.efiPutFile sealedkeys = success ∧
      (resealKeys env).run f = .ok () { f with world := { f.world with
        log := f.world.log ++ [.resealed sealedkeys, .keysWritten sealedkeys] } }) ∨
    (¬ Goes env f.world ∧ ∃ events, events.length ≤ 1 ∧ .reset ∉ events ∧
      (resealKeys env).run f =
        .err () { f with world := { f.world with log := f.world.log ++ events } }) := by
  unfold resealKeys
  cases htest : testSecureBootVariable env with
  | none =>
    refine .inr ⟨?_, [], Nat.zero_le _, by simp, by simp⟩
    rintro ⟨_, _, _, h, -⟩
    rw [htest] at h
    cases h
  | some secureBoot =>
    cases hload : env.efiLoadFile with
    | none =>
      refine .inr ⟨?_, [], Nat.zero_le _, by simp, by simp⟩
      rintro ⟨_, _, _, -, h, -⟩
      rw [hload] at h
      cases h
    | some lsvmload =>
      have hvars := @sealLSVMLoadPolicy_vars env f.world.vars lsvmload secureBoot
        env.unsealedKeys
      cases hseal : sealLSVMLoadPolicy env f.world.vars lsvmload secureBoot env.unsealedKeys with
      | mk sealedkeys vars =>
      rw [hseal] at hvars
      have hvars : vars = f.world.vars := hvars
      subst hvars
      cases sealedkeys with
      | none =>
        refine .inr ⟨?_, [], Nat.zero_le _, by simp, by simp [hseal]⟩
        rintro ⟨_, _, _, h, h', h'', -⟩
        rw [htest] at h
        rw [hload] at h'
        cases h
        cases h'
        rw [hseal] at h''
        cases h''
      | some sealedkeys =>
        by_cases hput : env.efiPutFile sealedkeys = success
        · refine .inl ⟨secureBoot, lsvmload, sealedkeys, rfl, rfl, by rw [hseal], hput, ?_⟩
          simp [hseal, putSealedKeys, hput, emit]
        · refine .inr ⟨?_, [.resealed sealedkeys], Nat.le_refl _, by simp, ?_⟩
          · rintro ⟨_, _, _, h, h', h'', h3, -⟩
            rw [htest] at h
            rw [hload] at h'
            cases h
            cases h'
            rw [hseal] at h''
            cases h''
            exact hput h3
          · simp [hseal, putSealedKeys, hput, emit]

theorem removeUpdate_ok (h : env.removeFileFromBootFS = success) (f : Frame σ) :
    (removeUpdate env).run f = .ok () { f with world := { f.world with
      cachedev := { f.world.cachedev with flags := 1 }
      log := f.world.log ++ [.removed false] } } := by
  unfold removeUpdate
  simp only [Prog.modify_bind, disable_eq, h, ne_eq, not_true_eq_false, if_false, Prog.get_bind,
    caching_zero, emit, Prog.run_modify, enable_eq]

theorem removeUpdate_err (h : env.removeFileFromBootFS ≠ success) (f : Frame σ) :
    (removeUpdate env).run f = .err () { f with world := { f.world with
      cachedev := { f.world.cachedev with flags := 1 } } } := by
  unfold removeUpdate
  simp only [Prog.modify_bind, disable_eq, h, ne_eq, not_false_eq_true, if_true, enable_eq,
    Prog.run_throw]

/-- How the rest ends once dbx has been set: with all of it done, or before the update file
has been removed. The status stays what it is. -/
theorem rest_cases (f : Frame σ) :
    (Goes env f.world ∧ ∃ sealedkeys w',
      (resealKeys env >>= fun _ => removeUpdate env).run f = .ok () { f with world := w' } ∧
      w'.log = f.world.log ++ [.resealed sealedkeys, .keysWritten sealedkeys, .removed false] ∧
      caching w'.cachedev = true) ∨
    (¬ Goes env f.world ∧ ∃ events w',
      (resealKeys env >>= fun _ => removeUpdate env).run f = .err () { f with world := w' } ∧
      w'.log = f.world.log ++ events ∧ events.length ≤ 2 ∧ .reset ∉ events ∧
      (caching f.world.cachedev = true → caching w'.cachedev = true)) := by
  rcases @resealKeys_cases env _ f with
    ⟨secureBoot, lsvmload, sealedkeys, htest, hload, hseal, hput, hrun⟩ | ⟨hg, events, hle, hreset, hrun⟩
  · by_cases hrm : env.removeFileFromBootFS = success
    · refine .inl ⟨⟨secureBoot, lsvmload, sealedkeys, htest, hload, hseal, hput, hrm⟩,
        sealedkeys, ⟨{ f.world.cachedev with flags := 1 }, f.world.vars,
          f.world.log ++ [.resealed sealedkeys, .keysWritten sealedkeys] ++ [.removed false]⟩,
        ?_, ?_, caching_one f.world.cachedev⟩
      · rw [Prog.bind_ok hrun, removeUpdate_ok hrm]
      · rw [List.append_assoc]
        rfl
    · refine .inr ⟨?_, [.resealed sealedkeys, .keysWritten sealedkeys],
        ⟨{ f.world.cachedev with flags := 1 }, f.world.vars,
          f.world.log ++ [.resealed sealedkeys, .keysWritten sealedkeys]⟩,
        ?_, rfl, Nat.le_refl _, by simp, fun _ => caching_one f.world.cachedev⟩
      · rintro ⟨_, _, _, -, -, -, -, h⟩
        exact hrm h
      · rw [Prog.bind_ok hrun, removeUpdate_err hrm]
  · refine .inr ⟨hg, events, { f.world with log := f.world.log ++ events },
      by rw [Prog.bind_err hrun], rfl, by omega, hreset, fun h => h⟩

theorem applyBody_nulls (h : Nulls args) (w : World σ) :
    (applyBody env args).run ⟨unsupported, none, w⟩ =
      .err () ⟨unsupported, if args.reboot then some true else none, w⟩ := by
  unfold Nulls at h
  rw [applyBody, Prog.modify_bind, if_pos h]
  rfl

theorem applyBody_eq (h : ¬ Nulls args) (w : World σ) :
    (applyBody env args).run ⟨unsupported, none, w⟩ =
      (loadUpdate env >>= fun data => setDbx env data >>= fun _ => resealKeys env >>= fun _ =>
        removeUpdate env).run ⟨unsupported, some true, w⟩ := by
  unfold Nulls at h
  have hreboot : args.reboot = true := by
    cases hr : args.reboot with
    | true => rfl
    | false => simp [hr] at h
  rw [applyBody, Prog.modify_bind, if_neg h, if_pos hreboot]

theorem loadUpdate_none (h : env.loadFileFromBootFS = none) (f : Frame σ) :
    (loadUpdate env).run f = .err () { f with status := success, reboot := some false } := by
  unfold loadUpdate
  rw [h]
  rfl

theorem loadUpdate_some (h : env.loadFileFromBootFS = some data) (f : Frame σ) :
    (loadUpdate env).run f = .ok data f := by
  unfold loadUpdate
  rw [h]
  rfl

theorem setDbx_err (h : env.setVariable data ≠ success) (f : Frame σ) :
    (setDbx env data).run f = .err () { f with status := env.setVariable data } := by
  rw [setDbx, Prog.modify_bind, if_pos h]
  rfl

theorem setDbx_ok (h : env.setVariable data = success) (f : Frame σ) :
    (setDbx env data).run f = .ok () { f with
      status := success
      world := { f.world with log := f.world.log ++ [.dbxSet data] } } := by
  rw [setDbx, Prog.modify_bind, if_neg (not_not.mpr h), h]
  rfl

theorem applyDBXUpdate_run {f : Frame σ} (h : (applyBody env args).run ⟨unsupported, none, w⟩ =
    .ok () f ∨ (applyBody env args).run ⟨unsupported, none, w⟩ = .err () f) :
    (applyDBXUpdate env args).run w = .ok (f.status, f.reboot) f.world := by
  rcases h with h | h <;> simp only [applyDBXUpdate, Prog.run] at h ⊢ <;> rw [h]

/-- The ways in which `ApplyDBXUpdate` returns. -/
inductive Returned (env : Env) (args : Args) (w : World σ) : EfiStatus → Option Bool → World σ → Prop
  | nulls (h : Nulls args) (reboot : Option Bool) : Returned env args w unsupported reboot w
  | nothing (h : env.loadFileFromBootFS = none) : Returned env args w success (some false) w
  | refused {data : Bytes} (h : env.loadFileFromBootFS = some data)
      (hset : env.setVariable data ≠ success) :
      Returned env args w (env.setVariable data) (some true) w
  | updated {w' : World σ} (h : Goes env w) (hup : Updated env w w')
      (hcaching : caching w'.cachedev = true) : Returned env args w success (some true) w'
  | partway {data : Bytes} {w' : World σ} {events : List Event} (hn : ¬ Nulls args)
      (h : env.loadFileFromBootFS = some data) (hset : env.setVariable data = success)
      (hg : ¬ Goes env w) (hlog : w'.log = w.log ++ events) (hlen : events.length ≤ 3)
      (hreset : .reset ∉ events)
      (hcaching : caching w.cachedev = true → caching w'.cachedev = true) :
      Returned env args w success (some true) w'

theorem applyDBXUpdate_returned (env : Env) (args : Args) (w : World σ) :
    ∃ status reboot w', (applyDBXUpdate env args).run w = .ok (status, reboot) w' ∧
      Returned env args w status reboot w' := by
  by_cases hn : Nulls args
  · exact ⟨_, _, _, applyDBXUpdate_run (.inr (applyBody_nulls hn w)), .nulls hn _⟩
  have hbody := @applyBody_eq env _ _ hn w
  cases hload : env.loadFileFromBootFS with
  | none =>
    rw [Prog.bind_err (loadUpdate_none hload _)] at hbody
    exact ⟨_, _, _, applyDBXUpdate_run (.inr hbody), .nothing hload⟩
  | some data =>
    rw [Prog.bind_ok (loadUpdate_some hload _)] at hbody
    by_cases hset : env.setVariable data = success
    · rw [Prog.bind_ok (setDbx_ok hset _)] at hbody
      rcases @rest_cases env _
        ⟨success, some true, { w with log := w.log ++ [.dbxSet data] }⟩ with
        ⟨hg, sealedkeys, w', hrun, hlog, hcaching⟩ |
        ⟨hg, events, w', hrun, hlog, hlen, hreset, hcaching⟩
      · rw [hrun] at hbody
        refine ⟨_, _, _, applyDBXUpdate_run (.inl hbody), .updated hg ?_ hcaching⟩
        refine ⟨data, sealedkeys, hload, ?_⟩
        rw [hlog, List.append_assoc]
        rfl
      · rw [hrun] at hbody
        refine ⟨_, _, _, applyDBXUpdate_run (.inr hbody), .partway hn hload hset hg (hlog.trans
          (List.append_assoc _ _ _)) ?_ ?_ hcaching⟩
        · rw [List.length_append, Nat.add_comm]
          exact Nat.succ_le_succ hlen
        · simpa using hreset
    · rw [Prog.bind_err (setDbx_err hset _)] at hbody
      exact ⟨_, _, _, applyDBXUpdate_run (.inr hbody), .refused hload hset⟩

theorem updateStep_run {status : EfiStatus} {reboot : Option Bool}
    (h : (applyDBXUpdate env args).run w = .ok (status, reboot) w') :
    (∃ next, (updateStep env args).run w = .ok next w' ∧ (status ≠ success ∨ reboot ≠ some true)) ∨
    ∃ next, status = success ∧ reboot = some true ∧
      (updateStep env args).run w = .ok next { w' with log := w'.log ++ [.reset] } := by
  unfold updateStep
  rw [Prog.bind_ok h]
  dsimp only
  by_cases hs : status = success
  · by_cases hr : reboot = some true
    · refine .inr ⟨if env.resetSystem ≠ success then .quit else .initrd, hs, hr, ?_⟩
      rw [if_neg (not_not.mpr hs), if_pos hr, Prog.modify_bind]
      split <;> rfl
    · refine .inl ⟨.initrd, ?_, .inr hr⟩
      rw [if_neg (not_not.mpr hs), if_neg hr]
      rfl
  · refine .inl ⟨.failed, ?_, .inl hs⟩
    rw [if_pos hs]
    rfl

/-- What `ApplyDBXUpdate` itself logs is no reset. -/
theorem Returned.no_reset {status : EfiStatus} {reboot : Option Bool}
    (h : Returned env args w status reboot w') : .reset ∉ w'.log.drop w.log.length := by
  cases h with
  | nulls h reboot => simp
  | nothing h => simp
  | refused h hset => simp
  | updated hg hup hcaching =>
    obtain ⟨data, sealedkeys, -, hlog⟩ := hup
    rw [hlog, List.drop_left]
    simp
  | partway hn h hset hg hlog hlen hreset hcaching =>
    rw [hlog, List.drop_left]
    exact hreset

theorem Returned.caching {status : EfiStatus} {reboot : Option Bool}
    (h : Returned env args w status reboot w') (hw : caching w.cachedev = true) :
    CacheBlkdev.caching w'.cachedev = true := by
  cases h with
  | nulls h reboot => exact hw
  | nothing h => exact hw
  | refused h hset => exact hw
  | updated hg hup hcaching => exact hcaching
  | partway hn h hset hg hlog hlen hreset hcaching => exact hcaching hw

end Runs

/-- Where the update does what it owes. -/
def Sure (env : Env) (args : Args) (w : World σ) : Prop :=
  Nulls args ∨ env.loadFileFromBootFS = none ∨
    (∃ data, env.loadFileFromBootFS = some data ∧ env.setVariable data ≠ success) ∨ Goes env w

theorem unsupported_ne : unsupported ≠ success := by decide

/-- The update is complete or reported exactly where nothing fails after dbx has been set. -/
theorem complete_iff (w : World σ) : Complete env args w ↔ Sure env args w := by
  obtain ⟨status, reboot, w', hrun, hret⟩ := applyDBXUpdate_returned env args w
  constructor
  · intro hc
    cases hret with
    | nulls h reboot => exact .inl h
    | nothing h => exact .inr (.inl h)
    | refused h hset => exact .inr (.inr (.inl ⟨_, h, hset⟩))
    | updated hg hup hcaching => exact .inr (.inr (.inr hg))
    | partway hn h hset hg hlog hlen hreset hcaching =>
      rcases hc.status _ _ _ hrun rfl with ⟨-, data, sealedkeys, -, hup⟩ | ⟨hfalse, -⟩
      · rw [hlog] at hup
        have hevents := List.append_cancel_left hup
        rw [hevents] at hlen
        exact absurd hlen (Nat.not_succ_le_self 3)
      · cases hfalse
  · intro hsure
    have hstatus : status = success → (reboot = some true ∧ Updated env w w') ∨
        (reboot = some false ∧ env.loadFileFromBootFS = none) := by
      intro hs
      cases hret with
      | nulls h reboot => exact absurd hs unsupported_ne
      | nothing h => exact .inr ⟨rfl, h⟩
      | refused h hset => exact absurd hs hset
      | updated hg hup hcaching => exact .inl ⟨rfl, hup⟩
      | @partway data w' events hn h hset hg hlog hlen hreset hcaching =>
        rcases hsure with hs | hs | ⟨data', hd, hs⟩ | hs
        · exact absurd hs hn
        · rw [h] at hs
          cases hs
        · rw [h] at hd
          cases hd
          exact absurd hset hs
        · exact absurd hs hg
    refine ⟨fun st rb u hok hs => ?_, fun next u hok hmem => ?_, fun st rb u hok hw => ?_⟩
    · rw [hrun] at hok
      cases hok
      exact hstatus hs
    · rcases updateStep_run hrun with ⟨next', hstep, -⟩ | ⟨next', hs, hr, hstep⟩
      · rw [hstep] at hok
        cases hok
        exact absurd hmem hret.no_reset
      · rw [hstep] at hok
        cases hok
        rcases hstatus hs with ⟨-, hup⟩ | ⟨hfalse, -⟩
        · exact ⟨w', hup, rfl⟩
        · rw [hr] at hfalse
          cases hfalse
    · rw [hrun] at hok
      cases hok
      exact hret.caching hw

/-- The dbx can be set, and SecureBoot cannot be read. -/
def unreadEnv : Env where
  loadFileFromBootFS := some [1]
  setVariable _ := 0
  loadEFIVar _ _ := none
  efiLoadFile := none
  checkImageDB _ _ := none
  sealPolicy _ _ _ := none
  efiPutFile _ := 0
  removeFileFromBootFS := 0
  resetSystem := 0
  unsealedKeys := some [1]

/-- dbx has been set and no keys were sealed for it, and success is returned. -/
theorem reseal_skipped : ¬ Complete unreadEnv ⟨true, true, true, true⟩
    (⟨newCacheBlkdev () fun _ => true, initialVars, []⟩ : World Unit) := by
  intro h
  rcases h.status 0 (some true) _ rfl rfl with ⟨-, data, sealedkeys, -, hlog⟩ | ⟨hfalse, -⟩
  · cases hlog
  · cases hfalse

end LsvmTools.DbxUpdate
