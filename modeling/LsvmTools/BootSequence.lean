import LsvmTools.EfiVfat
import LsvmTools.Lib.Calls

/-! # The boot sequence

`efi_main` measures and unseals, caps PCR 11, opens the boot file system, patches the initrd and
starts the shim. What it calls may fail at any place, and most failures are only logged. -/
namespace LsvmTools.BootSequence
open Lib.ByteString Lib.Calls Lib.Calls.Dialog Strings EfiVfat

/-! ## What is called -/

inductive Device where
  | boot
  | root
deriving DecidableEq

/-- The calls that leave the sequence. -/
inductive Op where
  | resolvePaths
  | loadConf
  | getProtocol
  | checkTPM
  | initializeTPM (haveTPM : Bool)
  | measureLinuxScenario
  | loadSealedData
  | unsealKey
  | splitKeys (data : Bytes)
  | readPCR (pcr : Nat)
  | cap (pcr : Nat)
  | openLuksBio (d : Device)
  | closeBio (d : Device)
  | blkdevFromBio (d : Device)
  | closeBlkdev (d : Device)
  | newCacheBlkdev
  | closeCacheBlkdev
  | luksBlkdev (d : Device) (key : Bytes)
  | closeLuks
  | ext2New
  | getInput
  | malloc (size : Nat)
  | specialize
  | enableCaching
  | applyDBXUpdate
  | resetSystem
  | loadFile (path : Bytes)
  | findInitrd (grubcfg : Bytes)
  | injectFiles (initrd : Bytes) (bootkey rootkey : Option Bytes)
  | rm (path : Bytes)
  | put (path data : Bytes)
  | checkCert (data : Bytes)
  | wrapEspFileIo
  | installRootBio
  | wrapBootBio (key : Option Bytes)
  | mapEfiVfat
  | exec (data : Bytes)
deriving DecidableEq

/-- What a call returns: whether it succeeds, or what it delivers where it does. -/
abbrev Res : Op → Type
  | .unsealKey | .readPCR _ | .loadFile _ | .findInitrd _ | .injectFiles .. => Option Bytes
  | .splitKeys _ => Option (Bytes × Bytes)
  | .getInput => Option (List UInt16)
  | .applyDBXUpdate => Option Bool
  | .closeBio _ | .closeBlkdev _ | .closeCacheBlkdev | .closeLuks | .enableCaching => Unit
  | _ => Bool

/-- The global variables that the sequence goes by. -/
structure Globals where
  bootkeyData : Option Bytes
  rootkeyData : Option Bytes
  bootkeyFound : Bool
  rootkeyFound : Bool
  rootkeyValid : Bool
  bootdev : Bool
  cachedev : Bool
  bootfs : Bool
  grubcfgData : Option Bytes
  measuredBootFailed : Bool
  enableIOHooks : Bool

/-- As they are in the beginning. -/
def Globals.start : Globals :=
  ⟨none, none, false, false, false, false, false, false, none, true, false⟩

/-- A function that only says whether it succeeds. -/
abbrev Sub (α : Type) : Type := Dialog Globals Unit Op Res α

/-- `efi_main` and what is part of it, with the status that it returns. -/
abbrev Main (α : Type) : Type := Dialog Globals Nat Op Res α

abbrev call {ε : Type} (op : Op) : Dialog Globals ε Op Res (Res op) := ask op

/-- What is done before a failure. -/
def ensureElse (b : Bool) (undo : Sub Unit) : Sub Unit :=
  if b then pure () else do
    undo
    throw ()

/-! ## Keys -/

/-- `UnsealKeys`. -/
def unsealKeys : Sub Unit := do
  ensure () (← call .loadSealedData)
  let data ← orFail () (← call .unsealKey)
  let (bootkey, rootkey) ← orFail () (← call (.splitKeys data))
  modify fun g => { g with
    bootkeyData := some bootkey
    rootkeyData := some rootkey
    bootkeyFound := true
    rootkeyFound := true }

/-- `CapPCR`. -/
def capPCR (pcr : Nat) : Sub Unit := do
  let pcrBefore ← orFail () (← call (.readPCR pcr))
  ensure () (← call (.cap pcr))
  let pcrAfter ← orFail () (← call (.readPCR pcr))
  ensure () (pcrBefore ≠ pcrAfter)

/-! ## Devices -/

/-- `GetBootDevice`. A device that is there already is not opened again. -/
def getBootDevice (masterkey : Bytes) : Sub Unit := do
  if (← get).bootdev then pure ()
  else do
    ensure () (← call (.openLuksBio .boot))
    ensureElse (← call (.blkdevFromBio .boot)) (call (.closeBio .boot))
    ensureElse (← call .newCacheBlkdev) (call (.closeBlkdev .boot))
    ensureElse (← call (.luksBlkdev .boot masterkey)) (call .closeCacheBlkdev)
    modify fun g => { g with cachedev := true, bootdev := true }

/-- `OpenBootFS`. -/
def openBootFS (masterkey : Bytes) : Sub Unit := do
  getBootDevice masterkey
  ensure () (← call .ext2New)

/-- `TestRootDevice`. -/
def testRootDevice (passphrase : Option Bytes) : Sub Unit := do
  let key ← orFail () passphrase
  ensure () (key ≠ [])
  ensure () (← call (.openLuksBio .root))
  ensureElse (← call (.blkdevFromBio .root)) (call (.closeBio .root))
  ensureElse (← call (.luksBlkdev .root key)) (call (.closeBlkdev .root))
  call .closeLuks

/-! ## The initrd -/

def loadGrubcfg : Sub Bytes := do
  match ← call (.loadFile (text "/grub2/grub.cfg")) with
  | some data => pure data
  | none => orFail () (← call (.loadFile (text "/grub/grub.cfg")))

/-- `GetInitrdPath`. -/
def getInitrdPath : Sub Bytes := do
  let g ← get
  ensure () g.bootfs
  let data ← match g.grubcfgData with
    | some data => pure data
    | none => loadGrubcfg
  modify fun g => { g with grubcfgData := some data }
  orFail () (← call (.findInitrd data))

/-- `PatchInitrd`. -/
def patchInitrd (initrdPath : Bytes) : Sub Unit := do
  let g ← get
  if g.rootkeyValid then do
    ensure () (g.rootkeyFound && g.bootkeyFound)
    let initrd ← orFail () (← call (.loadFile initrdPath))
    let newInitrd ← orFail () (← call (.injectFiles initrd g.bootkeyData g.rootkeyData))
    ensure () (← call (.rm initrdPath))
    ensure () (← call (.put initrdPath newInitrd))
  else pure ()

/-! ## The shim -/

def shimPath : Bytes := text "/lsvmload/shimx64.efi"

def grubPath : Bytes := text "/lsvmload/grubx64.efi"

/-- `StartShim`. Where the hooks cannot be installed it goes on. -/
def startShim : Sub Unit := do
  let data ← orFail () (← call (.loadFile shimPath))
  ensure () (← call (.checkCert data))
  let _ ← orFail () (← call (.loadFile grubPath))
  ensure () (← call .wrapEspFileIo)
  let _ ← call .installRootBio
  let _ ← call (.wrapBootBio (← get).bootkeyData)
  let _ ← call .mapEfiVfat
  modify fun g => { g with enableIOHooks := true }
  ensureElse (← call (.exec data)) (modify fun g => { g with enableIOHooks := false })

/-! ## The sequence -/

/-- What is done with a TPM only. -/
def measureAndUnseal : Main Unit := do
  ensure 1 (← call .measureLinuxScenario)
  let _ ← unsealKeys.attempt
  let _ ← orFail 1 (← (capPCR 11).attempt)

/-- Open the boot file system with the unsealed key. A key that does not open it is dropped. -/
def openUnsealed : Main Bool := do
  match (← get).bootkeyData with
  | none => pure false
  | some bootkey =>
    match ← (openBootFS bootkey).attempt with
    | some () => pure true
    | none => do
      modify fun g => { g with bootkeyData := none }
      pure false

/-- Ask for the key up to `n` times. -/
def askPassphrase : Nat → Main Unit
  | 0 => throw 1
  | n + 1 => do
    match ← call .getInput with
    | none => askPassphrase n
    | some wcs =>
      let str := strWcslcpy wcs 64
      match ← (openBootFS str).attempt with
      | none => askPassphrase n
      | some () => do
        ensure 1 (← call (.malloc (str.length + 1)))
        modify fun g => { g with bootkeyData := some str }

/-- A reset that succeeds may return. -/
def applyDBX : Main Unit := do
  let reboot ← orFail 1 (← call .applyDBXUpdate)
  if reboot then ensure 0 (← call .resetSystem) else pure ()

/-- What is done where the unsealed key has opened the boot file system. -/
def update (haveTPM : Bool) : Main Unit := do
  when haveTPM applyDBX
  let path ← orFail 1 (← getInitrdPath.attempt)
  let _ ← (patchInitrd path).attempt

/-- `efi_main` once the boot file system is open. -/
def bootFrom (haveTPM unsealedBootkeyValid : Bool) : Main Unit := do
  modify fun g => { g with bootfs := true }
  let _ ← call .specialize
  when (← get).cachedev (call .enableCaching)
  when unsealedBootkeyValid (update haveTPM)
  modify fun g => { g with measuredBootFailed := false }
  let _ ← orFail 1 (← startShim.attempt)

/-- `efi_main`. -/
def efiMain : Main Unit := do
  ensure 1 (← call .resolvePaths)
  ensure 1 (← call .loadConf)
  ensure 1 (← call .getProtocol)
  let haveTPM ← call .checkTPM
  ensure 1 (← call (.initializeTPM haveTPM))
  when haveTPM measureAndUnseal
  let unsealedBootkeyValid ← openUnsealed
  let tested ← (testRootDevice (← get).rootkeyData).attempt
  modify fun g => { g with rootkeyValid := tested.isSome }
  when (!unsealedBootkeyValid) (askPassphrase 3)
  bootFrom haveTPM unsealedBootkeyValid
  throw 1

/-! ## What it may call for -/

abbrev Past : Type := History Op Res

/-- The call has been answered so. -/
def Said (past : Past) (op : Op) (r : Res op) : Prop := ⟨op, r⟩ ∈ past

/-- PCR 11 was read, capped and read again with another value, behind the measurement. -/
def Capped (past : Past) : Prop :=
  ∃ pre pcrBefore pcrAfter rest, past = pre ++ [⟨.readPCR 11, some pcrBefore⟩, ⟨.cap 11, true⟩,
    ⟨.readPCR 11, some pcrAfter⟩] ++ rest ∧ pcrBefore ≠ pcrAfter ∧
      Said pre .measureLinuxScenario true

/-- The keys are those of the sealed bundle. -/
def Unsealed (past : Past) (bootkey rootkey : Bytes) : Prop :=
  ∃ data, Said past .unsealKey (some data) ∧ Said past (.splitKeys data) (some (bootkey, rootkey))

/-- What is called before PCR 11 is capped. -/
def Op.early : Op → Bool
  | .resolvePaths | .loadConf | .getProtocol | .checkTPM | .initializeTPM _ | .measureLinuxScenario
  | .loadSealedData | .unsealKey | .splitKeys _ | .readPCR _ | .cap _ => true
  | _ => false

/-- What changes the boot partition or the sealed keys on behalf of the unsealed keys. -/
def Op.updates : Op → Bool
  | .applyDBXUpdate | .resetSystem | .findInitrd _ | .injectFiles .. | .rm _ | .put .. => true
  | _ => false

structure Permitted (past : Past) (op : Op) : Prop where
  /-- Unless there is no TPM. -/
  waits : op.early = false → Capped past ∨ Said past .checkTPM false
  unseals : op = .unsealKey →
    Said past .measureLinuxScenario true ∧ ∀ b, ¬ Said past (.cap 11) b
  updates : op.updates = true → ∃ bootkey rootkey, Unsealed past bootkey rootkey ∧
    Said past (.luksBlkdev .boot bootkey) true ∧ Said past .ext2New true ∧
      Said past .enableCaching ()
  injects : ∀ initrd b r, op = .injectFiles initrd b r → ∃ bootkey rootkey, b = some bootkey ∧
    r = some rootkey ∧ Unsealed past bootkey rootkey ∧
      Said past (.luksBlkdev .boot bootkey) true ∧ Said past (.luksBlkdev .root rootkey) true
  puts : ∀ path data, op = .put path data → Said past (.rm path) true ∧
    ∃ initrd b r, Said past (.injectFiles initrd b r) (some data)
  starts : ∀ data, op = .exec data → Said past .ext2New true ∧ Said past .enableCaching () ∧
    Said past (.loadFile shimPath) (some data) ∧ Said past (.checkCert data) true
  /-- Unless opening the file system has failed before. -/
  hands : ∀ key, op = .wrapBootBio key → ∃ k, key = some k ∧
    (Said past (.luksBlkdev .boot k) true ∨ Said past .ext2New false)

/-! ## Histories -/

section Past

variable {past past' : Past} {op op' : Op} {r : Res op} {r' : Res op'} {bootkey rootkey : Bytes}

theorem Said.grow (h : Said past op r) (hp : past <+: past') : Said past' op r := hp.subset h

theorem said_self : Said (past ++ [⟨op, r⟩]) op r := List.mem_append_right _ (by simp)

theorem Said.snoc (h : Said past op r) : Said (past ++ [⟨op', r'⟩]) op r :=
  List.mem_append_left _ h

theorem said_snoc (hne : op ≠ op') : Said (past ++ [⟨op', r'⟩]) op r ↔ Said past op r := by
  rw [Said, List.mem_append, List.mem_singleton]
  refine or_iff_left fun h => hne ?_
  exact congrArg Event.op h

theorem Unsealed.grow (h : Unsealed past bootkey rootkey) (hp : past <+: past') :
    Unsealed past' bootkey rootkey := by
  obtain ⟨data, hunseal, hsplit⟩ := h
  exact ⟨data, hunseal.grow hp, hsplit.grow hp⟩

theorem Capped.grow (h : Capped past) (hp : past <+: past') : Capped past' := by
  obtain ⟨pre, pcrBefore, pcrAfter, rest, rfl, hne, hsaid⟩ := h
  obtain ⟨more, rfl⟩ := hp
  exact ⟨pre, pcrBefore, pcrAfter, rest ++ more, List.append_assoc .., hne, hsaid⟩

/-- PCR 11 is capped, or there is no TPM. -/
def Ready (past : Past) : Prop := Capped past ∨ Said past .checkTPM false

theorem Ready.grow (h : Ready past) (hp : past <+: past') : Ready past' :=
  h.imp (fun h => h.grow hp) fun h => h.grow hp

theorem Ready.snoc (h : Ready past) : Ready (past ++ [⟨op, r⟩]) := h.grow (List.prefix_append _ _)

/-- The calls of which more is asked than that they wait. -/
def Op.plain : Op → Bool
  | .unsealKey | .exec _ | .wrapBootBio _ => false
  | op => !op.updates

theorem updates_of_plain (h : op.plain = true) : op.updates = false := by
  cases op <;> first | rfl | cases h

theorem Permitted.of_plain (h : op.plain = true)
    (hwaits : op.early = false → Capped past ∨ Said past .checkTPM false) : Permitted past op where
  waits := hwaits
  unseals := by
    rintro rfl
    cases h
  updates hup := by
    rw [updates_of_plain h] at hup
    cases hup
  injects := by
    rintro initrd b r rfl
    cases h
  puts := by
    rintro path data rfl
    cases h
  starts := by
    rintro data rfl
    cases h
  hands := by
    rintro key rfl
    cases h

theorem Permitted.of_ready (h : op.plain = true) (hr : Ready past) : Permitted past op :=
  .of_plain h fun _ => hr

theorem Permitted.of_early (h : op.plain = true) (he : op.early = true) : Permitted past op :=
  .of_plain h fun hno => by rw [he] at hno; cases hno

end Past

/-! ## Each function -/

section Functions

variable {past : Past} {s : Globals} {key : Bytes} {α β ε : Type} {allowed : Past → Op → Prop}

theorem ensureElse_ends {b : Bool} {undo : Sub Unit} {Q : Unit → Past → Globals → Prop}
    {E : Past → Globals → Prop} (hq : b = true → Q () past s)
    (hu : b = false → Ends allowed undo past s (fun _ => E) E) :
    Ends allowed (ensureElse b undo) past s Q E := by
  cases b with
  | true => exact hq rfl
  | false => exact (hu rfl).bind (fun _ _ _ _ h => Ends.throw h) fun _ _ _ h => h

theorem ensureElse_bind {b : Bool} {undo : Sub Unit} {k : Unit → Sub β}
    {R : β → Past → Globals → Prop} {E : Past → Globals → Prop}
    (hk : b = true → Ends allowed (k ()) past s R E)
    (hu : b = false → Ends allowed undo past s (fun _ => E) E) :
    Ends allowed (ensureElse b undo >>= k) past s R E := by
  cases b with
  | true => exact hk rfl
  | false =>
    exact Ends.bind (ensureElse_ends (Q := fun _ _ _ => False) (fun h => (by cases h)) hu)
      (fun _ _ _ _ h => h.elim) fun _ _ _ h => h

/-- The keys are taken from the bundle, or left alone. -/
theorem unsealKeys_ends (hm : Said past .measureLinuxScenario true)
    (hcap : ∀ b, ¬ Said past (.cap 11) b) :
    Ends Permitted unsealKeys past s
      (fun _ past' s' => ∃ bootkey rootkey, Unsealed past' bootkey rootkey ∧
        s' = { s with
          bootkeyData := some bootkey
          rootkeyData := some rootkey
          bootkeyFound := true
          rootkeyFound := true })
      (fun _ s' => s' = s) := by
  refine Ends.ask_bind (.of_early rfl rfl) fun r1 => Ends.ensure_bind (fun _ => ?_) fun _ => rfl
  refine Ends.ask_bind ?_ fun r2 => Ends.orFail_bind (fun data h2 => ?_) fun _ => rfl
  · exact
      { waits := fun h => by cases h
        unseals := fun _ => ⟨hm.snoc, fun b => mt (said_snoc (by simp)).mp (hcap b)⟩
        updates := fun h => by cases h
        injects := fun _ _ _ h => by cases h
        puts := fun _ _ h => by cases h
        starts := fun _ h => by cases h
        hands := fun _ h => by cases h }
  · refine Ends.ask_bind (.of_early rfl rfl) fun r3 => Ends.orFail_bind (fun keys h3 => ?_)
      fun _ => rfl
    subst h2 h3
    exact Ends.modify ⟨keys.1, keys.2, ⟨data, said_self.snoc, said_self⟩, rfl⟩

/-- Where it succeeds PCR 11 is capped. -/
theorem capPCR_ends (hm : Said past .measureLinuxScenario true) :
    Ends Permitted (capPCR 11) past s (fun _ past' s' => Capped past' ∧ s' = s)
      (fun _ _ => True) := by
  refine Ends.ask_bind (.of_early rfl rfl) fun r1 => Ends.orFail_bind (fun pcrBefore h1 => ?_)
    fun _ => trivial
  refine Ends.ask_bind (.of_early rfl rfl) fun r2 => Ends.ensure_bind (fun h2 => ?_)
    fun _ => trivial
  refine Ends.ask_bind (.of_early rfl rfl) fun r3 => Ends.orFail_bind (fun pcrAfter h3 => ?_)
    fun _ => trivial
  subst h1 h2 h3
  refine Ends.ensure (fun hne => ⟨⟨past, pcrBefore, pcrAfter, [], ?_, of_decide_eq_true hne, hm⟩,
    rfl⟩) fun _ => trivial
  simp

/-- A boot device comes with the cache that it writes through. One that is left over from before
has no file system on it that could be opened. -/
structure Attached (past : Past) (s : Globals) : Prop where
  cached : s.bootdev = true → s.cachedev = true
  failed : s.bootdev = true → Said past .ext2New false

theorem getBootDevice_ends (hr : Ready past) (ha : Attached past s) :
    Ends Permitted (getBootDevice key) past s
      (fun _ past' s' => s' = { s with cachedev := true, bootdev := true } ∧
        (s.bootdev = false → Said past' (.luksBlkdev .boot key) true))
      (fun _ s' => s' = s) := by
  refine Ends.get_bind ?_
  cases hdev : s.bootdev with
  | true =>
    have hcached := ha.cached hdev
    refine Ends.pure ⟨?_, fun h => by cases h⟩
    cases s
    cases hdev
    cases hcached
    rfl
  | false =>
    refine Ends.ask_bind (.of_ready rfl hr) fun r1 => Ends.ensure_bind (fun _ => ?_) fun _ => rfl
    refine Ends.ask_bind (.of_ready rfl hr.snoc) fun r2 => ensureElse_bind (fun _ => ?_)
      fun _ => Ends.ask (.of_ready rfl hr.snoc.snoc) fun _ => rfl
    refine Ends.ask_bind (.of_ready rfl hr.snoc.snoc) fun r3 => ensureElse_bind (fun _ => ?_)
      fun _ => Ends.ask (.of_ready rfl hr.snoc.snoc.snoc) fun _ => rfl
    refine Ends.ask_bind (.of_ready rfl hr.snoc.snoc.snoc) fun r4 => ensureElse_bind (fun h4 => ?_)
      fun _ => Ends.ask (.of_ready rfl hr.snoc.snoc.snoc.snoc) fun _ => rfl
    subst h4
    exact Ends.modify ⟨rfl, fun _ => said_self⟩

/-- The key has opened the device, or the file system could not be opened before. -/
def Opens (past : Past) (key : Bytes) : Prop :=
  Said past (.luksBlkdev .boot key) true ∨ Said past .ext2New false

theorem openBootFS_ends (hr : Ready past) (ha : Attached past s) :
    Ends Permitted (openBootFS key) past s
      (fun _ past' s' => s' = { s with cachedev := true, bootdev := true } ∧
        Said past' .ext2New true ∧ Opens past' key ∧
          (s.bootdev = false → Said past' (.luksBlkdev .boot key) true))
      (fun past' s' => Attached past' s' ∧ s' = { s with
        cachedev := s'.cachedev
        bootdev := s'.bootdev }) := by
  refine (getBootDevice_ends hr ha).bind ?_ ?_
  · rintro ⟨⟩ past1 s1 hp ⟨rfl, hkey⟩
    have hr1 := hr.grow hp
    refine Ends.ask_bind (.of_ready rfl hr1) fun r => Ends.ensure (fun h => ?_) fun h => ?_
    · subst h
      refine ⟨rfl, said_self, ?_, fun hno => (hkey hno).snoc⟩
      cases hdev : s.bootdev with
      | true => exact .inr ((ha.failed hdev).grow hp).snoc
      | false => exact .inl (hkey hdev).snoc
    · subst h
      exact ⟨⟨fun _ => rfl, fun _ => said_self⟩, rfl⟩
  · rintro past1 s1 hp rfl
    exact ⟨⟨ha.cached, fun h => (ha.failed h).grow hp⟩, rfl⟩

theorem testRootDevice_ends (hr : Ready past) (rootkey : Option Bytes) :
    Ends Permitted (testRootDevice rootkey) past s
      (fun _ past' s' => s' = s ∧
        ∃ key, rootkey = some key ∧ Said past' (.luksBlkdev .root key) true)
      (fun _ s' => s' = s) := by
  refine Ends.orFail_bind (fun key hkey => Ends.ensure_bind (fun _ => ?_) fun _ => rfl) fun _ => rfl
  refine Ends.ask_bind (.of_ready rfl hr) fun r1 => Ends.ensure_bind (fun _ => ?_) fun _ => rfl
  refine Ends.ask_bind (.of_ready rfl hr.snoc) fun r2 => ensureElse_bind (fun _ => ?_)
    fun _ => Ends.ask (.of_ready rfl hr.snoc.snoc) fun _ => rfl
  refine Ends.ask_bind (.of_ready rfl hr.snoc.snoc) fun r3 => ensureElse_bind (fun h3 => ?_)
    fun _ => Ends.ask (.of_ready rfl hr.snoc.snoc.snoc) fun _ => rfl
  subst h3
  exact Ends.ask (.of_ready rfl hr.snoc.snoc.snoc) fun _ => ⟨rfl, key, hkey, said_self.snoc⟩

/-- The unsealed key is the one that has opened the boot device. -/
def Unlocked (past : Past) (s : Globals) : Prop :=
  ∃ bootkey rootkey, Unsealed past bootkey rootkey ∧ s.bootkeyData = some bootkey ∧
    s.rootkeyData = some rootkey ∧ Said past (.luksBlkdev .boot bootkey) true

theorem Unlocked.grow {past' : Past} {s' : Globals} (h : Unlocked past s) (hp : past <+: past')
    (hb : s'.bootkeyData = s.bootkeyData) (hr : s'.rootkeyData = s.rootkeyData) :
    Unlocked past' s' := by
  obtain ⟨bootkey, rootkey, hunsealed, hboot, hroot, hsaid⟩ := h
  exact ⟨bootkey, rootkey, hunsealed.grow hp, hb.trans hboot, hr.trans hroot, hsaid.grow hp⟩

/-- A root key that is valid has opened the root device. -/
def Tested (past : Past) (s : Globals) : Prop :=
  s.rootkeyValid = true → ∃ rootkey, s.rootkeyData = some rootkey ∧
    Said past (.luksBlkdev .root rootkey) true

/-- The boot file system is open, on a device with a cache. -/
structure Opened (past : Past) (s : Globals) : Prop where
  ext2 : Said past .ext2New true
  cached : s.cachedev = true
  key : ∃ key, s.bootkeyData = some key ∧ Opens past key

theorem Opened.grow {past' : Past} {s' : Globals} (h : Opened past s) (hp : past <+: past')
    (hc : s'.cachedev = s.cachedev) (hb : s'.bootkeyData = s.bootkeyData) : Opened past' s' := by
  obtain ⟨key, hkey, hopens⟩ := h.key
  exact ⟨h.ext2.grow hp, hc.trans h.cached, key, hb.trans hkey,
    hopens.imp (fun h => h.grow hp) fun h => h.grow hp⟩

/-- The unsealed keys may change the boot partition, in the cache. -/
structure Updates (past : Past) (s : Globals) : Prop where
  ready : Ready past
  unlocked : Unlocked past s
  ext2 : Said past .ext2New true
  caching : Said past .enableCaching ()

theorem Updates.grow {past' : Past} {s' : Globals} (h : Updates past s) (hp : past <+: past')
    (hb : s'.bootkeyData = s.bootkeyData) (hr : s'.rootkeyData = s.rootkeyData) :
    Updates past' s' :=
  ⟨h.ready.grow hp, h.unlocked.grow hp hb hr, h.ext2.grow hp, h.caching.grow hp⟩

theorem Updates.snoc {op : Op} {r : Res op} (h : Updates past s) :
    Updates (past ++ [⟨op, r⟩]) s := h.grow (List.prefix_append _ _) rfl rfl

theorem Updates.permitted {op : Op} (h : Updates past s) (hop : op.updates = true)
    (hinject : ∀ initrd b r, op = .injectFiles initrd b r → b = s.bootkeyData ∧
      r = s.rootkeyData ∧ s.rootkeyValid = true ∧ Tested past s)
    (hput : ∀ path data, op = .put path data → Said past (.rm path) true ∧
      ∃ initrd b r, Said past (.injectFiles initrd b r) (some data)) : Permitted past op := by
  obtain ⟨bootkey, rootkey, hunsealed, hboot, hroot, hsaid⟩ := h.unlocked
  refine
    { waits := fun _ => h.ready
      unseals := ?_
      updates := fun _ => ⟨bootkey, rootkey, hunsealed, hsaid, h.ext2, h.caching⟩
      injects := ?_
      puts := hput
      starts := ?_
      hands := ?_ }
  · rintro rfl
    cases hop
  · intro initrd b r heq
    obtain ⟨rfl, rfl, hvalid, htested⟩ := hinject initrd b r heq
    obtain ⟨key, hkey, hluks⟩ := htested hvalid
    cases hroot.symm.trans hkey
    exact ⟨bootkey, rootkey, hboot, hroot, hunsealed, hsaid, hluks⟩
  · rintro data rfl
    cases hop
  · rintro key rfl
    cases hop

theorem Updates.may {op : Op} (h : Updates past s) (hop : op.updates = true)
    (hinject : ∀ initrd b r, op ≠ .injectFiles initrd b r) (hput : ∀ path data, op ≠ .put path data) :
    Permitted past op :=
  h.permitted hop (fun initrd b r heq => absurd heq (hinject initrd b r))
    fun path data heq => absurd heq (hput path data)

theorem loadGrubcfg_ends (hr : Ready past) :
    Ends Permitted loadGrubcfg past s (fun _ _ s' => s' = s) (fun _ s' => s' = s) := by
  refine Ends.ask_bind (.of_ready rfl hr) fun r1 => ?_
  cases r1 with
  | some data => exact Ends.pure rfl
  | none =>
    refine Ends.ask_bind (.of_ready rfl hr.snoc) fun r2 => ?_
    cases r2 with
    | some data => exact Ends.pure rfl
    | none => exact Ends.throw rfl

theorem getInitrdPath_ends (h : Updates past s) :
    Ends Permitted getInitrdPath past s
      (fun _ _ s' => s' = { s with grubcfgData := s'.grubcfgData })
      (fun _ s' => s' = { s with grubcfgData := s'.grubcfgData }) := by
  have hfind : ∀ past' data, past <+: past' → Ends Permitted
      (do modify fun g => { g with grubcfgData := some data }
          orFail () (← call (.findInitrd data))) past' s
      (fun (_ : Bytes) _ s' => s' = { s with grubcfgData := s'.grubcfgData })
      (fun _ s' => s' = { s with grubcfgData := s'.grubcfgData }) := by
    intro past' data hp
    refine Ends.modify_bind (Ends.ask_bind ?_ fun r => ?_)
    · exact (h.grow hp rfl rfl).may rfl (fun _ _ _ => by simp) fun _ _ => by simp
    · cases r with
      | some path => exact Ends.pure rfl
      | none => exact Ends.throw rfl
  refine Ends.get_bind (Ends.ensure_bind (fun _ => ?_) fun _ => rfl)
  cases hcfg : s.grubcfgData with
  | some data => exact hfind past data (List.prefix_refl _)
  | none =>
    refine (loadGrubcfg_ends h.ready).bind ?_ fun past' s' _ hs => by rw [hs]
    rintro data past' s' hp rfl
    exact hfind past' data hp

theorem patchInitrd_ends (h : Updates past s) (ht : Tested past s) (path : Bytes) :
    Ends Permitted (patchInitrd path) past s (fun _ _ s' => s' = s) (fun _ s' => s' = s) := by
  refine Ends.get_bind ?_
  cases hvalid : s.rootkeyValid with
  | false => exact Ends.pure rfl
  | true =>
    refine Ends.ensure_bind (fun _ => ?_) fun _ => rfl
    refine Ends.ask_bind (.of_ready rfl h.ready) fun r1 => Ends.orFail_bind (fun initrd _ => ?_)
      fun _ => rfl
    refine Ends.ask_bind (h.snoc.permitted rfl ?_ fun _ _ h => by cases h) fun r2 =>
      Ends.orFail_bind (fun data h2 => ?_) fun _ => rfl
    · rintro initrd b r heq
      cases heq
      refine ⟨rfl, rfl, hvalid, fun _ => ?_⟩
      obtain ⟨key, hkey, hsaid⟩ := ht hvalid
      exact ⟨key, hkey, hsaid.snoc⟩
    · refine Ends.ask_bind (h.snoc.snoc.may rfl (fun _ _ _ => by simp) fun _ _ => by simp)
        fun r3 => Ends.ensure_bind (fun h3 => ?_) fun _ => rfl
      subst h2 h3
      refine Ends.ask_bind (h.snoc.snoc.snoc.permitted rfl (fun _ _ _ h => by cases h) ?_)
        fun r4 => Ends.ensure (fun _ => rfl) fun _ => rfl
      rintro path' data' heq
      cases heq
      exact ⟨said_self, initrd, _, _, said_self.snoc⟩

theorem startShim_ends (hr : Ready past) (ho : Opened past s)
    (hcaching : Said past .enableCaching ()) :
    Ends Permitted startShim past s (fun _ _ _ => True) (fun _ _ => True) := by
  refine Ends.ask_bind (.of_ready rfl hr) fun r1 => Ends.orFail_bind (fun data h1 => ?_)
    fun _ => trivial
  refine Ends.ask_bind (.of_ready rfl hr.snoc) fun r2 => Ends.ensure_bind (fun h2 => ?_)
    fun _ => trivial
  refine Ends.ask_bind (.of_ready rfl hr.snoc.snoc) fun r3 => Ends.orFail_bind (fun _ _ => ?_)
    fun _ => trivial
  refine Ends.ask_bind (.of_ready rfl hr.snoc.snoc.snoc) fun r4 => Ends.ensure_bind (fun _ => ?_)
    fun _ => trivial
  refine Ends.ask_bind (.of_ready rfl hr.snoc.snoc.snoc.snoc) fun r5 => Ends.get_bind ?_
  subst h1 h2
  obtain ⟨key, hkey, hopens⟩ := ho.key
  have hr5 : Ready (past ++ [⟨.loadFile shimPath, some data⟩] ++ [⟨.checkCert data, true⟩] ++
      [⟨.loadFile grubPath, r3⟩] ++ [⟨.wrapEspFileIo, r4⟩] ++ [⟨.installRootBio, r5⟩]) :=
    hr.snoc.snoc.snoc.snoc.snoc
  refine Ends.ask_bind ?_ fun r6 => Ends.ask_bind (.of_ready rfl hr5.snoc) fun r7 =>
    Ends.modify_bind (Ends.ask_bind ?_ fun r8 => ensureElse_ends (fun _ => trivial)
      fun _ => Ends.modify trivial)
  · exact
      { waits := fun _ => hr5
        unseals := fun h => by cases h
        updates := fun h => by cases h
        injects := fun _ _ _ h => by cases h
        puts := fun _ _ h => by cases h
        starts := fun _ h => by cases h
        hands := by
          rintro key' heq
          cases heq
          exact ⟨key, hkey, hopens.imp (fun h => h.snoc.snoc.snoc.snoc.snoc)
            fun h => h.snoc.snoc.snoc.snoc.snoc⟩ }
  · exact
      { waits := fun _ => hr5.snoc.snoc
        unseals := fun h => by cases h
        updates := fun h => by cases h
        injects := fun _ _ _ h => by cases h
        puts := fun _ _ h => by cases h
        starts := by
          rintro data' heq
          cases heq
          exact ⟨ho.ext2.snoc.snoc.snoc.snoc.snoc.snoc.snoc,
            hcaching.snoc.snoc.snoc.snoc.snoc.snoc.snoc,
            said_self.snoc.snoc.snoc.snoc.snoc.snoc, said_self.snoc.snoc.snoc.snoc.snoc⟩
        hands := fun _ h => by cases h }

/-! ## The sequence as a whole -/

/-- A boot key comes with the root key of the same bundle. -/
def Bundled (past : Past) (s : Globals) : Prop :=
  ∀ bootkey, s.bootkeyData = some bootkey →
    ∃ rootkey, s.rootkeyData = some rootkey ∧ Unsealed past bootkey rootkey

theorem measureAndUnseal_ends (hcap : ∀ b, ¬ Said past (.cap 11) b) (hs : s.bootkeyData = none) :
    Ends Permitted measureAndUnseal past s
      (fun _ past' s' => Capped past' ∧ Bundled past' s' ∧ s'.bootdev = s.bootdev)
      (fun _ _ => True) := by
  refine Ends.ask_bind (.of_early rfl rfl) fun r => Ends.ensure_bind (fun h => ?_) fun _ => trivial
  subst h
  have hno : ∀ b, ¬ Said (past ++ [⟨.measureLinuxScenario, true⟩]) (.cap 11) b := fun b =>
    mt (said_snoc (by simp)).mp (hcap b)
  refine (unsealKeys_ends said_self hno).attempt.bind ?_ fun _ _ _ h => h
  intro o past1 s1 hp1 hkeys
  refine (capPCR_ends (said_self.grow hp1)).attempt.bind ?_ fun _ _ _ h => h
  rintro (_ | ⟨⟨⟩⟩) past2 s2 hp2 hcapped
  · exact Ends.throw trivial
  · obtain ⟨hcapped, rfl⟩ := hcapped
    refine Ends.pure ⟨hcapped, ?_⟩
    cases o with
    | none =>
      obtain rfl := hkeys
      exact ⟨fun bootkey h => (by rw [hs] at h; cases h), rfl⟩
    | some u =>
      obtain ⟨bootkey, rootkey, hunsealed, rfl⟩ := hkeys
      refine ⟨fun bootkey' h => ?_, rfl⟩
      cases h
      exact ⟨rootkey, rfl, hunsealed.grow hp2⟩

theorem openUnsealed_ends (hr : Ready past) (hdev : s.bootdev = false) (hb : Bundled past s) :
    Ends Permitted openUnsealed past s
      (fun b past' s' => (b = true → Unlocked past' s' ∧ Opened past' s') ∧
        (b = false → Attached past' s'))
      (fun _ _ => True) := by
  refine Ends.get_bind ?_
  cases hkey : s.bootkeyData with
  | none =>
    refine Ends.pure ⟨fun h => (by cases h), fun _ => ⟨fun h => ?_, fun h => ?_⟩⟩
    · rw [hdev] at h
      cases h
    · rw [hdev] at h
      cases h
  | some bootkey =>
    obtain ⟨rootkey, hroot, hunsealed⟩ := hb bootkey hkey
    have hattached : Attached past s := by
      constructor
      · rw [hdev]
        exact fun h => by cases h
      · rw [hdev]
        exact fun h => by cases h
    refine (openBootFS_ends hr hattached).attempt.bind ?_ fun _ _ _ h => h
    rintro (_ | ⟨⟨⟩⟩) past1 s1 hp h
    · obtain ⟨⟨hcached, hfailed⟩, -⟩ := h
      exact Ends.modify_bind (Ends.pure ⟨fun h => (by cases h), fun _ => ⟨hcached, hfailed⟩⟩)
    · obtain ⟨rfl, hext2, hopens, hluks⟩ := h
      refine Ends.pure ⟨fun _ => ⟨?_, ?_⟩, fun h => by cases h⟩
      · exact ⟨bootkey, rootkey, hunsealed.grow hp, hkey, hroot, hluks hdev⟩
      · exact ⟨hext2, rfl, bootkey, hkey, hopens⟩

/-- The induction is on the attempts that are left; a failed one leaves what the next one needs. -/
theorem askPassphrase_ends (n : Nat) (hr : Ready past) (ha : Attached past s) :
    Ends Permitted (askPassphrase n) past s (fun _ => Opened) (fun _ _ => True) := by
  induction n generalizing past s with
  | zero => exact Ends.throw trivial
  | succ n ih =>
    have ha1 : ∀ r, Attached (past ++ [⟨.getInput, r⟩]) s := fun r =>
      ⟨ha.cached, fun h => (ha.failed h).snoc⟩
    refine Ends.ask_bind (.of_ready rfl hr) fun r => ?_
    cases r with
    | none => exact ih hr.snoc (ha1 none)
    | some wcs =>
      refine (openBootFS_ends hr.snoc (ha1 (some wcs))).attempt.bind ?_ fun _ _ _ h => h
      rintro (_ | ⟨⟨⟩⟩) past1 s1 hp h
      · exact ih (hr.snoc.grow hp) h.1
      · obtain ⟨rfl, hext2, hopens, -⟩ := h
        refine Ends.ask_bind (.of_ready rfl (hr.snoc.grow hp)) fun r =>
          Ends.ensure_bind (fun _ => Ends.modify ?_) fun _ => trivial
        exact ⟨hext2.snoc, rfl, _, rfl, hopens.imp Said.snoc Said.snoc⟩

theorem applyDBX_ends (h : Updates past s) :
    Ends Permitted applyDBX past s (fun _ _ s' => s' = s) (fun _ _ => True) := by
  refine Ends.ask_bind (h.may rfl (fun _ _ _ => by simp) fun _ _ => by simp) fun r1 =>
    Ends.orFail_bind (fun reboot _ => ?_) fun _ => trivial
  cases reboot with
  | false => exact Ends.pure rfl
  | true =>
    exact Ends.ask_bind (h.snoc.may rfl (fun _ _ _ => by simp) fun _ _ => by simp) fun r2 =>
      Ends.ensure (fun _ => rfl) fun _ => trivial

theorem update_ends (haveTPM : Bool) (h : Updates past s) (ht : Tested past s) :
    Ends Permitted (update haveTPM) past s
      (fun _ _ s' => s' = { s with grubcfgData := s'.grubcfgData }) (fun _ _ => True) := by
  refine (Ends.when (fun _ => applyDBX_ends h) fun _ => rfl).bind ?_ fun _ _ _ h => h
  rintro ⟨⟩ past1 s1 hp1 rfl
  have h1 := h.grow hp1 rfl rfl
  refine (getInitrdPath_ends h1).attempt.bind ?_ fun _ _ _ h => h
  rintro (_ | path) past2 s2 hp2 hs2
  · exact Ends.throw trivial
  · have hs2 : s2 = { s1 with grubcfgData := s2.grubcfgData } := hs2
    have hkeys : s2.bootkeyData = s1.bootkeyData ∧ s2.rootkeyData = s1.rootkeyData ∧
        s2.rootkeyValid = s1.rootkeyValid := by
      rw [hs2]
      exact ⟨rfl, rfl, rfl⟩
    have ht2 : Tested past2 s2 := by
      intro hvalid
      obtain ⟨key, hkey, hsaid⟩ := ht (hkeys.2.2 ▸ hvalid)
      exact ⟨key, hkeys.2.1.trans hkey, hsaid.grow (hp1.trans hp2)⟩
    refine (patchInitrd_ends (h1.grow hp2 hkeys.1 hkeys.2.1) ht2 path).attempt.bind ?_
      fun _ _ _ h => h
    rintro (_ | ⟨⟨⟩⟩) past3 s3 - hs3
    · obtain rfl : s3 = s2 := hs3
      exact Ends.pure hs2
    · obtain rfl : s3 = s2 := hs3
      exact Ends.pure hs2

theorem bootFrom_ends (haveTPM : Bool) {b : Bool} (hr : Ready past) (ho : Opened past s)
    (hu : b = true → Unlocked past s) (ht : b = true → Tested past s) :
    Ends Permitted (bootFrom haveTPM b) past s (fun _ _ _ => True) (fun _ _ => True) := by
  refine Ends.modify_bind (Ends.ask_bind (.of_ready rfl hr) fun r => Ends.get_bind ?_)
  have hcaching : Ends Permitted (when s.cachedev (call .enableCaching) : Main Unit)
      (past ++ [⟨.specialize, r⟩]) { s with bootfs := true }
      (fun _ past' s' => s' = { s with bootfs := true } ∧ Said past' .enableCaching ())
      (fun _ _ => True) := by
    refine Ends.when (fun _ => Ends.ask (.of_ready rfl hr.snoc) fun u => ⟨rfl, said_self⟩) ?_
    intro hno
    rw [ho.cached] at hno
    cases hno
  refine hcaching.bind ?_ fun _ _ _ h => h
  rintro ⟨⟩ past1 s1 hp1 ⟨rfl, hsaid⟩
  have hp : past <+: past1 := (List.prefix_append _ _).trans hp1
  have hupdate : Ends Permitted (when b (update haveTPM)) past1 { s with bootfs := true }
      (fun _ _ s' => s' = { s with bootfs := true, grubcfgData := s'.grubcfgData })
      (fun _ _ => True) := by
    refine Ends.when (fun hb => ?_) fun _ => rfl
    refine update_ends haveTPM ⟨hr.grow hp, (hu hb).grow hp rfl rfl, ho.ext2.grow hp, hsaid⟩ ?_
    intro hvalid
    obtain ⟨key, hkey, hluks⟩ := ht hb hvalid
    exact ⟨key, hkey, hluks.grow hp⟩
  refine hupdate.bind ?_ fun _ _ _ h => h
  intro u past2 s2 hp2 hs2
  have hp' := hp.trans hp2
  have hopened : Opened past2 { s2 with measuredBootFailed := false } := by
    refine ho.grow hp' ?_ ?_
    · rw [hs2]
    · rw [hs2]
  refine Ends.modify_bind ((startShim_ends (hr.grow hp') hopened
    (hsaid.grow hp2)).attempt.bind ?_ fun _ _ _ h => h)
  rintro (_ | ⟨⟨⟩⟩) past3 s3 - -
  · exact Ends.throw trivial
  · exact Ends.pure trivial

theorem efiMain_ends :
    Ends Permitted efiMain [] .start (fun _ _ _ => True) (fun _ _ => True) := by
  refine Ends.ask_bind (.of_early rfl rfl) fun r1 => Ends.ensure_bind (fun _ => ?_) fun _ => trivial
  refine Ends.ask_bind (.of_early rfl rfl) fun r2 => Ends.ensure_bind (fun _ => ?_) fun _ => trivial
  refine Ends.ask_bind (.of_early rfl rfl) fun r3 => Ends.ensure_bind (fun _ => ?_) fun _ => trivial
  refine Ends.ask_bind (.of_early rfl rfl) fun haveTPM => ?_
  refine Ends.ask_bind (.of_early rfl rfl) fun r5 => Ends.ensure_bind (fun _ => ?_) fun _ => trivial
  have hcapped : Ends Permitted (when haveTPM measureAndUnseal)
      ([] ++ [⟨.resolvePaths, r1⟩] ++ [⟨.loadConf, r2⟩] ++ [⟨.getProtocol, r3⟩] ++
        [⟨.checkTPM, haveTPM⟩] ++ [⟨.initializeTPM haveTPM, r5⟩]) Globals.start
      (fun _ past' s' => Ready past' ∧ Bundled past' s' ∧ s'.bootdev = false)
      (fun _ _ => True) := by
    refine Ends.when (fun _ => ?_) fun hno => ?_
    · refine (measureAndUnseal_ends (fun b => ?_) rfl).mono ?_ fun _ _ _ h => h
      · simp [Said]
      · rintro u past' s' - ⟨hcapped, hbundled, hdev⟩
        exact ⟨.inl hcapped, hbundled, hdev⟩
    · subst hno
      exact ⟨.inr said_self.snoc, fun bootkey h => (by cases h), rfl⟩
  refine hcapped.bind ?_ fun _ _ _ h => h
  rintro ⟨⟩ past1 s1 - ⟨hr1, hb1, hdev1⟩
  refine (openUnsealed_ends hr1 hdev1 hb1).bind ?_ fun _ _ _ h => h
  rintro valid past2 s2 hp2 ⟨hyes, hno⟩
  have hr2 := hr1.grow hp2
  refine Ends.get_bind ((testRootDevice_ends hr2 s2.rootkeyData).attempt.bind ?_ fun _ _ _ h => h)
  intro tested past3 s3 hp3 htest
  have hs3 : s3 = s2 := by
    cases tested with
    | none => exact htest
    | some u => exact htest.1
  subst hs3
  have ht3 : Tested past3 { s3 with rootkeyValid := tested.isSome } := by
    intro hvalid
    cases tested with
    | none => cases hvalid
    | some u => exact htest.2
  have hr3 := hr2.grow hp3
  have hasked : Ends Permitted (when (!valid) (askPassphrase 3)) past3
      { s3 with rootkeyValid := tested.isSome }
      (fun _ past' s' => Opened past' s' ∧
        (valid = true → s' = { s3 with rootkeyValid := tested.isSome })) (fun _ _ => True) := by
    refine Ends.when (fun hask => ?_) fun hask => ?_
    · have hinvalid := Bool.not_eq_true' _ ▸ hask
      refine (askPassphrase_ends 3 hr3 ?_).mono (fun _ _ _ _ h => ⟨h, fun hv => ?_⟩)
        fun _ _ _ h => h
      · exact ⟨(hno hinvalid).cached, fun h => ((hno hinvalid).failed h).grow hp3⟩
      · rw [hinvalid] at hv
        cases hv
    · have hvalid := Bool.not_eq_false' _ ▸ hask
      exact ⟨(hyes hvalid).2.grow hp3 rfl rfl, fun _ => rfl⟩
  refine Ends.modify_bind (hasked.bind ?_ fun _ _ _ h => h)
  rintro ⟨⟩ past4 s4 hp4 ⟨hopened, hsame⟩
  refine (bootFrom_ends haveTPM (hr3.grow hp4) hopened (fun hv => ?_) (fun hv => ?_)).bind
    (fun _ _ _ _ _ => Ends.throw trivial) fun _ _ _ h => h
  · rw [hsame hv]
    exact (hyes hv).1.grow (hp3.trans hp4) rfl rfl
  · intro hvalid
    rw [hsame hv] at hvalid ⊢
    obtain ⟨key, hkey, hsaid⟩ := ht3 hvalid
    exact ⟨key, hkey, hsaid.grow hp4⟩

end Functions

/-- All goes well. -/
def smooth (past : Past) : (op : Op) → Res op
  | .unsealKey => some [1]
  | .splitKeys _ => some ([2], [3])
  | .readPCR _ => some [if past.any (·.op = .cap 11) then 1 else 0]
  | .getInput => none
  | .applyDBXUpdate => some false
  | .loadFile path => some path
  | .findInitrd _ => some [4]
  | .injectFiles initrd _ _ => some initrd
  | .closeBio _ | .closeBlkdev _ | .closeCacheBlkdev | .closeLuks | .enableCaching => ()
  | .resolvePaths | .loadConf | .getProtocol | .checkTPM | .initializeTPM _ | .measureLinuxScenario
  | .loadSealedData | .cap _ | .openLuksBio _ | .blkdevFromBio _ | .newCacheBlkdev
  | .luksBlkdev .. | .ext2New | .malloc _ | .specialize | .resetSystem | .rm _ | .put ..
  | .checkCert _ | .wrapEspFileIo | .installRootBio | .wrapBootBio _ | .mapEfiVfat | .exec _ => true

theorem smooth_starts :
    (Script.walk smooth 37 [] (efiMain.script .start)).map (·.2) = some (.exec shimPath) := by
  decide +kernel

end LsvmTools.BootSequence
