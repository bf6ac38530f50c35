import LsvmTools.Guid
import LsvmTools.ShaHash

/-! # Measurements

What a policy names is hashed and the hash extends the value of a PCR, in a SHA-1 and in a
SHA-256 bank. The calls are predictive: the TPM is not touched. -/
namespace LsvmTools.Measurement
open Lib.ByteString Lib.Program Strings Guid ShaHash PeImage

/-- A value in either bank. -/
structure Hashes where
  sha1 : SHA1Hash
  sha256 : SHA256Hash
deriving DecidableEq

/-- A `Var`: it hides a file or an EFI variable of its name. -/
structure Var where
  name : CStr
  data : Bytes

/-- What measurements depend on. -/
structure Env where
  sha1 : Bytes → SHA1Hash
  sha256 : Bytes → SHA256Hash
  vars : List Var
  /-- `LoadFile`, which fails in the EFI build. -/
  loadFile : Bytes → Option Cpio.Buffer
  /-- `LoadEFIVar`: the text of the GUID and the name. -/
  loadEFIVar : Bytes → Bytes → Option Bytes
  /-- Which allocations succeed. -/
  mem : Nat → Bool
  /-- `PATH_MAX`. -/
  pathMax : Nat

/-- Which hash computations of a measurement succeed. -/
structure Works where
  sha1 : Bool
  sha256 : Bool
  extendSHA1 : Bool
  extendSHA256 : Bool

variable (env : Env) (works : Works)

/-! ## Loading -/

/-- `VarsFind`. -/
def varsFind (name : Bytes) : Option Var := env.vars.find? (·.name.bytes = name)

/-- `VarsLoad`. `Malloc` takes an `unsigned int`. -/
def varsLoad (name : Bytes) : Out Unit Bytes :=
  match varsFind env name with
  | none => .err ()
  | some var =>
    if !env.mem (u32 var.data.length) then .err ()
    else if u32 var.data.length < var.data.length then .stuck
    else pure var.data

/-- `_LoadVariableOrFile`. -/
def loadVariableOrFile (path : Bytes) : Out Unit Bytes :=
  match varsLoad env path with
  | .ok data => pure data
  | .err _ => Out.ofOption () ((env.loadFile path).map (·.data))
  | .stuck => .stuck

/-! ## Hashing a variable -/

/-- A `char` as a `CHAR16`, with its sign. -/
def char16 (c : UInt8) : Bytes := [c, if c < 128 then 0 else 0xFF]

/-- `EFI_VARIABLE_DATA_TREE` with the name and the data behind it. -/
def variableDataTree (guid : EfiGuid) (name data : Bytes) : Bytes :=
  guid.bytes ++ (enc32 name.length ++ enc32 (name.length / 2 ^ 32)) ++
    (enc32 data.length ++ enc32 (data.length / 2 ^ 32)) ++ name.flatMap char16 ++ data

/-- `HashVariable`: more than `var_data_size` can count goes past the allocation. -/
def hashVariable (guid : EfiGuid) (name data : Bytes) : Out Unit Hashes :=
  let size := 32 + 2 * name.length + data.length
  if !env.mem (u32 size) then .err ()
  else if u32 size < size then .stuck
  else do
    let tree := variableDataTree guid name data
    let sha1 ← Out.ofOption () (computeSHA (sha env.sha1 works.sha1) tree)
    let sha256 ← Out.ofOption () (computeSHA (sha env.sha256 works.sha256) tree)
    pure ⟨sha1, sha256⟩

/-! ## Measuring -/

/-- `Measure`, of the hashes `h` into the PCR values `pcr`. -/
def measure (h pcr : Hashes) : Out Unit Hashes := do
  let sha1 ← Out.ofOption () (extendSHA (sha env.sha1 works.extendSHA1) pcr.sha1 h.sha1)
  let sha256 ← Out.ofOption () (extendSHA (sha env.sha256 works.extendSHA256) pcr.sha256 h.sha256)
  pure ⟨sha1, sha256⟩

/-- `MeasurePEImage`, which does not look at the variables. -/
def measurePEImage (path : Bytes) (pcr : Hashes) : Out Unit Hashes := do
  let image ← Out.ofOption () (env.loadFile path)
  let (sha1, sha256) ← parseAndHashImage image env.mem (sha env.sha1 works.sha1)
    (sha env.sha256 works.sha256)
  measure env works ⟨sha1, sha256⟩ pcr

/-- `MeasureBinaryFile`. -/
def measureBinaryFile (path : Bytes) (pcr : Hashes) : Out Unit Hashes := do
  let data ← loadVariableOrFile env path
  let sha1 ← Out.ofOption () (computeSHA (sha env.sha1 works.sha1) data)
  let sha256 ← Out.ofOption () (computeSHA (sha env.sha256 works.sha256) data)
  measure env works ⟨sha1, sha256⟩ pcr

/-- `MeasureBinaryFilePad32`. -/
def measureBinaryFilePad32 (path : Bytes) (pcr : Hashes) : Out Unit Hashes := do
  let data ← loadVariableOrFile env path
  let sha1 ← Out.ofOption () (computeSHAPad32 (sha env.sha1 works.sha1) data)
  let sha256 ← Out.ofOption () (computeSHAPad32 (sha env.sha256 works.sha256) data)
  measure env works ⟨sha1, sha256⟩ pcr

/-- `Strrchr` of a dot, and the string cut there. -/
def cutExtension (path : Bytes) : Bytes :=
  match path.reverse.dropWhile (· ≠ 46) with
  | [] => path
  | _ :: rest => rest.reverse

/-- The part of `MeasureEFIVariable` that splits the path into a GUID, its text and the
name of a variable. -/
def splitVariablePath (path : Bytes) : Option (EfiGuid × Bytes × Bytes) :=
  let buf := cutExtension (strlcpy path env.pathMax)
  match buf.dropWhile (· ≠ 45) with
  | [] => none
  | _ :: name => do
    let text := buf.takeWhile (· ≠ 45)
    let guid ← strToGUID env.mem text
    pure (guid, text, name)

/-- The part of `MeasureEFIVariable` that loads the variable. -/
def loadVariable (path text name : Bytes) : Out Unit Bytes :=
  match loadVariableOrFile env path with
  | .ok data => pure data
  | .err _ => Out.ofOption () (env.loadEFIVar text name)
  | .stuck => .stuck

/-- `MeasureEFIVariable`. -/
def measureEFIVariable (path : Bytes) (pcr : Hashes) : Out Unit Hashes := do
  let (guid, text, name) ← Out.ofOption () (splitVariablePath env path)
  let data ← loadVariable env path text name
  let h ← hashVariable env works guid name data
  measure env works h pcr

/-- The buffer `MeasureCap` hashes. -/
def zeros : Bytes := List.replicate 20 0

/-- `MeasureCap`: a hash that fails leaves what was in the variable, and the calls are not
checked. -/
def measureCap (uninit pcr : Hashes) : Out Unit Hashes :=
  let sha1 := (computeSHA (sha env.sha1 works.sha1) zeros).getD uninit.sha1
  let sha256 := (computeSHA (sha env.sha256 works.sha256) zeros).getD uninit.sha256
  measure env works ⟨sha1, sha256⟩ pcr

/-! ## What is measured

The hashes of an entry when every computation succeeds, and what becomes of them when one
does not. -/

def Works.all : Works := ⟨true, true, true, true⟩

/-- Both hashes of the entry are computed. -/
def Works.hashes (works : Works) : Bool := works.sha1 && works.sha256

/-- Both values are extended. -/
def Works.extends (works : Works) : Bool := works.extendSHA1 && works.extendSHA256

def hashBoth (data : Bytes) : Hashes := ⟨env.sha1 data, env.sha256 data⟩

def extendBoth (pcr h : Hashes) : Hashes :=
  ⟨extend env.sha1 pcr.sha1 h.sha1, extend env.sha256 pcr.sha256 h.sha256⟩

def imageHashes (path : Bytes) : Out Unit Hashes := do
  let image ← Out.ofOption () (env.loadFile path)
  let (sha1, sha256) ← parseAndHashImage image env.mem (sha env.sha1 true) (sha env.sha256 true)
  pure ⟨sha1, sha256⟩

def fileHashes (path : Bytes) : Out Unit Hashes := do
  let data ← loadVariableOrFile env path
  pure (hashBoth env (read32 data))

def paddedHashes (path : Bytes) : Out Unit Hashes := do
  let data ← loadVariableOrFile env path
  pure (hashBoth env (pad32 (read32 data)))

def variableHashes (path : Bytes) : Out Unit Hashes := do
  let (guid, text, name) ← Out.ofOption () (splitVariablePath env path)
  let data ← loadVariable env path text name
  hashVariable env .all guid name data

/-- Hashes that are there if their computations succeed. -/
def checked (h : Out Unit Hashes) : Out Unit Hashes := do
  let h ← h
  if works.hashes then pure h else .err ()

theorem measure_eq (h pcr : Hashes) :
    measure env works h pcr = if works.extends then .ok (extendBoth env pcr h) else .err () := by
  unfold measure
  rw [extendSHA_eq env.sha1 works.extendSHA1 (by decide),
    extendSHA_eq env.sha256 works.extendSHA256 (by decide)]
  unfold Works.extends
  cases works.extendSHA1 with
  | false => rfl
  | true => cases works.extendSHA256 <;> rfl

theorem hashImage_sha (b : Cpio.Buffer) (image : Image) (w w' : Bool) :
    Out.ofOption () (hashImage b (sha env.sha1 w) (sha env.sha256 w') image) =
      (do
        let h ← Out.ofOption () (hashImage b (sha env.sha1 true) (sha env.sha256 true) image)
        if w && w' then pure h else .err ()) := by
  have hupdate : ∀ (rs : List Region) (c c' : Bytes),
      updateAll b (sha env.sha1 w) (sha env.sha256 w') rs c c' =
        updateAll b (sha env.sha1 true) (sha env.sha256 true) rs c c' := by
    intro rs
    induction rs with
    | nil => intro c c'; rfl
    | cons r rs ih => intro c c'; exact ih _ _
  have hstart : ∀ v v', hashImage b (sha env.sha1 v) (sha env.sha256 v') image =
      (updateAll b (sha env.sha1 v) (sha env.sha256 v') image.regions [] []).bind fun c =>
        ((sha env.sha1 v).final c.1).bind fun h =>
          ((sha env.sha256 v').final c.2).bind fun h' => some (h, h') := by
    intro v v'
    show (updateAll b (sha env.sha1 v) (sha env.sha256 v') image.regions [] []).bind _ = _
    cases updateAll b (sha env.sha1 v) (sha env.sha256 v') image.regions [] [] with
    | none => rfl
    | some c => rfl
  rw [hstart, hstart, hupdate]
  cases updateAll b (sha env.sha1 true) (sha env.sha256 true) image.regions [] [] with
  | none => rfl
  | some c =>
    cases w with
    | false => rfl
    | true => cases w' <;> rfl

theorem measurePEImage_eq (path : Bytes) (pcr : Hashes) :
    measurePEImage env works path pcr =
      (checked works (imageHashes env path) >>= fun h => measure env works h pcr) := by
  unfold measurePEImage imageHashes
  cases env.loadFile path with
  | none => rfl
  | some image =>
    show (parseAndHashImage image env.mem (sha env.sha1 works.sha1) (sha env.sha256 works.sha256) >>=
      fun h => measure env works ⟨h.1, h.2⟩ pcr) =
        (checked works (parseAndHashImage image env.mem (sha env.sha1 true) (sha env.sha256 true) >>=
          fun h => pure ⟨h.1, h.2⟩) >>= fun h => measure env works h pcr)
    unfold parseAndHashImage checked
    cases parseImage image env.mem with
    | err _ => rfl
    | stuck => rfl
    | ok parsed =>
      rw [Out.ok_bind, Out.ok_bind, hashImage_sha]
      cases Out.ofOption () (hashImage image (sha env.sha1 true) (sha env.sha256 true) parsed) with
      | err _ => rfl
      | stuck => rfl
      | ok h =>
        obtain ⟨w, w', x, x'⟩ := works
        cases w with
        | false => rfl
        | true => cases w' <;> rfl

/-- Both hashes of some bytes, in the order the functions compute them. -/
theorem hashes_checked (f : Bytes → Option SHA1Hash) (g : Bytes → Option SHA256Hash)
    (read : Bytes → Bytes) (hf : ∀ d, f d = if works.sha1 then some (env.sha1 (read d)) else none)
    (hg : ∀ d, g d = if works.sha256 then some (env.sha256 (read d)) else none)
    (load : Out Unit Bytes) (pcr : Hashes) :
    (do
      let data ← load
      let sha1 ← Out.ofOption () (f data)
      let sha256 ← Out.ofOption () (g data)
      measure env works ⟨sha1, sha256⟩ pcr) =
      (checked works (load >>= fun data => pure (hashBoth env (read data))) >>= fun h =>
        measure env works h pcr) := by
  cases load with
  | err _ => rfl
  | stuck => rfl
  | ok data =>
    simp only [Out.ok_bind, hf, hg]
    obtain ⟨w, w', x, x'⟩ := works
    cases w with
    | false => rfl
    | true => cases w' <;> rfl

theorem measureBinaryFile_eq (path : Bytes) (pcr : Hashes) :
    measureBinaryFile env works path pcr =
      (checked works (fileHashes env path) >>= fun h => measure env works h pcr) :=
  hashes_checked env works _ _ read32 (computeSHA_eq _ _) (computeSHA_eq _ _) _ pcr

theorem measureBinaryFilePad32_eq (path : Bytes) (pcr : Hashes) :
    measureBinaryFilePad32 env works path pcr =
      (checked works (paddedHashes env path) >>= fun h => measure env works h pcr) :=
  hashes_checked env works _ _ (fun d => pad32 (read32 d)) (computeSHAPad32_eq _ _)
    (computeSHAPad32_eq _ _) _ pcr

theorem hashVariable_checked (guid : EfiGuid) (name data : Bytes) :
    hashVariable env works guid name data = checked works (hashVariable env .all guid name data) := by
  unfold hashVariable
  by_cases hm : env.mem (u32 (32 + 2 * name.length + data.length)) = true
  · by_cases hlt : u32 (32 + 2 * name.length + data.length) < 32 + 2 * name.length + data.length
    · simp only [hm, Bool.not_true, Bool.false_eq_true, if_false, hlt, if_true]
      rfl
    · simp only [hm, Bool.not_true, Bool.false_eq_true, if_false, hlt, computeSHA_eq]
      obtain ⟨w, w', x, x'⟩ := works
      cases w with
      | false => rfl
      | true => cases w' <;> rfl
  · simp only [hm, Bool.not_false, if_true]
    rfl

theorem measureEFIVariable_eq (path : Bytes) (pcr : Hashes) :
    measureEFIVariable env works path pcr =
      (checked works (variableHashes env path) >>= fun h => measure env works h pcr) := by
  unfold measureEFIVariable variableHashes
  cases splitVariablePath env path with
  | none => rfl
  | some parts =>
    obtain ⟨guid, text, name⟩ := parts
    show (loadVariable env path text name >>= fun data => hashVariable env works guid name data >>=
      fun h => measure env works h pcr) = (checked works (loadVariable env path text name >>=
        fun data => hashVariable env .all guid name data) >>= fun h => measure env works h pcr)
    cases loadVariable env path text name with
    | err _ => rfl
    | stuck => rfl
    | ok data => rw [Out.ok_bind, Out.ok_bind, hashVariable_checked]

/-- The hashes `MeasureCap` extends the PCR with. -/
def capHashes (uninit : Hashes) : Hashes where
  sha1 := if works.sha1 then env.sha1 zeros else uninit.sha1
  sha256 := if works.sha256 then env.sha256 zeros else uninit.sha256

theorem read32_zeros : read32 zeros = zeros := read32_of_lt (by decide)

theorem measureCap_eq (uninit pcr : Hashes) :
    measureCap env works uninit pcr = measure env works (capHashes env works uninit) pcr := by
  unfold measureCap capHashes
  rw [computeSHA_eq, computeSHA_eq, read32_zeros]
  cases works.sha1 <;> cases works.sha256 <;> rfl

theorem capHashes_all {works : Works} (h : works.hashes = true) (uninit : Hashes) :
    capHashes env works uninit = hashBoth env zeros := by
  unfold Works.hashes at h
  rw [Bool.and_eq_true] at h
  unfold capHashes hashBoth
  rw [h.1, h.2, if_pos rfl, if_pos rfl]

end LsvmTools.Measurement
