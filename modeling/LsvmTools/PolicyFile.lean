import LsvmTools.Grub.Config
import LsvmTools.Lib.Lines
import LsvmTools.Lib.Recursion
import LsvmTools.MeasurePolicy

/-! # Reading policy files

`LoadPolicy` first reads the file and the files it includes into an array of strings, with a
`#line` directive wherever another file begins or goes on, and then takes the strings one by
one. A pointer into a string is what is left of it before its zero. -/
namespace LsvmTools.PolicyFile
open Lib.ByteString Lib.Program Lib.Loop Lib.Lines Strings MeasurePolicy
open Grub.Config (isspace newline hash)

def colon : UInt8 := 58
def quote : UInt8 := 34

/-- `POLICY_MAX_LINE`. -/
abbrev maxLine : Nat := 1024

def isdigit (c : UInt8) : Bool := 48 ≤ c && c ≤ 57

/-- `Strncmp` finds the literal at the start of the string. -/
def startsWith (p : Bytes) (literal : String) : Bool := (text literal).isPrefixOf p

/-! ## Directives -/

/-- Expect a space character and skip what follows of them. -/
def spaced : Bytes → Option Bytes
  | [] => none
  | c :: p => if isspace c then some (p.dropWhile isspace) else none

/-- The file name in quotes at the start of the string, if there is one and it is not empty. -/
def quoted : Bytes → Option Bytes
  | [] => none
  | c :: p =>
    let filename := p.takeWhile (· ≠ quote)
    if c = quote ∧ filename.length < p.length ∧ filename ≠ [] then some filename else none

/-- `_ParseIncludeDirective`. -/
def parseIncludeDirective (p : Bytes) : Option Bytes :=
  if startsWith p "#include" then (spaced (p.drop 8)).bind quoted else none

/-- `_ParseLineDirective`. The number is left out: like the name it is for the texts of errors. -/
def parseLineDirective (p : Bytes) : Option Bytes :=
  if startsWith p "#line" then
    (spaced (p.drop 5)).bind fun p =>
      let number := p.takeWhile isdigit
      if number = [] then none else (spaced (p.drop number.length)).bind quoted
  else none

/-- What `snprintf` puts into an array of `POLICY_MAX_LINE` characters. -/
def lineDirective (line : Nat) (path : Bytes) : Bytes :=
  (text "#line " ++ text (toString (u32 line)) ++ text " \"" ++ path ++ [quote]).take (maxLine - 1)

/-! ## Files -/

/-- The files that can be opened for reading, by their paths. -/
abbrev Files := List (Bytes × Bytes)

def fopen (files : Files) (path : Bytes) : Option Bytes := files.lookup path

/-- What calls of `fgets` put into an array of `POLICY_MAX_LINE` characters, one by one. -/
def fgetsAll (is : Bytes) : List Bytes := chop newline (fun n => decide (n = maxLine - 1)) [] is

section Read

variable (call : Bytes → Exec Unit (List Bytes)) (path : Bytes)

/-- The loop of `_ReadFile`: what it appends to the array from line `line` on. -/
def readLines : Nat → List Bytes → Exec Unit (List Bytes)
  | _, [] => pure []
  | line, buf :: rest =>
    if startsWith (cstr buf) "#include" then
      match parseIncludeDirective (cstr buf) with
      | none => Exec.throw ()
      | some filename => do
        let strs ← call filename
        let more ← readLines (line + 1) rest
        pure (strs ++ lineDirective (line + 1) path :: more)
    else do
      let more ← readLines (line + 1) rest
      pure (cstr buf :: more)

/-- `_ReadFile` but for its calls of itself. -/
def readFileBody (files : Files) : Exec Unit (List Bytes) :=
  match fopen files path with
  | none => Exec.throw ()
  | some is => do
    let strs ← readLines call path 1 (fgetsAll is)
    pure (lineDirective 1 path :: strs)

end Read

theorem readLines_under {n : Nat} {call call' : Bytes → Exec Unit (List Bytes)}
    (h : ∀ p, Exec.Under n (call p) (call' p)) (path : Bytes) (line : Nat) (bufs : List Bytes) :
    Exec.Under n (readLines call path line bufs) (readLines call' path line bufs) := by
  induction bufs generalizing line with
  | nil => exact .refl _
  | cons buf rest ih =>
    rw [readLines, readLines]
    split
    · cases parseIncludeDirective (cstr buf) with
      | none => exact .refl _
      | some filename => exact (h filename).bind fun strs => (ih _).bind fun more => .refl _
    · exact (ih _).bind fun more => .refl _

theorem readFileBody_rising (files : Files) :
    Exec.Rising fun call path => readFileBody call path files := by
  intro n call call' h path
  show Exec.Under n (readFileBody call path files) (readFileBody call' path files)
  unfold readFileBody
  cases fopen files path with
  | none => exact .refl _
  | some is => exact (readLines_under h path 1 _).bind fun strs => .refl _

/-- `_ReadFile`: the strings it appends to the array. -/
def readFile (files : Files) : Bytes → Exec Unit (List Bytes) :=
  Exec.recursion (fun call path => readFileBody call path files) (readFileBody_rising files)

/-! ## Entries -/

/-- `_GetNextField`: the field, and where the next one begins. -/
def getNextField (p : Bytes) : Bytes × Bytes :=
  let start := p.dropWhile isspace
  let token := start.takeWhile (· ≠ colon)
  (token.rdropWhile isspace, start.drop (token.length + 1))

/-- The number that decimal digits stand for. -/
def value (digits : Bytes) : Nat := digits.foldl (fun n c => 10 * n + (c.toNat - 48)) 0

/-- `strtoul` to base 10, with a `long` of 64 bits: the value and the rest of the string. -/
def strtoul (str : Bytes) : Nat × Bytes :=
  let p := str.dropWhile isspace
  let minus := p.head? = some 45
  let p := if minus ∨ p.head? = some 43 then p.drop 1 else p
  let digits := p.takeWhile isdigit
  let n := value digits
  if digits = [] then (0, str)
  else (if 2 ^ 64 ≤ n then 2 ^ 64 - 1 else if minus then (2 ^ 64 - n) % 2 ^ 64 else n,
    p.drop digits.length)

/-- A string that fits into the `path` of an entry. -/
structure PathBuf where
  path : CStr
  length_lt : path.bytes.length < maxLine

def typeOf (type : Bytes) : Option PolicyEntryType :=
  if type = text "PEIMAGE" then some .peimage
  else if type = text "BINARY" then some .binary
  else if type = text "BINARY32" then some .binary32
  else if type = text "EFIVAR" then some .efivar
  else if type = text "CAP" then some .cap
  else if type = text "PCR" then some .pcr
  else none

def pcrOf (pcrStr : Bytes) : Option (Fin maxPcrs) :=
  let (pcr, rest) := strtoul pcrStr
  if h : pcr < maxPcrs then if rest = [] then some ⟨pcr, h⟩ else none else none

variable (expandEnvVars : Bytes → Option PathBuf)

/-- The part of `LoadPolicy` that makes an entry of a line. -/
def parseEntry (p : Bytes) : Option PolicyEntry := do
  let p := p.rdropWhile isspace
  let (name, p) := getNextField p
  let path ← expandEnvVars (strlcpy name maxLine)
  let (type, p) := getNextField p
  let type ← typeOf type
  let (pcrStr, p) := getNextField p
  let pcr ← pcrOf pcrStr
  if p = [] then some ⟨path.path, type, pcr, path.length_lt⟩ else none

def noEntries : Policy := ⟨[], Nat.zero_le _⟩

theorem length_append_le {policy : Policy} (ent : PolicyEntry)
    (h : policy.entries.length ≠ 16) : (policy.entries ++ [ent]).length ≤ 16 := by
  rw [List.length_append]
  exact Nat.lt_of_le_of_ne policy.nentries_le h

/-- `policy->entries[policy->nentries++] = ent`. -/
def addEntry (policy : Policy) (ent : PolicyEntry) (h : policy.entries.length ≠ 16) : Policy :=
  ⟨policy.entries ++ [ent], length_append_le ent h⟩

/-- The loop of `LoadPolicy` over the strings. -/
def parseLines : List Bytes → Policy → Out Unit Policy
  | [], policy => pure policy
  | p :: rest, policy =>
    if startsWith p "#line" then do
      let _ ← Out.ofOption () (parseLineDirective p)
      parseLines rest policy
    else if p.head? = some hash then parseLines rest policy
    else if h : policy.entries.length = 16 then .err ()
    else do
      let ent ← Out.ofOption () (parseEntry expandEnvVars p)
      parseLines rest (addEntry policy ent h)

/-- `LoadPolicy`. -/
def loadPolicy (files : Files) (path : CStr) : Exec Unit Policy := do
  let arr ← readFile files path.bytes
  parseLines expandEnvVars arr noEntries

end LsvmTools.PolicyFile
