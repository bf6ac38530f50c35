import LsvmTools.Cpio

/-! # Injecting keys into an initrd

`initrd.c` splits an initrd into subfiles, puts the keys into the archives that were
compressed and joins the subfiles again. -/
namespace LsvmTools.Initrd
open Lib.ByteString Lib.Program Lib.Loop Strings Cpio

/-! ## Names -/

/-- The string `etc`. -/
def etc : CStr := ⟨[101, 116, 99], by decide⟩

/-- The string `etc/lsvmload`. -/
def lsvmload : CStr := ⟨[101, 116, 99, 47, 108, 115, 118, 109, 108, 111, 97, 100], by decide⟩

/-- The string `etc/lsvmload/bootkey`. -/
def bootkey : CStr :=
  ⟨[101, 116, 99, 47, 108, 115, 118, 109, 108, 111, 97, 100, 47, 98, 111, 111, 116, 107, 101, 121],
    by decide⟩

/-- The string `etc/lsvmload/rootkey`. -/
def rootkey : CStr :=
  ⟨[101, 116, 99, 47, 108, 115, 118, 109, 108, 111, 97, 100, 47, 114, 111, 111, 116, 107, 101, 121],
    by decide⟩

/-- The string `etc/lsvmload/specialize`. -/
def specialize : CStr :=
  ⟨[101, 116, 99, 47, 108, 115, 118, 109, 108, 111, 97, 100, 47, 115, 112, 101, 99, 105, 97, 108,
    105, 122, 101], by decide⟩

/-- The string `hyperv-keyboard.ko`. -/
def hypervKeyboard : CStr :=
  ⟨[104, 121, 112, 101, 114, 118, 45, 107, 101, 121, 98, 111, 97, 114, 100, 46, 107, 111],
    by decide⟩

/-- `CPIO_MODE_IFDIR | 0755`. -/
def dirMode : UInt32 := 0x41ED

/-- `CPIO_MODE_IFREG | 0755`. -/
def fileMode : UInt32 := 0x81ED

/-! ## Allocations -/

-- Which allocations succeed, and what memory holds around one with the given bytes.
variable (mem : Nat → Bool) (around : Bytes → Int → UInt8)

/-- A buffer of its own that holds the bytes. -/
def allocated (data : Bytes) : Out Unit Buffer :=
  if h : data.length < 2 ^ 63 then pure ⟨data, around data, h⟩ else .stuck

/-- An archive that has been made, as the next function is given it: where the size that
was reported is more than the allocation has, it goes on into what memory holds there. -/
def madeBuffer (made : Made) : Out Unit Buffer :=
  let n := made.size.toNat
  allocated around (made.out.take n ++
    readMem (fun i : Nat => around made.out i) made.out.length (n - made.out.length))

/-- `Memdup`. -/
def memdup (b : Buffer) : Out Unit Buffer :=
  if b.size = 0 then .err ()
  else if !mem (u32 b.data.length) then .err ()
  else if u32 b.data.length < b.data.length then .stuck
  else allocated around b.data

/-- `BufAppend`. -/
def bufAppend (buf : Buf) (data : Bytes) : Out Unit Buf :=
  let buf' := buf.append data
  if buf'.cap = buf.cap then pure buf'
  else if !mem (u32 buf'.cap) then .err ()
  else if u32 buf'.cap < buf'.cap then .stuck
  else pure buf'

/-! ## Changing an archive -/

/-- Create a directory where there is none. -/
def makeDir (path : CStr) (b : Buffer) : Exec Unit Buffer := do
  if ← cpioIsDir b path then pure b
  else
    let made ← cpioAddFile mem b path none 0 dirMode
    madeBuffer around made

def removeFile (path : CStr) (b : Buffer) : Exec Unit Buffer := do
  let made ← cpioRemoveFile mem b path
  madeBuffer around made

/-- Remove a file where there is one. -/
def removeIfFile (path : CStr) (b : Buffer) : Exec Unit Buffer := do
  if ← cpioIsFile b path then removeFile mem around path b else pure b

def addFile (path : CStr) (data : Bytes) (b : Buffer) : Exec Unit Buffer := do
  let made ← cpioAddFile mem b path (some data) data.length fileMode
  madeBuffer around made

/-- The loop of `_DeleteKeyboardDriver`. -/
def removeFiles : List CStr → Buffer → Exec Unit Buffer
  | [], b => pure b
  | path :: paths, b => do
    let b ← removeFile mem around path b
    removeFiles paths b

/-- `_DeleteKeyboardDriver`. -/
def deleteKeyboardDriver (b : Buffer) : Exec Unit Buffer := do
  let b ← memdup mem around b
  let arr ← cpioFindFilesByBaseName mem b hypervKeyboard
  removeFiles mem around arr.data b

/-- `_InjectFiles`. -/
def injectFiles (bootkeyData rootkeyData : Bytes) (b : Buffer) : Exec Unit Buffer :=
  if bootkeyData = [] ∨ rootkeyData = [] then Exec.throw ()
  else do
    let b ← memdup mem around b
    let b ← makeDir mem around etc b
    let b ← makeDir mem around lsvmload b
    let b ← removeIfFile mem around bootkey b
    let b ← addFile mem around bootkey bootkeyData b
    let b ← removeIfFile mem around rootkey b
    let b ← addFile mem around rootkey rootkeyData b
    let b ← removeIfFile mem around specialize b
    deleteKeyboardDriver mem around b

/-! ## Subfiles -/

def startsWith (magic data : Bytes) : Bool := data.take magic.length = magic

/-- `lzmaextras_test`. -/
def lzmaextrasTest (data : Bytes) : Bool := startsWith [0xFD, 0x37, 0x7A, 0x58, 0x5A, 0x00] data

/-- `zlibextras_test`. -/
def zlibextrasTest (data : Bytes) : Bool := startsWith [0x1F, 0x8B] data

-- `lzmaextras_decompress` and `zlibextras_decompress`.
variable (lzma zlib : Bytes → Option Bytes)

/-- What a subfile is decompressed to, or none where it is an archive as it is. -/
def decompress (b : Buffer) : Out Unit (Option Bytes) :=
  if lzmaextrasTest b.data then do
    let data ← Out.ofOption () (lzma b.data)
    pure (some data)
  else if zlibextrasTest b.data then do
    let data ← Out.ofOption () (zlib b.data)
    pure (some data)
  else if cpioTest b then pure none
  else .err ()

/-- The memory that a subfile takes. -/
def subfileBuffer (b : Buffer) (s : Subfile) : Out Unit Buffer :=
  if h : (b.bytes s.data s.size.toNat).length < 2 ^ 63 then
    pure ⟨b.bytes s.data s.size.toNat, fun i => b.peek (s.data + i), h⟩
  else .stuck

variable (bootkeyData rootkeyData : Bytes)

/-- What becomes of a subfile. -/
def injectSubfile (b : Buffer) (s : Subfile) : Exec Unit Bytes := do
  let sub ← subfileBuffer b s
  match ← decompress lzma zlib sub with
  | none => pure sub.data
  | some data =>
    let archive ← allocated around data
    let made ← injectFiles mem around bootkeyData rootkeyData archive
    pure made.data

def injectSubfiles (b : Buffer) : List Subfile → Exec Unit (List Bytes)
  | [] => pure []
  | s :: subs => do
    let data ← injectSubfile mem around lzma zlib bootkeyData rootkeyData b s
    let rest ← injectSubfiles b subs
    pure (data :: rest)

def appendAll : List Bytes → Buf → Out Unit Buf
  | [], buf => pure buf
  | data :: rest, buf => do
    let buf ← bufAppend mem buf data
    appendAll rest buf

/-- `InitrdInjectFiles`. -/
def initrdInjectFiles (b : Buffer) : Exec Unit Bytes :=
  if b.size = 0 ∨ bootkeyData = [] ∨ rootkeyData = [] then Exec.throw ()
  else do
    let subs ← cpioSplitFile b
    if subs = [] then Exec.throw ()
    else
      let datas ← injectSubfiles mem around lzma zlib bootkeyData rootkeyData b subs
      let buf ← appendAll mem datas Buf.empty
      pure buf.bytes

end LsvmTools.Initrd
