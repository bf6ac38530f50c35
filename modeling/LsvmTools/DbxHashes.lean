import LsvmTools.Guid
import LsvmTools.Lib.Loop
import LsvmTools.ShaHash

/-! # The hashes of a dbx

`uefidbx.c`: the loader of the hashes in a dbx variable or an update file, and the decision
whether the update is needed. The data that are still to be read are what is left of the
buffer. -/
namespace LsvmTools.DbxHashes
open Lib.ByteString Lib.Program Lib.Loop Guid ShaHash

/-! ## Loading -/

/-- `EFI_CERT_SHA256_GUID`. -/
def certSha256 : Bytes :=
  EfiGuid.bytes ⟨0xc1c41626, 0x504c, 0x4092, [0xac, 0xa9, 0x41, 0xf9, 0x36, 0x93, 0x43, 0x28]⟩

/-- `EFI_SIG_SHA256_GUID`. -/
def sigSha256 : Bytes :=
  EfiGuid.bytes ⟨0x77FA9ABD, 0x0359, 0x4D32, [0xBD, 0x60, 0x28, 0xF4, 0xE7, 0x8F, 0x78, 0x4B]⟩

/-- `PKCS7_GUID`. -/
def pkcs7 : Bytes :=
  EfiGuid.bytes ⟨0x4aafd29d, 0x68df, 0x49ee, [0x8a, 0xa9, 0x34, 0x7d, 0x37, 0x56, 0x65, 0xa7]⟩

/-- `SkipOptionalDBXHeader`. -/
def skipOptionalDBXHeader (data : Bytes) : Out Unit Bytes :=
  if data.length < 20 then .stuck
  else
    let headerSize := le32 data 16 + 16
    if headerSize ≤ data.length then
      if data.length < 40 then .stuck
      else if (data.drop 24).take 16 = pkcs7 then .ok (data.drop headerSize)
      else .ok data
    else .ok data

/-- Which allocations succeed. -/
abbrev Mem := Nat → Bool

variable (mem : Mem)

theorem take_size {n : Nat} {rest : Bytes} (h : n ≤ rest.length) : (rest.take n).length = n := by
  rw [List.length_take, Nat.min_eq_left h]

/-- `AppendElem` of the 32 bytes that `rest` begins with. -/
def appendElem (hashes : List SHA256Hash) (rest : Bytes) : Out Unit (List SHA256Hash) :=
  if !mem (32 * (hashes.length + 1)) then .err ()
  else if h : 32 ≤ rest.length then .ok (hashes ++ [⟨rest.take 32, take_size h⟩])
  else .stuck

/-- One signature, which `rest` begins with. -/
def loadSignature (signatureSize : Nat) (rest : Bytes) (hashes : List SHA256Hash) :
    Out Unit (List SHA256Hash) :=
  if rest.length < 16 then .stuck
  else if rest.take 16 ≠ sigSha256 then .ok hashes
  else if (signatureSize + 2 ^ 64 - 16) % 2 ^ 64 ≠ 32 then .err ()
  else appendElem mem hashes (rest.drop 16)

/-- The loop over the signatures of a list. -/
def loadSignatures (signatureSize : Nat) :
    Nat → Bytes → List SHA256Hash → Out Unit (Bytes × List SHA256Hash)
  | 0, rest, hashes => .ok (rest, hashes)
  | n + 1, rest, hashes =>
    loadSignature mem signatureSize rest hashes >>= fun hashes =>
      loadSignatures signatureSize n (rest.drop signatureSize) hashes

/-- A list of SHA-256 hashes. The size of the signatures without the header is a `UINTN`. -/
def loadHashList (rest : Bytes) (hashes : List SHA256Hash) :
    Out Unit (Bytes × List SHA256Hash) :=
  let skip := 28 + le32 rest 20
  if rest.length < skip then .err ()
  else if le32 rest 24 = 0 then .stuck
  else loadSignatures mem (le32 rest 24) ((le32 rest 16 + 2 ^ 64 - skip) % 2 ^ 64 / le32 rest 24)
    (rest.drop skip) hashes

/-- One signature list. -/
def loadList (rest : Bytes) (hashes : List SHA256Hash) : Out Unit (Bytes × List SHA256Hash) :=
  if rest.length < 28 then .err ()
  else if rest.length < le32 rest 16 then .err ()
  else if rest.take 16 ≠ certSha256 then .ok (rest.drop (le32 rest 16), hashes)
  else loadHashList mem rest hashes

/-- A round of the loop over the lists. -/
def loadRound (s : Bytes × List SHA256Hash) :
    Exec Unit (Step (Bytes × List SHA256Hash) (List SHA256Hash)) :=
  if s.1 = [] then pure (.done s.2)
  else .of (loadList mem s.1 s.2 >>= fun t => pure (.next t))

/-- `LoadDBXHashes`. -/
def loadDBXHashes (data : Bytes) : Exec Unit (List SHA256Hash) :=
  if data = [] then .throw ()
  else do
    let rest ← Exec.of (skipOptionalDBXHeader data)
    Exec.loop (loadRound mem) (rest, [])

/-! ## The decision -/

/-- `memcmp` of hash values. -/
def memcmpLe (h₁ h₂ : SHA256Hash) : Bool :=
  decide (h₁.buf.map UInt8.toNat ≤ h₂.buf.map UInt8.toNat)

/-- Where the arrays of hashes are not the same in number or, sorted, in content. -/
def differ (hashes₁ hashes₂ : List SHA256Hash) : Bool :=
  hashes₁.length ≠ hashes₂.length || hashes₁.mergeSort memcmpLe ≠ hashes₂.mergeSort memcmpLe

/-- `NeedDBXUpdate`, with the memory that each of the two loads meets. Both are given the file;
the variable is loaded and not looked at. -/
def needDBXUpdate (mem₁ mem₂ : Mem) (file var : Option Bytes) : Exec Unit Bool :=
  match file, var with
  | some fileData, some _ => do
    let hashes₁ ← loadDBXHashes mem₁ fileData
    let hashes₂ ← loadDBXHashes mem₂ fileData
    pure (differ hashes₁ hashes₂)
  | _, _ => .throw ()

/-! ## Well-formed contents -/

structure Signature where
  owner : Bytes
  hash : SHA256Hash
  owner_size : owner.length = 16

def Signature.bytes (s : Signature) : Bytes := s.owner ++ s.hash.buf

/-- A list of SHA-256 hashes, or one of another type. -/
inductive SignatureList where
  | hashes (header : Bytes) (signatures : List Signature)
      (fits : 28 + header.length + 48 * signatures.length < 2 ^ 32)
  | other (type rest : Bytes) (type_size : type.length = 16) (ne : type ≠ certSha256)
      (le : 8 ≤ rest.length) (fits : 20 + rest.length < 2 ^ 32)

namespace SignatureList

def type : SignatureList → Bytes
  | .hashes _ _ _ => certSha256
  | .other type _ _ _ _ _ => type

/-- What follows the size of the list. -/
def rest : SignatureList → Bytes
  | .hashes header signatures _ =>
    enc32 header.length ++ enc32 48 ++ header ++ signatures.flatMap Signature.bytes
  | .other _ rest _ _ _ _ => rest

def bytes (l : SignatureList) : Bytes := l.type ++ enc32 (20 + l.rest.length) ++ l.rest

end SignatureList

/-- `EFI_VARIABLE_AUTHENTICATION_2`. -/
structure Auth where
  timeStamp : Bytes
  revisionAndType : Bytes
  certData : Bytes
  timeStamp_size : timeStamp.length = 16
  revisionAndType_size : revisionAndType.length = 4
  fits : 24 + certData.length < 2 ^ 32

def Auth.bytes (a : Auth) : Bytes :=
  a.timeStamp ++ enc32 (24 + a.certData.length) ++ a.revisionAndType ++ pkcs7 ++ a.certData

/-- A dbx variable or update file: signature lists, with or without authentication. Without
it there is a list, and the data do not look as if there were authentication. -/
structure Dbx where
  auth : Option Auth
  lists : List SignatureList
  plain : auth = none →
    lists ≠ [] ∧ ((lists.flatMap SignatureList.bytes).drop 24).take 16 ≠ pkcs7

namespace Dbx

def authBytes (d : Dbx) : Bytes :=
  match d.auth with
  | some a => a.bytes
  | none => []

def bytes (d : Dbx) : Bytes := d.authBytes ++ d.lists.flatMap SignatureList.bytes

end Dbx

/-- The hash of a signature that says it has one. -/
def Signature.hashes (s : Signature) : List SHA256Hash :=
  if s.owner = sigSha256 then [s.hash] else []

def SignatureList.sha256Hashes : SignatureList → List SHA256Hash
  | .hashes _ signatures _ => signatures.flatMap Signature.hashes
  | .other _ _ _ _ _ _ => []

/-- The hashes of the content, in order. -/
def Dbx.hashes (d : Dbx) : List SHA256Hash := d.lists.flatMap SignatureList.sha256Hashes

/-! ## What the loader extracts -/

/-- Appending hashes one by one. -/
def appendAll (hashes : List SHA256Hash) : List SHA256Hash → Out Unit (List SHA256Hash)
  | [] => .ok hashes
  | h :: hs => if mem (32 * (hashes.length + 1)) then appendAll (hashes ++ [h]) hs else .err ()

/-- There is memory for `n` hashes. -/
def Room (n : Nat) : Prop := ∀ i, i < n → mem (32 * (i + 1)) = true

section Loader

variable {mem}

theorem appendAll_append (hashes hs hs' : List SHA256Hash) :
    appendAll mem hashes (hs ++ hs') =
      (appendAll mem hashes hs >>= fun hashes => appendAll mem hashes hs') := by
  induction hs generalizing hashes with
  | nil => rfl
  | cons h hs ih =>
    rw [List.cons_append, appendAll, appendAll]
    split
    · exact ih _
    · rfl

theorem appendAll_eq (hashes hs : List SHA256Hash) :
    ((∀ i, i < hs.length → mem (32 * (hashes.length + i + 1)) = true) ∧
      appendAll mem hashes hs = .ok (hashes ++ hs)) ∨
    ((¬ ∀ i, i < hs.length → mem (32 * (hashes.length + i + 1)) = true) ∧
      appendAll mem hashes hs = .err ()) := by
  induction hs generalizing hashes with
  | nil => exact .inl ⟨by simp, by simp [appendAll]⟩
  | cons h hs ih =>
    rw [appendAll]
    by_cases hm : mem (32 * (hashes.length + 1)) = true
    · rw [if_pos hm]
      have hiff : (∀ i, i < (h :: hs).length → mem (32 * (hashes.length + i + 1)) = true) ↔
          ∀ i, i < hs.length → mem (32 * ((hashes ++ [h]).length + i + 1)) = true := by
        rw [List.length_append, List.length_singleton]
        constructor
        · intro hall i hi
          rw [Nat.add_assoc hashes.length 1 i, Nat.add_comm 1 i]
          exact hall (i + 1) (Nat.succ_lt_succ hi)
        · intro hall i hi
          cases i with
          | zero => exact hm
          | succ i =>
            rw [Nat.add_comm i 1, ← Nat.add_assoc hashes.length 1 i]
            exact hall i (Nat.lt_of_succ_lt_succ hi)
      rw [hiff]
      have := ih (hashes ++ [h])
      rwa [List.append_assoc] at this
    · rw [if_neg hm]
      exact .inr ⟨fun hall => hm (hall 0 (Nat.succ_pos _)), rfl⟩

theorem appendAll_nil {hs : List SHA256Hash} :
    (Room mem hs.length ∧ appendAll mem [] hs = .ok hs) ∨
    (¬ Room mem hs.length ∧ appendAll mem [] hs = .err ()) := by
  have h := @appendAll_eq mem [] hs
  simp only [List.length_nil, Nat.zero_add, List.nil_append] at h
  exact h

theorem appendElem_eq (h : SHA256Hash) (hashes : List SHA256Hash) (more : Bytes) :
    appendElem mem hashes (h.buf ++ more) = appendAll mem hashes [h] := by
  have hsize : h.buf.length = 32 := h.size
  unfold appendElem appendAll
  by_cases hm : mem (32 * (hashes.length + 1)) = true
  · rw [if_neg (by simp [hm]), if_pos hm, dif_pos (by rw [List.length_append]; omega)]
    have htake : (h.buf ++ more).take 32 = h.buf := take_of_length hsize
    simp only [htake, appendAll]
  · rw [if_pos (by simpa using hm), if_neg hm]

theorem Signature.length_bytes (s : Signature) : s.bytes.length = 48 := by
  rw [Signature.bytes, List.length_append, s.owner_size, s.hash.size]

theorem loadSignature_eq (s : Signature) (hashes : List SHA256Hash) (more : Bytes) :
    loadSignature mem 48 (s.bytes ++ more) hashes = appendAll mem hashes s.hashes := by
  have howner : (s.bytes ++ more).take 16 = s.owner := by
    rw [Signature.bytes, List.append_assoc, ← s.owner_size, List.take_left]
  have hhash : (s.bytes ++ more).drop 16 = s.hash.buf ++ more := by
    rw [Signature.bytes, List.append_assoc, ← s.owner_size, List.drop_left]
  unfold loadSignature Signature.hashes
  rw [if_neg (by rw [List.length_append, s.length_bytes]; omega), howner, hhash]
  by_cases ho : s.owner = sigSha256
  · rw [if_neg (not_not.mpr ho), if_neg (by decide), if_pos ho, appendElem_eq]
  · rw [if_pos ho, if_neg ho]
    rfl

theorem loadSignatures_eq (ss : List Signature) (hashes : List SHA256Hash) (more : Bytes) :
    loadSignatures mem 48 ss.length (ss.flatMap Signature.bytes ++ more) hashes =
      (appendAll mem hashes (ss.flatMap Signature.hashes) >>= fun hashes =>
        .ok (more, hashes)) := by
  induction ss generalizing hashes with
  | nil => rfl
  | cons s ss ih =>
    have hdrop : (s.bytes ++ (ss.flatMap Signature.bytes ++ more)).drop 48 =
        ss.flatMap Signature.bytes ++ more := by rw [← s.length_bytes, List.drop_left]
    rw [List.length_cons, loadSignatures, List.flatMap_cons, List.append_assoc, loadSignature_eq,
      hdrop, List.flatMap_cons, appendAll_append]
    cases appendAll mem hashes s.hashes with
    | ok hs => exact ih hs
    | err e => rfl
    | stuck => rfl

namespace SignatureList

theorem length_type (l : SignatureList) : l.type.length = 16 := by
  cases l with
  | hashes header signatures fits => rfl
  | other type rest type_size ne le fits => exact type_size

theorem length_signatures (ss : List Signature) :
    (ss.flatMap Signature.bytes).length = 48 * ss.length := by
  induction ss with
  | nil => rfl
  | cons s ss ih =>
    rw [List.flatMap_cons, List.length_append, s.length_bytes, ih, List.length_cons]
    omega

theorem rest_bounds (l : SignatureList) : 8 ≤ l.rest.length ∧ 20 + l.rest.length < 2 ^ 32 := by
  cases l with
  | hashes header signatures fits =>
    simp only [rest, List.length_append, length_enc32, length_signatures]
    omega
  | other type rest type_size ne le fits => exact ⟨le, fits⟩

theorem length_bytes (l : SignatureList) : l.bytes.length = 20 + l.rest.length := by
  rw [bytes, List.length_append, List.length_append, l.length_type, length_enc32]

theorem take_type (l : SignatureList) (more : Bytes) : (l.bytes ++ more).take 16 = l.type := by
  rw [bytes, List.append_assoc, List.append_assoc, ← l.length_type, List.take_left]

theorem size_eq (l : SignatureList) (more : Bytes) :
    le32 (l.bytes ++ more) 16 = 20 + l.rest.length := by
  have hfits := l.rest_bounds.2
  rw [bytes, List.append_assoc, List.append_assoc,
    le32_append_right (by rw [l.length_type]), l.length_type, Nat.sub_self,
    le32_append_left (by rw [length_enc32]), le32_enc32, u32_of_lt hfits]

theorem drop_eq (l : SignatureList) (more : Bytes) :
    (l.bytes ++ more).drop (20 + l.rest.length) = more := by
  rw [← l.length_bytes, List.drop_left]

end SignatureList

theorem hashList_shape (header : Bytes) (ss : List Signature) (more : Bytes) (n : Nat) :
    certSha256 ++ enc32 n ++ (enc32 header.length ++ enc32 48 ++ header ++
      ss.flatMap Signature.bytes) ++ more =
    (certSha256 ++ enc32 n) ++ (enc32 header.length ++ (enc32 48 ++
      (header ++ (ss.flatMap Signature.bytes ++ more)))) := by
  simp only [List.append_assoc]

/-- A list of hashes is loaded as a whole. -/
theorem loadHashList_eq (header : Bytes) (ss : List Signature)
    (fits : 28 + header.length + 48 * ss.length < 2 ^ 32) (hashes : List SHA256Hash)
    (more : Bytes) :
    loadHashList mem ((SignatureList.hashes header ss fits).bytes ++ more) hashes =
      (appendAll mem hashes (ss.flatMap Signature.hashes) >>= fun hashes =>
        .ok (more, hashes)) := by
  have hrest : (SignatureList.hashes header ss fits).rest.length =
      8 + header.length + 48 * ss.length := by
    simp only [SignatureList.rest, List.length_append, length_enc32,
      SignatureList.length_signatures]
  have hsize := SignatureList.size_eq (.hashes header ss fits) more
  have hlen := SignatureList.length_bytes (.hashes header ss fits)
  rw [hrest] at hsize hlen
  have hshape : (SignatureList.hashes header ss fits).bytes ++ more = _ :=
    hashList_shape header ss more (20 + (SignatureList.hashes header ss fits).rest.length)
  have hfront : (certSha256 ++ enc32 (20 + (SignatureList.hashes header ss fits).rest.length)).length
      = 20 := rfl
  have hheader : le32 ((SignatureList.hashes header ss fits).bytes ++ more) 20 =
      header.length := by
    rw [hshape, le32_append_right (by rw [hfront]), hfront, Nat.sub_self,
      le32_append_left (by rw [length_enc32]), le32_enc32, u32_of_lt (by omega)]
  have hsig : le32 ((SignatureList.hashes header ss fits).bytes ++ more) 24 = 48 := by
    rw [hshape, le32_append_right (by rw [hfront]; omega), hfront,
      le32_append_right (by rw [length_enc32]), length_enc32,
      le32_append_left (by rw [length_enc32]), le32_enc32, u32_of_lt (by decide)]
  have hdrop : ((SignatureList.hashes header ss fits).bytes ++ more).drop (28 + header.length) =
      ss.flatMap Signature.bytes ++ more := by
    have hpre : (certSha256 ++ enc32 (20 + (SignatureList.hashes header ss fits).rest.length) ++
        enc32 header.length ++ enc32 48 ++ header).length = 28 + header.length := by
      simp only [List.length_append, length_enc32]
      rfl
    have hsplit : (SignatureList.hashes header ss fits).bytes ++ more =
        (certSha256 ++ enc32 (20 + (SignatureList.hashes header ss fits).rest.length) ++
          enc32 header.length ++ enc32 48 ++ header) ++ (ss.flatMap Signature.bytes ++ more) := by
      rw [hshape]
      simp only [List.append_assoc]
    rw [hsplit, drop_of_length hpre]
  unfold loadHashList
  simp only [hheader, hsig, hsize, hdrop]
  rw [if_neg (by rw [List.length_append, hlen]; omega), if_neg (by decide)]
  have hcount : (20 + (8 + header.length + 48 * ss.length) + 2 ^ 64 - (28 + header.length)) %
      2 ^ 64 / 48 = ss.length := by omega
  rw [hcount, loadSignatures_eq]

theorem loadList_eq (l : SignatureList) (hashes : List SHA256Hash) (more : Bytes) :
    loadList mem (l.bytes ++ more) hashes =
      (appendAll mem hashes l.sha256Hashes >>= fun hashes => .ok (more, hashes)) := by
  have hb := l.rest_bounds
  have hlen := l.length_bytes
  unfold loadList
  rw [if_neg (by rw [List.length_append]; omega), l.size_eq,
    if_neg (by rw [List.length_append]; omega), l.take_type]
  cases l with
  | hashes header signatures fits =>
    have htype : (SignatureList.hashes header signatures fits).type = certSha256 := rfl
    rw [htype, if_neg (not_not.mpr rfl), loadHashList_eq]
    rfl
  | other type rest type_size ne le fits =>
    have htype : (SignatureList.other type rest type_size ne le fits).type = type := rfl
    rw [htype, if_pos ne, SignatureList.drop_eq]
    rfl

theorem bytes_ne_nil (l : SignatureList) (more : Bytes) : l.bytes ++ more ≠ [] := by
  intro h
  have hlen := congrArg List.length h
  rw [List.length_append, l.length_bytes, List.length_nil] at hlen
  omega

/-- The loop over the lists of a content. -/
theorem loadLists_ends (ls : List SignatureList) (hashes : List SHA256Hash) :
    (Exec.loop (loadRound mem) (ls.flatMap SignatureList.bytes, hashes)).Ends
      (appendAll mem hashes (ls.flatMap SignatureList.sha256Hashes)) := by
  induction ls generalizing hashes with
  | nil =>
    have hround : loadRound mem ([], hashes) = pure (.done hashes) := if_pos rfl
    refine Exec.loop_done (s := ([], hashes)) ?_
    rw [hround]
    exact Exec.ends_pure.mpr rfl
  | cons l ls ih =>
    have hround : loadRound mem (l.bytes ++ ls.flatMap SignatureList.bytes, hashes) =
        .of (loadList mem (l.bytes ++ ls.flatMap SignatureList.bytes) hashes >>= fun t =>
          pure (.next t)) := by
      exact if_neg (bytes_ne_nil l _)
    rw [List.flatMap_cons, List.flatMap_cons, appendAll_append]
    rw [loadList_eq] at hround
    cases happend : appendAll mem hashes l.sha256Hashes with
    | ok hs =>
      rw [happend] at hround
      refine (Exec.loop_next (t := (ls.flatMap SignatureList.bytes, hs)) ?_).mpr (ih hs)
      rw [hround]
      exact Exec.ends_of.mpr rfl
    | err e =>
      rw [happend] at hround
      refine Exec.loop_err ?_
      rw [hround]
      exact Exec.ends_of.mpr rfl
    | stuck =>
      rw [happend] at hround
      refine Exec.loop_stuck ?_
      rw [hround]
      exact Exec.ends_of.mpr rfl

theorem skip_auth (a : Auth) (body : Bytes) :
    skipOptionalDBXHeader (a.bytes ++ body) = .ok body := by
  have hlen : a.bytes.length = 40 + a.certData.length := by
    simp only [Auth.bytes, List.length_append, length_enc32, a.timeStamp_size,
      a.revisionAndType_size, show pkcs7.length = 16 from rfl]
  have hshape : a.bytes ++ body = a.timeStamp ++ (enc32 (24 + a.certData.length) ++
      (a.revisionAndType ++ (pkcs7 ++ (a.certData ++ body)))) := by
    simp only [Auth.bytes, List.append_assoc]
  have hsize : le32 (a.bytes ++ body) 16 = 24 + a.certData.length := by
    rw [hshape, le32_append_right (by rw [a.timeStamp_size]), a.timeStamp_size, Nat.sub_self,
      le32_append_left (by rw [length_enc32]), le32_enc32, u32_of_lt a.fits]
  have htype : ((a.bytes ++ body).drop 24).take 16 = pkcs7 := by
    have hpre : (a.timeStamp ++ enc32 (24 + a.certData.length) ++ a.revisionAndType).length =
        24 := by
      simp only [List.length_append, length_enc32, a.timeStamp_size, a.revisionAndType_size]
    have hsplit : a.bytes ++ body = (a.timeStamp ++ enc32 (24 + a.certData.length) ++
        a.revisionAndType) ++ (pkcs7 ++ (a.certData ++ body)) := by
      rw [hshape]
      simp only [List.append_assoc]
    rw [hsplit, drop_of_length hpre]
    exact take_of_length rfl
  have hdrop : (a.bytes ++ body).drop (24 + a.certData.length + 16) = body := by
    rw [show 24 + a.certData.length + 16 = a.bytes.length by rw [hlen]; omega, List.drop_left]
  unfold skipOptionalDBXHeader
  rw [if_neg (by rw [List.length_append]; omega)]
  simp only [hsize, htype, hdrop, if_true]
  rw [if_pos (by rw [List.length_append]; omega), if_neg (by rw [List.length_append]; omega)]

theorem skip_plain (l : SignatureList) (more : Bytes)
    (h : ((l.bytes ++ more).drop 24).take 16 ≠ pkcs7) :
    skipOptionalDBXHeader (l.bytes ++ more) = .ok (l.bytes ++ more) := by
  have hb := l.rest_bounds
  have hlen := l.length_bytes
  unfold skipOptionalDBXHeader
  rw [if_neg (by rw [List.length_append]; omega), l.size_eq]
  simp only [h, if_false]
  split
  · rw [if_neg (by omega)]
  · rfl

/-- `LoadDBXHashes` extracts the hashes of a content, as far as there is memory. -/
theorem loadDBXHashes_ends (d : Dbx) :
    (loadDBXHashes mem d.bytes).Ends (appendAll mem [] d.hashes) := by
  have hskip : skipOptionalDBXHeader d.bytes = .ok (d.lists.flatMap SignatureList.bytes) := by
    unfold Dbx.bytes Dbx.authBytes
    cases hauth : d.auth with
    | some a => exact skip_auth a _
    | none =>
      obtain ⟨hlists, hplain⟩ := d.plain hauth
      obtain ⟨l, ls, hcons⟩ := List.exists_cons_of_ne_nil hlists
      rw [hcons] at hplain ⊢
      exact skip_plain l _ hplain
  have hne : d.bytes ≠ [] := by
    intro h
    rw [h] at hskip
    cases hskip
  rw [loadDBXHashes, if_neg hne, hskip]
  exact Exec.of_bind.mpr (loadLists_ends d.lists [])

end Loader

/-! ## The law -/

/-- The hashes that `LoadDBXHashes` extracts where there is memory. -/
def Extracts (data : Bytes) (hashes : List SHA256Hash) : Prop :=
  (loadDBXHashes (fun _ => true) data).Ends (.ok hashes)

/-- The decision is right: where there is one, an update is needed if and only if the file
and the variable have not the same hashes, in whatever order and lists. -/
def Right (mem₁ mem₂ : Mem) (file var : Bytes) : Prop :=
  ∀ need, (needDBXUpdate mem₁ mem₂ (some file) (some var)).Ends (.ok need) →
    ∀ hashes₁ hashes₂, Extracts file hashes₁ → Extracts var hashes₂ →
      (need = true ↔ ¬ hashes₁.Perm hashes₂)

section Law

variable {mem₁ mem₂ : Mem} {file var : Dbx}

theorem extracts (d : Dbx) : Extracts d.bytes d.hashes := by
  have h := @loadDBXHashes_ends (fun _ => true) d
  rcases @appendAll_nil (fun _ => true) d.hashes with ⟨-, hok⟩ | ⟨hno, -⟩
  · rwa [hok] at h
  · exact absurd (fun _ _ => rfl) hno

theorem Extracts.eq {d : Dbx} {hashes : List SHA256Hash} (h : Extracts d.bytes hashes) :
    hashes = d.hashes :=
  Out.ok.inj (h.unique (extracts d))

theorem loads_iff {d : Dbx} {mem : Mem} {hashes : List SHA256Hash} :
    (loadDBXHashes mem d.bytes).Ends (.ok hashes) ↔
      Room mem d.hashes.length ∧ hashes = d.hashes := by
  have hends := @loadDBXHashes_ends mem d
  rcases @appendAll_nil mem d.hashes with ⟨hroom, hok⟩ | ⟨hno, herr⟩
  · rw [hok] at hends
    exact ⟨fun h => ⟨hroom, Out.ok.inj (h.unique hends)⟩, fun h => by rw [h.2]; exact hends⟩
  · rw [herr] at hends
    refine ⟨fun h => ?_, fun h => absurd h.1 hno⟩
    cases h.unique hends

theorem differ_self (hashes : List SHA256Hash) : differ hashes hashes = false := by
  simp [differ]

/-- Whatever the variable, the update is not needed. -/
theorem needDBXUpdate_iff {need : Bool} (data : Bytes) :
    (needDBXUpdate mem₁ mem₂ (some file.bytes) (some data)).Ends (.ok need) ↔
      Room mem₁ file.hashes.length ∧ Room mem₂ file.hashes.length ∧ need = false := by
  unfold needDBXUpdate
  simp only [Exec.ends_bind_ok, loads_iff, Exec.ends_pure, Out.ok.injEq]
  constructor
  · rintro ⟨_, ⟨h₁, rfl⟩, _, ⟨h₂, rfl⟩, h⟩
    exact ⟨h₁, h₂, h.trans (differ_self _)⟩
  · rintro ⟨h₁, h₂, h⟩
    exact ⟨_, ⟨h₁, rfl⟩, _, ⟨h₂, rfl⟩, h.trans (differ_self _).symm⟩

end Law

/-- The decision is right exactly where the hashes are the same, or there is no decision
because memory does not suffice for those of the file. -/
theorem decision_right_iff (mem₁ mem₂ : Mem) (file var : Dbx) :
    Right mem₁ mem₂ file.bytes var.bytes ↔
      file.hashes.Perm var.hashes ∨
        ¬ (Room mem₁ file.hashes.length ∧ Room mem₂ file.hashes.length) := by
  constructor
  · intro hr
    by_cases hroom : Room mem₁ file.hashes.length ∧ Room mem₂ file.hashes.length
    · have hneed := hr false ((needDBXUpdate_iff var.bytes).mpr ⟨hroom.1, hroom.2, rfl⟩) _ _
        (extracts file) (extracts var)
      exact .inl (by simpa using hneed)
    · exact .inr hroom
  · intro h need hneed hashes₁ hashes₂ h₁ h₂
    obtain ⟨hm₁, hm₂, rfl⟩ := (needDBXUpdate_iff var.bytes).mp hneed
    rw [h₁.eq, h₂.eq]
    rcases h with h | h
    · simpa using h
    · exact absurd ⟨hm₁, hm₂⟩ h

def zeroSignature : Signature := ⟨sigSha256, Digest.zero 32, rfl⟩

theorem oneHash_fits : 28 + ([] : Bytes).length + 48 * [zeroSignature].length < 2 ^ 32 := by decide

theorem noHash_fits : 28 + ([] : Bytes).length + 48 * ([] : List Signature).length < 2 ^ 32 := by
  decide

theorem oneHash_plain : [SignatureList.hashes [] [zeroSignature] oneHash_fits] ≠ [] ∧
    (([SignatureList.hashes [] [zeroSignature] oneHash_fits].flatMap
      SignatureList.bytes).drop 24).take 16 ≠ pkcs7 := by decide +kernel

theorem noHash_plain : [SignatureList.hashes [] [] noHash_fits] ≠ [] ∧
    (([SignatureList.hashes [] [] noHash_fits].flatMap SignatureList.bytes).drop 24).take 16 ≠
      pkcs7 := by decide +kernel

/-- An update with one hash. -/
def oneHash : Dbx := ⟨none, _, fun _ => oneHash_plain⟩

/-- A variable with an empty list. -/
def noHash : Dbx := ⟨none, _, fun _ => noHash_plain⟩

/-- The hash of the update is not in the variable, and the update is not needed. -/
theorem revocation_missed : ¬ Right (fun _ => true) (fun _ => true) oneHash.bytes noHash.bytes := by
  intro h
  have hneed := h false ((needDBXUpdate_iff noHash.bytes).mpr
    ⟨fun _ _ => rfl, fun _ _ => rfl, rfl⟩) _ _ (extracts oneHash) (extracts noHash)
  have hperm : oneHash.hashes.Perm noHash.hashes := by simpa using hneed
  cases hperm.length_eq

end LsvmTools.DbxHashes
