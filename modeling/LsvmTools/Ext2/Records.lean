import LsvmTools.Ext2.Ops

/-! # Directory records

A directory is a chain of records that ends where the directory does. `Chain`
says which records a buffer holds; the scans of a directory are read off it, and
rebuilding a directory keeps its records. -/
namespace LsvmTools.Ext2.Records
open Lib.ByteString Lib.Program Strings Volume Blocks Dir Write

/-- What a record says, but for its length. -/
structure Rec where
  inode : Nat
  fileType : Nat
  name : Bytes

/-- The entry that `EXT2ReadDir` makes of a record with a name. -/
def Rec.entry (r : Rec) : DirEnt := ⟨r.inode, dirType r.fileType, cstr r.name⟩

/-- The entries of a directory: records without a name are padding. -/
def entries (rs : List Rec) : List DirEnt := (rs.filter fun r => !r.name.isEmpty).map Rec.entry

/-- There is a record of length `len` at `pos`. -/
structure RecAt (mem : Bytes) (pos len : Nat) (r : Rec) : Prop where
  inside : pos + 8 + r.name.length ≤ mem.length
  inode : le32 mem pos = r.inode
  len : le16 mem (pos + 4) = len
  nameLen : (byteAt mem (pos + 6)).toNat = r.name.length
  fileType : (byteAt mem (pos + 7)).toNat = r.fileType
  name : (mem.drop (pos + 8)).take r.name.length = r.name

/-- The records from `pos` on, with their offsets; the last one ends at `stop`. -/
inductive Chain (mem : Bytes) (stop : Nat) : Nat → List (Nat × Rec) → Prop
  | nil : Chain mem stop stop []
  | cons {pos len : Nat} {r : Rec} {rs : List (Nat × Rec)} (h : RecAt mem pos len r)
      (hlen : 0 < len) (rest : Chain mem stop (pos + len) rs) : Chain mem stop pos ((pos, r) :: rs)

variable {mem : Bytes} {stop pos len : Nat} {r : Rec} {rs : List (Nat × Rec)}

theorem RecAt.head (h : RecAt mem pos len r) :
    headAt mem pos = .ok ⟨r.inode, len, r.name.length, r.fileType⟩ := by
  have := h.inside
  unfold headAt
  rw [if_pos (by omega), h.inode, h.len, h.nameLen, h.fileType]
  rfl

theorem RecAt.nameAt (h : RecAt mem pos len r) :
    nameAt mem pos r.name.length = .ok (cstr r.name) := by
  have := h.inside
  unfold Dir.nameAt
  rw [if_pos (by omega), h.name]
  rfl

theorem RecAt.nameLen_lt (h : RecAt mem pos len r) : r.name.length < 256 := by
  rw [← h.nameLen]; exact UInt8.toNat_lt _

theorem le_recSize (n : Nat) : 8 + n ≤ recSize n := by unfold recSize; omega

theorem dvd_recSize (n : Nat) : 4 ∣ recSize n := ⟨_, Nat.mul_comm _ _⟩

theorem RecAt.recSize_le (h : RecAt mem pos len r) : recSize r.name.length ≤ 264 := by
  have := h.nameLen_lt
  unfold recSize; omega

/-- A record is its header and its name. -/
theorem RecAt.copy (h : RecAt mem pos len r) {data : Bytes} {dest len' : Nat}
    (hin : dest + 8 + r.name.length ≤ data.length) (hlen : le16 data (dest + 4) = len')
    (hat : ∀ i, i < 8 + r.name.length → i < 4 ∨ 6 ≤ i →
      byteAt data (dest + i) = byteAt mem (pos + i)) : RecAt data dest len' r := by
  have hsrc := h.inside
  refine ⟨hin, ?_, hlen, ?_, ?_, ?_⟩
  · rw [← h.inode]
    exact le32_congr fun k hk => hat k (by omega) (.inl hk)
  · rw [hat 6 (by omega) (by omega)]; exact h.nameLen
  · rw [hat 7 (by omega) (by omega)]; exact h.fileType
  · refine Eq.trans (ext_byteAt ?_ fun i hi => ?_) h.name
    · rw [List.length_take, List.length_take, List.length_drop, List.length_drop]; omega
    · rw [List.length_take] at hi
      rw [byteAt_take, byteAt_take, if_pos (by omega), if_pos (by omega), byteAt_drop, byteAt_drop,
        Nat.add_assoc, Nat.add_assoc]
      exact hat _ (by omega) (by omega)

theorem RecAt.congr (h : RecAt mem pos len r) {mem' : Bytes} (hl : mem'.length = mem.length)
    (hb : ∀ i, i < pos + 8 + r.name.length → byteAt mem' i = byteAt mem i) :
    RecAt mem' pos len r := by
  have hin := h.inside
  refine h.copy (by rw [hl]; exact hin) ?_ fun i hi _ => hb _ (by omega)
  rw [← h.len]
  exact le16_congr fun k hk => hb _ (by omega)

theorem RecAt.setLen (h : RecAt mem pos len r) {len' : Nat} (hlen : len' < 2 ^ 16) :
    RecAt (put16 mem (pos + 4) len') pos len' r := by
  have hin := h.inside
  have hfit : pos + 4 + (enc16 len').length ≤ mem.length := by rw [length_enc16]; omega
  refine h.copy (by rw [put16, length_splice hfit]; exact hin) ?_ fun i hi hne => ?_
  · rw [le16_put16 hfit, u16_of_lt hlen]
  · rw [put16, byteAt_splice hfit, if_neg (by rw [length_enc16]; omega)]

/-- The header and the name of a record, put somewhere else. -/
theorem RecAt.move (h : RecAt mem pos len r) {data : Bytes} {dest : Nat}
    (hfit : dest + (8 + r.name.length) ≤ data.length) :
    RecAt (splice data dest ((mem.drop pos).take (8 + r.name.length))) dest len r := by
  have hin := h.inside
  have hlen : ((mem.drop pos).take (8 + r.name.length)).length = 8 + r.name.length := by
    rw [List.length_take, List.length_drop]; omega
  have hsize : dest + ((mem.drop pos).take (8 + r.name.length)).length ≤ data.length := by
    rw [hlen]; exact hfit
  have hat : ∀ i, i < 8 + r.name.length →
      byteAt (splice data dest ((mem.drop pos).take (8 + r.name.length))) (dest + i) =
        byteAt mem (pos + i) := by
    intro i hi
    rw [byteAt_splice hsize, if_pos (by rw [hlen]; omega), Nat.add_sub_cancel_left, byteAt_take,
      if_pos hi, byteAt_drop]
  refine h.copy (by rw [length_splice hsize]; omega) ?_ fun i hi _ => hat i hi
  rw [← h.len]
  refine le16_congr fun k hk => ?_
  rw [Nat.add_assoc, Nat.add_assoc]
  exact hat _ (by omega)

theorem Chain.le (h : Chain mem stop pos rs) : pos ≤ stop := by
  induction h with
  | nil => exact Nat.le_refl _
  | cons _ _ _ ih => omega

theorem Chain.length_le (h : Chain mem stop pos rs) : pos + rs.length ≤ stop := by
  induction h with
  | nil => simp
  | cons _ _ _ ih => simp; omega

theorem Chain.nil_iff (h : Chain mem stop pos rs) : rs = [] ↔ stop ≤ pos := by
  cases h with
  | nil => simp
  | cons h1 h2 h3 => have := h3.le; simp; omega

theorem Chain.lt (h : Chain mem stop pos ((pos, r) :: rs)) : pos < stop := by
  have := h.length_le
  simp at this; omega

/-! ## Scans -/

theorem readDirFrom_eq (h : Chain mem stop pos rs) {fuel : Nat} (hf : stop - pos ≤ fuel) :
    readDirFrom mem stop fuel pos = .ok (entries (rs.map Prod.snd)) := by
  induction h generalizing fuel with
  | nil => cases fuel <;> simp [readDirFrom, entries]
  | @cons pos len r rs hr hlen rest ih =>
    have hlt := (Chain.cons hr hlen rest).lt
    cases fuel with
    | zero => omega
    | succ fuel =>
      have ihr := @ih fuel (by omega)
      have h0 : len ≠ 0 := by omega
      unfold readDirFrom
      rw [if_neg (by omega), hr.head, Out.ok_bind]
      simp only [h0, if_false]
      by_cases hn : r.name = []
      · simp only [hn, List.length_nil, if_true]
        rw [ihr]
        simp [entries, hn]
      · have hl : r.name.length ≠ 0 := by simpa using hn
        simp only [hl, if_false]
        rw [hr.nameAt, Out.ok_bind, ihr, Out.ok_bind, Out.pure_eq]
        simp [entries, hn, Rec.entry]

theorem findDirectoryEntryFrom_eq (h : Chain mem stop pos rs) (name : Bytes) {fuel : Nat}
    (hf : stop - pos ≤ fuel) :
    findDirectoryEntryFrom name mem stop fuel pos =
      .ok ((rs.find? fun r => decide (cstr r.2.name = name)).map Prod.fst) := by
  induction h generalizing fuel with
  | nil => cases fuel <;> simp [findDirectoryEntryFrom]
  | @cons pos len r rs hr hlen rest ih =>
    have hlt := (Chain.cons hr hlen rest).lt
    cases fuel with
    | zero => omega
    | succ fuel =>
      unfold findDirectoryEntryFrom
      rw [if_neg (by omega), hr.head, Out.ok_bind, hr.nameAt, Out.ok_bind]
      by_cases hn : cstr r.name = name
      · simp [hn]
      · simp only [hn, if_false]
        rw [ih (by omega), List.find?_cons_of_neg (by simpa using hn)]

theorem countDirectoryEntriesFrom_eq (h : Chain mem stop pos rs) {fuel : Nat}
    (hf : stop - pos ≤ fuel) :
    countDirectoryEntriesFrom mem stop fuel pos =
      .ok (entries (rs.map Prod.snd)).length := by
  induction h generalizing fuel with
  | nil => cases fuel <;> simp [countDirectoryEntriesFrom, entries]
  | @cons pos len r rs hr hlen rest ih =>
    have hlt := (Chain.cons hr hlen rest).lt
    cases fuel with
    | zero => omega
    | succ fuel =>
      unfold countDirectoryEntriesFrom
      rw [if_neg (by omega), hr.head, Out.ok_bind, ih (by omega), Out.ok_bind, Out.pure_eq]
      by_cases hn : r.name = [] <;> simp [entries, hn]

/-! ## Records one after another -/

/-- The bytes of one record. -/
structure IsRec (R : Bytes) (r : Rec) : Prop where
  inside : 8 + r.name.length ≤ R.length
  inode : le32 R 0 = r.inode
  len : le16 R 4 = R.length
  nameLen : (byteAt R 6).toNat = r.name.length
  fileType : (byteAt R 7).toNat = r.fileType
  name : (R.drop 8).take r.name.length = r.name

/-- `p` is the records `rs` one after another. -/
def Encodes (p : Bytes) (rs : List Rec) : Prop :=
  ∃ parts : List Bytes, p = parts.flatten ∧ List.Forall₂ IsRec parts rs

theorem IsRec.recAt {R : Bytes} (h : IsRec R r) (a b : Bytes) :
    RecAt (a ++ (R ++ b)) a.length R.length r := by
  have hin := h.inside
  have hat : ∀ i, i < R.length → byteAt (a ++ (R ++ b)) (a.length + i) = byteAt R i := by
    intro i hi
    rw [byteAt_append, if_neg (by omega), byteAt_append, Nat.add_sub_cancel_left, if_pos hi]
  refine ⟨by simp; omega, ?_, ?_, ?_, ?_, ?_⟩
  · rw [← h.inode]
    refine le32_congr fun k hk => ?_
    rw [hat k (by omega), Nat.zero_add]
  · rw [← h.len]
    refine le16_congr fun k hk => ?_
    rw [Nat.add_assoc, hat _ (by omega)]
  · rw [hat 6 (by omega)]; exact h.nameLen
  · rw [hat 7 (by omega)]; exact h.fileType
  · have : (a ++ (R ++ b)).drop (a.length + 8) = R.drop 8 ++ b := by
      rw [List.drop_append, Nat.add_sub_cancel_left, List.drop_eq_nil_of_le (by omega),
        List.nil_append, List.drop_append_of_le_length (by omega)]
    rw [this, List.take_append_of_le_length (by rw [List.length_drop]; omega), h.name]

/-- The offsets of records one after another from `pos` on. -/
def offsets : Nat → List Bytes → List Nat
  | _, [] => []
  | pos, R :: parts => pos :: offsets (pos + R.length) parts

theorem length_offsets (pos : Nat) (parts : List Bytes) : (offsets pos parts).length = parts.length := by
  induction parts generalizing pos with
  | nil => rfl
  | cons R parts ih => simp [offsets, ih]

theorem chain_of_parts {parts : List Bytes} {rs : List Rec} (h : List.Forall₂ IsRec parts rs)
    (a b : Bytes) :
    Chain (a ++ (parts.flatten ++ b)) (a.length + parts.flatten.length) a.length
      ((offsets a.length parts).zip rs) := by
  induction h generalizing a with
  | nil => simpa using Chain.nil
  | @cons R r parts rs hR hparts ih =>
    have h1 := ih (a ++ R)
    have h2 : a ++ R ++ (parts.flatten ++ b) = a ++ (R ++ (parts.flatten ++ b)) := by simp
    have hin := hR.inside
    rw [h2] at h1
    simp only [offsets, List.zip_cons_cons, List.flatten_cons, List.append_assoc]
    refine .cons (hR.recAt a (parts.flatten ++ b)) (by omega) ?_
    rw [List.length_append] at h1
    rw [List.length_append, ← Nat.add_assoc]
    exact h1

theorem Encodes.chain {p : Bytes} {rs : List Rec} (h : Encodes p rs) (slack : Bytes) :
    ∃ offs : List Nat, offs.length = rs.length ∧
      Chain (p ++ slack) p.length 0 (offs.zip rs) := by
  obtain ⟨parts, rfl, hp⟩ := h
  have := chain_of_parts hp [] slack
  refine ⟨offsets 0 parts, by rw [length_offsets]; exact hp.length_eq, ?_⟩
  simpa using this

end LsvmTools.Ext2.Records
