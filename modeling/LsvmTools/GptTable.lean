import LsvmTools.Guid
import LsvmTools.Lib.Program
import Mathlib.Data.Fin.Tuple.Basic
import Mathlib.Logic.Function.Basic

/-! # The partition table

`diskbio.c` keeps the table of the boot disk in memory, adds a partition to it and looks
partitions up. A slot whose type is 0 is not in use. A write behind the end of a field has no
result. -/
namespace LsvmTools.GptTable
open Lib.ByteString Lib.Program Guid

/-- `GPT_MAX_ENTRIES`. -/
abbrev gptMaxEntries : Nat := 128

/-- The number of characters of a `typeName`. -/
abbrev nameLength : Nat := 36

/-- `GPTEntry`. -/
structure GPTEntry where
  typeGUID1 : UInt64
  typeGUID2 : UInt64
  uniqueGUID1 : UInt64
  uniqueGUID2 : UInt64
  startingLBA : UInt64
  endingLBA : UInt64
  attributes : UInt64
  typeName : List UInt16
  length_typeName : typeName.length = nameLength
deriving DecidableEq

/-- The table, and the two places that hold the size of the disk: `lastUsableLBA` of the header,
and `LastBlock` of the disk, if it is open. -/
structure Gpt where
  entries : Fin gptMaxEntries → GPTEntry
  lastUsableLBA : UInt64
  lastBlock : Option UInt64

/-- A string of 16-bit characters; no character of it ends it. -/
structure WStr where
  chars : List UInt16
  noNul : (0 : UInt16) ∉ chars
deriving DecidableEq

def GPTEntry.used (e : GPTEntry) : Bool := e.typeGUID1 ≠ 0

/-- `SplitGUID`. -/
def splitGUID (guid : EfiGuid) : UInt64 × UInt64 :=
  let b (i : Nat) : UInt64 := (byteAt guid.data4 i).toUInt64
  (UInt64.ofNat guid.data1 ||| UInt64.ofNat guid.data2 <<< 32 ||| UInt64.ofNat guid.data3 <<< 48,
    b 0 ||| b 1 <<< 8 ||| b 2 <<< 16 ||| b 3 <<< 24 ||| b 4 <<< 32 ||| b 5 <<< 40 |||
      b 6 <<< 48 ||| b 7 <<< 56)

/-! ## Names -/

/-- `Wcslcpy`, where `size` counts characters. -/
def wcslcpy (dest : List UInt16) (src : WStr) (size : Nat) : Out Unit (List UInt16) :=
  if size = 0 then .ok dest
  else
    let copied := src.chars.take (size - 1) ++ [0]
    if copied.length ≤ dest.length then .ok (copied ++ dest.drop copied.length) else .stuck

/-- `sizeof(entry->typeName)`, which counts bytes. -/
def sizeofTypeName : Nat := 2 * nameLength

theorem wcslcpy_length {dest out : List UInt16} {src : WStr} {size : Nat}
    (h : wcslcpy dest src size = .ok out) : out.length = dest.length := by
  unfold wcslcpy at h
  dsimp only at h
  split_ifs at h with hs hl
  · cases h
    rfl
  · cases h
    rw [List.length_append, List.length_drop]
    omega

/-! ## Operations -/

/-- `AddPartition` puts what it fills a slot with together out of the entry before. -/
def newEntry (prev : GPTEntry) (name : WStr) (guid : EfiGuid) (firstLBA lastLBA : UInt64) :
    Out Unit GPTEntry :=
  match h : wcslcpy prev.typeName name sizeofTypeName with
  | .ok typeName => .ok
      { prev with
        uniqueGUID1 := (splitGUID guid).1
        uniqueGUID2 := (splitGUID guid).2
        startingLBA := firstLBA
        endingLBA := lastLBA
        typeName := typeName
        length_typeName := (wcslcpy_length h).trans prev.length_typeName }
  | .err e => .err e
  | .stuck => .stuck

/-- Increase the size of the disk if necessary. -/
def growDisk (g : Gpt) (lastLBA : UInt64) : Out Unit Gpt :=
  if lastLBA > g.lastUsableLBA then
    match g.lastBlock with
    | some _ => .ok { g with lastUsableLBA := lastLBA, lastBlock := some lastLBA }
    | none => .stuck
  else .ok g

/-- The entry in front of slot `i`. -/
def before (g : Gpt) (i : Fin gptMaxEntries) : GPTEntry := g.entries (i - 1)

/-- The slot at which the loop of `AddPartition` stops. -/
def availableSlot (g : Gpt) : Option (Fin gptMaxEntries) :=
  Fin.find? fun i => decide (1 ≤ i.val) && !(g.entries i).used

/-- `AddPartition`, which always returns 0. -/
def addPartition (g : Gpt) (name : WStr) (guid : EfiGuid) (firstLBA lastLBA : UInt64) :
    Out Unit Gpt :=
  match availableSlot g with
  | none => pure g
  | some i => do
    let entry ← newEntry (before g i) name guid firstLBA lastLBA
    growDisk { g with entries := Function.update g.entries i entry } lastLBA

/-- `GetGPTEntry`: the slot that `*entry` points to. -/
def getGPTEntry (g : Gpt) (partitionNumber : Nat) : Option (Fin gptMaxEntries) := do
  let i ← Fin.find? fun i => !(g.entries i).used || decide (partitionNumber = i.val + 1)
  if (g.entries i).used then some i else none

/-! ## What they are for -/

/-- The entry has the GUID and the range, and the name up to what the field has room for. -/
structure Holds (e : GPTEntry) (name : WStr) (guid : EfiGuid) (firstLBA lastLBA : UInt64) :
    Prop where
  guid : (e.uniqueGUID1, e.uniqueGUID2) = splitGUID guid
  firstLBA : e.startingLBA = firstLBA
  lastLBA : e.endingLBA = lastLBA
  name : e.typeName.takeWhile (· ≠ 0) = name.chars.take (nameLength - 1)
  ended : (0 : UInt16) ∈ e.typeName

/-- A slot that was not in use holds the partition and is found; no other entry has changed. -/
def Filled (g g' : Gpt) (name : WStr) (guid : EfiGuid) (firstLBA lastLBA : UInt64) : Prop :=
  ∃ i, (g.entries i).used = false ∧ Holds (g'.entries i) name guid firstLBA lastLBA ∧
    (∀ j, j ≠ i → g'.entries j = g.entries j) ∧ getGPTEntry g' (i.val + 1) = some i

/-- Exactly the slots in use are found by their numbers. -/
def LooksUp (g : Gpt) : Prop :=
  ∀ n i, getGPTEntry g n = some i ↔ n = i.val + 1 ∧ (g.entries i).used = true

structure TableRight (g : Gpt) (name : WStr) (guid : EfiGuid) (firstLBA lastLBA : UInt64) :
    Prop where
  inside : addPartition g name guid firstLBA lastLBA ≠ .stuck
  filled : ∀ g', addPartition g name guid firstLBA lastLBA = .ok g' →
    Filled g g' name guid firstLBA lastLBA
  looksUp : LooksUp g

/-- There is a free slot, the slots in use have no hole, the name fits into its field, and the
disk is open if it has to grow. -/
structure Manageable (g : Gpt) (name : WStr) (lastLBA : UInt64) : Prop where
  free : ∃ i, (g.entries i).used = false
  noHole : ∀ i j, i ≤ j → (g.entries j).used = true → (g.entries i).used = true
  short : name.chars.length < nameLength
  grows : lastLBA > g.lastUsableLBA → g.lastBlock ≠ none

section Name

variable {dest : List UInt16} {name : WStr}

theorem wcslcpy_long (hd : dest.length = nameLength) (h : nameLength ≤ name.chars.length) :
    wcslcpy dest name sizeofTypeName = .stuck := by
  unfold wcslcpy
  dsimp only
  rw [if_neg (by decide), if_neg]
  rw [List.length_append, List.length_take, List.length_singleton, hd, sizeofTypeName]
  omega

theorem wcslcpy_short (hd : dest.length = nameLength) (h : name.chars.length < nameLength) :
    wcslcpy dest name sizeofTypeName =
      .ok (name.chars ++ 0 :: dest.drop (name.chars.length + 1)) := by
  have htake : name.chars.take (sizeofTypeName - 1) = name.chars :=
    List.take_of_length_le (by rw [sizeofTypeName]; omega)
  unfold wcslcpy
  dsimp only
  rw [if_neg (by decide), htake, if_pos]
  · simp
  · rw [List.length_append, List.length_singleton, hd]
    exact h

theorem takeWhile_name (rest : List UInt16) :
    (name.chars ++ 0 :: rest).takeWhile (· ≠ 0) = name.chars := by
  rw [List.takeWhile_append_of_pos]
  · simp
  · intro c hc
    simpa using fun h : c = 0 => name.noNul (h ▸ hc)

end Name

section Table

variable {g g' : Gpt} {name : WStr} {guid : EfiGuid} {firstLBA lastLBA : UInt64} {prev e : GPTEntry}
  {i : Fin gptMaxEntries}

theorem newEntry_long (h : nameLength ≤ name.chars.length) :
    newEntry prev name guid firstLBA lastLBA = .stuck := by
  have hw := wcslcpy_long prev.length_typeName h
  unfold newEntry
  split
  · next heq => rw [hw] at heq; cases heq
  · next heq => rw [hw] at heq; cases heq
  · rfl

theorem newEntry_short (prev : GPTEntry) (guid : EfiGuid) (firstLBA lastLBA : UInt64)
    (h : name.chars.length < nameLength) : ∃ e, newEntry prev name guid firstLBA lastLBA = .ok e ∧
      Holds e name guid firstLBA lastLBA ∧ e.used = prev.used := by
  have hw := wcslcpy_short prev.length_typeName h
  have htake : name.chars.take (nameLength - 1) = name.chars :=
    List.take_of_length_le (Nat.le_sub_one_of_lt h)
  unfold newEntry
  split
  · next typeName heq =>
    rw [hw] at heq
    cases heq
    exact ⟨_, rfl, ⟨rfl, rfl, rfl, by rw [htake, takeWhile_name], by simp⟩, rfl⟩
  · next heq => rw [hw] at heq; cases heq
  · next heq => rw [hw] at heq; cases heq

theorem growDisk_entries (h : growDisk g lastLBA = .ok g') : g'.entries = g.entries := by
  unfold growDisk at h
  split at h
  · split at h
    · cases h
      rfl
    · cases h
  · cases h
    rfl

theorem growDisk_ok (h : lastLBA > g.lastUsableLBA → g.lastBlock ≠ none) :
    ∃ g', growDisk g lastLBA = .ok g' := by
  unfold growDisk
  split
  · next hlt =>
    cases hb : g.lastBlock with
    | none => exact absurd hb (h hlt)
    | some b => exact ⟨_, rfl⟩
  · exact ⟨_, rfl⟩

theorem growDisk_stuck (h : lastLBA > g.lastUsableLBA) (hb : g.lastBlock = none) :
    growDisk g lastLBA = .stuck := by
  unfold growDisk
  rw [if_pos h, hb]

/-- The slot that is available is the first that is not in use. -/
theorem availableSlot_some (h0 : (g.entries 0).used = true) : availableSlot g = some i ↔
    (g.entries i).used = false ∧ ∀ j < i, (g.entries j).used = true := by
  have hpos : ∀ j : Fin gptMaxEntries, (g.entries j).used = false → 1 ≤ j.val := by
    intro j hj
    by_contra hlt
    have hj0 : j = 0 := Fin.ext (by have := j.isLt; show j.val = 0; omega)
    rw [hj0, h0] at hj
    cases hj
  unfold availableSlot
  rw [Fin.find?_eq_some_iff]
  simp only [Bool.and_eq_true, decide_eq_true_eq, Bool.not_eq_eq_eq_not, Bool.not_true,
    Bool.and_eq_false_imp, Bool.not_false]
  constructor
  · rintro ⟨⟨-, hi⟩, hj⟩
    refine ⟨hi, fun j hlt => ?_⟩
    by_contra hu
    exact hu (hj j hlt (hpos j (Bool.eq_false_of_not_eq_true hu)))
  · rintro ⟨hi, hj⟩
    exact ⟨⟨hpos i hi, hi⟩, fun j hlt _ => hj j hlt⟩

theorem availableSlot_none (h0 : (g.entries 0).used = true) :
    availableSlot g = none ↔ ∀ i, (g.entries i).used = true := by
  rw [availableSlot, Fin.find?_eq_none_iff]
  simp only [Bool.and_eq_false_imp, decide_eq_true_eq, Bool.not_eq_eq_eq_not, Bool.not_false]
  constructor
  · intro h i
    by_cases hi : i = 0
    · rw [hi, h0]
    · exact h i (Nat.one_le_iff_ne_zero.mpr fun hv => hi (Fin.ext hv))
  · intro h i _
    exact h i

/-- A partition is found where its slot and all before it are in use. -/
theorem getGPTEntry_some {n : Nat} : getGPTEntry g n = some i ↔
    n = i.val + 1 ∧ ∀ j ≤ i, (g.entries j).used = true := by
  unfold getGPTEntry
  simp only [Option.bind_eq_bind, Option.bind_eq_some_iff, Option.ite_none_right_eq_some,
    Option.some.injEq]
  constructor
  · rintro ⟨k, hk, hu, rfl⟩
    obtain ⟨hp, hbefore⟩ := Fin.find?_eq_some_iff.mp hk
    refine ⟨by simpa [hu] using hp, fun j hj => ?_⟩
    rcases Fin.lt_or_eq_of_le hj with hlt | rfl
    · have h := hbefore j hlt
      simp only [Bool.or_eq_false_iff, Bool.not_eq_eq_eq_not, Bool.not_false] at h
      exact h.1
    · exact hu
  · rintro ⟨rfl, hall⟩
    refine ⟨i, Fin.find?_eq_some_iff.mpr ⟨by simp, fun j hj => ?_⟩, hall i (Fin.le_refl i), rfl⟩
    simp only [hall j (Fin.le_of_lt hj), Bool.not_true, Bool.false_or, decide_eq_false_iff_not]
    have hlt : j.val < i.val := hj
    omega

/-- The lookups are right where the slots in use have no hole. -/
theorem looksUp_iff : LooksUp g ↔
    ∀ i j, i ≤ j → (g.entries j).used = true → (g.entries i).used = true := by
  constructor
  · intro h i j hij hj
    have hfound := (h (j.val + 1) j).mpr ⟨rfl, hj⟩
    exact (getGPTEntry_some.mp hfound).2 i hij
  · intro h n i
    rw [getGPTEntry_some]
    constructor
    · rintro ⟨hn, hall⟩
      exact ⟨hn, hall i (Fin.le_refl i)⟩
    · rintro ⟨hn, hi⟩
      exact ⟨hn, fun j hj => h j i hj hi⟩

theorem addPartition_full (h0 : (g.entries 0).used = true) (h : ∀ i, (g.entries i).used = true) :
    addPartition g name guid firstLBA lastLBA = .ok g := by
  unfold addPartition
  rw [(availableSlot_none h0).mpr h]
  rfl

theorem addPartition_at (h : availableSlot g = some i) :
    addPartition g name guid firstLBA lastLBA = (do
      let entry ← newEntry (before g i) name guid firstLBA lastLBA
      growDisk { g with entries := Function.update g.entries i entry } lastLBA) := by
  unfold addPartition
  rw [h]

theorem not_filled_self : ¬ Filled g g name guid firstLBA lastLBA := by
  rintro ⟨i, hu, -, -, hfound⟩
  rw [(getGPTEntry_some.mp hfound).2 i (Fin.le_refl i)] at hu
  cases hu

theorem before_used (h0 : (g.entries 0).used = true) (h : availableSlot g = some i) :
    (before g i).used = true := by
  obtain ⟨hi, hbefore⟩ := (availableSlot_some h0).mp h
  have hpos : i ≠ 0 := by
    rintro rfl
    rw [h0] at hi
    cases hi
  exact hbefore (i - 1) (Fin.sub_one_lt_iff.mpr (Fin.pos_iff_ne_zero.mpr hpos))

/-- The first free slot is filled, if the name fits and the disk can grow. -/
theorem addPartition_free (h0 : (g.entries 0).used = true) (h : availableSlot g = some i)
    (hname : name.chars.length < nameLength)
    (hgrow : lastLBA > g.lastUsableLBA → g.lastBlock ≠ none) :
    ∃ g', addPartition g name guid firstLBA lastLBA = .ok g' ∧
      Filled g g' name guid firstLBA lastLBA := by
  obtain ⟨hi, hbefore⟩ := (availableSlot_some h0).mp h
  obtain ⟨e, he, hholds, hused⟩ :=
    newEntry_short (before g i) guid firstLBA lastLBA hname
  rw [before_used h0 h] at hused
  obtain ⟨g', hg'⟩ := growDisk_ok (g := { g with entries := Function.update g.entries i e }) hgrow
  have hentries : g'.entries = Function.update g.entries i e := growDisk_entries hg'
  refine ⟨g', ?_, i, hi, ?_, fun j hj => ?_, getGPTEntry_some.mpr ⟨rfl, fun j hj => ?_⟩⟩
  · rw [addPartition_at h, he]
    exact hg'
  · rw [hentries, Function.update_self]
    exact hholds
  · rw [hentries, Function.update_of_ne hj]
  · rw [hentries]
    rcases Fin.lt_or_eq_of_le hj with hlt | rfl
    · rw [Function.update_of_ne (Fin.ne_of_lt hlt)]
      exact hbefore j hlt
    · rw [Function.update_self, hused]

theorem addPartition_long (h : availableSlot g = some i) (hname : nameLength ≤ name.chars.length) :
    addPartition g name guid firstLBA lastLBA = .stuck := by
  rw [addPartition_at h, newEntry_long hname]
  rfl

theorem addPartition_closed (h : availableSlot g = some i)
    (hname : name.chars.length < nameLength) (hgrow : lastLBA > g.lastUsableLBA)
    (hclosed : g.lastBlock = none) : addPartition g name guid firstLBA lastLBA = .stuck := by
  obtain ⟨e, he, -⟩ := newEntry_short (before g i) guid firstLBA lastLBA hname
  rw [addPartition_at h, he]
  exact growDisk_stuck hgrow hclosed

theorem exists_available (h0 : (g.entries 0).used = true) (h : ∃ i, (g.entries i).used = false) :
    ∃ i, availableSlot g = some i := by
  cases ha : availableSlot g with
  | none =>
    obtain ⟨i, hi⟩ := h
    rw [(availableSlot_none h0).mp ha i] at hi
    cases hi
  | some i => exact ⟨i, rfl⟩

end Table

/-- Adding and looking up partitions is right if and only if the table is manageable. -/
theorem table_right_iff (g : Gpt) (name : WStr) (guid : EfiGuid) (firstLBA lastLBA : UInt64)
    (h0 : (g.entries 0).used = true) :
    TableRight g name guid firstLBA lastLBA ↔ Manageable g name lastLBA := by
  constructor
  · rintro ⟨hinside, hfilled, hlooks⟩
    have hfree : ∃ i, (g.entries i).used = false := by
      by_contra hfull
      have hall : ∀ i, (g.entries i).used = true := fun i => by
        by_contra hu
        exact hfull ⟨i, Bool.eq_false_of_not_eq_true hu⟩
      exact not_filled_self (hfilled g (addPartition_full h0 hall))
    obtain ⟨i, hi⟩ := exists_available h0 hfree
    have hshort : name.chars.length < nameLength := by
      by_contra hlong
      exact hinside (addPartition_long hi (Nat.le_of_not_lt hlong))
    exact ⟨hfree, looksUp_iff.mp hlooks, hshort, fun hgrow hclosed =>
      hinside (addPartition_closed hi hshort hgrow hclosed)⟩
  · rintro ⟨hfree, hhole, hshort, hgrow⟩
    obtain ⟨i, hi⟩ := exists_available h0 hfree
    have hadd : ∃ g', addPartition g name guid firstLBA lastLBA = .ok g' ∧
        Filled g g' name guid firstLBA lastLBA := addPartition_free h0 hi hshort hgrow
    obtain ⟨g', hg', hfill⟩ := hadd
    refine ⟨fun hs => ?_, fun g'' h => ?_, looksUp_iff.mpr hhole⟩
    · rw [hs] at hg'
      cases hg'
    · rw [hg'] at h
      cases h
      exact hfill

/-- An entry with the given type and nothing else. -/
def plainEntry (typeGUID : UInt64) : GPTEntry :=
  ⟨typeGUID, 0, 0, 0, 0, 0, 0, List.replicate nameLength 0, List.length_replicate⟩

/-- The first slots are in use, but for slot 1 where there is a hole. -/
def smallTable (hole : Bool) : Gpt where
  entries i := plainEntry (if i.val < 3 && !(hole && i.val = 1) then 1 else 0)
  lastUsableLBA := 1000
  lastBlock := some 1000

def noName : WStr := ⟨[], by decide⟩

theorem smallTable_used (i : Fin gptMaxEntries) :
    ((smallTable false).entries i).used = decide (i.val < 3) := by
  by_cases hi : i.val < 3 <;> simp [smallTable, plainEntry, GPTEntry.used, hi]

theorem small_table_right : TableRight (smallTable false) noName ⟨0, 0, 0, []⟩ 800 900 := by
  refine (table_right_iff (smallTable false) noName ⟨0, 0, 0, []⟩ 800 900 (by decide)).mpr
    ⟨⟨3, by decide⟩, fun i j hij hj => ?_, by decide, fun h => absurd h (by decide)⟩
  rw [smallTable_used, decide_eq_true_eq] at hj ⊢
  exact Nat.lt_of_le_of_lt hij hj

/-- The partition behind a hole is not found. -/
theorem hole_not_right : ((smallTable true).entries 0).used = true ∧
    ¬ TableRight (smallTable true) noName ⟨0, 0, 0, []⟩ 800 900 := by
  refine ⟨by decide, fun h => ?_⟩
  have hfound := (h.looksUp 3 2).mpr (by decide)
  exact absurd ((getGPTEntry_some.mp hfound).2 1 (by decide)) (by decide)

end LsvmTools.GptTable
