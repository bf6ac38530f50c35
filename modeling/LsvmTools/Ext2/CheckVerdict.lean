import LsvmTools.Ext2.Check

/-! # What the consistency check reports

An inconsistency leaves `EXT2Check` with the error code of the last read, which succeeded. On a
volume that has a group the check fails only for what it cannot read. -/
namespace LsvmTools.Ext2.CheckVerdict
open Lib.ByteString Lib.Program Volume Blocks Check

/-! ## Bits -/

def clearBits (bitmap : Bytes) : Nat :=
  (List.range (bitmap.length * 8)).countP fun i => !testBit bitmap i

theorem testBit_nil (i : Nat) : testBit [] i = false := by
  rw [testBit, byteAt_nil]
  exact Nat.zero_testBit _

theorem testBit_cons_low (b : UInt8) (bitmap : Bytes) {i : Nat} (hi : i < 8) :
    testBit (b :: bitmap) i = b.toNat.testBit i := by
  rw [testBit, Nat.div_eq_of_lt hi, Nat.mod_eq_of_lt hi]
  rfl

theorem testBit_cons_high (b : UInt8) (bitmap : Bytes) (i : Nat) :
    testBit (b :: bitmap) (8 + i) = testBit bitmap i := by
  rw [testBit, Nat.add_div_left i (by decide), Nat.add_mod_left]
  rfl

/-- No bit is set behind the end. -/
theorem countP_testBit (bitmap : Bytes) {n : Nat} (hn : bitmap.length * 8 ≤ n) :
    (List.range n).countP (testBit bitmap) = countBitsN bitmap := by
  induction bitmap generalizing n with
  | nil =>
    rw [List.countP_eq_zero.mpr fun i _ => by simp [testBit_nil]]
    rfl
  | cons b bitmap ih =>
    obtain ⟨m, rfl⟩ := Nat.exists_eq_add_of_le (show 8 ≤ n by rw [List.length_cons] at hn; omega)
    rw [List.length_cons] at hn
    have hlow : (List.range 8).countP (testBit (b :: bitmap)) = countBits b :=
      List.countP_congr fun i hi => by rw [testBit_cons_low b bitmap (List.mem_range.mp hi)]
    have hhigh : (testBit (b :: bitmap)) ∘ (8 + ·) = testBit bitmap :=
      funext fun i => testBit_cons_high b bitmap i
    rw [List.range_add, List.countP_append, List.countP_map, hlow, hhigh, ih (by omega)]
    rfl

theorem clearBits_add (bitmap : Bytes) :
    clearBits bitmap + countBitsN bitmap = bitmap.length * 8 := by
  rw [← countP_testBit bitmap (Nat.le_refl _), clearBits, Nat.add_comm]
  conv => rhs; rw [← List.length_range (n := bitmap.length * 8)]
  rw [List.length_eq_countP_add_countP (testBit bitmap)]
  simp only [Bool.not_eq_true, Bool.decide_eq_false]

/-! ## A consistent volume -/

/-- What a read delivers; `d` where it fails. -/
def delivered {α : Type} (x : Out Err α) (d : α) : α :=
  match x with
  | .ok a => a
  | .err _ | .stuck => d

theorem delivered_ok {α : Type} {x : Out Err α} {a d : α} (h : x = .ok a) : delivered x d = a := by
  rw [h]
  rfl

/-- The counter is the sum of the counters of the groups, and the number of clear bits. -/
structure Agrees (read : Nat → Out Err Bytes) (free : Nat → Out Err Nat) (groups count : Nat) :
    Prop where
  counters : count = u32 ((List.range groups).map fun i => delivered (free i) 0).sum
  bitmaps : count = u32 ((List.range groups).map fun i => clearBits (delivered (read i) [])).sum

def freeBlocks (ext2 : EXT2) (i : Nat) : Out Err Nat := do
  pure (← ext2.group i).bgFreeBlocksCount

def freeInodes (ext2 : EXT2) (i : Nat) : Out Err Nat := do
  pure (← ext2.group i).bgFreeInodesCount

/-- The bit of an inode that is looked at is set. -/
def Allocated (ext2 : EXT2) (grpno lino : Nat) : Prop :=
  lino < ext2.sb.sInodesPerGroup ∧ testBit (delivered (readInodeBitmap ext2 grpno) []) lino = true ∧
    reserved lino = false

/-- Every allocated inode that can be read has a mode and, where it has a size, a first block. -/
def Live (ext2 : EXT2) : Prop :=
  ∀ grpno < ext2.groupCount, ∀ lino, Allocated ext2 grpno lino → ∀ inode,
    readInode ext2 (ext2.makeIno grpno lino) = .ok inode →
      inode.iMode ≠ 0 ∧ (inode.iSize ≠ 0 → inode.iBlock 0 ≠ 0)

structure Consistent (ext2 : EXT2) : Prop where
  blocks : Agrees (readBlockBitmap ext2) (freeBlocks ext2) ext2.groupCount ext2.sb.sFreeBlocksCount
  inodes : Agrees (readInodeBitmap ext2) (freeInodes ext2) ext2.groupCount ext2.sb.sFreeInodesCount
  live : Live ext2

/-- All that the check looks at can be read. -/
structure Readable (ext2 : EXT2) : Prop where
  blocks : ∀ i < ext2.groupCount, ∃ b n, readBlockBitmap ext2 i = .ok b ∧ freeBlocks ext2 i = .ok n
  inodes : ∀ i < ext2.groupCount, ∃ b n, readInodeBitmap ext2 i = .ok b ∧ freeInodes ext2 i = .ok n
  live : ∀ grpno < ext2.groupCount, ∀ lino, Allocated ext2 grpno lino →
    ∃ inode, readInode ext2 (ext2.makeIno grpno lino) = .ok inode

/-! ## The totals -/

section Totals

variable {read : Nat → Out Err Bytes} {free : Nat → Out Err Nat} {is : List Nat}

theorem u32_u32_add (a b : Nat) : u32 (u32 a + b) = u32 (a + b) := by
  unfold u32
  exact Nat.mod_add_mod a _ b

theorem bitmapTotals_read {t t' : Totals} (h : bitmapTotals read free t is = .ok t') :
    ∀ i ∈ is, ∃ b n, read i = .ok b ∧ free i = .ok n := by
  induction is generalizing t with
  | nil => exact fun i hi => by cases hi
  | cons i is ih =>
    obtain ⟨n, hn, h⟩ := Out.bind_eq_ok.mp h
    obtain ⟨b, hb, h⟩ := Out.bind_eq_ok.mp h
    intro j hj
    cases hj with
    | head => exact ⟨b, n, hb, hn⟩
    | tail _ hj => exact ih h j hj

theorem bitmapTotals_ok (hread : ∀ i ∈ is, ∃ b n, read i = .ok b ∧ free i = .ok n) (a b c : Nat) :
    bitmapTotals read free ⟨u32 a, u32 b, u32 c⟩ is = .ok
      ⟨u32 (a + (is.map fun i => delivered (free i) 0).sum),
        u32 (b + (is.map fun i => (delivered (read i) []).length * 8).sum),
        u32 (c + (is.map fun i => countBitsN (delivered (read i) [])).sum)⟩ := by
  induction is generalizing a b c with
  | nil => rfl
  | cons i is ih =>
    obtain ⟨bitmap, n, hb, hn⟩ := hread i List.mem_cons_self
    rw [bitmapTotals, hn, Out.ok_bind, hb, Out.ok_bind, u32_u32_add, u32_u32_add, u32_u32_add,
      ih fun j hj => hread j (List.mem_cons_of_mem i hj)]
    simp only [List.map_cons, List.sum_cons, delivered_ok hn, delivered_ok hb, Nat.add_assoc]

theorem clear_eq {a b : Nat} : u32 (u32 (b + a) + 2 ^ 32 - u32 a) = u32 b := by
  unfold u32
  omega

theorem sum_clearBits (is : List Nat) (bitmap : Nat → Bytes) :
    (is.map fun i => (bitmap i).length * 8).sum = (is.map fun i => clearBits (bitmap i)).sum +
      (is.map fun i => countBitsN (bitmap i)).sum := by
  induction is with
  | nil => rfl
  | cons i is ih =>
    have hi := clearBits_add (bitmap i)
    simp only [List.map_cons, List.sum_cons]
    omega

theorem bitmapTotals_agree {groups : Nat} (count : Nat)
    (hread : ∀ i < groups, ∃ b n, read i = .ok b ∧ free i = .ok n) :
    ∃ t, bitmapTotals read free ⟨0, 0, 0⟩ (List.range groups) = .ok t ∧
      (Agrees read free groups count ↔ count = t.nfree ∧ count = t.clear) := by
  have h0 : u32 0 = 0 := by unfold u32; rfl
  have htotals := bitmapTotals_ok (fun i hi => hread i (List.mem_range.mp hi)) 0 0 0
  rw [h0] at htotals
  refine ⟨_, htotals, ?_⟩
  simp only [Totals.clear, Nat.zero_add]
  rw [sum_clearBits, clear_eq]
  exact ⟨fun h => ⟨h.counters, h.bitmaps⟩, fun h => ⟨h.1, h.2⟩⟩

end Totals

/-! ## The inodes -/

section Inodes

variable {ext2 : EXT2} {grpno : Nat} {linos grpnos : List Nat}

theorem inodeOk_iff (inode : Inode) : inodeOk inode = true ↔
    inode.iMode ≠ 0 ∧ (inode.iSize ≠ 0 → inode.iBlock 0 ≠ 0) := by
  unfold inodeOk
  simp only [Bool.and_eq_true, Bool.or_eq_true, decide_eq_true_eq, ne_eq]
  exact and_congr_right fun _ => or_iff_not_imp_left

/-- Every inode of the scan that is looked at can be read and passes the test. -/
def Passes (ext2 : EXT2) (grpno : Nat) (bitmap : Bytes) (linos : List Nat) : Prop :=
  ∀ lino ∈ linos, testBit bitmap lino = true → reserved lino = false →
    ∃ inode, readInode ext2 (ext2.makeIno grpno lino) = .ok inode ∧ inodeOk inode = true

/-- One that can be read does not. -/
def Fails (ext2 : EXT2) (grpno : Nat) (bitmap : Bytes) (linos : List Nat) : Prop :=
  ∃ lino ∈ linos, testBit bitmap lino = true ∧ reserved lino = false ∧
    ∃ inode, readInode ext2 (ext2.makeIno grpno lino) = .ok inode ∧ inodeOk inode = false

theorem Passes.cons {bitmap : Bytes} {lino : Nat} (h : Passes ext2 grpno bitmap linos)
    (hl : testBit bitmap lino = true → reserved lino = false →
      ∃ inode, readInode ext2 (ext2.makeIno grpno lino) = .ok inode ∧ inodeOk inode = true) :
    Passes ext2 grpno bitmap (lino :: linos) := by
  intro lino' hmem
  cases hmem with
  | head => exact hl
  | tail _ hmem => exact h lino' hmem

theorem Fails.tail {bitmap : Bytes} {lino : Nat} (h : Fails ext2 grpno bitmap linos) :
    Fails ext2 grpno bitmap (lino :: linos) := by
  obtain ⟨lino', hmem, h⟩ := h
  exact ⟨lino', List.mem_cons_of_mem lino hmem, h⟩

/-- The scan counts the bits of inodes that pass, or stops at one that fails. -/
theorem checkInodes_ok {bitmap : Bytes} {m : Nat} {r : Option Nat}
    (h : checkInodes ext2 grpno bitmap (u32 m) linos = .ok r) :
    (r = some (u32 (m + linos.countP (testBit bitmap))) ∧ Passes ext2 grpno bitmap linos) ∨
      (r = none ∧ Fails ext2 grpno bitmap linos) := by
  induction linos generalizing m with
  | nil =>
    cases h
    exact .inl ⟨rfl, fun _ hmem => by cases hmem⟩
  | cons lino linos ih =>
    rw [checkInodes] at h
    cases hbit : testBit bitmap lino with
    | false =>
      rw [hbit, if_pos (by decide)] at h
      rw [List.countP_cons_of_neg (by rw [hbit]; exact Bool.false_ne_true)]
      refine (ih h).imp (fun h => ⟨h.1, h.2.cons fun hset => ?_⟩) fun h => ⟨h.1, h.2.tail⟩
      rw [hbit] at hset
      cases hset
    | true =>
      rw [hbit, if_neg (by decide), u32_u32_add] at h
      rw [List.countP_cons_of_pos hbit, Nat.add_comm _ 1, ← Nat.add_assoc]
      cases hres : reserved lino with
      | true =>
        rw [hres, if_pos rfl] at h
        refine (ih h).imp (fun h => ⟨h.1, h.2.cons fun _ hno => ?_⟩) fun h => ⟨h.1, h.2.tail⟩
        rw [hres] at hno
        cases hno
      | false =>
        rw [hres, if_neg Bool.false_ne_true] at h
        obtain ⟨inode, hread, h⟩ := Out.bind_eq_ok.mp h
        cases hok : inodeOk inode with
        | true =>
          rw [hok, if_neg (by decide)] at h
          exact (ih h).imp (fun h => ⟨h.1, h.2.cons fun _ _ => ⟨inode, hread, hok⟩⟩)
            fun h => ⟨h.1, h.2.tail⟩
        | false =>
          rw [hok, if_pos (by decide)] at h
          cases h
          exact .inr ⟨rfl, lino, List.mem_cons_self, hbit, hres, inode, hread, hok⟩

theorem checkInodes_returns {bitmap : Bytes} {m : Nat}
    (hread : ∀ lino ∈ linos, testBit bitmap lino = true → reserved lino = false →
      ∃ inode, readInode ext2 (ext2.makeIno grpno lino) = .ok inode) :
    ∃ r, checkInodes ext2 grpno bitmap m linos = .ok r := by
  induction linos generalizing m with
  | nil => exact ⟨_, rfl⟩
  | cons lino linos ih =>
    have hrest : ∀ m, ∃ r, checkInodes ext2 grpno bitmap m linos = .ok r := fun m =>
      ih fun lino' hmem => hread lino' (List.mem_cons_of_mem lino hmem)
    rw [checkInodes]
    split
    · exact hrest m
    · rename_i hbit
      split
      · exact hrest _
      · rename_i hres
        obtain ⟨inode, hinode⟩ := hread lino List.mem_cons_self (by simpa using hbit) (by simpa using hres)
        rw [hinode, Out.ok_bind]
        split
        · exact ⟨_, rfl⟩
        · exact hrest _

theorem readInodeBitmap_length {bitmap : Bytes} (h : readInodeBitmap ext2 grpno = .ok bitmap) :
    bitmap.length * 8 ≤ ext2.sb.sInodesPerGroup := by
  unfold readInodeBitmap readBitmap at h
  split at h
  · cases h
  · obtain ⟨group, -, h⟩ := Out.bind_eq_ok.mp h
    obtain ⟨block, -, h⟩ := Out.bind_eq_ok.mp h
    cases h
    rw [List.length_take]
    omega

/-- The two counts never differ. -/
theorem checkGroups_ok {m : Nat} {r : Option (Nat × Nat)}
    (h : checkGroups ext2 (u32 m) (u32 m) grpnos = .ok r) :
    ((∃ n, r = some (n, n)) ∧ ∀ grpno ∈ grpnos, ∃ bitmap, readInodeBitmap ext2 grpno = .ok bitmap ∧
      Passes ext2 grpno bitmap (List.range ext2.sb.sInodesPerGroup)) ∨
    (r = none ∧ ∃ grpno ∈ grpnos, ∃ bitmap, readInodeBitmap ext2 grpno = .ok bitmap ∧
      Fails ext2 grpno bitmap (List.range ext2.sb.sInodesPerGroup)) := by
  induction grpnos generalizing m with
  | nil =>
    cases h
    exact .inl ⟨⟨_, rfl⟩, fun _ hmem => by cases hmem⟩
  | cons grpno grpnos ih =>
    obtain ⟨bitmap, hbitmap, h⟩ := Out.bind_eq_ok.mp h
    obtain ⟨scan, hscan, h⟩ := Out.bind_eq_ok.mp h
    obtain ⟨rfl, hpass⟩ | ⟨rfl, hfail⟩ := checkInodes_ok hscan
    · rw [countP_testBit bitmap (readInodeBitmap_length hbitmap)] at h
      have h : checkGroups ext2 (u32 (u32 m + countBitsN bitmap)) (u32 (m + countBitsN bitmap)) grpnos =
        .ok r := h
      rw [u32_u32_add] at h
      refine (ih h).imp (fun h => ⟨h.1, fun grpno' hmem => ?_⟩) fun h => ⟨h.1, ?_⟩
      · cases hmem with
        | head => exact ⟨bitmap, hbitmap, hpass⟩
        | tail _ hmem => exact h.2 grpno' hmem
      · obtain ⟨grpno', hmem, h⟩ := h.2
        exact ⟨grpno', List.mem_cons_of_mem grpno hmem, h⟩
    · cases h
      exact .inr ⟨rfl, grpno, List.mem_cons_self, bitmap, hbitmap, hfail⟩

theorem checkGroups_returns {a b : Nat} (hread : ∀ grpno ∈ grpnos, ∃ bitmap,
      readInodeBitmap ext2 grpno = .ok bitmap ∧ ∀ lino, lino < ext2.sb.sInodesPerGroup →
        testBit bitmap lino = true → reserved lino = false →
          ∃ inode, readInode ext2 (ext2.makeIno grpno lino) = .ok inode) :
    ∃ r, checkGroups ext2 a b grpnos = .ok r := by
  induction grpnos generalizing a b with
  | nil => exact ⟨_, rfl⟩
  | cons grpno grpnos ih =>
    obtain ⟨bitmap, hbitmap, hlive⟩ := hread grpno List.mem_cons_self
    obtain ⟨scan, hscan⟩ := checkInodes_returns (m := b)
      fun lino hmem => hlive lino (List.mem_range.mp hmem)
    rw [checkGroups, hbitmap, Out.ok_bind, hscan, Out.ok_bind]
    cases scan with
    | none => exact ⟨_, rfl⟩
    | some m => exact ih fun grpno' hmem => hread grpno' (List.mem_cons_of_mem grpno hmem)

end Inodes

/-! ## The verdict -/

section Verdict

variable {ext2 : EXT2}

theorem leave_ok : leave ext2 = .ok () ↔ ext2.groupCount ≠ 0 := by
  unfold leave
  split
  · rename_i h
    exact ⟨fun hok => (by cases hok), fun hne => absurd h hne⟩
  · rename_i h
    exact ⟨fun _ => h, fun _ => rfl⟩

/-- The last part of the check. -/
def checkTables (ext2 : EXT2) : Out Err Unit := do
  match ← checkGroups ext2 0 0 (List.range ext2.groupCount) with
  | none => leave ext2
  | some (nbits, mbits) => if nbits ≠ mbits then leave ext2 else pure ()

/-- The check from the inode bitmaps on. -/
def checkInodeCounts (ext2 : EXT2) : Out Err Unit := do
  let inodes ← inodeTotals ext2
  if ext2.sb.sFreeInodesCount ≠ inodes.clear then leave ext2
  else if ext2.sb.sFreeInodesCount ≠ inodes.nfree then leave ext2
  else checkTables ext2

theorem check_parts (ext2 : EXT2) : check ext2 = (do
    let blocks ← blockTotals ext2
    if ext2.sb.sFreeBlocksCount ≠ blocks.nfree then leave ext2
    else if ext2.sb.sFreeBlocksCount ≠ blocks.clear then leave ext2
    else checkInodeCounts ext2) := rfl

theorem two_tests {p q : Prop} [Decidable p] [Decidable q] {k : Out Err Unit} :
    (if ¬p then leave ext2 else if ¬q then leave ext2 else k) =
      if p ∧ q then k else leave ext2 := by
  by_cases hp : p
  · by_cases hq : q
    · rw [if_neg (not_not.mpr hp), if_neg (not_not.mpr hq), if_pos ⟨hp, hq⟩]
    · rw [if_neg (not_not.mpr hp), if_pos hq, if_neg fun h => hq h.2]
  · rw [if_pos hp, if_neg fun h => hp h.1]

section Parts

variable (hread : ∀ i < ext2.groupCount, ∃ b n,
  readBlockBitmap ext2 i = .ok b ∧ freeBlocks ext2 i = .ok n)

include hread in
theorem check_agree (h : Agrees (readBlockBitmap ext2) (freeBlocks ext2) ext2.groupCount
    ext2.sb.sFreeBlocksCount) : check ext2 = checkInodeCounts ext2 := by
  obtain ⟨t, ht, hiff⟩ := bitmapTotals_agree ext2.sb.sFreeBlocksCount hread
  rw [check_parts, show blockTotals ext2 = .ok t from ht, Out.ok_bind, two_tests, if_pos (hiff.mp h)]

include hread in
theorem check_disagree (h : ¬ Agrees (readBlockBitmap ext2) (freeBlocks ext2) ext2.groupCount
    ext2.sb.sFreeBlocksCount) : check ext2 = leave ext2 := by
  obtain ⟨t, ht, hiff⟩ := bitmapTotals_agree ext2.sb.sFreeBlocksCount hread
  rw [check_parts, show blockTotals ext2 = .ok t from ht, Out.ok_bind, two_tests,
    if_neg (mt hiff.mpr h)]

end Parts

section Parts

variable (hread : ∀ i < ext2.groupCount, ∃ b n,
  readInodeBitmap ext2 i = .ok b ∧ freeInodes ext2 i = .ok n)

include hread in
theorem checkInodeCounts_agree (h : Agrees (readInodeBitmap ext2) (freeInodes ext2)
    ext2.groupCount ext2.sb.sFreeInodesCount) : checkInodeCounts ext2 = checkTables ext2 := by
  obtain ⟨t, ht, hiff⟩ := bitmapTotals_agree ext2.sb.sFreeInodesCount hread
  rw [checkInodeCounts, show inodeTotals ext2 = .ok t from ht, Out.ok_bind, two_tests,
    if_pos (hiff.mp h).symm]

include hread in
theorem checkInodeCounts_disagree (h : ¬ Agrees (readInodeBitmap ext2) (freeInodes ext2)
    ext2.groupCount ext2.sb.sFreeInodesCount) : checkInodeCounts ext2 = leave ext2 := by
  obtain ⟨t, ht, hiff⟩ := bitmapTotals_agree ext2.sb.sFreeInodesCount hread
  rw [checkInodeCounts, show inodeTotals ext2 = .ok t from ht, Out.ok_bind, two_tests,
    if_neg fun hno => h (hiff.mpr hno.symm)]

end Parts

theorem checkTables_ok {r : Option (Nat × Nat)}
    (h : checkGroups ext2 0 0 (List.range ext2.groupCount) = .ok r) :
    (checkTables ext2 = .ok () ∧ Live ext2 ∧ ∀ grpno < ext2.groupCount, ∀ lino,
      Allocated ext2 grpno lino → ∃ inode, readInode ext2 (ext2.makeIno grpno lino) = .ok inode) ∨
    (checkTables ext2 = leave ext2 ∧ ¬ Live ext2) := by
  have h0 : u32 0 = 0 := by unfold u32; rfl
  have hok := checkGroups_ok (m := 0) (by rw [h0]; exact h)
  rw [checkTables, h, Out.ok_bind]
  obtain ⟨⟨n, rfl⟩, hpass⟩ | ⟨rfl, grpno, hmem, bitmap, hbitmap, lino, hlino, hbit, hres, inode,
    hinode, hbad⟩ := hok
  · have hlive : ∀ grpno < ext2.groupCount, ∀ lino, Allocated ext2 grpno lino → ∃ inode,
        readInode ext2 (ext2.makeIno grpno lino) = .ok inode ∧ inodeOk inode = true := by
      intro grpno hlt lino hall
      obtain ⟨bitmap, hbitmap, hpass⟩ := hpass grpno (List.mem_range.mpr hlt)
      obtain ⟨hlino, hbit, hres⟩ := hall
      rw [delivered_ok hbitmap] at hbit
      exact hpass lino (List.mem_range.mpr hlino) hbit hres
    refine .inl ⟨if_neg (not_not.mpr rfl), fun grpno hlt lino hall inode hread => ?_,
      fun grpno hlt lino hall => ?_⟩
    · obtain ⟨inode', hread', hok⟩ := hlive grpno hlt lino hall
      cases hread.symm.trans hread'
      exact (inodeOk_iff inode).mp hok
    · obtain ⟨inode, hread, -⟩ := hlive grpno hlt lino hall
      exact ⟨inode, hread⟩
  · refine .inr ⟨rfl, fun hlive => ?_⟩
    have hall : Allocated ext2 grpno lino :=
      ⟨List.mem_range.mp hlino, by rw [delivered_ok hbitmap]; exact hbit, hres⟩
    have hgood := (inodeOk_iff inode).mpr (hlive grpno (List.mem_range.mp hmem) lino hall inode hinode)
    rw [hbad] at hgood
    cases hgood

theorem Readable.groups (h : Readable ext2) :
    ∃ r, checkGroups ext2 0 0 (List.range ext2.groupCount) = .ok r := by
  refine checkGroups_returns fun grpno hmem => ?_
  have hlt := List.mem_range.mp hmem
  obtain ⟨bitmap, n, hbitmap, -⟩ := h.inodes grpno hlt
  refine ⟨bitmap, hbitmap, fun lino hlino hbit hres => h.live grpno hlt lino ⟨hlino, ?_, hres⟩⟩
  rw [delivered_ok hbitmap]
  exact hbit

/-- On a volume that can be read nothing but the lack of a group makes a difference. -/
theorem check_readable (h : Readable ext2) :
    check ext2 = .ok () ↔ ext2.groupCount ≠ 0 ∨ Consistent ext2 := by
  by_cases hblocks : Agrees (readBlockBitmap ext2) (freeBlocks ext2) ext2.groupCount
    ext2.sb.sFreeBlocksCount
  · rw [check_agree h.blocks hblocks]
    by_cases hinodes : Agrees (readInodeBitmap ext2) (freeInodes ext2) ext2.groupCount
      ext2.sb.sFreeInodesCount
    · rw [checkInodeCounts_agree h.inodes hinodes]
      obtain ⟨r, hr⟩ := h.groups
      obtain ⟨hok, hlive, -⟩ | ⟨hleave, hbad⟩ := checkTables_ok hr
      · exact ⟨fun _ => .inr ⟨hblocks, hinodes, hlive⟩, fun _ => hok⟩
      · rw [hleave, leave_ok]
        exact (or_iff_left fun hc => hbad hc.live).symm
    · rw [checkInodeCounts_disagree h.inodes hinodes, leave_ok]
      exact (or_iff_left fun hc => hinodes hc.inodes).symm
  · rw [check_disagree h.blocks hblocks, leave_ok]
    exact (or_iff_left fun hc => hblocks hc.blocks).symm

/-- On a consistent volume the check succeeds for nothing but what it can read. -/
theorem check_consistent (h : Consistent ext2) : check ext2 = .ok () ↔ Readable ext2 := by
  refine ⟨fun hok => ?_, fun hread => (check_readable hread).mpr (.inr h)⟩
  rw [check_parts] at hok
  obtain ⟨t, ht, -⟩ := Out.bind_eq_ok.mp hok
  have hblocks := fun i hi => bitmapTotals_read ht i (List.mem_range.mpr hi)
  rw [← check_parts, check_agree hblocks h.blocks] at hok
  obtain ⟨t', ht', -⟩ := Out.bind_eq_ok.mp hok
  have hinodes := fun i hi => bitmapTotals_read ht' i (List.mem_range.mpr hi)
  rw [checkInodeCounts_agree hinodes h.inodes] at hok
  obtain ⟨r, hr, -⟩ := Out.bind_eq_ok.mp hok
  obtain ⟨-, -, hlive⟩ | ⟨-, hbad⟩ := checkTables_ok hr
  · exact ⟨hblocks, hinodes, hlive⟩
  · exact absurd h.live hbad

/-- A volume with a group passes whatever is wrong with it, as long as it can be read; where nothing
is wrong with it, it passes exactly if it can be read. -/
theorem check_tells_reads (ext2 : EXT2) :
    (Readable ext2 → (check ext2 = .ok () ↔ ext2.groupCount ≠ 0 ∨ Consistent ext2)) ∧
      (Consistent ext2 → (check ext2 = .ok () ↔ Readable ext2)) :=
  ⟨check_readable, check_consistent⟩

end Verdict

end LsvmTools.Ext2.CheckVerdict
