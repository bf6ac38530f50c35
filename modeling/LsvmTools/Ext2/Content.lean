import LsvmTools.Ext2.Layout

/-! # What a volume holds

A `View` is a volume without its geometry: the content of the data blocks, the
inodes, and which of them are in use. Each access of the driver is described by
what it does to the view. -/
namespace LsvmTools.Ext2.Content
open Lib.ByteString Lib.Program BlockDevice Volume Blocks Layout

/-! ## Bits -/

theorem length_setBit (d : Bytes) (i : Nat) : (setBit d i).length = d.length := by simp [setBit]

theorem length_clearBit (d : Bytes) (i : Nat) : (clearBit d i).length = d.length := by
  simp [clearBit]

theorem byteAt_modify (d : Bytes) (i j : Nat) (f : UInt8 → UInt8) :
    byteAt (d.modify i f) j = if i = j ∧ j < d.length then f (byteAt d j) else byteAt d j := by
  unfold byteAt
  simp only [List.getD_eq_getElem?_getD, List.getElem?_modify]
  by_cases hj : j < d.length
  · by_cases hij : i = j <;> simp [hj, hij]
  · simp [hj]

theorem shift_bit : ∀ i j : Fin 8,
    ((1 : UInt8) <<< UInt8.ofNat i.val).toNat.testBit j.val = decide (j = i) := by decide

theorem shift_not_bit : ∀ i j : Fin 8,
    (~~~((1 : UInt8) <<< UInt8.ofNat i.val)).toNat.testBit j.val = !decide (j = i) := by decide

theorem or_bit (b : UInt8) (i j : Fin 8) :
    (b ||| 1 <<< UInt8.ofNat i.val).toNat.testBit j.val =
      (decide (j = i) || b.toNat.testBit j.val) := by
  rw [UInt8.toNat_or, Nat.testBit_or, shift_bit, Bool.or_comm]

theorem and_not_bit (b : UInt8) (i j : Fin 8) :
    (b &&& ~~~(1 <<< UInt8.ofNat i.val)).toNat.testBit j.val =
      (!decide (j = i) && b.toNat.testBit j.val) := by
  rw [UInt8.toNat_and, Nat.testBit_and, shift_not_bit, Bool.and_comm]

theorem testBit_setBit {d : Bytes} {i : Nat} (hi : i < d.length * 8) (j : Nat) :
    testBit (setBit d i) j = (decide (j = i) || testBit d j) := by
  simp only [testBit, setBit, byteAt_modify]
  by_cases hq : i / 8 = j / 8
  · rw [if_pos ⟨hq, by omega⟩, or_bit (byteAt d (j / 8)) ⟨i % 8, by omega⟩ ⟨j % 8, by omega⟩]
    have h : (j % 8 = i % 8) ↔ j = i := by omega
    simp [h]
  · rw [if_neg fun h => hq h.1, decide_eq_false (show j ≠ i by rintro rfl; exact hq rfl),
      Bool.false_or]

theorem testBit_clearBit {d : Bytes} {i : Nat} (hi : i < d.length * 8) (j : Nat) :
    testBit (clearBit d i) j = (!decide (j = i) && testBit d j) := by
  simp only [testBit, clearBit, byteAt_modify]
  by_cases hq : i / 8 = j / 8
  · rw [if_pos ⟨hq, by omega⟩, and_not_bit (byteAt d (j / 8)) ⟨i % 8, by omega⟩ ⟨j % 8, by omega⟩]
    have h : (j % 8 = i % 8) ↔ j = i := by omega
    simp [h]
  · rw [if_neg fun h => hq h.1, decide_eq_false (show j ≠ i by rintro rfl; exact hq rfl)]
    simp

/-! ## Views -/

structure View where
  block : Nat → Bytes
  used : Nat → Bool
  inode : Nat → Inode
  iused : Nat → Bool

namespace View

variable (v : View)

def setBlock (b : Nat) (d : Bytes) : View :=
  { v with block := fun x => if x = b then d else v.block x }

def setUsed (b : Nat) (u : Bool) : View :=
  { v with used := fun x => if x = b then u else v.used x }

def setInode (i : Nat) (n : Inode) : View :=
  { v with inode := fun x => if x = i then n else v.inode x }

def setIused (i : Nat) (u : Bool) : View :=
  { v with iused := fun x => if x = i then u else v.iused x }

end View

/-- The bytes of a cell. -/
def load (s : EXT2) (c : Cell) : Bytes :=
  readMem s.dev.data ((geo s).cellOff c) ((geo s).cellLen c)

/-- An inode with the given bytes on the device; the rest of the structure is not
initialised. -/
def inodeOf (uninit : Nat → UInt8) (raw : Bytes) : Inode :=
  ⟨(raw ++ readMem uninit raw.length (256 - raw.length)).take 256, by simp; omega⟩

open Classical in
/-- Blocks and inodes that cannot be used count as used and empty. -/
noncomputable def viewOf (G : Geo) (uninit : Nat → UInt8) (ld : Cell → Bytes) : View where
  block b := if G.IsData b then ld (.block b) else []
  used b := if G.Covered b then testBit (ld (.blockBitmap (G.blkGroup b))) (G.blkPlace b) else true
  inode i := inodeOf uninit (if G.InoValid i then ld (.inode i) else [])
  iused i := if G.InoValid i then testBit (ld (.inodeBitmap (G.inoGroup i))) (G.inoPlace i) else true

noncomputable def view (s : EXT2) : View := viewOf (geo s) s.uninit (load s)

/-- A volume whose metadata is laid out soundly, on a device where all of it can be
accessed. A block whose bit is clear can hold file data. -/
structure Shape (s : EXT2) : Prop where
  geo : (geo s).Sound
  dev : BlockDevice.Sound s.dev ((Layout.geo s).blocksCount * s.blockSize / 512)
  clear : ∀ b, (view s).used b = false → (Layout.geo s).IsData b

/-- What no operation changes. -/
structure Same (s t : EXT2) : Prop where
  geo : geo t = geo s
  uninit : t.uninit = s.uninit
  dev : ∀ k, BlockDevice.Sound s.dev k → BlockDevice.Sound t.dev k

theorem Same.refl (s : EXT2) : Same s s := ⟨rfl, rfl, fun _ h => h⟩

theorem Same.trans {s t u : EXT2} (h : Same s t) (h' : Same t u) : Same s u :=
  ⟨h'.geo.trans h.geo, h'.uninit.trans h.uninit, fun k hk => h'.dev k (h.dev k hk)⟩

theorem Shape.of_same {s t : EXT2} (hs : Shape s) (h : Same s t)
    (hc : ∀ b, (view t).used b = false → (view s).used b = false ∨ (Layout.geo s).IsData b) :
    Shape t where
  geo := by rw [h.geo]; exact hs.geo
  dev := by
    have hb : t.blockSize = s.blockSize := congrArg Geo.blockSize h.geo
    rw [h.geo, hb]
    exact h.dev _ hs.dev
  clear b hb := by
    rw [h.geo]
    exact (hc b hb).elim (hs.clear b) id

/-! ## Storing a cell -/

/-- The volume with bytes stored at the start of a cell. -/
def put (s : EXT2) (c : Cell) (b : Bytes) : EXT2 :=
  { s with dev := s.dev.store ((geo s).cellOff c) b }

theorem same_put (s : EXT2) (c : Cell) (b : Bytes) : Same s (put s c b) :=
  ⟨rfl, rfl, fun _ h => h.store _ _⟩

variable {s : EXT2}

theorem load_put (c : Cell) {b : Bytes} (h : b.length ≤ (geo s).cellLen c) :
    load (put s c b) c = splice (load s c) 0 b := by
  have := @readMem_writeMem_inside s.dev.data ((geo s).cellOff c) ((geo s).cellLen c) 0 b (by omega)
  rw [Nat.add_zero] at this
  exact this

theorem load_put_all (c : Cell) {b : Bytes} (h : b.length = (geo s).cellLen c) :
    load (put s c b) c = b := by
  rw [load_put c (by omega), splice_all (by simp [load, h])]

theorem load_put_ne (hs : (geo s).Sound) {c c' : Cell} (hc : (geo s).cellValid c)
    (hc' : (geo s).cellValid c') (hne : c' ≠ c) {b : Bytes} (h : b.length ≤ (geo s).cellLen c) :
    load (put s c b) c' = load s c' := by
  have ha := cells_apart hs hc hc' fun h => hne h.symm
  unfold Apart at ha
  have happ : (geo s).cellOff c + b.length ≤ (geo s).cellOff c' ∨
      (geo s).cellOff c' + (geo s).cellLen c' ≤ (geo s).cellOff c := by omega
  exact readMem_writeMem_of_disjoint happ

/-- The counters are not part of the view. -/
theorem view_congr {t : EXT2} (hg : geo t = geo s) (hu : t.uninit = s.uninit)
    (hd : t.dev.data = s.dev.data) : view t = view s := by
  have hl : load t = load s := by funext c; simp only [load, hg, hd]
  simp only [view, hg, hu, hl]

theorem covered_group {G : Geo} {b : Nat} (hb : G.Covered b) : G.blkGroup b < G.groupCount := by
  obtain ⟨h1, h2⟩ := hb
  exact Nat.div_lt_of_lt_mul (by rw [Nat.mul_comm]; omega)

section Stores

variable {G : Geo} {u : Nat → UInt8} {ld ld' : Cell → Bytes}

theorem viewOf_congr (hb : ∀ b, G.IsData b → ld' (.block b) = ld (.block b))
    (hbb : ∀ g, g < G.groupCount → ld' (.blockBitmap g) = ld (.blockBitmap g))
    (hi : ∀ i, G.InoValid i → ld' (.inode i) = ld (.inode i))
    (hib : ∀ g, g < G.groupCount → ld' (.inodeBitmap g) = ld (.inodeBitmap g)) :
    viewOf G u ld' = viewOf G u ld := by
  simp only [viewOf, View.mk.injEq]
  refine ⟨?_, ?_, ?_, ?_⟩ <;> funext i
  · split
    · rename_i h; exact hb i h
    · rfl
  · split
    · rename_i h; rw [hbb _ (covered_group h)]
    · rfl
  · split
    · rename_i h; rw [hi i h]
    · rfl
  · split
    · rename_i h; rw [hib _ (inoGroup_lt h)]
    · rfl

end Stores

/-- What a store in one cell does to the view is seen by that cell alone. -/
theorem view_put (hs : (geo s).Sound) {c : Cell} (hc : (geo s).cellValid c) {b : Bytes}
    (h : b.length ≤ (geo s).cellLen c) :
    view (put s c b) =
      viewOf (geo s) s.uninit (fun c' => if c' = c then splice (load s c) 0 b else load s c') := by
  have hl : ∀ c', (geo s).cellValid c' →
      load (put s c b) c' = if c' = c then splice (load s c) 0 b else load s c' := by
    intro c' hc'
    split
    · rename_i he; rw [he, load_put c h]
    · rename_i he; rw [load_put_ne hs hc hc' he h]
  exact viewOf_congr (fun b hb => hl (.block b) hb) (fun g hg => hl (.blockBitmap g) hg)
    (fun i hi => hl (.inode i) hi) (fun g hg => hl (.inodeBitmap g) hg)

theorem view_put_super (hs : (geo s).Sound) {b : Bytes} (h : b.length ≤ 1024) :
    view (put s .super b) = view s := by
  rw [view_put hs (show (geo s).cellValid .super from trivial) h]
  exact viewOf_congr (by simp) (by simp) (by simp) (by simp)

theorem view_put_group (hs : (geo s).Sound) {g : Nat} (hg : g < (geo s).groupCount) {b : Bytes}
    (h : b.length ≤ 32) : view (put s (.group g) b) = view s := by
  rw [view_put hs (show (geo s).cellValid (.group g) from hg) h]
  exact viewOf_congr (by simp) (by simp) (by simp) (by simp)

theorem view_block {b : Nat} (hb : (geo s).IsData b) : (view s).block b = load s (.block b) :=
  if_pos hb

theorem view_inode {i : Nat} (hi : (geo s).InoValid i) :
    (view s).inode i = inodeOf s.uninit (load s (.inode i)) := by
  simp only [view, viewOf, if_pos hi]

theorem view_put_block (hs : (geo s).Sound) {x : Nat} (hx : (geo s).IsData x) {b : Bytes}
    (h : b.length ≤ (geo s).blockSize) :
    view (put s (.block x) b) = (view s).setBlock x (splice ((view s).block x) 0 b) := by
  rw [view_put hs (show (geo s).cellValid (.block x) from hx) h, view_block hx]
  simp only [view, viewOf, View.setBlock, reduceCtorEq, if_false, View.mk.injEq, and_self,
    and_true, Cell.block.injEq]
  funext y
  by_cases hy : y = x
  · subst hy; simp [hx]
  · simp [hy]

/-- An inode as it is read back after it has been written. -/
def trim (s : EXT2) (n : Inode) : Inode := inodeOf s.uninit (n.raw.take s.sb.sInodeSize)

/-- The fields of an inode lie in its first 128 bytes. -/
theorem trim_le32 (hs : (geo s).Sound) (n : Inode) {i : Nat} (hi : i + 4 ≤ 128) :
    le32 (trim s n).raw i = le32 n.raw i := by
  have h1 : 128 ≤ s.sb.sInodeSize := hs.inodeSize_ge
  have h2 : s.sb.sInodeSize ≤ 256 := hs.inodeSize_le
  unfold trim inodeOf
  rw [le32_take (by omega), le32_append_left (by rw [List.length_take, n.size]; omega),
    le32_take (by omega)]

theorem trim_le16 (hs : (geo s).Sound) (n : Inode) {i : Nat} (hi : i + 2 ≤ 128) :
    le16 (trim s n).raw i = le16 n.raw i := by
  have h1 : 128 ≤ s.sb.sInodeSize := hs.inodeSize_ge
  have h2 : s.sb.sInodeSize ≤ 256 := hs.inodeSize_le
  unfold trim inodeOf
  rw [le16_take (by omega), le16_append_left (by rw [List.length_take, n.size]; omega),
    le16_take (by omega)]

theorem trim_iMode (hs : (geo s).Sound) (n : Inode) : (trim s n).iMode = n.iMode :=
  trim_le16 hs n (by decide)

theorem trim_iSize (hs : (geo s).Sound) (n : Inode) : (trim s n).iSize = n.iSize :=
  trim_le32 hs n (by decide)

theorem trim_iBlock (hs : (geo s).Sound) (n : Inode) {i : Nat} (hi : i < 15) :
    (trim s n).iBlock i = n.iBlock i := trim_le32 hs n (by omega)

theorem view_put_inode (hs : (geo s).Sound) {x : Nat} (hx : (geo s).InoValid x) (n : Inode) :
    view (put s (.inode x) (n.raw.take s.sb.sInodeSize)) = (view s).setInode x (trim s n) := by
  have hl : (n.raw.take s.sb.sInodeSize).length = (geo s).cellLen (.inode x) := by
    rw [List.length_take, n.size]
    exact Nat.min_eq_left s.sb.inodeSize_le
  rw [view_put hs (show (geo s).cellValid (.inode x) from hx) (Nat.le_of_eq hl),
    splice_all (by simp [load, hl])]
  simp only [view, viewOf, View.setInode, reduceCtorEq, if_false, View.mk.injEq, true_and,
    and_true, Cell.inode.injEq]
  funext y
  by_cases hy : y = x
  · subst hy; simp [hx, trim]
  · simp [hy]

theorem view_put_blockBitmap (hs : (geo s).Sound) {g : Nat} (hg : g < (geo s).groupCount)
    {bm : Bytes} (h : bm.length = (geo s).blocksPerGroup / 8) :
    view (put s (.blockBitmap g) bm) = { view s with
      used := fun x =>
        if (geo s).Covered x ∧ (geo s).blkGroup x = g then testBit bm ((geo s).blkPlace x)
        else (view s).used x } := by
  rw [view_put hs (show (geo s).cellValid (.blockBitmap g) from hg) (Nat.le_of_eq h),
    splice_all (by simp [load, h, Geo.cellLen])]
  simp only [view, viewOf, reduceCtorEq, if_false, Cell.blockBitmap.injEq, View.mk.injEq,
    true_and, and_true]
  funext x
  by_cases hx : (geo s).Covered x <;> by_cases hgx : (geo s).blkGroup x = g <;> simp [hx, hgx]

theorem view_put_inodeBitmap (hs : (geo s).Sound) {g : Nat} (hg : g < (geo s).groupCount)
    {bm : Bytes} (h : bm.length = (geo s).inodesPerGroup / 8) :
    view (put s (.inodeBitmap g) bm) = { view s with
      iused := fun x =>
        if (geo s).InoValid x ∧ (geo s).inoGroup x = g then testBit bm ((geo s).inoPlace x)
        else (view s).iused x } := by
  rw [view_put hs (show (geo s).cellValid (.inodeBitmap g) from hg) (Nat.le_of_eq h),
    splice_all (by simp [load, h, Geo.cellLen])]
  simp only [view, viewOf, reduceCtorEq, if_false, Cell.inodeBitmap.injEq, View.mk.injEq,
    true_and]
  funext x
  by_cases hx : (geo s).InoValid x <;> by_cases hgx : (geo s).inoGroup x = g <;> simp [hx, hgx]

end LsvmTools.Ext2.Content
