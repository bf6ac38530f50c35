import LsvmTools.Ext2.Alloc

/-! # Block numbers of an inode

`blocksOf` says which blocks an inode owns, as a function of the content of the
blocks. Loading the block numbers delivers it; writing block pointers
establishes it. -/
namespace LsvmTools.Ext2.Pointers
open Lib.ByteString Lib.Program BlockDevice Volume Blocks Write Layout Content Access Alloc

/-! ## Reading -/

/-- The blocks below an array of pointers of the given depth; with `inc`, the
indirect blocks too. -/
def loadTree (blk : Nat → Bytes) (inc : Bool) : Nat → List Nat → List Nat
  | 0, ws => directBlockNumbers ws
  | k + 1, ws => (if inc then directBlockNumbers ws else []) ++
      (directBlockNumbers ws).flatMap fun b => loadTree blk inc k (words (blk b))

/-- The blocks below an indirect slot of an inode. -/
def slotBlocks (blk : Nat → Bytes) (inc : Bool) (k b : Nat) : List Nat :=
  if b = 0 then [] else (if inc then [b] else []) ++ loadTree blk inc k (words (blk b))

/-- The blocks an inode owns. -/
def blocksOf (blk : Nat → Bytes) (n : Inode) (inc : Bool) : List Nat :=
  directBlockNumbers (n.iBlocks 0 12) ++ slotBlocks blk inc 0 (n.iBlock 12) ++
    slotBlocks blk inc 1 (n.iBlock 13) ++ slotBlocks blk inc 2 (n.iBlock 14)

theorem loadTree_subset (blk : Nat → Bytes) (k : Nat) (ws : List Nat) :
    loadTree blk false k ws ⊆ loadTree blk true k ws := by
  induction k generalizing ws with
  | zero => exact List.Subset.refl _
  | succ k ih =>
    intro x hx
    simp only [loadTree, Bool.false_eq_true, if_false, List.nil_append, List.mem_flatMap] at hx
    obtain ⟨b, hb, hx⟩ := hx
    simp only [loadTree, if_true, List.mem_append, List.mem_flatMap]
    exact .inr ⟨b, hb, ih _ hx⟩

theorem slotBlocks_subset (blk : Nat → Bytes) (k b : Nat) :
    slotBlocks blk false k b ⊆ slotBlocks blk true k b := by
  intro x hx
  unfold slotBlocks at hx ⊢
  split at hx
  · cases hx
  · rename_i hb
    rw [if_neg hb]
    simp only [Bool.false_eq_true, if_false, List.nil_append] at hx
    exact List.mem_append_right _ (loadTree_subset _ _ _ hx)

theorem blocksOf_subset (blk : Nat → Bytes) (n : Inode) :
    blocksOf blk n false ⊆ blocksOf blk n true := by
  intro x hx
  simp only [blocksOf, List.mem_append] at hx ⊢
  rcases hx with ((h | h) | h) | h
  · exact .inl (.inl (.inl h))
  · exact .inl (.inl (.inr (slotBlocks_subset _ _ _ h)))
  · exact .inl (.inr (slotBlocks_subset _ _ _ h))
  · exact .inr (slotBlocks_subset _ _ _ h)

/-- Only the owned blocks matter. -/
theorem loadTree_congr {blk blk' : Nat → Bytes} {k : Nat} {ws : List Nat} (inc : Bool)
    (h : ∀ b ∈ loadTree blk true k ws, blk' b = blk b) :
    loadTree blk' inc k ws = loadTree blk inc k ws := by
  induction k generalizing ws with
  | zero => rfl
  | succ k ih =>
    simp only [loadTree, if_true, List.mem_append, List.mem_flatMap] at h
    have hf : ∀ b ∈ directBlockNumbers ws, loadTree blk' inc k (words (blk' b)) =
        loadTree blk inc k (words (blk b)) := by
      intro b hb
      rw [h b (.inl hb)]
      exact ih fun c hc => h c (.inr ⟨b, hb, hc⟩)
    simp only [loadTree]
    rw [List.flatMap_congr hf]

theorem slotBlocks_congr {blk blk' : Nat → Bytes} {k b : Nat} (inc : Bool)
    (h : ∀ x ∈ slotBlocks blk true k b, blk' x = blk x) :
    slotBlocks blk' inc k b = slotBlocks blk inc k b := by
  unfold slotBlocks at h ⊢
  split
  · rfl
  · rename_i hb
    rw [if_neg hb] at h
    simp only [if_true, List.cons_append, List.nil_append, List.mem_cons, forall_eq_or_imp] at h
    rw [h.1, loadTree_congr inc h.2]

theorem blocksOf_congr {blk blk' : Nat → Bytes} {n : Inode} (inc : Bool)
    (h : ∀ x ∈ blocksOf blk n true, blk' x = blk x) : blocksOf blk' n inc = blocksOf blk n inc := by
  simp only [blocksOf, List.mem_append] at h ⊢
  rw [slotBlocks_congr inc fun x hx => h x (.inl (.inl (.inr hx))),
    slotBlocks_congr inc fun x hx => h x (.inl (.inr hx)),
    slotBlocks_congr inc fun x hx => h x (.inr hx)]

variable {s t u : EXT2}

/-- The pointer blocks below an array of pointers of the given depth. -/
def nodes (blk : Nat → Bytes) : Nat → List Nat → List Nat
  | 0, _ => []
  | k + 1, ws => directBlockNumbers ws ++
      (directBlockNumbers ws).flatMap fun b => nodes blk k (words (blk b))

/-- The pointer blocks below an indirect slot of an inode. -/
def slotNodes (blk : Nat → Bytes) (k b : Nat) : List Nat :=
  if b = 0 then [] else b :: nodes blk k (words (blk b))

/-- The pointer blocks of an inode. -/
def nodesOf (blk : Nat → Bytes) (n : Inode) : List Nat :=
  slotNodes blk 0 (n.iBlock 12) ++ slotNodes blk 1 (n.iBlock 13) ++ slotNodes blk 2 (n.iBlock 14)

theorem nodes_subset (blk : Nat → Bytes) (k : Nat) (ws : List Nat) :
    nodes blk k ws ⊆ loadTree blk true k ws := by
  induction k generalizing ws with
  | zero => exact List.nil_subset _
  | succ k ih =>
    intro x hx
    simp only [nodes, List.mem_append, List.mem_flatMap] at hx
    simp only [loadTree, if_true, List.mem_append, List.mem_flatMap]
    exact hx.imp id fun ⟨b, hb, hx⟩ => ⟨b, hb, ih _ hx⟩

theorem slotNodes_subset (blk : Nat → Bytes) (k b : Nat) :
    slotNodes blk k b ⊆ slotBlocks blk true k b := by
  intro x hx
  unfold slotNodes at hx
  unfold slotBlocks
  split at hx
  · cases hx
  · rename_i hb
    rw [if_neg hb]
    rcases List.mem_cons.mp hx with rfl | hx
    · simp
    · exact List.mem_append_right _ (nodes_subset _ _ _ hx)

theorem nodesOf_subset (blk : Nat → Bytes) (n : Inode) : nodesOf blk n ⊆ blocksOf blk n true := by
  intro x hx
  simp only [nodesOf, blocksOf, List.mem_append] at hx ⊢
  rcases hx with (h | h) | h
  · exact .inl (.inl (.inr (slotNodes_subset _ _ _ h)))
  · exact .inl (.inr (slotNodes_subset _ _ _ h))
  · exact .inr (slotNodes_subset _ _ _ h)

section Load

variable {blk : Nat → Bytes}

theorem appendIndirect_eq {ws : List Nat} (inc : Bool)
    (h : ∀ b ∈ nodes blk 1 ws, readBlock s b = .ok (blk b)) :
    appendIndirectBlockNumbers s ws inc = .ok (loadTree blk inc 1 ws) := by
  simp only [nodes, List.mem_append] at h
  unfold appendIndirectBlockNumbers
  rw [Out.gather_ok (g := fun b => directBlockNumbers (words (blk b)))]
  · rfl
  · intro b hb
    rw [h b (.inl hb)]
    rfl

theorem appendDoubleIndirect_eq {ws : List Nat} (inc : Bool)
    (h : ∀ b ∈ nodes blk 2 ws, readBlock s b = .ok (blk b)) :
    appendDoubleIndirectBlockNumbers s ws inc = .ok (loadTree blk inc 2 ws) := by
  rw [nodes] at h
  simp only [List.mem_append, List.mem_flatMap] at h
  unfold appendDoubleIndirectBlockNumbers
  rw [Out.gather_ok (g := fun b => loadTree blk inc 1 (words (blk b)))]
  · rfl
  · intro b hb
    rw [h b (.inl hb)]
    exact appendIndirect_eq inc fun c hc => h c (.inr ⟨b, hb, hc⟩)

theorem loadSlot_eq {k b : Nat} (inc : Bool) {append : List Nat → Out Err (List Nat)}
    (ha : ∀ ws, (∀ x ∈ nodes blk k ws, readBlock s x = .ok (blk x)) →
      append ws = .ok (loadTree blk inc k ws))
    (h : ∀ x ∈ slotNodes blk k b, readBlock s x = .ok (blk x)) :
    loadSlot s b inc append = .ok (slotBlocks blk inc k b) := by
  unfold loadSlot slotBlocks
  split
  · rfl
  · rename_i hb
    simp only [slotNodes, hb, if_false, List.mem_cons, forall_eq_or_imp] at h
    rw [h.1, Out.ok_bind, ha _ h.2]
    rfl

/-- Where the pointer blocks can be read, loading delivers what the inode owns. -/
theorem loadBlockNumbers_of_nodes {n : Inode} (inc : Bool)
    (h : ∀ b ∈ nodesOf blk n, readBlock s b = .ok (blk b)) :
    loadBlockNumbersFromInode s n inc = .ok (blocksOf blk n inc) := by
  simp only [nodesOf, List.mem_append] at h
  have h1 := @loadSlot_eq _ blk 0 _ inc (fun ws => pure (directBlockNumbers ws))
    (fun _ _ => rfl) fun x hx => h x (.inl (.inl hx))
  have h2 := loadSlot_eq (k := 1) inc (fun ws hw => appendIndirect_eq inc hw)
    fun x hx => h x (.inl (.inr hx))
  have h3 := loadSlot_eq (k := 2) inc (fun ws hw => appendDoubleIndirect_eq inc hw)
    fun x hx => h x (.inr hx)
  unfold loadBlockNumbersFromInode
  rw [h1]
  simp only [h2, h3, Out.ok_bind, Out.pure_eq, blocksOf]

end Load

/-- Where an inode owns data blocks only, loading delivers what it owns. -/
theorem loadBlockNumbers_eq (hs : Shape s) {n : Inode} (inc : Bool)
    (h : ∀ b ∈ blocksOf (view s).block n true, (geo s).IsData b) :
    loadBlockNumbersFromInode s n inc = .ok (blocksOf (view s).block n inc) :=
  loadBlockNumbers_of_nodes inc fun b hb => readBlock_data hs (h b (nodesOf_subset _ _ hb))

/-! The converse: what loading delivers is what the inode owns. -/

theorem gather_eq_flatMap {f : Nat → Out Err (List Nat)} {g : Nat → List Nat} {bs zs : List Nat}
    (h : Out.gather f bs = .ok zs) (hf : ∀ b ∈ bs, ∀ xs, f b = .ok xs → (∀ x ∈ xs, x ∈ zs) →
      xs = g b) : zs = bs.flatMap g := by
  have key : ∀ (bs' zs' : List Nat), bs' ⊆ bs → zs' ⊆ zs → Out.gather f bs' = .ok zs' →
      zs' = bs'.flatMap g := by
    intro bs'
    induction bs' with
    | nil => intro zs' _ _ h; simpa [eq_comm] using h
    | cons b bs' ih =>
      intro zs' hb hz h
      obtain ⟨xs, ys, hx, hy, rfl⟩ := Out.gather_cons_ok.mp h
      rw [List.flatMap_cons, ← hf b (hb (by simp)) xs hx fun x hx => hz (by simp [hx]),
        ← ih ys (fun c hc => hb (by simp [hc])) (fun c hc => hz (by simp [hc])) hy]
  exact key bs zs (List.Subset.refl _) (List.Subset.refl _) h

theorem appendIndirect_inv (hs : Shape s) {ws zs : List Nat}
    (h : appendIndirectBlockNumbers s ws true = .ok zs) (hd : ∀ b ∈ zs, (geo s).IsData b) :
    zs = loadTree (view s).block true 1 ws := by
  obtain ⟨rest, hr, he⟩ := Out.bind_eq_ok.mp h
  simp only [if_true, Out.pure_eq, Out.ok.injEq] at he
  subst he
  simp only [loadTree, if_true]
  rw [← gather_eq_flatMap hr]
  intro b hb xs hx _
  rw [readBlock_data hs (hd b (List.mem_append_left _ hb))] at hx
  simpa [eq_comm] using hx

theorem appendDoubleIndirect_inv (hs : Shape s) {ws zs : List Nat}
    (h : appendDoubleIndirectBlockNumbers s ws true = .ok zs) (hd : ∀ b ∈ zs, (geo s).IsData b) :
    zs = loadTree (view s).block true 2 ws := by
  obtain ⟨rest, hr, he⟩ := Out.bind_eq_ok.mp h
  simp only [if_true, Out.pure_eq, Out.ok.injEq] at he
  subst he
  rw [loadTree]
  simp only [if_true]
  rw [← gather_eq_flatMap hr]
  intro b hb xs hx hsub
  rw [readBlock_data hs (hd b (List.mem_append_left _ hb))] at hx
  exact appendIndirect_inv hs hx fun c hc => hd c (List.mem_append_right _ (hsub c hc))

theorem loadSlot_inv (hs : Shape s) {k b : Nat} {append : List Nat → Out Err (List Nat)}
    {zs : List Nat} (ha : ∀ ws zs, append ws = .ok zs → (∀ x ∈ zs, (geo s).IsData x) →
      zs = loadTree (view s).block true k ws)
    (h : loadSlot s b true append = .ok zs) (hd : ∀ x ∈ zs, (geo s).IsData x) :
    zs = slotBlocks (view s).block true k b := by
  unfold loadSlot at h
  unfold slotBlocks
  split at h
  · rename_i hb; rw [if_pos hb]; simpa [eq_comm] using h
  · rename_i hb
    rw [if_neg hb]
    obtain ⟨block, hblock, h⟩ := Out.bind_eq_ok.mp h
    obtain ⟨rest, hr, he⟩ := Out.bind_eq_ok.mp h
    simp only [if_true, Out.pure_eq, Out.ok.injEq, List.cons_append, List.nil_append] at he
    subst he
    rw [readBlock_data hs (hd b (by simp)), Out.ok.injEq] at hblock
    subst hblock
    rw [ha _ _ hr fun x hx => hd x (by simp [hx])]
    rfl

theorem blocksOf_of_load (hs : Shape s) {n : Inode} {bs : List Nat}
    (h : loadBlockNumbersFromInode s n true = .ok bs) (hd : ∀ b ∈ bs, (geo s).IsData b) :
    bs = blocksOf (view s).block n true := by
  obtain ⟨single, h1, h⟩ := Out.bind_eq_ok.mp h
  obtain ⟨double, h2, h⟩ := Out.bind_eq_ok.mp h
  obtain ⟨triple, h3, h⟩ := Out.bind_eq_ok.mp h
  simp only [Out.pure_eq, Out.ok.injEq] at h
  subst h
  simp only [List.mem_append] at hd
  unfold blocksOf
  rw [← loadSlot_inv hs (k := 0) (fun ws zs h _ => by simpa [loadTree, eq_comm] using h) h1
      fun x hx => hd x (.inl (.inl (.inr hx))),
    ← loadSlot_inv hs (k := 1) (fun ws zs => appendIndirect_inv hs) h2
      fun x hx => hd x (.inl (.inr hx)),
    ← loadSlot_inv hs (k := 2) (fun ws zs => appendDoubleIndirect_inv hs) h3
      fun x hx => hd x (.inr hx)]

/-! ## Growing

`Grows s t ext`: on the way from `s` to `t` the free blocks `ext` were taken into
use, and nothing else changed but what they hold. -/

structure Grows (s t : EXT2) (ext : List Nat) : Prop where
  same : Same s t
  shape : Shape t
  nodup : ext.Nodup
  free : ∀ e ∈ ext, (view s).used e = false
  used : ∀ x, (view t).used x = (decide (x ∈ ext) || (view s).used x)
  block : ∀ x, x ∉ ext → (view t).block x = (view s).block x
  inode : (view t).inode = (view s).inode
  iused : (view t).iused = (view s).iused

namespace Grows

variable {ext ext' : List Nat}

theorem refl (hs : Shape s) : Grows s s [] :=
  ⟨.refl s, hs, List.nodup_nil, by simp, by simp, by simp, rfl, rfl⟩

theorem trans (h : Grows s t ext) (h' : Grows t u ext') : Grows s u (ext ++ ext') where
  same := h.same.trans h'.same
  shape := h'.shape
  nodup := by
    refine h.nodup.append h'.nodup fun x hx hx' => ?_
    have := h'.free x hx'
    rw [h.used, decide_eq_true hx] at this
    cases this
  free e he := by
    rcases List.mem_append.mp he with he | he
    · exact h.free e he
    · have := h'.free e he
      rw [h.used, Bool.or_eq_false_iff] at this
      exact this.2
  used x := by
    rw [h'.used, h.used]
    simp only [List.mem_append, Bool.decide_or]
    rw [← Bool.or_assoc, Bool.or_comm (decide (x ∈ ext'))]
  block x hx := by
    rw [List.mem_append, not_or] at hx
    rw [h'.block x hx.2, h.block x hx.1]
  inode := h'.inode.trans h.inode
  iused := h'.iused.trans h.iused

theorem of_becomes (h : Becomes s t (view s)) : Grows s t [] where
  same := h.same
  shape := h.shape
  nodup := List.nodup_nil
  free := by simp
  used x := by rw [h.holds]; simp
  block x _ := by rw [h.holds]
  inode := by rw [h.holds]
  iused := by rw [h.holds]

theorem of_setUsed {b : Nat} (hb : (view s).used b = false)
    (h : Becomes s t ((view s).setUsed b true)) : Grows s t [b] where
  same := h.same
  shape := h.shape
  nodup := List.nodup_singleton b
  free := by simpa using hb
  used x := by
    rw [h.holds]
    by_cases hx : x = b <;> simp [View.setUsed, hx]
  block x _ := by rw [h.holds]; rfl
  inode := by rw [h.holds]; rfl
  iused := by rw [h.holds]; rfl

theorem of_alloc {f : Nat → Bytes} {i : Nat} (hnd : ext.Nodup)
    (hf : ∀ b ∈ ext, (view s).used b = false) (h : Becomes s t (alloc (view s) f i ext)) :
    Grows s t ext where
  same := h.same
  shape := h.shape
  nodup := hnd
  free := hf
  used x := by rw [h.holds]; rfl
  block x hx := by rw [h.holds]; exact storeAll_of_not_mem hx
  inode := by rw [h.holds]; rfl
  iused := by rw [h.holds]; rfl

theorem isData (h : Grows s t ext) (hs : Shape s) {e : Nat} (he : e ∈ ext) : (geo s).IsData e :=
  hs.clear e (h.free e he)

/-- Writing to a block just taken into use. -/
theorem setBlock (h : Grows s t ext) {b : Nat} (hb : b ∈ ext) {d : Bytes}
    (hu : Becomes t u ((view t).setBlock b d)) : Grows s u ext where
  same := h.same.trans hu.same
  shape := hu.shape
  nodup := h.nodup
  free := h.free
  used x := by rw [hu.holds]; exact h.used x
  block x hx := by
    have hne : x ≠ b := by rintro rfl; exact hx hb
    rw [hu.holds, ← h.block x hx]
    simp [View.setBlock, hne]
  inode := by rw [hu.holds]; exact h.inode
  iused := by rw [hu.holds]; exact h.iused

theorem perm (h : Grows s t ext) (hp : ext.Perm ext') : Grows s t ext' where
  same := h.same
  shape := h.shape
  nodup := hp.nodup_iff.mp h.nodup
  free e he := h.free e (hp.mem_iff.mpr he)
  used x := by rw [h.used]; simp only [hp.mem_iff]
  block x hx := h.block x (mt hp.mem_iff.mp hx)
  inode := h.inode
  iused := h.iused

end Grows

/-- No block is free. -/
def Full (s : EXT2) : Prop := ∀ x, (view s).used x = true

theorem Grows.of_full {ext : List Nat} (h : Grows s t ext) (hf : Full s) : ext = [] := by
  cases ext with
  | nil => rfl
  | cons e ext =>
    have := h.free e (by simp)
    rw [hf e] at this
    cases this

theorem Grows.full {ext : List Nat} (h : Grows s t ext) (hf : Full s) : Full t := fun x => by
  rw [h.used, hf x, Bool.or_true]

/-! ## Writing one block -/

theorem writeBlock_spec (hs : Shape s) {b : Nat} (hb : (geo s).IsData b) {d : Bytes}
    (hd : d.length ≤ s.blockSize) :
    Prog.Runs (writeBlock b d) s fun _ t =>
      Becomes s t ((view s).setBlock b (splice ((view s).block b) 0 d)) := by
  have hput := view_put_block hs.geo hb hd
  exact ⟨(), _, writeBlock_data hs hb hd, same_put _ _ _,
    hs.of_same (same_put _ _ _) fun x hx => .inl (by rw [hput] at hx; exact hx), hput⟩

/-- Block 0 is no data block: what is written there is not part of the view. -/
theorem writeBlock_zero (hs : Shape s) {d : Bytes} (hd : d.length ≤ s.blockSize) :
    Prog.Runs (writeBlock 0 d) s fun _ t => Becomes s t (view s) := by
  have hd' : d.length ≤ (geo s).blockSize := hd
  have hb0 := hs.geo.areas_inside .super trivial
  have hgt : (geo s).blockSize ≤ (geo s).groupTable * (geo s).blockSize :=
    Nat.le_mul_of_pos_left _ (by unfold Geo.groupTable; split <;> decide)
  have hoff : s.blockOffset 0 = 0 := by
    unfold EXT2.blockOffset; rw [Nat.zero_mul]; exact u32_of_lt (by decide)
  simp only [Geo.areaOff, Geo.areaLen] at hb0
  have hrun : (writeBlock 0 d).run s = .ok () { s with dev := s.dev.store 0 d } := by
    unfold writeBlock
    rw [Prog.get_bind, if_neg (by omega), hoff, onDevice_write hs _ (by omega)]
  have hsame : Same s { s with dev := s.dev.store 0 d } := ⟨rfl, rfl, fun _ h => h.store _ _⟩
  have hload : ∀ c, (geo s).cellValid c → c ≠ .super →
      load { s with dev := s.dev.store 0 d } c = load s c := by
    intro c hc hne
    refine @readMem_writeMem_of_disjoint _ ((geo s).cellOff c) ((geo s).cellLen c) _ _ ?_
    have hap : Apart 0 ((geo s).groupTable * (geo s).blockSize) ((geo s).cellOff c)
        ((geo s).cellLen c) := by
      by_cases hbk : ∃ b, c = .block b
      · obtain ⟨b, rfl⟩ := hbk
        exact (show (geo s).IsData b from hc).apart .super trivial
      · obtain ⟨hv, h1, h2⟩ := cell_in_area hs.geo hc fun b h => hbk ⟨b, h⟩
        have ha : cellArea (geo s) c ≠ .super := by
          cases c <;> simp_all [cellArea]
        exact (hs.geo.areas_apart .super _ trivial hv fun h => ha h.symm).mono
          (Nat.le_refl _) (Nat.le_refl _) h1 h2
    unfold Apart at hap
    omega
  refine ⟨(), _, hrun, .of_same hs hsame ?_⟩
  exact viewOf_congr (fun b hb => hload (.block b) hb (by simp))
    (fun g hg => hload (.blockBitmap g) hg (by simp)) (fun i hi => hload (.inode i) hi (by simp))
    (fun g hg => hload (.inodeBitmap g) hg (by simp))

/-! ## Pointer blocks -/

theorem length_pointerBlock {B : Nat} (ws : List Nat) (hB : B ≤ 8192) :
    (pointerBlock B ws).length = B := by
  simp [pointerBlock]; omega

theorem pointerBlock_eq {B : Nat} {ws : List Nat} (hB : B ≤ 8192) (hw : 4 * ws.length ≤ B) :
    pointerBlock B ws = encWords ws ++ List.replicate (B - 4 * ws.length) 0 := by
  unfold pointerBlock
  rw [List.take_append, List.take_of_length_le (by simp; omega), List.take_replicate,
    length_encWords, Nat.min_eq_left (by omega)]

/-- The numbers stored in a pointer block are what is read from it. -/
theorem direct_pointerBlock {B : Nat} {ws : List Nat} (hB : B ≤ 8192) (hw : 4 * ws.length ≤ B)
    (h : ∀ w ∈ ws, 0 < w ∧ w < 2 ^ 32) :
    directBlockNumbers (words (pointerBlock B ws)) = ws := by
  rw [pointerBlock_eq hB hw, words_encWords_append _ _ fun w hw => (h w hw).2, words_replicate]
  unfold directBlockNumbers
  rw [List.takeWhile_append_of_pos fun w hw => by simpa using Nat.pos_iff_ne_zero.mp (h w hw).1]
  rcases (B - 4 * ws.length) / 4 with _ | k <;> simp [List.replicate_succ]

/-! ## Pieces -/

theorem pieces_spec {n : Nat} (hn : 0 < n) (fuel : Nat) (l : List Nat) (hf : l.length ≤ fuel) :
    (pieces n fuel l).flatten = l ∧ (∀ p ∈ pieces n fuel l, p ≠ [] ∧ p.length ≤ n) ∧
      ∀ m, l.length ≤ m * n → (pieces n fuel l).length ≤ m := by
  induction fuel generalizing l with
  | zero =>
    have : l = [] := List.eq_nil_of_length_eq_zero (by omega)
    subst this
    simp [pieces]
  | succ fuel ih =>
    unfold pieces
    cases l with
    | nil => simp
    | cons a l =>
      have hne : ((a :: l).take n) ≠ [] := by
        cases n with
        | zero => omega
        | succ n => simp
      obtain ⟨h1, h2, h3⟩ := ih ((a :: l).drop n) (by simp at hf ⊢; omega)
      simp only [List.isEmpty_cons, Bool.false_eq_true, if_false]
      refine ⟨by rw [List.flatten_cons, h1, List.take_append_drop], ?_, ?_⟩
      · intro p hp
        rcases List.mem_cons.mp hp with rfl | hp
        · exact ⟨hne, by simp⟩
        · exact h2 p hp
      · intro m hm
        cases m with
        | zero => simp at hm
        | succ m =>
          rw [List.length_cons]
          have := h3 m (by rw [List.length_drop, Nat.add_one_mul] at *; omega)
          omega

/-! ## Writers of pointer blocks

A writer of depth `k` stores a list of block numbers below one block, taking free
blocks for its pointer blocks. It never fails: where the free blocks run out it
ends normally, with a block number 0 somewhere. -/

/-- Whatever else changes: with the blocks `ext` as they are in `blk`, the numbers
`bs` are read below block `b`. -/
structure Stores (blk : Nat → Bytes) (k b : Nat) (bs ext : List Nat) : Prop where
  mem : b ∈ ext
  leaves : ∀ blk', (∀ e ∈ ext, blk' e = blk e) → loadTree blk' false k (words (blk' b)) = bs
  all : ∀ blk', (∀ e ∈ ext, blk' e = blk e) →
    (b :: loadTree blk' true k (words (blk' b))).Perm (ext ++ bs)

/-- Numbers that can stand in a pointer block. -/
def Storable (bs : List Nat) : Prop := ∀ b ∈ bs, 0 < b ∧ b < 2 ^ 32

def WriterSpec (B k cap : Nat) (need : List Nat → Nat) (write : List Nat → Prog EXT2 Err Nat) :
    Prop :=
  ∀ s, Shape s → s.blockSize = B → ∀ bs, bs ≠ [] → bs.length ≤ cap → Storable bs →
    Prog.Runs (write bs) s fun b t => ∃ ext, Grows s t ext ∧
      ((ext.length = need bs ∧ Stores (view t).block k b bs ext) ∨
        (ext.length < need bs ∧ Full t))

theorem isData_lt {G : Geo} (hG : G.Sound) {b : Nat} (hb : G.IsData b) : b < 2 ^ 32 := by
  have h1 := hG.volume_le
  have h2 := hG.blockSize_ge
  have h3 := Nat.mul_le_mul_left G.blocksCount h2
  have h4 := hb.lt
  omega

theorem Grows.storable {ext : List Nat} (h : Grows s t ext) (hs : Shape s) : Storable ext :=
  fun _ he => ⟨(h.isData hs he).pos, isData_lt hs.geo (h.isData hs he)⟩

/-- Later steps leave blocks in use alone. -/
theorem Grows.block_of_used {ext : List Nat} (h : Grows s t ext) {x : Nat}
    (hx : (view s).used x = true) : (view t).block x = (view s).block x :=
  h.block x fun hm => by
    have := h.free x hm
    rw [hx] at this
    cases this

theorem Grows.used_of_mem {ext : List Nat} (h : Grows s t ext) {x : Nat} (hx : x ∈ ext) :
    (view t).used x = true := by rw [h.used, decide_eq_true hx, Bool.true_or]

/-- `_GetBlock` as growth. -/
theorem getBlock_grows (hs : Shape s) : Prog.Runs getBlock s fun b t =>
    (Grows s t [b] ∧ b ≠ 0) ∨ (b = 0 ∧ t = s ∧ Full s) :=
  (getBlock_spec hs).mono fun _ _ h => h.imp (fun ⟨h1, h2, h3⟩ => ⟨.of_setUsed h2 h3, h1⟩) id

/-- Take a block and write it: with no free block, block 0 is written. -/
theorem getBlock_then_write {mid : Nat → Prog EXT2 Err (List Nat)} {s : EXT2} (hs : Shape s)
    {d : List Nat → Bytes} {total : Nat} {P : List Nat → EXT2 → List Nat → Prop}
    (hd : ∀ ws t ext, P ws t ext → (d ws).length = s.blockSize)
    (hmid : ∀ b t, Same s t → Shape t → Prog.Runs (mid b) t fun ws u =>
      ∃ ext, Grows t u ext ∧ P ws u ext ∧ (ext.length = total ∨ (ext.length < total ∧ Full u))) :
    Prog.Runs (do
      let b ← getBlock
      let ws ← mid b
      writeBlock b (d ws)
      pure b) s fun b t => ∃ ext, Grows s t (b :: ext) ∧ ext.length = total ∧
        (∃ ws u, P ws u ext ∧ (∀ x ∈ ext, (view t).block x = (view u).block x) ∧
          (view t).block b = d ws) ∨
        (∃ ext', Grows s t ext' ∧ ext'.length < 1 + total ∧ Full t) := by
  refine Prog.Runs.bind (getBlock_grows hs) fun b s1 h1 => ?_
  rcases h1 with ⟨h1, hb⟩ | ⟨rfl, rfl, hfull⟩
  · refine Prog.Runs.bind (hmid b s1 h1.same h1.shape) fun ws s2 ⟨ext, h2, hP, hlen⟩ => ?_
    have h12 := h1.trans h2
    have hbd : (geo s2).IsData b := by
      rw [h12.same.geo]; exact h12.isData hs (by simp)
    have hbs : s2.blockSize = s.blockSize := congrArg Geo.blockSize h12.same.geo
    have hdl := hd ws s2 ext hP
    refine Prog.Runs.bind (writeBlock_spec h2.shape hbd (by omega)) fun _ s3 h3 => ?_
    have h13 := h12.setBlock (by simp) h3
    refine Prog.Runs.pure ?_
    have hbnot : b ∉ ext := by
      have := h13.nodup
      simp only [List.cons_append, List.nil_append, List.nodup_cons] at this
      exact this.1
    rcases hlen with hlen | ⟨hlen, hfull⟩
    · refine ⟨ext, .inl ⟨h13, hlen, ws, s2, hP, fun x hx => ?_, ?_⟩⟩
      · have hne : x ≠ b := by rintro rfl; exact hbnot hx
        rw [h3.holds]; simp [View.setBlock, hne]
      · rw [h3.holds]
        simp only [View.setBlock, if_true]
        rw [splice_all]
        rw [length_block hbd]
        omega
    · exact ⟨[], .inr ⟨_, h13, by simp; omega, fun x => by rw [h3.holds]; exact hfull x⟩⟩
  · refine Prog.Runs.bind (hmid 0 s1 (.refl _) hs) fun ws s2 ⟨ext, h2, hP, hlen⟩ => ?_
    have hnil := h2.of_full hfull
    subst hnil
    have hbs : s2.blockSize = s1.blockSize := congrArg Geo.blockSize h2.same.geo
    have hdl := hd ws s2 [] hP
    refine Prog.Runs.bind (writeBlock_zero h2.shape (by omega)) fun _ s3 h3 => ?_
    refine Prog.Runs.pure ⟨[], .inr ⟨[], h2.trans (.of_becomes h3), by simp, ?_⟩⟩
    intro x
    rw [h3.holds]
    exact h2.full hfull x

theorem blockSize_bounds (hs : Shape s) : 1024 ≤ s.blockSize ∧ s.blockSize ≤ 8192 ∧
    4 ∣ s.blockSize := by
  have h1 : 1024 ≤ s.blockSize := hs.geo.blockSize_ge
  have h2 : s.blockSize ≤ 8192 := hs.geo.blockSize_le
  have h3 : 1024 ∣ s.blockSize := hs.geo.blockSize_dvd
  exact ⟨h1, h2, Nat.dvd_trans (by decide) h3⟩

theorem writeSingle_spec (B : Nat) :
    WriterSpec B 0 (B / 4) (fun _ => 1) writeSingleDirectBlockNumbers := by
  intro s hs hB bs hne hlen hst
  obtain ⟨h1, h2, h3⟩ := blockSize_bounds hs
  have hw : 4 * bs.length ≤ s.blockSize := by omega
  have hemp : bs.isEmpty = false := by
    cases bs with
    | nil => exact absurd rfl hne
    | cons => rfl
  unfold writeSingleDirectBlockNumbers
  refine Prog.Runs.get ?_
  rw [hemp, if_neg (by decide), if_neg (by omega)]
  refine (@getBlock_then_write (fun _ => pure bs) s hs (pointerBlock s.blockSize) 0
    (fun ws _ ext => ws = bs ∧ ext = []) ?_ ?_).mono fun b t h => ?_
  · intro ws t ext _
    exact length_pointerBlock _ h2
  · intro b t _ ht
    exact Prog.Runs.pure ⟨[], .refl ht, ⟨rfl, rfl⟩, .inl rfl⟩
  · obtain ⟨ext, ⟨hg, -, ws, u, ⟨rfl, rfl⟩, -, hb⟩ | ⟨ext', hg, hl, hf⟩⟩ := h
    · refine ⟨[b], hg, .inl ⟨rfl, by simp, ?_, ?_⟩⟩ <;> intro blk' hblk'
      · rw [hblk' b (by simp), hb, loadTree, direct_pointerBlock h2 hw hst]
      · rw [hblk' b (by simp), hb, loadTree, direct_pointerBlock h2 hw hst]
        simp
    · exact ⟨ext', hg, .inr ⟨hl, hf⟩⟩

/-- What `writePieces` stores: every piece below its own block. -/
structure PiecesStored (blk : Nat → Bytes) (k : Nat) (ws : List Nat) (ps : List (List Nat))
    (ext : List Nat) : Prop where
  storable : Storable ws
  leaves : ∀ blk', (∀ e ∈ ext, blk' e = blk e) →
    (ws.flatMap fun w => loadTree blk' false k (words (blk' w))) = ps.flatten
  all : ∀ blk', (∀ e ∈ ext, blk' e = blk e) →
    (ws ++ ws.flatMap fun w => loadTree blk' true k (words (blk' w))).Perm (ext ++ ps.flatten)

theorem PiecesStored.cons {blk blk2 : Nat → Bytes} {k b : Nat} {p : List Nat} {ext : List Nat}
    {ws : List Nat} {ps : List (List Nat)} {ext' : List Nat} (hb : Storable [b])
    (h : Stores blk k b p ext) (h' : PiecesStored blk2 k ws ps ext')
    (hk : ∀ e ∈ ext, blk2 e = blk e) :
    PiecesStored blk2 k (b :: ws) (p :: ps) (ext ++ ext') where
  storable w hw := by
    rcases List.mem_cons.mp hw with rfl | hw
    · exact hb w (by simp)
    · exact h'.storable w hw
  leaves blk' hblk := by
    rw [List.flatMap_cons, h.leaves blk' fun e he => (hblk e (by simp [he])).trans (hk e he),
      h'.leaves blk' fun e he => hblk e (by simp [he]), List.flatten_cons]
  all blk' hblk := by
    have h1 := h.all blk' fun e he => (hblk e (by simp [he])).trans (hk e he)
    have h2 := h'.all blk' fun e he => hblk e (by simp [he])
    have h3 := h1.append h2
    rw [List.flatMap_cons, List.flatten_cons]
    refine List.Perm.trans ?_ (h3.trans ?_)
    · rw [List.cons_append, List.cons_append]
      refine List.Perm.cons b ?_
      rw [← List.append_assoc, ← List.append_assoc]
      exact List.perm_append_comm.append_right _
    · simp only [List.append_assoc]
      refine List.Perm.append_left ext ?_
      rw [← List.append_assoc, ← List.append_assoc]
      exact List.perm_append_comm.append_right _

theorem writePieces_spec {B k cap : Nat} {need : List Nat → Nat}
    {write : List Nat → Prog EXT2 Err Nat} (hw : WriterSpec B k cap need write)
    (ps : List (List Nat)) :
    ∀ s, Shape s → s.blockSize = B → (∀ p ∈ ps, p ≠ [] ∧ p.length ≤ cap ∧ Storable p) →
    Prog.Runs (writePieces write ps) s fun ws t => ∃ ext, Grows s t ext ∧ ws.length = ps.length ∧
      ((ext.length = (ps.map need).sum ∧ PiecesStored (view t).block k ws ps ext) ∨
        (ext.length < (ps.map need).sum ∧ Full t)) := by
  induction ps with
  | nil =>
    intro s hs hB _
    exact Prog.Runs.pure ⟨[], .refl hs, rfl, .inl ⟨rfl, by intro w hw; simp at hw, by simp,
      by simp⟩⟩
  | cons p ps ih =>
    intro s hs hB hps
    obtain ⟨hp1, hp2, hp3⟩ := hps p (by simp)
    unfold writePieces
    refine Prog.Runs.bind (hw s hs hB p hp1 hp2 hp3) fun b t ⟨ext, hg, hres⟩ => ?_
    have hBt : t.blockSize = B := (congrArg Geo.blockSize hg.same.geo).trans hB
    refine Prog.Runs.bind (ih t hg.shape hBt fun q hq => hps q (by simp [hq]))
      fun ws u ⟨ext', hg', hl, hres'⟩ => ?_
    refine Prog.Runs.pure ⟨ext ++ ext', hg.trans hg', by simp [hl], ?_⟩
    rw [List.map_cons, List.sum_cons, List.length_append]
    rcases hres with ⟨he, hst⟩ | ⟨he, hf⟩
    · rcases hres' with ⟨he', hst'⟩ | ⟨he', hf'⟩
      · refine .inl ⟨by omega, PiecesStored.cons ?_ hst hst' fun e hm => ?_⟩
        · intro x hx
          rw [List.mem_singleton.mp hx]
          exact hg.storable hs b hst.mem
        · exact hg'.block_of_used (hg.used_of_mem hm)
      · exact .inr ⟨by omega, hf'⟩
    · have := hg'.of_full hf
      subst this
      exact .inr ⟨by simp; omega, hg'.full hf⟩

/-- A writer one level deeper. -/
theorem writeIndirect_spec {B k cap m : Nat} {need : List Nat → Nat}
    {write : List Nat → Prog EXT2 Err Nat} (hw : WriterSpec B k cap need write) (hcap : 0 < cap)
    (hm : m ≤ B / 4) :
    WriterSpec B (k + 1) (m * cap)
      (fun bs => 1 + ((pieces cap bs.length bs).map need).sum) (writeIndirect cap write) := by
  intro s hs hB bs _ hlen hst
  obtain ⟨h1, h2, h3⟩ := blockSize_bounds hs
  obtain ⟨hp1, hp2, hp3⟩ := pieces_spec hcap bs.length bs (Nat.le_refl _)
  have hcount := hp3 m hlen
  unfold writeIndirect
  refine Prog.Runs.get ?_
  refine (@getBlock_then_write (fun _ => writeAllPieces cap write bs) s hs
    (pointerBlock s.blockSize) ((pieces cap bs.length bs).map need).sum
    (fun ws u ext => ws.length ≤ m ∧ (ext.length = ((pieces cap bs.length bs).map need).sum →
      PiecesStored (view u).block k ws (pieces cap bs.length bs) ext)) ?_ ?_).mono
    fun b t h => ?_
  · intro ws t ext _
    exact length_pointerBlock _ h2
  · intro b t hsame ht
    have hBt : t.blockSize = B := (congrArg Geo.blockSize hsame.geo).trans hB
    unfold writeAllPieces
    refine Prog.Runs.bind (writePieces_spec hw _ t ht hBt fun p hp => ⟨(hp2 p hp).1, (hp2 p hp).2,
      fun x hx => hst x (by rw [← hp1]; exact List.mem_flatten.mpr ⟨p, hp, hx⟩)⟩)
      fun ws u ⟨ext, hg, hl, hres⟩ => ?_
    rw [if_neg (by omega)]
    refine Prog.Runs.pure ⟨ext, hg, ⟨by omega, fun he => ?_⟩, hres.imp And.left id⟩
    rcases hres with h | h
    · exact h.2
    · omega
  · obtain ⟨ext, ⟨hg, hl, ws, u, ⟨hws, hP⟩, hsame, hb⟩ | ⟨ext', hg, hl, hf⟩⟩ := h
    · have hps := hP hl
      have hdir := direct_pointerBlock (B := s.blockSize) h2 (by omega) hps.storable
      refine ⟨b :: ext, hg, .inl ⟨by simp; omega, by simp, ?_, ?_⟩⟩ <;> intro blk' hblk'
      · have := hps.leaves blk' fun e he => (hblk' e (by simp [he])).trans (hsame e he)
        rw [hp1] at this
        rw [hblk' b (by simp), hb, loadTree, hdir]
        simpa using this
      · have := hps.all blk' fun e he => (hblk' e (by simp [he])).trans (hsame e he)
        rw [hp1] at this
        rw [hblk' b (by simp), hb, loadTree, hdir, if_pos rfl, List.cons_append]
        exact this.cons b
    · exact ⟨ext', hg, .inr ⟨hl, hf⟩⟩

end LsvmTools.Ext2.Pointers
