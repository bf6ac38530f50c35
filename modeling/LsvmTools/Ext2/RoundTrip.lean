import LsvmTools.Ext2.Update
import LsvmTools.Ext2.BlockAddress
import LsvmTools.Ext2.OpenSafe

/-! # Reading block pointers back

What the writers of pointer blocks have stored is what loading delivers, as long as the blocks
that the allocator delivers lie apart, where the code puts them, from one another and from what
is written after them. The runs are followed with a note of these blocks. -/
namespace LsvmTools.Ext2.RoundTrip
open Lib.ByteString Lib.Program BlockDevice Volume Blocks Write Layout Alloc Pointers Update Open

/-! ## Runs with a note of the blocks taken -/

/-- A volume and the numbers that `_GetBlock` has delivered. -/
structure Traced where
  ext2 : EXT2
  taken : List Nat

variable {α β : Type}

/-- A step of the volume. -/
def onVolume (m : Prog EXT2 Err α) : Prog Traced Err α where
  exec w := match m.run w.ext2 with
    | .ok a t => .ok a { w with ext2 := t }
    | .err e t => .err e { w with ext2 := t }
    | .stuck => .stuck

theorem onVolume_run (m : Prog EXT2 Err α) (w : Traced) :
    (onVolume m).run w = match m.run w.ext2 with
      | .ok a t => .ok a { w with ext2 := t }
      | .err e t => .err e { w with ext2 := t }
      | .stuck => .stuck := rfl

/-- `_GetBlock`. -/
def takeBlock : Prog Traced Err Nat := do
  let blkno ← onVolume getBlock
  Prog.modify fun w => { w with taken := w.taken ++ [blkno] }
  pure blkno

/-- `_WriteSingleDirectBlockNumbers`. -/
def writeSingle (blknos : List Nat) : Prog Traced Err Nat := do
  let w ← Prog.get
  if blknos.isEmpty then Prog.throw .invalidParameter
  else if blknos.length > w.ext2.blockSize / 4 then Prog.throw .bufferOverflow
  else do
    let blkno ← takeBlock
    onVolume (writeBlock blkno (pointerBlock w.ext2.blockSize blknos))
    pure blkno

def writeEach (write : List Nat → Prog Traced Err Nat) :
    List (List Nat) → Prog Traced Err (List Nat)
  | [] => pure []
  | p :: ps => do
    let blkno ← write p
    let rest ← writeEach write ps
    pure (blkno :: rest)

def writeAll (perPiece : Nat) (write : List Nat → Prog Traced Err Nat) (blknos : List Nat) :
    Prog Traced Err (List Nat) := do
  let ws ← writeEach write (pieces perPiece blknos.length blknos)
  if 2048 < ws.length then Prog.stuck else pure ws

/-- `_WriteIndirectBlockNumbers`. -/
def writeBelow (perPiece : Nat) (write : List Nat → Prog Traced Err Nat) (blknos : List Nat) :
    Prog Traced Err Nat := do
  let w ← Prog.get
  let blkno ← takeBlock
  let ws ← writeAll perPiece write blknos
  onVolume (writeBlock blkno (pointerBlock w.ext2.blockSize ws))
  pure blkno

def writeDouble (blknos : List Nat) : Prog Traced Err Nat := do
  let w ← Prog.get
  let perBlock := w.ext2.blockSize / 4
  if blknos.isEmpty then Prog.throw .invalidParameter
  else if blknos.length > u32 (perBlock * perBlock) then Prog.throw .bufferOverflow
  else writeBelow perBlock writeSingle blknos

def writeTriple (blknos : List Nat) : Prog Traced Err Nat := do
  let w ← Prog.get
  let perBlock := w.ext2.blockSize / 4
  if blknos.isEmpty then Prog.throw .invalidParameter
  else writeBelow (u32 (perBlock * perBlock)) writeDouble blknos

def fillSlot (slot : Nat) (write : List Nat → Prog Traced Err Nat) (blknos : List Nat)
    (inode : Inode) : Prog Traced Err Inode :=
  if blknos.isEmpty then pure inode
  else do
    let blkno ← write blknos
    pure (inode.setBlocks slot [blkno])

/-- `_UpdateInodeBlockPointers`, the inode as it leaves it. -/
def updatePointers (ino : Nat) (inode : Inode) (size : Nat) (blknos : List Nat) :
    Prog Traced Err Inode := do
  let w ← Prog.get
  let perBlock := w.ext2.blockSize / 4
  let perDouble := u32 (perBlock * perBlock)
  let inode := (inode.setSize size).setBlocks 0 (blknos.take 12)
  let rest := blknos.drop 12
  let inode ← fillSlot 12 writeSingle (rest.take perBlock) inode
  let rest := rest.drop perBlock
  let inode ← fillSlot 13 writeDouble (rest.take perDouble) inode
  let inode ← fillSlot 14 writeTriple (rest.drop perDouble) inode
  onVolume (writeInode ino inode)
  pure inode

/-! ### Without the note, they are the runs of the volume -/

/-- The result of a run without the note. -/
def forget (f : α → β) : Res Traced Err α → Res EXT2 Err β
  | .ok a w => .ok (f a) w.ext2
  | .err e w => .err e w.ext2
  | .stuck => .stuck

/-- Run at `w`, `m` does to the volume what `m'` does. -/
def Follows (w : Traced) (f : α → β) (m : Prog Traced Err α) (m' : Prog EXT2 Err β) : Prop :=
  forget f (m.run w) = m'.run w.ext2

section Follows

variable {α' β' : Type} {w : Traced} {f : α → β} {f' : α' → β'} {m : Prog Traced Err α}
  {m' : Prog EXT2 Err β}

theorem Follows.onVolume (m : Prog EXT2 Err α) : Follows w id (onVolume m) m := by
  unfold Follows
  rw [onVolume_run]
  cases m.run w.ext2 <;> rfl

theorem Follows.bind {k : α → Prog Traced Err α'} {k' : β → Prog EXT2 Err β'}
    (h : Follows w f m m') (hk : ∀ a w, Follows w f' (k a) (k' (f a))) :
    Follows w f' (m >>= k) (m' >>= k') := by
  unfold Follows at h ⊢
  rw [Prog.run_bind, Prog.run_bind, ← h]
  cases m.run w with
  | ok a t => exact hk a t
  | err e t => rfl
  | stuck => rfl

theorem Follows.get {k : Traced → Prog Traced Err α} {k' : EXT2 → Prog EXT2 Err β}
    (h : Follows w f (k w) (k' w.ext2)) : Follows w f (Prog.get >>= k) (Prog.get >>= k') := h

theorem Follows.pure (a : α) : Follows w f (Pure.pure a) (Pure.pure (f a)) := rfl

theorem Follows.throw (e : Err) : Follows w f (Prog.throw e) (Prog.throw e) := rfl

theorem Follows.stuck : Follows w f Prog.stuck Prog.stuck := rfl

/-- What comes after the last step of the volume. -/
theorem Follows.last {k : α → Prog Traced Err α'} {f' : α' → β} (h : Follows w f m m')
    (hk : ∀ a w, Follows w f' (k a) (Pure.pure (f a))) : Follows w f' (m >>= k) m' := by
  unfold Follows at h ⊢
  rw [Prog.run_bind, ← h]
  cases m.run w with
  | ok a t => exact hk a t
  | err e t => rfl
  | stuck => rfl

theorem Follows.ite {c : Prop} [Decidable c] {m₂ : Prog Traced Err α} {m₂' : Prog EXT2 Err β}
    (h : Follows w f m m') (h₂ : Follows w f m₂ m₂') :
    Follows w f (if c then m else m₂) (if c then m' else m₂') := by
  split
  · exact h
  · exact h₂

theorem takeBlock_follows : Follows w id takeBlock getBlock := by
  unfold takeBlock
  exact (Follows.onVolume getBlock).last fun _ _ => rfl

theorem writeSingle_follows (bs : List Nat) (w : Traced) :
    Follows w id (writeSingle bs) (writeSingleDirectBlockNumbers bs) := by
  unfold writeSingle writeSingleDirectBlockNumbers
  exact .get (.ite (.throw _) (.ite (.throw _) (takeBlock_follows.bind fun b _ =>
    (Follows.onVolume _).bind fun _ _ => .pure b)))

theorem writeEach_follows {write : List Nat → Prog Traced Err Nat}
    {write' : List Nat → Prog EXT2 Err Nat} (h : ∀ bs w, Follows w id (write bs) (write' bs)) :
    ∀ (ps : List (List Nat)) (w : Traced),
      Follows w id (writeEach write ps) (writePieces write' ps)
  | [], _ => .pure []
  | p :: ps, w => (h p w).bind fun _ w => (writeEach_follows h ps w).bind fun _ _ => .pure _

theorem writeBelow_follows {write : List Nat → Prog Traced Err Nat}
    {write' : List Nat → Prog EXT2 Err Nat} (h : ∀ bs w, Follows w id (write bs) (write' bs))
    (n : Nat) (bs : List Nat) (w : Traced) :
    Follows w id (writeBelow n write bs) (writeIndirect n write' bs) := by
  unfold writeBelow writeIndirect
  refine .get (takeBlock_follows.bind fun b w => ?_)
  refine Follows.bind (f := id) ?_ fun ws w => (Follows.onVolume _).bind fun _ _ => .pure b
  unfold writeAll writeAllPieces
  exact (writeEach_follows h _ w).bind fun ws w => .ite .stuck (.pure ws)

theorem writeDouble_follows (bs : List Nat) (w : Traced) :
    Follows w id (writeDouble bs) (writeDoubleIndirect bs) := by
  unfold writeDouble writeDoubleIndirect
  exact .get (.ite (.throw _) (.ite (.throw _) (writeBelow_follows writeSingle_follows _ bs w)))

theorem writeTriple_follows (bs : List Nat) (w : Traced) :
    Follows w id (writeTriple bs) (writeTripleIndirect bs) := by
  unfold writeTriple writeTripleIndirect
  exact .get (.ite (.throw _) (writeBelow_follows writeDouble_follows _ bs w))

theorem fillSlot_follows {write : List Nat → Prog Traced Err Nat}
    {write' : List Nat → Prog EXT2 Err Nat} (h : ∀ bs w, Follows w id (write bs) (write' bs))
    (slot : Nat) (bs : List Nat) (n : Inode) (w : Traced) :
    Follows w id (fillSlot slot write bs n) (updateSlot slot write' bs n) := by
  unfold fillSlot updateSlot
  exact .ite (.pure n) ((h bs w).bind fun _ _ => .pure _)

/-- `updatePointers` is `_UpdateInodeBlockPointers`. -/
theorem updatePointers_follows (ino : Nat) (n : Inode) (size : Nat) (bs : List Nat) (w : Traced) :
    Follows w (fun _ => ()) (updatePointers ino n size bs)
      (updateInodeBlockPointers ino n size bs) := by
  unfold updatePointers updateInodeBlockPointers
  refine .get ((fillSlot_follows writeSingle_follows _ _ _ w).bind fun n1 w1 => ?_)
  refine (fillSlot_follows writeDouble_follows _ _ _ w1).bind fun n2 w2 => ?_
  refine (fillSlot_follows writeTriple_follows _ _ _ w2).bind fun n3 w3 => ?_
  exact (Follows.onVolume (writeInode ino n3)).last fun _ _ => .pure n3

end Follows

/-! ## What a step changes -/

/-- Address `a` is in block `b`, where the code puts it. -/
def InBlock (G : Geo) (b a : Nat) : Prop :=
  u32 (b * G.blockSize) ≤ a ∧ a < u32 (b * G.blockSize) + G.blockSize

/-- The addresses that `_GetBlock` writes to: the superblock, the group table and the block
bitmaps. -/
def Meta (G : Geo) (a : Nat) : Prop :=
  (1024 ≤ a ∧ a < 1024 + 1024) ∨
    (u32 (G.groupTable * G.blockSize) ≤ a ∧
      a < u32 (G.groupTable * G.blockSize) + 32 * G.blockBitmap.length) ∨
    ∃ b ∈ G.blockBitmap, u32 (b * G.blockSize) ≤ a ∧
      a < u32 (b * G.blockSize) + G.blocksPerGroup / 8

/-- From `s` to `t` only metadata and the blocks `ext` have changed. -/
structure Kept (s t : EXT2) (ext : List Nat) : Prop where
  same : geo t = geo s
  nblks : t.dev.nblks = s.dev.nblks
  readable : t.dev.readable = s.dev.readable
  data : ∀ a, ¬ Meta (geo s) a → (∀ e ∈ ext, ¬ InBlock (geo s) e a) →
    t.dev.data a = s.dev.data a

variable {s t u : EXT2} {ext ext' : List Nat}

theorem Kept.refl (s : EXT2) : Kept s s [] := ⟨rfl, rfl, rfl, fun _ _ _ => rfl⟩

theorem Kept.trans (h : Kept s t ext) (h' : Kept t u ext') : Kept s u (ext ++ ext') where
  same := h'.same.trans h.same
  nblks := h'.nblks.trans h.nblks
  readable := h'.readable.trans h.readable
  data a hm he := by
    rw [← h.data a hm fun e hx => he e (by simp [hx])]
    refine h'.data a ?_ fun e hx => ?_
    · rw [h.same]; exact hm
    · rw [h.same]; exact he e (by simp [hx])

theorem Kept.of_store {off : Nat} {d : Bytes} (hg : geo t = geo s) (hd : t.dev = s.dev.store off d)
    (hin : ∀ a, off ≤ a → a < off + d.length → Meta (geo s) a ∨ ∃ e ∈ ext, InBlock (geo s) e a) :
    Kept s t ext where
  same := hg
  nblks := by rw [hd]; rfl
  readable := by rw [hd]; rfl
  data a hm he := by
    rw [hd, store_data, writeMem]
    refine if_neg fun ha => ?_
    rcases hin a ha.1 ha.2 with h | ⟨e, hx, h⟩
    · exact hm h
    · exact he e hx h

theorem blockOffset_lt (s : EXT2) (b : Nat) : s.blockOffset b < 2 ^ 32 := u32_lt _

theorem blockSize_lt (s : EXT2) : s.blockSize < 2 ^ 31 := s.sb.blockSize_lt

theorem onDevice_done {e : Err} {off : Nat} {d : Bytes} {v : Unit}
    (h : (onDevice e (Device.write off d)).run s = .ok v t) (ho : off + d.length < 2 ^ 40) :
    t = { s with dev := s.dev.store off d } := by
  cases hw : (Device.write off d).run s.dev with
  | ok v dev' =>
    rw [onDevice_ok hw, DeviceExact.write_done hw ho] at h
    exact (by injection h with _ h; exact h.symm)
  | err _ _ => rw [onDevice_err hw] at h; cases h
  | stuck => rw [onDevice_stuck hw] at h; cases h

theorem writeBlock_done {b : Nat} {d : Bytes} {v : Unit} (h : (writeBlock b d).run s = .ok v t) :
    d.length ≤ s.blockSize ∧ t = { s with dev := s.dev.store (s.blockOffset b) d } := by
  unfold writeBlock at h
  rw [Prog.get_bind] at h
  split at h
  · cases h
  · rename_i hlen
    have h1 := blockOffset_lt s b
    have h2 := blockSize_lt s
    exact ⟨Nat.le_of_not_lt hlen, onDevice_done h (by omega)⟩

theorem writeSuperBlock_kept {v : Unit} (h : writeSuperBlock.run s = .ok v t) : Kept s t [] := by
  unfold writeSuperBlock at h
  rw [Prog.get_bind] at h
  have hsize := s.sb.size
  have ht := onDevice_done h (by omega)
  refine .of_store (by rw [ht]; rfl) (by rw [ht]) fun a h1 h2 => .inl (.inl ⟨h1, ?_⟩)
  rwa [hsize] at h2

theorem group_mem {g : Nat} {gd : GroupDesc} (h : s.group g = .ok gd) :
    g < s.groups.length ∧ gd ∈ s.groups := by
  unfold EXT2.group Out.index at h
  split at h
  · rename_i x hx
    obtain ⟨hlt, he⟩ := List.getElem?_eq_some_iff.mp hx
    rw [Out.ok.injEq] at h
    rw [← h, ← he]
    exact ⟨hlt, List.getElem_mem hlt⟩
  · cases h

theorem writeGroup_kept {g : Nat} {v : Unit} (hg : g < 2 ^ 32)
    (h : (writeGroup g).run s = .ok v t) : Kept s t [] := by
  unfold writeGroup at h
  rw [Prog.get_bind] at h
  obtain ⟨gd, hgd, h⟩ := Prog.read_bind_eq_ok.mp h
  have hlt := (group_mem hgd).1
  have hsize := gd.size
  have h1 := blockOffset_lt s s.groupTable
  have ht := onDevice_done h (by omega)
  refine .of_store (by rw [ht]; rfl) (by rw [ht]) fun a h1 h2 => .inl (.inr (.inl ⟨?_, ?_⟩))
  · exact Nat.le_trans (Nat.le_add_right _ _) h1
  · have hlen : (geo s).blockBitmap.length = s.groups.length := List.length_map _
    rw [hlen]
    refine Nat.lt_of_lt_of_le h2 ?_
    rw [hsize, Nat.add_assoc]
    refine Nat.add_le_add_left ?_ _
    omega

theorem writeBlockBitmap_kept {g : Nat} {d : Bytes} {v : Unit}
    (h : (writeBlockBitmap g d).run s = .ok v t) : Kept s t [] := by
  unfold writeBlockBitmap writeBitmap at h
  rw [Prog.get_bind] at h
  split at h
  · cases h
  split at h
  · cases h
  rename_i hsize _
  obtain ⟨gd, hgd, h⟩ := Prog.read_bind_eq_ok.mp h
  obtain ⟨-, ht⟩ := writeBlock_done h
  have hdev : t.dev = s.dev.store (s.blockOffset gd.bgBlockBitmap) d := by rw [ht]
  refine .of_store (by rw [ht]; rfl) hdev fun a h1 h2 =>
    .inl (.inr (.inr ⟨gd.bgBlockBitmap, List.mem_map_of_mem (group_mem hgd).2, h1, ?_⟩))
  rwa [Decidable.not_not.mp hsize] at h2

theorem searchFree_found {rd : Nat → Out Err Bytes} {make : Nat → Nat → Nat} {gs : List Nat}
    {g b : Nat} {bm : Bytes} (h : searchFree rd make gs = .ok (some (g, bm, b))) :
    g ∈ gs ∧ ∃ i, b = make g i := by
  induction gs with
  | nil => cases h
  | cons x gs ih =>
    obtain ⟨bitmap, -, h⟩ := Out.bind_eq_ok.mp h
    split at h
    · rename_i i _
      split at h
      · rw [Out.pure_eq, Out.ok.injEq, Option.some.injEq, Prod.mk.injEq, Prod.mk.injEq] at h
        obtain ⟨rfl, -, rfl⟩ := h
        exact ⟨by simp, i, rfl⟩
      · exact (ih h).imp (List.mem_cons_of_mem _) id
    · exact (ih h).imp (List.mem_cons_of_mem _) id

theorem addFreeBlocks_kept {d : Int} : Kept s (addFreeBlocks d s) [] :=
  ⟨geo_setCounter _ _ _, rfl, rfl, fun _ _ _ => rfl⟩

theorem addGroupFreeBlocks_kept {d : Int} (g : Nat) : Kept s (addGroupFreeBlocks g d s) [] where
  same := geo_modify_group _ _ fun _ => ⟨setFree_keeps (by decide) (by decide) (by decide),
    setFree_keeps (by decide) (by decide) (by decide),
    setFree_keeps (by decide) (by decide) (by decide)⟩
  nblks := rfl
  readable := rfl
  data _ _ _ := rfl

/-- `_GetBlock` changes metadata only. -/
theorem getBlock_kept {b : Nat} (h : getBlock.run s = .ok b t) : Kept s t [] ∧ b < 2 ^ 32 := by
  unfold getBlock at h
  obtain ⟨found, hfound, h⟩ := Prog.read_bind_eq_ok.mp h
  cases found with
  | none =>
    unfold exhausted at h
    dsimp only at h
    rw [Prog.get_bind] at h
    split at h
    · cases h
    · cases h
      exact ⟨.refl s, by decide⟩
  | some x =>
    obtain ⟨g, bitmap, b'⟩ := x
    obtain ⟨hg, i, rfl⟩ := searchFree_found hfound
    have hlt : g < 2 ^ 32 := by
      have h1 := List.mem_range.mp hg
      have h2 : s.groupCount < 2 ^ 32 := u32_lt _
      omega
    dsimp only at h
    rw [Prog.modify_bind] at h
    obtain ⟨_, s1, h1, h⟩ := Prog.bind_eq_ok.mp h
    rw [Prog.modify_bind] at h
    obtain ⟨_, s2, h2, h⟩ := Prog.bind_eq_ok.mp h
    obtain ⟨_, s3, h3, h⟩ := Prog.bind_eq_ok.mp h
    rw [Prog.run_pure] at h
    injection h with hb ht
    subst hb ht
    refine ⟨?_, u32_lt _⟩
    exact (addFreeBlocks_kept.trans (writeSuperBlock_kept h1)).trans
      ((addGroupFreeBlocks_kept g).trans ((writeGroup_kept hlt h2).trans (writeBlockBitmap_kept h3)))

/-! ## Blocks that lie apart -/

/-- The content of a block, where the code puts it. -/
def content (s : EXT2) (b : Nat) : Bytes := readMem s.dev.data (s.blockOffset b) s.blockSize

/-- The blocks share no byte with one another or with what `_GetBlock` writes, and none is 0. -/
structure Spread (G : Geo) (ext : List Nat) : Prop where
  pos : ∀ e ∈ ext, 0 < e
  clear : ∀ e ∈ ext, ∀ a, InBlock G e a → ¬ Meta G a
  apart : ext.Pairwise fun e e' => ∀ a, InBlock G e a → ¬ InBlock G e' a

theorem Spread.left {G : Geo} (h : Spread G (ext ++ ext')) : Spread G ext where
  pos e he := h.pos e (by simp [he])
  clear e he := h.clear e (by simp [he])
  apart := (List.pairwise_append.mp h.apart).1

theorem Spread.right {G : Geo} (h : Spread G (ext ++ ext')) : Spread G ext' where
  pos e he := h.pos e (by simp [he])
  clear e he := h.clear e (by simp [he])
  apart := (List.pairwise_append.mp h.apart).2.1

theorem Kept.mono (h : Kept s t ext) (hsub : ext ⊆ ext') : Kept s t ext' :=
  ⟨h.same, h.nblks, h.readable, fun a hm he => h.data a hm fun e hx => he e (hsub hx)⟩

theorem Kept.blockSize (h : Kept s t ext) : t.blockSize = s.blockSize :=
  congrArg Geo.blockSize h.same

theorem Kept.content (h : Kept s t ext) {e : Nat} (hm : ∀ a, InBlock (geo s) e a → ¬ Meta (geo s) a)
    (he : ∀ e' ∈ ext, ∀ a, InBlock (geo s) e a → ¬ InBlock (geo s) e' a) :
    content t e = content s e := by
  have hoff : t.blockOffset e = s.blockOffset e := by
    unfold EXT2.blockOffset
    rw [h.blockSize]
  unfold RoundTrip.content
  rw [hoff, h.blockSize]
  refine readMem_congr fun a h1 h2 => ?_
  exact h.data a (hm a ⟨h1, h2⟩) fun e' hx => he e' hx a ⟨h1, h2⟩

/-- What has been stored in `ext` stays while blocks apart from `ext` are taken. -/
theorem Kept.content_left (h : Kept s t ext') (hs : Spread (geo s) (ext ++ ext')) {e : Nat}
    (he : e ∈ ext) : RoundTrip.content t e = RoundTrip.content s e :=
  h.content (hs.left.clear e he) fun e' he' => (List.pairwise_append.mp hs.apart).2.2 e he e' he'

theorem writeBlock_content {b : Nat} {d : Bytes} {v : Unit} (h : (writeBlock b d).run s = .ok v t)
    (hlen : d.length = s.blockSize) : Kept s t [b] ∧ content t b = d := by
  obtain ⟨-, ht⟩ := writeBlock_done h
  have hdev : t.dev = s.dev.store (s.blockOffset b) d := by rw [ht]
  have hkept : Kept s t [b] := by
    refine .of_store (by rw [ht]; rfl) hdev fun a h1 h2 => .inr ⟨b, by simp, h1, ?_⟩
    rwa [hlen] at h2
  refine ⟨hkept, ?_⟩
  have hoff : t.blockOffset b = s.blockOffset b := by
    unfold EXT2.blockOffset
    rw [hkept.blockSize]
  unfold content
  rw [hoff, hkept.blockSize, hdev, store_data, ← hlen, readMem_writeMem]

/-! ## What the writers store -/

variable {w w' : Traced}

theorem onVolume_ok {α : Type} {m : Prog EXT2 Err α} {a : α} (h : (onVolume m).run w = .ok a w') :
    m.run w.ext2 = .ok a w'.ext2 ∧ w'.taken = w.taken := by
  rw [onVolume_run] at h
  cases hm : m.run w.ext2 with
  | ok a' t =>
    rw [hm] at h
    injection h with ha hw
    subst ha hw
    exact ⟨rfl, rfl⟩
  | err _ _ => rw [hm] at h; cases h
  | stuck => rw [hm] at h; cases h

theorem takeBlock_ok {b : Nat} (h : takeBlock.run w = .ok b w') :
    w'.taken = w.taken ++ [b] ∧ Kept w.ext2 w'.ext2 [] ∧ b < 2 ^ 32 := by
  unfold takeBlock at h
  obtain ⟨b', w1, h1, h⟩ := Prog.bind_eq_ok.mp h
  obtain ⟨hget, htaken⟩ := onVolume_ok h1
  rw [Prog.modify_bind, Prog.run_pure] at h
  injection h with hb hw
  subst hb hw
  obtain ⟨hkept, hlt⟩ := getBlock_kept hget
  exact ⟨congrArg (· ++ [b']) htaken, hkept, hlt⟩

/-- The writer stores the numbers below one block, in the blocks that it takes, if these lie
apart. -/
def Writes (B k cap : Nat) (write : List Nat → Prog Traced Err Nat) : Prop :=
  ∀ w bs b w', w.ext2.blockSize = B → bs.length ≤ cap → Storable bs →
    (write bs).run w = .ok b w' →
      ∃ ext, w'.taken = w.taken ++ ext ∧ Kept w.ext2 w'.ext2 ext ∧ (∀ e ∈ ext, e < 2 ^ 32) ∧
        (Spread (geo w.ext2) ext → Stores (content w'.ext2) k b bs ext)

variable {B k cap : Nat} {write : List Nat → Prog Traced Err Nat}

theorem writeSingle_writes (hB : B ≤ 8192) : Writes B 0 (B / 4) writeSingle := by
  intro w bs b w' hw hlen hst h
  unfold writeSingle at h
  rw [Prog.get_bind] at h
  split at h
  · cases h
  split at h
  · cases h
  obtain ⟨b', w1, h1, h⟩ := Prog.bind_eq_ok.mp h
  obtain ⟨_, w2, h2, h⟩ := Prog.bind_eq_ok.mp h
  rw [Prog.run_pure] at h
  injection h with hb hw'
  subst hb hw'
  obtain ⟨htaken, hkept, hlt⟩ := takeBlock_ok h1
  obtain ⟨hwrite, htaken'⟩ := onVolume_ok h2
  rw [hw] at hwrite
  obtain ⟨hkept', hcontent⟩ := writeBlock_content hwrite (by
    rw [length_pointerBlock _ hB, hkept.blockSize, hw])
  have hdirect := direct_pointerBlock hB (show 4 * bs.length ≤ B by omega) hst
  refine ⟨[b'], by rw [htaken', htaken], hkept.trans hkept', by simpa using hlt, fun _ =>
    ⟨by simp, fun blk hblk => ?_, fun blk hblk => ?_⟩⟩
  · rw [hblk b' (by simp), hcontent, loadTree, hdirect]
  · rw [hblk b' (by simp), hcontent, loadTree, hdirect]
    simp

theorem writeEach_writes (hw : Writes B k cap write) (ps : List (List Nat)) :
    ∀ w ws w', w.ext2.blockSize = B → (∀ p ∈ ps, p.length ≤ cap ∧ Storable p) →
      (writeEach write ps).run w = .ok ws w' →
      ∃ ext, w'.taken = w.taken ++ ext ∧ Kept w.ext2 w'.ext2 ext ∧ (∀ e ∈ ext, e < 2 ^ 32) ∧
        ws.length = ps.length ∧
        (Spread (geo w.ext2) ext → PiecesStored (content w'.ext2) k ws ps ext) := by
  induction ps with
  | nil =>
    intro w ws w' _ _ h
    unfold writeEach at h
    rw [Prog.run_pure] at h
    injection h with hws hw'
    subst hws hw'
    exact ⟨[], by simp, .refl _, by simp, rfl, fun _ => ⟨by intro x hx; simp at hx, by simp,
      by simp⟩⟩
  | cons p ps ih =>
    intro w ws w' hB hps h
    unfold writeEach at h
    obtain ⟨b, w1, h1, h⟩ := Prog.bind_eq_ok.mp h
    obtain ⟨rest, w2, h2, h⟩ := Prog.bind_eq_ok.mp h
    rw [Prog.run_pure] at h
    injection h with hws hw'
    subst hws hw'
    obtain ⟨hp1, hp2⟩ := hps p (by simp)
    obtain ⟨ext, htaken, hkept, hlt, hstores⟩ := hw w p b w1 hB hp1 hp2 h1
    obtain ⟨ext', htaken', hkept', hlt', hlen, hpieces⟩ :=
      ih w1 rest w2 (hkept.blockSize.trans hB) (fun q hq => hps q (by simp [hq])) h2
    refine ⟨ext ++ ext', by rw [htaken', htaken, List.append_assoc], hkept.trans hkept', ?_,
      by simp [hlen], fun hs => ?_⟩
    · intro e he
      exact (List.mem_append.mp he).elim (hlt e) (hlt' e)
    · have hst := hstores hs.left
      refine PiecesStored.cons ?_ hst (hpieces (by rw [hkept.same]; exact hs.right)) fun e he => ?_
      · intro x hx
        rw [List.mem_singleton.mp hx]
        exact ⟨hs.left.pos b hst.mem, hlt b hst.mem⟩
      · exact hkept'.content_left (by rw [hkept.same]; exact hs) he

/-- A writer one level deeper. -/
theorem writeBelow_writes (hB : B ≤ 8192) (hw : Writes B k cap write) (hcap : 0 < cap) {m : Nat}
    (hm : m ≤ B / 4) : Writes B (k + 1) (m * cap) (writeBelow cap write) := by
  intro w bs b w' hwB hlen hst h
  obtain ⟨hp1, hp2, hp3⟩ := pieces_spec hcap bs.length bs (Nat.le_refl _)
  have hcount := hp3 m hlen
  unfold writeBelow at h
  rw [Prog.get_bind] at h
  obtain ⟨b', w1, h1, h⟩ := Prog.bind_eq_ok.mp h
  obtain ⟨ws, w2, h2, h⟩ := Prog.bind_eq_ok.mp h
  obtain ⟨_, w3, h3, h⟩ := Prog.bind_eq_ok.mp h
  rw [Prog.run_pure] at h
  injection h with hb hw'
  subst hb hw'
  obtain ⟨htaken1, hkept1, hlt1⟩ := takeBlock_ok h1
  have hB1 : w1.ext2.blockSize = B := hkept1.blockSize.trans hwB
  unfold writeAll at h2
  obtain ⟨ws', w2', heach, hpure⟩ := Prog.bind_eq_ok.mp h2
  split at hpure
  · cases hpure
  rw [Prog.run_pure] at hpure
  injection hpure with hws hw2
  subst hws hw2
  obtain ⟨ext, htaken2, hkept2, hlt2, hwlen, hpieces⟩ := writeEach_writes hw _ w1 ws' w2' hB1
    (fun p hp => ⟨(hp2 p hp).2, fun x hx => hst x (by
      rw [← hp1]; exact List.mem_flatten.mpr ⟨p, hp, hx⟩)⟩) heach
  obtain ⟨hwrite, htaken3⟩ := onVolume_ok h3
  have hB2 : w2'.ext2.blockSize = B := hkept2.blockSize.trans hB1
  rw [hwB] at hwrite
  obtain ⟨hkept3, hcontent⟩ := writeBlock_content hwrite (by rw [length_pointerBlock _ hB, hB2])
  refine ⟨b' :: ext, by rw [htaken3, htaken2, htaken1, List.append_assoc]; rfl,
    ((hkept1.trans hkept2).trans hkept3).mono (by simp), ?_, fun hs => ?_⟩
  · intro e he
    rcases List.mem_cons.mp he with rfl | he
    · exact hlt1
    · exact hlt2 e he
  have hsame2 : geo w2'.ext2 = geo w.ext2 := hkept2.same.trans hkept1.same
  have hright : Spread (geo w.ext2) ext := @Spread.right [b'] _ _ hs
  have hps := hpieces (by rw [hkept1.same]; exact hright)
  have hdirect := direct_pointerBlock (B := B) hB (by omega) hps.storable
  -- the block itself is written last, apart from those below it
  have hbelow : ∀ e ∈ ext, content w3.ext2 e = content w2'.ext2 e := by
    intro e he
    refine hkept3.content ?_ fun e' he' a ha hb => ?_
    · rw [hsame2]; exact hright.clear e he
    · rw [hsame2] at ha hb
      rw [List.mem_singleton.mp he'] at hb
      exact (List.pairwise_cons.mp hs.apart).1 e he a hb ha
  refine ⟨by simp, fun blk hblk => ?_, fun blk hblk => ?_⟩
  · have hleaves := hps.leaves blk fun e he => (hblk e (by simp [he])).trans (hbelow e he)
    rw [hp1] at hleaves
    rw [hblk b' (by simp), hcontent, loadTree, hdirect]
    simpa using hleaves
  · have hall := hps.all blk fun e he => (hblk e (by simp [he])).trans (hbelow e he)
    rw [hp1] at hall
    rw [hblk b' (by simp), hcontent, loadTree, hdirect, if_pos rfl, List.cons_append]
    exact hall.cons b'

theorem writeDouble_writes (h1 : 1024 ≤ B) (h2 : B ≤ 8192) :
    Writes B 1 (B / 4 * (B / 4)) writeDouble := by
  intro w bs b w' hw hlen hst h
  unfold writeDouble at h
  rw [Prog.get_bind] at h
  split at h
  · cases h
  dsimp only at h
  split at h
  · cases h
  rw [hw] at h
  exact writeBelow_writes h2 (writeSingle_writes h2) (by omega) (Nat.le_refl _) w bs b w' hw hlen
    hst h

theorem writeTriple_writes (h1 : 1024 ≤ B) (h2 : B ≤ 8192) :
    Writes B 2 (B / 4 * (B / 4 * (B / 4))) writeTriple := by
  intro w bs b w' hw hlen hst h
  have hq : 0 < B / 4 := by omega
  unfold writeTriple at h
  rw [Prog.get_bind] at h
  split at h
  · cases h
  dsimp only at h
  rw [hw, square_le (by omega)] at h
  exact writeBelow_writes h2 (writeDouble_writes h1 h2) (Nat.mul_pos hq hq) (Nat.le_refl _) w bs b
    w' hw hlen hst h

theorem fillSlot_stores {slot : Nat} (hw : Writes B k cap write) (hslot : slot < 15)
    {bs : List Nat} (hB : w.ext2.blockSize = B) (hlen : bs.length ≤ cap) (hst : Storable bs)
    {n n' : Inode} (h : (fillSlot slot write bs n).run w = .ok n' w') :
    ∃ ext, w'.taken = w.taken ++ ext ∧ Kept w.ext2 w'.ext2 ext ∧
      (∀ j, j ≠ slot → n'.iBlock j = n.iBlock j) ∧
      (n.iBlock slot = 0 → Spread (geo w.ext2) ext →
        SlotStored (content w'.ext2) k slot n' bs ext) := by
  unfold fillSlot at h
  split at h
  · rename_i hemp
    rw [Prog.run_pure] at h
    injection h with hn hw'
    subst hn hw'
    refine ⟨[], by simp, .refl _, fun _ _ => rfl, fun h0 _ blk _ => ?_⟩
    rw [h0, List.isEmpty_iff.mp hemp]
    simp [slotBlocks]
  · obtain ⟨b, w1, h1, h⟩ := Prog.bind_eq_ok.mp h
    rw [Prog.run_pure] at h
    injection h with hn hw'
    subst hn hw'
    obtain ⟨ext, htaken, hkept, hlt, hstores⟩ := hw w bs b w1 hB hlen hst h1
    refine ⟨ext, htaken, hkept, fun j hj => Inode.setBlocks_iBlock_of_not (by simp; omega),
      fun _ hs blk hblk => ?_⟩
    have hsb := hstores hs
    have hpos := hs.pos b hsb.mem
    have hslotb : (n.setBlocks slot [b]).iBlock slot = b :=
      Inode.setBlocks_iBlock (k := 0) (by simp; omega) (by simp) (by simpa using hlt b hsb.mem)
    rw [hslotb]
    unfold slotBlocks
    rw [if_neg (Nat.pos_iff_ne_zero.mp hpos), if_neg (Nat.pos_iff_ne_zero.mp hpos)]
    exact ⟨by simpa using hsb.leaves blk hblk, by simpa using hsb.all blk hblk⟩

/-- The inode has no block numbers. -/
def NoBlocks (n : Inode) : Prop := ∀ j, j < 15 → n.iBlock j = 0

theorem NoBlocks.stale {n : Inode} (h : NoBlocks n) (len : Nat) : staleDirect n len = [] := by
  unfold staleDirect
  split
  · rename_i hlt
    obtain ⟨d, hd⟩ : ∃ d, 12 - len = d + 1 := ⟨11 - len, by omega⟩
    rw [hd, Inode.iBlocks, List.range'_succ, List.map_cons, h len (by omega)]
    rfl
  · rfl

/-- The largest number of blocks that an inode can point to. -/
def maxBlocks (blksize : Nat) : Nat :=
  12 + blksize / 4 + blksize / 4 * (blksize / 4) + blksize / 4 * (blksize / 4 * (blksize / 4))

/-- Before the inode is written. -/
theorem updatePointers_points {ino size : Nat} {n n' : Inode} {bs : List Nat}
    (h1 : 1024 ≤ w.ext2.blockSize) (h2 : w.ext2.blockSize ≤ 8192) (hn : NoBlocks n)
    (hst : Storable bs) (hlen : bs.length ≤ maxBlocks w.ext2.blockSize)
    (h : (updatePointers ino n size bs).run w = .ok n' w') :
    ∃ ext mid v, w'.taken = w.taken ++ ext ∧ Kept w.ext2 mid ext ∧
      (writeInode ino n').run mid = .ok v w'.ext2 ∧
      (Spread (geo w.ext2) ext → Points (content mid) n' bs [] ext) := by
  have hsub : ∀ l : List Nat, l ⊆ bs → Storable l := fun l hl x hx => hst x (hl hx)
  have hsq := square_le (q := w.ext2.blockSize / 4) (by omega)
  unfold updatePointers at h
  rw [Prog.get_bind] at h
  dsimp only at h
  rw [hsq] at h
  unfold maxBlocks at hlen
  generalize hq : w.ext2.blockSize / 4 = q at h hlen
  have hB : w.ext2.blockSize = w.ext2.blockSize := rfl
  obtain ⟨n1, w1, hr1, h⟩ := Prog.bind_eq_ok.mp h
  obtain ⟨n2, w2, hr2, h⟩ := Prog.bind_eq_ok.mp h
  obtain ⟨n3, w3, hr3, h⟩ := Prog.bind_eq_ok.mp h
  obtain ⟨v, w4, hr4, h⟩ := Prog.bind_eq_ok.mp h
  rw [Prog.run_pure] at h
  injection h with hn' hw'
  subst hn' hw'
  obtain ⟨hwrite, htaken4⟩ := onVolume_ok hr4
  have hs12 : (bs.drop 12).take q ⊆ bs :=
    List.Subset.trans (List.take_subset _ _) (List.drop_subset _ _)
  have hs13 : ((bs.drop 12).drop q).take (q * q) ⊆ bs := List.Subset.trans (List.take_subset _ _)
    (List.Subset.trans (List.drop_subset _ _) (List.drop_subset _ _))
  have hs14 : ((bs.drop 12).drop q).drop (q * q) ⊆ bs := List.Subset.trans (List.drop_subset _ _)
    (List.Subset.trans (List.drop_subset _ _) (List.drop_subset _ _))
  obtain ⟨ext1, ht1, hk1, hj1, hp1⟩ := fillSlot_stores (writeSingle_writes h2) (by decide) hB
    (by rw [hq]; exact List.length_take_le _ _) (hsub _ hs12) hr1
  have hB1 := hk1.blockSize
  obtain ⟨ext2, ht2, hk2, hj2, hp2⟩ := fillSlot_stores (writeDouble_writes h1 h2) (by decide) hB1
    (by rw [hq]; exact List.length_take_le _ _) (hsub _ hs13) hr2
  have hB2 := hk2.blockSize.trans hB1
  obtain ⟨ext3, ht3, hk3, hj3, hp3⟩ := fillSlot_stores (writeTriple_writes h1 h2) (by decide) hB2
    (by simp only [List.length_drop, hq]; omega) (hsub _ hs14) hr3
  have h12 := hk1.trans hk2
  have h13 := h12.trans hk3
  refine ⟨ext1 ++ ext2 ++ ext3, w3.ext2, v, ?_, h13, hwrite, fun hs => ?_⟩
  · rw [htaken4, ht3, ht2, ht1]
    simp only [List.append_assoc]
  have hold : ∀ j, 12 ≤ j → j < 15 →
      ((n.setSize size).setBlocks 0 (bs.take 12)).iBlock j = 0 := by
    intro j hj hj'
    rw [Inode.setBlocks_iBlock_of_not (by rw [List.length_take]; omega), Inode.setSize_iBlock]
    exact hn j hj'
  have hst1 := hp1 (hold 12 (by omega) (by omega)) hs.left.left
  have hst2 := hp2 (by rw [hj1 13 (by decide)]; exact hold 13 (by omega) (by omega))
    (by rw [hk1.same]; exact hs.left.right)
  have hst3 := hp3 (by
    rw [hj2 14 (by decide), hj1 14 (by decide)]
    exact hold 14 (by omega) (by omega)) (by rw [h12.same]; exact hs.right)
  have hdir : directBlockNumbers (n3.iBlocks 0 12) = bs.take 12 ++ staleDirect n bs.length := by
    rw [hn.stale, ← NoBlocks.stale (n := n.setSize size) (fun j hj => by
      rw [Inode.setSize_iBlock]; exact hn j hj) bs.length]
    refine direct_of_setBlocks hst fun j hj => ?_
    rw [hj3 j (by omega), hj2 j (by omega), hj1 j (by omega)]
  have hsp : Spread (geo w2.ext2) ((ext1 ++ ext2) ++ ext3) := by rw [h12.same]; exact hs
  have hsp1 : Spread (geo w1.ext2) (ext1 ++ ext2) := by rw [hk1.same]; exact hs.left
  have he12 : n3.iBlock 12 = n1.iBlock 12 := by rw [hj3 12 (by decide), hj2 12 (by decide)]
  have he13 : n3.iBlock 13 = n2.iBlock 13 := hj3 13 (by decide)
  have hs1 := hst1.transfer (fun e he =>
    (hk3.content_left hsp (by simp [he])).trans (hk2.content_left hsp1 he)) he12
  have hs2 := hst2.transfer (fun e he => hk3.content_left hsp (by simp [he])) he13
  have hpoints := points_of_slots hdir hs1 hs2 hst3
  rwa [hn.stale] at hpoints

/-! ## Loading what was stored -/

/-- The blocks that the allocator delivers can be read and lie, at the offsets that `BlockOffset`
computes, apart from one another and from what is written after them: the superblock, the group
table, the block bitmaps and the inode. -/
structure Clear (s : EXT2) (ino : Nat) (ext : List Nat) : Prop where
  readable : ∀ e ∈ ext, ∃ d, readBlock s e = .ok d
  super : ∀ e ∈ ext, Apart (s.blockOffset e) s.blockSize 1024 1024
  table : ∀ e ∈ ext,
    Apart (s.blockOffset e) s.blockSize (s.blockOffset s.groupTable) (32 * s.groups.length)
  bitmaps : ∀ e ∈ ext, ∀ gd ∈ s.groups, Apart (s.blockOffset e) s.blockSize
    (s.blockOffset gd.bgBlockBitmap) (s.sb.sBlocksPerGroup / 8)
  inode : ∀ e ∈ ext, ∀ gd, s.group (s.inoToGrpno ino) = .ok gd →
    Apart (s.blockOffset e) s.blockSize (inodeOffset s gd ino) s.sb.sInodeSize
  blocks : ext.Pairwise fun e e' =>
    Apart (s.blockOffset e) s.blockSize (s.blockOffset e') s.blockSize

/-- The block numbers are loaded in order, and with the pointer blocks each number once. -/
structure LoadsBack (t : EXT2) (n : Inode) (bs ext : List Nat) : Prop where
  leaves : loadBlockNumbersFromInode t n false = .ok bs
  all : ∃ l, loadBlockNumbersFromInode t n true = .ok l ∧ l.Perm (bs ++ ext)

theorem apart_not {a off len off' len' : Nat} (h : Apart off len off' len')
    (hin : off ≤ a ∧ a < off + len) : ¬ (off' ≤ a ∧ a < off' + len') := by
  unfold Apart at h
  omega

theorem Clear.spread {ino : Nat} (h : Clear s ino ext) (hpos : ∀ e ∈ ext, e ≠ 0) :
    Spread (geo s) ext where
  pos e he := Nat.pos_of_ne_zero (hpos e he)
  clear e he a ha := by
    rintro (hm | hm | ⟨b, hb, hm⟩)
    · exact apart_not (h.super e he) ha hm
    · rw [show (geo s).blockBitmap.length = s.groups.length from List.length_map _] at hm
      exact apart_not (h.table e he) ha hm
    · obtain ⟨gd, hgd, rfl⟩ := List.mem_map.mp hb
      exact apart_not (h.bitmaps e he gd hgd) ha hm
  apart := h.blocks.imp fun hap _ ha => apart_not hap ha

theorem group_congr {g : Nat} {gd : GroupDesc} (h : geo t = geo s) (hg : t.group g = .ok gd) :
    ∃ gd', s.group g = .ok gd' ∧ gd'.bgInodeTable = gd.bgInodeTable := by
  have htab : t.groups.map GroupDesc.bgInodeTable = s.groups.map GroupDesc.bgInodeTable :=
    congrArg Geo.inodeTable h
  unfold EXT2.group Out.index at hg ⊢
  cases ht : t.groups[g]? with
  | none => rw [ht] at hg; cases hg
  | some x =>
    rw [ht] at hg
    have h1 := congrArg (fun l => l[g]?) htab
    simp only [List.getElem?_map, ht, Option.map_some] at h1
    cases hs : s.groups[g]? with
    | none => rw [hs] at h1; cases h1
    | some y =>
      rw [hs] at h1
      rw [Out.ok.injEq] at hg
      subst hg
      exact ⟨y, rfl, by simpa [eq_comm] using h1⟩

/-- Writing the inode leaves blocks apart from it as they are. -/
theorem writeInode_content {mid : EXT2} {ino : Nat} {n : Inode} {v : Unit}
    (hmid : geo mid = geo s) (h : (writeInode ino n).run mid = .ok v t) {e : Nat}
    (hap : ∀ gd, s.group (s.inoToGrpno ino) = .ok gd →
      Apart (s.blockOffset e) s.blockSize (inodeOffset s gd ino) s.sb.sInodeSize) :
    geo t = geo mid ∧ t.dev.nblks = mid.dev.nblks ∧ t.dev.readable = mid.dev.readable ∧
      content t e = content mid e := by
  unfold writeInode at h
  rw [Prog.get_bind] at h
  obtain ⟨gd, hgd, h⟩ := Prog.read_bind_eq_ok.mp h
  split at h
  · cases h
  have hino : mid.inoToGrpno ino = s.inoToGrpno ino := by
    unfold EXT2.inoToGrpno
    rw [show mid.sb.sInodesPerGroup = s.sb.sInodesPerGroup from congrArg Geo.inodesPerGroup hmid]
  have hlino : mid.inoToLino ino = s.inoToLino ino := by
    unfold EXT2.inoToLino
    rw [show mid.sb.sInodesPerGroup = s.sb.sInodesPerGroup from congrArg Geo.inodesPerGroup hmid]
  have hbs : mid.blockSize = s.blockSize := congrArg Geo.blockSize hmid
  have hsz : mid.sb.sInodeSize = s.sb.sInodeSize := congrArg Geo.inodeSize hmid
  obtain ⟨gd', hgd', htab⟩ := group_congr hmid hgd
  rw [hino] at hgd'
  have hoff : inodeOffset mid gd ino = inodeOffset s gd' ino := by
    unfold inodeOffset EXT2.blockOffset
    rw [hbs, hlino, hsz, htab]
  have hlen : (n.raw.take mid.sb.sInodeSize).length ≤ mid.sb.sInodeSize := List.length_take_le _ _
  have hle := mid.sb.inodeSize_le
  have hlt : inodeOffset mid gd ino + (n.raw.take mid.sb.sInodeSize).length < 2 ^ 40 := by
    have h1 := blockOffset_lt mid gd.bgInodeTable
    have h2 := u32_lt (mid.inoToLino ino * mid.sb.sInodeSize)
    have h3 : mid.sb.sInodeSize ≤ 256 := hle
    unfold inodeOffset
    omega
  have ht := onDevice_done h hlt
  refine ⟨by rw [ht]; rfl, by rw [ht]; rfl, by rw [ht]; rfl, ?_⟩
  rw [ht]
  show readMem (mid.dev.store _ _).data (mid.blockOffset e) mid.blockSize = _
  rw [store_data]
  refine readMem_writeMem_of_disjoint ?_
  have h1 := hap gd' hgd'
  have hb : mid.blockOffset e = s.blockOffset e := by
    unfold EXT2.blockOffset
    rw [hbs]
  rw [hb, hbs, hoff]
  unfold Apart at h1
  omega

/-- A block that could be read before still can. -/
theorem readBlock_content {e : Nat} {d : Bytes} (hg : geo t = geo s)
    (hn : t.dev.nblks = s.dev.nblks) (hr : t.dev.readable = s.dev.readable)
    (h : readBlock s e = .ok d) : readBlock t e = .ok (content t e) := by
  obtain ⟨k, hk⟩ := BlockAddress.blockSize_sectors s
  have hbs : t.blockSize = s.blockSize := congrArg Geo.blockSize hg
  have hoff : t.blockOffset e = s.blockOffset e := by
    unfold EXT2.blockOffset
    rw [hbs]
  obtain ⟨i, hi⟩ : ∃ i, s.blockOffset e = i * 512 := by
    refine ⟨s.blockOffset e / 512, ?_⟩
    unfold EXT2.blockOffset u32
    rw [hk, show e * (512 * k) = 512 * (e * k) by ring]
    omega
  have hlt := blockOffset_lt s e
  have hsize := blockSize_lt s
  have hone : s.blockSize = k * 512 := by omega
  unfold readBlock at h ⊢
  rw [hbs]
  split at h
  · cases h
  · rename_i hle
    rw [if_neg hle]
    rw [hi, hone, DeviceExact.read_sectors _ (by omega) (by omega)] at h
    unfold content
    rw [hoff, hbs, hi, hone, DeviceExact.read_sectors _ (by omega) (by omega)]
    unfold getN at h ⊢
    rw [hn, hr]
    split at h
    · rename_i hin
      rw [if_pos hin]
      rfl
    · cases h

/-- Pointer blocks and leaves. -/
theorem loadTree_perm (blk : Nat → Bytes) (k : Nat) (ws : List Nat) :
    (loadTree blk true k ws).Perm (nodes blk k ws ++ loadTree blk false k ws) := by
  induction k generalizing ws with
  | zero => exact .refl _
  | succ k ih =>
    simp only [loadTree, nodes, if_true, Bool.false_eq_true, if_false, List.nil_append,
      List.append_assoc]
    refine List.Perm.append_left _ ?_
    exact (List.Perm.flatMap_left _ fun b _ => ih _).trans (List.flatMap_append_perm _ _ _).symm

theorem slotBlocks_perm (blk : Nat → Bytes) (k b : Nat) :
    (slotBlocks blk true k b).Perm (slotNodes blk k b ++ slotBlocks blk false k b) := by
  unfold slotBlocks slotNodes
  split
  · exact .refl _
  · simpa using loadTree_perm blk k _

theorem blocksOf_perm (blk : Nat → Bytes) (n : Inode) :
    (blocksOf blk n true).Perm (nodesOf blk n ++ blocksOf blk n false) := by
  have h := ((slotBlocks_perm blk 0 (n.iBlock 12)).append (slotBlocks_perm blk 1 (n.iBlock 13))).append
    (slotBlocks_perm blk 2 (n.iBlock 14))
  rw [List.perm_iff_count] at h ⊢
  intro a
  have ha := h a
  simp only [blocksOf, nodesOf, List.count_append] at ha ⊢
  omega

/-- On a sound volume of at most 4 GiB distinct data blocks are clear. -/
theorem clear_of_shape {ino : Nat} (hs : Content.Shape s) (hino : (geo s).InoValid ino)
    (hd : ∀ e ∈ ext, (geo s).IsData e) (hnd : ext.Nodup) : Clear s ino ext := by
  have hoff : ∀ e ∈ ext, s.blockOffset e = (geo s).cellOff (.block e) := fun e he =>
    Access.blockOffset_eq (Access.offset_lt hs (by have := hs.geo.blockSize_ge; omega)
      (Access.mul_lt_of_block (hd e he).lt))
  have hcell : ∀ e ∈ ext, ∀ c, (geo s).cellValid c → (∀ b, c ≠ .block b) →
      Apart (s.blockOffset e) s.blockSize ((geo s).cellOff c) ((geo s).cellLen c) := by
    intro e he c hc hm
    rw [hoff e he]
    exact (block_meta_apart hs.geo (hd e he) hc hm).symm
  have hlen : s.groups.length = (geo s).groupCount := by
    have := hs.geo.blockBitmap_length
    simpa [geo] using this
  refine ⟨fun e he => ⟨_, Access.readBlock_data hs (hd e he)⟩,
    fun e he => hcell e he .super trivial (by simp), fun e he => ?_, fun e he gd hgd => ?_,
    fun e he gd hgd => ?_, ?_⟩
  · have h := ((hd e he).apart .groups trivial).symm
    have hin := hs.geo.areas_inside .groups trivial
    have hgt : s.blockOffset s.groupTable = (geo s).areaOff .groups :=
      Access.blockOffset_eq (Access.offset_lt hs (n := s.groups.length * 32)
        (by have := hs.geo.groupCount_pos; omega) (by rw [hlen]; exact hin))
    rw [hoff e he, hgt, hlen, Nat.mul_comm]
    exact h
  · obtain ⟨g, hg, rfl⟩ := List.getElem_of_mem hgd
    have hv : g < (geo s).groupCount := by omega
    obtain ⟨gd, hgd', -, hb, -⟩ := Access.group_get hs hv
    have hsame : s.groups[g] = gd := by
      rw [List.getElem?_eq_getElem hg] at hgd'
      exact Option.some.inj hgd'
    have h := hcell e he (.blockBitmap g) hv (by simp)
    have hin := cell_inside hs.geo (c := .blockBitmap g) hv
    have hbpos := hs.geo.blocksPerGroup_pos
    have hb8 := hs.geo.blocksPerGroup_dvd
    have hbo : s.blockOffset gd.bgBlockBitmap = (geo s).cellOff (.blockBitmap g) := by
      rw [hb]
      exact Access.blockOffset_eq (Access.offset_lt hs (n := (geo s).blocksPerGroup / 8)
        (by omega) hin)
    rw [hsame, hbo]
    exact h
  · have h := hcell e he (.inode ino) hino (by simp)
    obtain ⟨gd', -, hgr, -, -, htab⟩ := Access.group_get hs (inoGroup_lt hino)
    rw [Access.inoToGrpno_eq hino.1, hgr, Out.ok.injEq] at hgd
    subst hgd
    rw [Access.inodeOffset_eq hs hino htab]
    exact h
  · refine List.Pairwise.imp_of_mem ?_ hnd
    intro a b ha hb hne
    rw [hoff a ha, hoff b hb]
    exact block_apart hne

/-! ## A list of thirteen blocks -/

section Single

variable {w w1 : Traced}

/-- With thirteen numbers one block is taken. -/
theorem updatePointers_single {ino size b : Nat} {inode : Inode} {bs : List Nat}
    (hlen : bs.length = 13) (hB : 1024 ≤ w.ext2.blockSize) (h : takeBlock.run w = .ok b w1) :
    (updatePointers ino inode size bs).run w = (do
      onVolume (writeBlock b (pointerBlock w.ext2.blockSize (bs.drop 12)))
      let n := ((inode.setSize size).setBlocks 0 (bs.take 12)).setBlocks 12 [b]
      onVolume (writeInode ino n)
      pure n).run w1 := by
  have h1 : (bs.drop 12).length = 1 := by rw [List.length_drop]; omega
  have htake : (bs.drop 12).take (w.ext2.blockSize / 4) = bs.drop 12 :=
    List.take_of_length_le (by omega)
  have hdrop : (bs.drop 12).drop (w.ext2.blockSize / 4) = [] :=
    List.drop_eq_nil_of_le (by omega)
  have hne : ¬ (bs.drop 12).isEmpty = true := by
    intro he
    rw [List.isEmpty_iff.mp he] at h1
    cases h1
  unfold updatePointers
  rw [Prog.get_bind]
  dsimp only
  rw [htake, hdrop]
  simp only [fillSlot, List.take_nil, List.drop_nil, List.isEmpty_nil, if_true, if_neg hne]
  unfold writeSingle
  rw [Prog.run_bind, Prog.run_bind, Prog.get_bind, if_neg hne, if_neg (by omega),
    Prog.bind_ok h, Prog.run_bind, Prog.run_bind]
  cases (onVolume (writeBlock b (pointerBlock w.ext2.blockSize (bs.drop 12)))).run w1 <;> rfl

end Single

/-- A volume of 64 blocks of 1024 bytes, of which the first 16 are in use. -/
def smallVolume : EXT2 where
  dev := ⟨128, fun a => if 3072 ≤ a ∧ a < 3074 then 255 else 0, fun _ => true, fun _ => true⟩
  sb := ⟨superBlock 64 0 64 ++ List.replicate 934 0, by decide +kernel, by decide +kernel,
    by decide +kernel, by decide +kernel, by decide +kernel, by decide +kernel⟩
  groups := [⟨enc32 3 ++ enc32 4 ++ enc32 5 ++ List.replicate 20 0, by decide +kernel⟩]
  uninit := fun _ => 0

/-- A file without blocks. -/
def noBlocks : Inode := Inode.create 0x8000 0 1 0 0

theorem noBlocks_noBlocks : NoBlocks noBlocks := fun j hj => Inode.create_iBlock _ _ _ _ _ j hj

theorem smallVolume_run : ∃ n t, (updatePointers 2 noBlocks 13312 (List.range' 40 13)).run
    ⟨smallVolume, []⟩ = .ok n ⟨t, [16]⟩ := by
  have h : ((updatePointers 2 noBlocks 13312 (List.range' 40 13)).run ⟨smallVolume, []⟩).passes
      (fun _ w => w.taken = [16]) = true := by decide +kernel
  obtain ⟨n, ⟨t, taken⟩, hw, ht⟩ := Res.of_passes h
  obtain rfl := of_decide_eq_true ht
  exact ⟨n, t, hw⟩

theorem smallVolume_clear : Clear smallVolume 2 [16] where
  readable := by
    have h : (readBlock smallVolume 16).passes (fun _ => true) = true := by decide +kernel
    intro e he
    obtain ⟨d, hd, -⟩ := Out.of_passes h
    rw [List.mem_singleton.mp he]
    exact ⟨d, hd⟩
  super := by decide +kernel
  table := by decide +kernel
  bitmaps := by decide +kernel
  inode := by
    intro e he gd hgd
    rw [List.mem_singleton.mp he]
    have h : smallVolume.group (smallVolume.inoToGrpno 2) = .ok
      ⟨enc32 3 ++ enc32 4 ++ enc32 5 ++ List.replicate 20 0, by decide⟩ := by rfl
    rw [h, Out.ok.injEq] at hgd
    subst hgd
    decide +kernel
  blocks := by decide

/-- The search after the groups that have no clear bit. -/
theorem searchFree_skip {rd : Nat → Out Err Bytes} {make : Nat → Nat → Nat} {gs hs : List Nat}
    (h : ∀ g ∈ gs, ∃ bm, rd g = .ok bm ∧ firstClear bm = none) :
    searchFree rd make (gs ++ hs) = searchFree rd make hs := by
  induction gs with
  | nil => rfl
  | cons g gs ih =>
    obtain ⟨bm, hbm, hf⟩ := h g (by simp)
    simp only [List.cons_append, searchFree, hbm, Out.ok_bind, hf]
    exact ih fun x hx => h x (by simp [hx])

/-- The search in a group that has a clear bit. -/
theorem searchFree_head {rd : Nat → Out Err Bytes} {make : Nat → Nat → Nat} {g i : Nat}
    {gs : List Nat} {bm : Bytes} (hbm : rd g = .ok bm) (hf : firstClear bm = some i)
    (hmake : make g i ≠ 0) :
    searchFree rd make (g :: gs) = .ok (some (g, setBit bm i, make g i)) := by
  simp only [searchFree, hbm, Out.ok_bind, hf]
  rw [if_pos hmake, Out.pure_eq]

theorem firstClear_full (n : Nat) : firstClear (List.replicate n 255) = none := by
  refine List.find?_eq_none.mpr fun i hi => ?_
  have hlt : i / 8 < n := by
    have := List.mem_range.mp hi
    rw [List.length_replicate] at this
    omega
  have hbits : ∀ j : Fin 8, (255 : UInt8).toNat.testBit j = true := by decide
  have h : testBit (List.replicate n 255) i = true := by
    unfold testBit
    rw [byteAt_eq_getElem (by rwa [List.length_replicate]), List.getElem_replicate]
    exact hbits ⟨i % 8, Nat.mod_lt _ (by decide)⟩
  rw [h]
  decide

/-- The number of a group's bitmap, inode bitmap and inode table. -/
def bigGroup (g : Nat) : GroupDesc :=
  ⟨enc32 (2 + g) ++ enc32 (11 + g) ++ enc32 (22 + g) ++ List.replicate 20 0, by simp⟩

/-- Nine groups of 65536 blocks of 8192 bytes. The bitmaps are in the blocks from 2 on; only in
the last group, behind the first 24, there are free blocks. -/
def bigVolume : EXT2 where
  dev := ⟨9437184, fun a => if 16384 ≤ a ∧ a < 81923 then 255 else 0, fun _ => true,
    fun _ => true⟩
  sb := ⟨superBlock 589824 3 65536 ++ List.replicate 934 0, by decide +kernel, by decide +kernel,
    by decide +kernel, by decide +kernel, by decide +kernel, by decide +kernel⟩
  groups := (List.range 9).map bigGroup
  uninit := fun _ => 0

theorem bigVolume_blockSize : bigVolume.blockSize = 8192 := by decide

theorem bigVolume_count : bigVolume.groupCount = 9 := by decide +kernel

theorem bigVolume_bitmap {g : Nat} (hg : g < 9) :
    readBlockBitmap bigVolume g = .ok (readMem bigVolume.dev.data ((2 + g) * 8192) 8192) := by
  have hgroup : bigVolume.group g = .ok (bigGroup g) := by
    unfold EXT2.group Out.index bigVolume
    simp [hg]
  have hblk : (bigGroup g).bgBlockBitmap = 2 + g := by
    show le32 (enc32 (2 + g) ++ enc32 (11 + g) ++ enc32 (22 + g) ++ List.replicate 20 0) 0 = _
    rw [List.append_assoc, List.append_assoc, le32_enc32_append, u32_of_lt (by omega)]
  have hsound : Sound bigVolume.dev 9437184 := ⟨Nat.le_refl _, fun _ _ => rfl, fun _ _ => rfl⟩
  have hoff : bigVolume.blockOffset (2 + g) = (2 + g) * 8192 := by
    unfold EXT2.blockOffset
    rw [bigVolume_blockSize, u32_of_lt (by omega)]
  have hper : bigVolume.sb.sBlocksPerGroup / 8 = 8192 := by decide
  unfold readBlockBitmap readBitmap
  rw [if_neg (by rw [bigVolume_count]; omega), hgroup, Out.ok_bind, hblk]
  unfold readBlock
  rw [if_neg (by rw [bigVolume_blockSize]; decide), hoff, bigVolume_blockSize,
    Device.read_eq hsound (by omega) (by omega) (by decide)]
  simp only [Out.ofOption, Out.ok_bind, Out.pure_eq, hper]
  rw [List.take_of_length_le (by simp)]

theorem bigVolume_full {g : Nat} (hg : g < 8) :
    ∃ bm, readBlockBitmap bigVolume g = .ok bm ∧ firstClear bm = none := by
  refine ⟨_, bigVolume_bitmap (by omega), ?_⟩
  have h : readMem bigVolume.dev.data ((2 + g) * 8192) 8192 = List.replicate 8192 255 := by
    refine List.eq_replicate_iff.mpr ⟨length_readMem _ _ _, fun b hb => ?_⟩
    obtain ⟨a, ha, rfl⟩ := List.mem_map.mp hb
    rw [List.mem_range'_1] at ha
    exact if_pos (by omega)
  rw [h]
  exact firstClear_full _

/-- The bitmap of the last group with the bit of the block taken. -/
def bigBitmap : Bytes := setBit (readMem bigVolume.dev.data 81920 8192) 24

/-- In the last group the first three bytes of the bitmap are full. -/
theorem bigVolume_clear : firstClear (readMem bigVolume.dev.data 81920 8192) = some 24 := by
  have hbyte : ∀ k, k < 4 →
      byteAt (readMem bigVolume.dev.data 81920 8192) k = if k < 3 then 255 else 0 := by
    intro k hk
    rw [byteAt_readMem (by omega)]
    show (if 16384 ≤ 81920 + k ∧ 81920 + k < 81923 then (255 : UInt8) else 0) = _
    split <;> split <;> first | rfl | omega
  have hbits : ∀ j : Fin 8, (255 : UInt8).toNat.testBit j = true := by decide
  refine List.find?_range_eq_some.mpr ⟨?_, ?_, fun j hj => ?_⟩
  · unfold testBit
    rw [hbyte 3 (by decide)]
    decide
  · rw [List.mem_range, length_readMem]
    decide
  · unfold testBit
    rw [hbyte _ (by omega), if_pos (by omega), hbits ⟨j % 8, by omega⟩]
    rfl

theorem bigVolume_search : searchFree (readBlockBitmap bigVolume) bigVolume.makeBlkno
    (List.range bigVolume.groupCount) = .ok (some (8, bigBitmap, 524312)) := by
  have hrange : List.range bigVolume.groupCount = List.range 8 ++ [8] := by
    rw [bigVolume_count]
    rfl
  have hmake : bigVolume.makeBlkno 8 24 = 524312 := by decide +kernel
  rw [hrange, searchFree_skip fun g hg => bigVolume_full (List.mem_range.mp hg)]
  have hb := bigVolume_bitmap (g := 8) (by decide)
  rw [show (2 + 8) * 8192 = 81920 from rfl] at hb
  rw [searchFree_head hb bigVolume_clear (by rw [hmake]; decide), hmake, bigBitmap]

/-- The volume after `_GetBlock`. -/
def bigTake : Prog EXT2 Err Nat := do
  Prog.modify (addFreeBlocks (-1))
  writeSuperBlock
  Prog.modify (addGroupFreeBlocks 8 (-1))
  writeGroup 8
  writeBlockBitmap 8 bigBitmap
  pure 524312

theorem bigVolume_getBlock : getBlock.run bigVolume = bigTake.run bigVolume := by
  unfold getBlock
  rw [Prog.bind_ok (Prog.read_ok (f := fun ext2 : EXT2 => searchFree (readBlockBitmap ext2)
    ext2.makeBlkno (List.range ext2.groupCount)) bigVolume_search)]
  rfl

/-- Twelve blocks, and one more. -/
def bigFinish (b : Nat) : Prog Traced Err Inode := do
  onVolume (writeBlock b (pointerBlock 8192 [52]))
  let n := ((noBlocks.setSize 106496).setBlocks 0 (List.range' 40 12)).setBlocks 12 [b]
  onVolume (writeInode 17 n)
  pure n

theorem takeBlock_run {w : Traced} {b : Nat} {t : EXT2} (h : getBlock.run w.ext2 = .ok b t) :
    takeBlock.run w = .ok b ⟨t, w.taken ++ [b]⟩ := by
  have hv : (onVolume getBlock).run w = .ok b { w with ext2 := t } := by rw [onVolume_run, h]
  unfold takeBlock
  rw [Prog.bind_ok hv, Prog.modify_bind]
  rfl

theorem bigVolume_run : ∃ n t, (updatePointers 17 noBlocks 106496 (List.range' 40 13)).run
    ⟨bigVolume, []⟩ = .ok n ⟨t, [524312]⟩ ∧
    loadBlockNumbersFromInode t n false ≠ .ok (List.range' 40 13) := by
  have h : (bigTake.run bigVolume).passes (fun b t => ((bigFinish b).run ⟨t, [b]⟩).passes fun n w =>
      decide (b = 524312 ∧ w.taken = [524312]) &&
        !(loadBlockNumbersFromInode w.ext2 n false).passes fun l => l = List.range' 40 13) = true := by
    decide +kernel
  obtain ⟨b, t, hb, h⟩ := Res.of_passes h
  obtain ⟨n, ⟨u, taken⟩, hn, h⟩ := Res.of_passes h
  rw [← bigVolume_getBlock] at hb
  rw [Bool.and_eq_true, decide_eq_true_iff] at h
  obtain ⟨⟨rfl, rfl⟩, hload⟩ := h
  have htake := takeBlock_run (w := ⟨bigVolume, []⟩) hb
  refine ⟨n, u, ?_, fun he => ?_⟩
  · rw [updatePointers_single (by decide) (by decide) htake]
    exact hn
  · rw [he] at hload
    simp [Out.passes] at hload

end LsvmTools.Ext2.RoundTrip
