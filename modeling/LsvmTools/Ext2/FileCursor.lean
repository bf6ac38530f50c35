import LsvmTools.Ext2.Open

/-! # Open files

An `EXT2File` is read block by block from an offset. A read that reaches the end of the file
sets `eof`, which makes every later read deliver nothing; seeking does not reset it. -/
namespace LsvmTools.Ext2.FileCursor
open Lib.ByteString Lib.Program BlockDevice Volume Blocks Dir DeviceExact Open

structure EXT2File where
  ext2 : EXT2
  inode : Inode
  blknos : List Nat
  offset : Nat
  eof : Bool

/-- The file object that `EXT2OpenFile` makes. -/
def EXT2File.opened (ext2 : EXT2) (inode : Inode) (blknos : List Nat) : EXT2File :=
  ⟨ext2, inode, blknos, 0, false⟩

/-- `EXT2OpenFile`. -/
def openFile (ext2 : EXT2) (path : Bytes) : Out Unit EXT2File :=
  Out.mapErr (fun _ => ()) do
    let (_, inode) ← pathToInode ext2 path
    let blknos ← loadBlockNumbersFromInode ext2 inode false
    pure (.opened ext2 inode blknos)

namespace EXT2File

variable (file : EXT2File)

/-- Where the offset lies in its block. -/
def inBlock : Nat := file.offset % file.ext2.blockSize

/-- `fileBytesRemaining`, a difference of `UINTN`s. -/
def bytesRemaining : Nat := u64 (file.inode.iSize + 2 ^ 64 - file.offset)

/-- The number of bytes copied when `part` of them could be. -/
def copyBytes (part : Nat) : Nat := if file.bytesRemaining < part then file.bytesRemaining else part

/-- The file after as many bytes have been copied. -/
def copied (part : Nat) : EXT2File :=
  { file with
    offset := u64 (file.offset + file.copyBytes part)
    eof := file.eof || decide (file.bytesRemaining < part) }

end EXT2File

/-- The loop of `EXT2ReadFile` over the blocks from `first` on. -/
def readLoop : List Nat → Nat → Prog EXT2File Unit Bytes
  | [], _ => pure []
  | blkno :: rest, remaining => do
    let file ← Prog.get
    if remaining = 0 ∨ file.eof = true then pure []
    else do
      let block ← Prog.read fun file => Out.mapErr (fun _ => ()) (readBlock file.ext2 blkno)
      let part := min remaining (file.ext2.blockSize - file.inBlock)
      Prog.modify fun file => file.copied part
      let more ← readLoop rest (remaining - file.copyBytes part)
      pure ((block.drop file.inBlock).take (file.copyBytes part) ++ more)

/-- `EXT2ReadFile`: the bytes delivered. An error is the result -1. -/
def readFile (size : Nat) : Prog EXT2File Unit Bytes := do
  let file ← Prog.get
  readLoop (file.blknos.drop (u32 (file.offset / file.ext2.blockSize))) size

/-- `EXT2SeekFile`: the offset is an `INTN`, which is compared with the `UINT32` size. -/
def seekFile (offset : Int64) : Prog EXT2File Unit Unit := do
  let file ← Prog.get
  if offset.toInt > file.inode.iSize then Prog.throw ()
  else Prog.modify fun file => { file with offset := (offset.toInt % 2 ^ 64).toNat }

/-- `EXT2TellFile`: the offset as an `INTN`. -/
def tellFile (file : EXT2File) : Int :=
  if file.offset < 2 ^ 63 then file.offset else (file.offset : Int) - 2 ^ 64

/-! ## Content -/

/-- The bytes of a block, where it can be read. -/
def blockBytes (ext2 : EXT2) (blkno : Nat) : Bytes :=
  match readBlock ext2 blkno with
  | .ok block => block
  | .err _ | .stuck => []

/-- What the blocks of the file hold up to its size. -/
def content (file : EXT2File) : Bytes :=
  (file.blknos.flatMap (blockBytes file.ext2)).take file.inode.iSize

/-- `EXT2ReadBlock` succeeds. -/
def Readable (ext2 : EXT2) (blkno : Nat) : Prop := readBlock ext2 blkno = .ok (blockBytes ext2 blkno)

variable {ext2 : EXT2} {file f : EXT2File}

theorem length_block {blkno : Nat} (h : Readable ext2 blkno) :
    (blockBytes ext2 blkno).length = ext2.blockSize := by
  have hlt : ext2.blockSize < 2 ^ 32 := Nat.lt_trans ext2.sb.blockSize_lt (by decide)
  unfold Readable at h
  generalize blockBytes ext2 blkno = block at h ⊢
  unfold readBlock at h
  split at h
  · cases h
  · unfold Out.ofOption at h
    split at h
    · rename_i b hread
      cases h
      exact length_read hlt hread
    · cases h

theorem readable_or (ext2 : EXT2) (blkno : Nat) :
    Readable ext2 blkno ∨ ∃ e, readBlock ext2 blkno = .err e := by
  unfold Readable blockBytes
  cases h : readBlock ext2 blkno with
  | ok block => exact .inl rfl
  | err e => exact .inr ⟨e, rfl⟩
  | stuck =>
    unfold readBlock Out.ofOption at h
    split at h
    · cases h
    · split at h <;> cases h

/-! ## One read

Only the blocks up to the one with the end of the file are looked at. -/

/-- The offset is in the file, and at its end if `eof` is set. -/
structure Placed (file : EXT2File) : Prop where
  inside : file.offset ≤ file.inode.iSize
  atEnd : file.eof = true → file.offset = file.inode.iSize

/-- `t` is the same file elsewhere. -/
structure Moved (s t : EXT2File) : Prop where
  ext2 : t.ext2 = s.ext2
  inode : t.inode = s.inode
  blknos : t.blknos = s.blknos

theorem Moved.refl (s : EXT2File) : Moved s s := ⟨rfl, rfl, rfl⟩

theorem Moved.trans {s t u : EXT2File} (h : Moved s t) (h' : Moved t u) : Moved s u :=
  ⟨h'.ext2.trans h.ext2, h'.inode.trans h.inode, h'.blknos.trans h.blknos⟩

theorem Moved.content {s t : EXT2File} (h : Moved s t) : content t = content s := by
  unfold FileCursor.content
  rw [h.ext2, h.inode, h.blknos]

theorem iSize_lt (n : Inode) : n.iSize < 2 ^ 32 := le32_lt _ _

theorem readLoop_done (bl : List Nat) {remaining : Nat} (h : remaining = 0 ∨ f.eof = true) :
    (readLoop bl remaining).run f = .ok [] f := by
  cases bl with
  | nil => rfl
  | cons b rest =>
    unfold readLoop
    rw [Prog.get_bind, if_pos h]
    rfl

/-- The number of blocks from the offset to the end of the file, the last one included. -/
def EXT2File.needed (file : EXT2File) : Nat :=
  (file.inBlock + (file.inode.iSize - file.offset)) / file.ext2.blockSize + 1

@[simp] theorem copied_ext2 (f : EXT2File) (part : Nat) : (f.copied part).ext2 = f.ext2 := by
  unfold EXT2File.copied
  rfl

@[simp] theorem copied_inode (f : EXT2File) (part : Nat) : (f.copied part).inode = f.inode := by
  unfold EXT2File.copied
  rfl

@[simp] theorem copied_blknos (f : EXT2File) (part : Nat) : (f.copied part).blknos = f.blknos := by
  unfold EXT2File.copied
  rfl

@[simp] theorem copied_eof (f : EXT2File) (part : Nat) :
    (f.copied part).eof = (f.eof || decide (f.bytesRemaining < part)) := by
  unfold EXT2File.copied
  rfl

theorem bytesRemaining_eq (hp : Placed f) : f.bytesRemaining = f.inode.iSize - f.offset := by
  have hlt := iSize_lt f.inode
  have hle := hp.inside
  unfold EXT2File.bytesRemaining u64
  omega

theorem copyBytes_le (f : EXT2File) (part : Nat) :
    f.copyBytes part ≤ part ∧ f.copyBytes part ≤ f.bytesRemaining := by
  unfold EXT2File.copyBytes
  split <;> omega

theorem copied_offset (hp : Placed f) (part : Nat) :
    (f.copied part).offset = f.offset + f.copyBytes part := by
  have hlt := iSize_lt f.inode
  have hle := hp.inside
  have hcopy := (copyBytes_le f part).2
  rw [bytesRemaining_eq hp] at hcopy
  unfold EXT2File.copied u64
  exact Nat.mod_eq_of_lt (by omega)

theorem copied_moved (f : EXT2File) (part : Nat) : Moved f (f.copied part) :=
  ⟨copied_ext2 f part, copied_inode f part, copied_blknos f part⟩

theorem copied_placed (hp : Placed f) (he : f.eof = false) (part : Nat) :
    Placed (f.copied part) := by
  have hle := hp.inside
  have hcopy := (copyBytes_le f part).2
  have hoff := copied_offset hp part
  rw [bytesRemaining_eq hp] at hcopy
  refine ⟨Nat.le_trans (Nat.le_of_eq hoff) ?_, fun hend => hoff.trans ?_⟩
  · rw [copied_inode]
    omega
  · -- only a block with fewer bytes of the file than could be copied sets `eof`
    have hless : f.bytesRemaining < part := by
      rw [copied_eof, he, Bool.false_or] at hend
      exact of_decide_eq_true hend
    have hcopied : f.copyBytes part = f.inode.iSize - f.offset :=
      (if_pos hless).trans (bytesRemaining_eq hp)
    rw [copied_inode]
    omega

/-- One round: the part of the block from the offset on. -/
theorem readLoop_cons {b : Nat} {rest : List Nat} {remaining part : Nat} (hr : 0 < remaining)
    (he : f.eof = false) (hb : Readable f.ext2 b)
    (hpart : min remaining (f.ext2.blockSize - f.inBlock) = part) :
    (readLoop (b :: rest) remaining).run f =
      match (readLoop rest (remaining - f.copyBytes part)).run (f.copied part) with
      | .ok more t =>
        .ok (((blockBytes f.ext2 b).drop f.inBlock).take (f.copyBytes part) ++ more) t
      | .err e t => .err e t
      | .stuck => .stuck := by
  have hgo : ¬ (remaining = 0 ∨ f.eof = true) := by
    rw [he]
    rintro (h | h)
    · omega
    · cases h
  have hread : Out.mapErr (fun _ => ()) (readBlock f.ext2 b) = Out.ok (blockBytes f.ext2 b) := by
    rw [hb]
    rfl
  rw [readLoop, Prog.get_bind, if_neg hgo]
  rw [Prog.bind_ok (Prog.read_ok (f := fun file : EXT2File =>
    Out.mapErr (fun _ => ()) (readBlock file.ext2 b)) hread)]
  rw [Prog.modify_bind, Prog.run_bind, hpart]
  cases (readLoop rest (remaining - f.copyBytes part)).run (f.copied part) <;> rfl

/-- Where the offset moves when the rest of a block is copied. -/
theorem copied_next (hp : Placed f) {part : Nat} (hpart : part = f.ext2.blockSize - f.inBlock)
    (hfull : f.copyBytes part = part) :
    (f.copied part).inBlock = 0 ∧ f.needed = (f.copied part).needed + 1 := by
  have hpos : 0 < f.ext2.blockSize := f.ext2.sb.blockSize_pos
  have hlt : f.inBlock < f.ext2.blockSize := Nat.mod_lt _ hpos
  have hle := (copyBytes_le f part).2
  rw [bytesRemaining_eq hp] at hle
  have hoff := copied_offset hp part
  rw [hfull] at hle hoff
  have hin : (f.copied part).inBlock = 0 := by
    unfold EXT2File.inBlock
    rw [copied_ext2]
    have hsplit := Nat.div_add_mod f.offset f.ext2.blockSize
    have hround : f.offset + part = f.ext2.blockSize * (f.offset / f.ext2.blockSize + 1) := by
      rw [Nat.mul_add, Nat.mul_one]
      unfold EXT2File.inBlock at hpart hlt
      omega
    rw [hoff, hround, Nat.mul_mod_right]
  refine ⟨hin, ?_⟩
  have hnext : (f.copied part).needed =
      (0 + (f.inode.iSize - (f.offset + part))) / f.ext2.blockSize + 1 := by
    unfold EXT2File.needed
    rw [hin, hoff, copied_ext2, copied_inode]
  rw [hnext]
  unfold EXT2File.needed
  have hsum : f.inBlock + (f.inode.iSize - f.offset) =
      0 + (f.inode.iSize - (f.offset + part)) + f.ext2.blockSize := by omega
  rw [hsum, Nat.add_div_right _ hpos]

theorem take_split (B V : Bytes) {i n m : Nat} (hn : B.length = i + n) (hm : n ≤ m) :
    ((B ++ V).drop i).take m = (B.drop i).take n ++ V.take (m - n) := by
  have hlen : (B.drop i).length = n := by rw [List.length_drop]; omega
  rw [List.drop_append_of_le_length (by omega), List.take_append, hlen,
    List.take_of_length_le (Nat.le_trans (Nat.le_of_eq hlen) hm),
    List.take_of_length_le (Nat.le_of_eq hlen)]

theorem take_inside (B V : Bytes) {i n m : Nat} (hm : m ≤ n) (hn : B.length = i + n) :
    ((B ++ V).drop i).take m = (B.drop i).take m := by
  rw [List.drop_append_of_le_length (by omega), List.take_append_of_le_length]
  rw [List.length_drop]
  omega

/-- The loop delivers what the blocks hold from the offset on, up to the end of the file. -/
def Delivers (bl : List Nat) (remaining : Nat) (f : EXT2File) : Prop :=
  ∃ t bytes, (readLoop bl remaining).run f = .ok bytes t ∧
    bytes = ((bl.flatMap (blockBytes f.ext2)).drop f.inBlock).take
      (min remaining (f.inode.iSize - f.offset)) ∧
    Moved f t ∧ Placed t ∧ t.offset = f.offset + bytes.length

/-- How much one round takes of what remains to be read and of what is left of the file. -/
theorem round_sizes {remaining room left part : Nat} (hpart : min remaining room = part) :
    (left < part → min remaining left = left) ∧
      (¬ left < part → remaining ≤ room → part = remaining ∧ min remaining left = part) ∧
      (¬ left < part → room < remaining →
        part = room ∧ min remaining left = part + min (remaining - part) (left - part)) := by
  refine ⟨?_, ?_, ?_⟩ <;> omega

theorem readLoop_spec : ∀ (bl : List Nat) (remaining : Nat) {f : EXT2File}, Placed f →
    f.eof = false → (∀ b ∈ bl.take f.needed, Readable f.ext2 b) → Delivers bl remaining f := by
  intro bl
  induction bl with
  | nil =>
    intro remaining f hp _ _
    refine ⟨f, [], rfl, ?_, .refl f, hp, rfl⟩
    rw [List.flatMap_nil, List.drop_nil, List.take_nil]
  | cons b rest ih =>
    intro remaining f hp he hread
    by_cases hr : remaining = 0
    · refine ⟨f, [], readLoop_done _ (.inl hr), ?_, .refl f, hp, rfl⟩
      rw [hr, Nat.zero_min, List.take_zero]
    have hb : Readable f.ext2 b := hread b (by
      unfold EXT2File.needed
      rw [List.take_succ_cons]
      exact List.mem_cons_self ..)
    have hlt : f.inBlock < f.ext2.blockSize := Nat.mod_lt _ f.ext2.sb.blockSize_pos
    have hblen : (blockBytes f.ext2 b).length = f.inBlock + (f.ext2.blockSize - f.inBlock) := by
      rw [length_block hb, Nat.add_sub_cancel' (Nat.le_of_lt hlt)]
    obtain ⟨part, hpart⟩ : ∃ part, min remaining (f.ext2.blockSize - f.inBlock) = part := ⟨_, rfl⟩
    obtain ⟨hend, hfit, hmore⟩ := @round_sizes _ _ (f.inode.iSize - f.offset) _ hpart
    have hroom : part ≤ f.ext2.blockSize - f.inBlock := hpart ▸ Nat.min_le_right _ _
    have hcopy : ∀ n, n ≤ f.ext2.blockSize - f.inBlock →
        (((blockBytes f.ext2 b).drop f.inBlock).take n).length = n := by
      intro n hn
      rw [List.length_take, List.length_drop, hblen, Nat.add_sub_cancel_left, Nat.min_eq_left hn]
    have hcons : ∀ {more : Bytes} {t : EXT2File},
        (readLoop rest (remaining - f.copyBytes part)).run (f.copied part) = .ok more t →
        (readLoop (b :: rest) remaining).run f =
          .ok (((blockBytes f.ext2 b).drop f.inBlock).take (f.copyBytes part) ++ more) t := by
      intro more t hrest
      rw [readLoop_cons (Nat.pos_of_ne_zero hr) he hb hpart, hrest]
    have hoff := copied_offset hp part
    have hplaced := copied_placed hp he part
    rw [← bytesRemaining_eq hp] at hend hfit hmore
    -- the block is the last one: the bytes come out of it alone
    have hlast : min remaining (f.inode.iSize - f.offset) = f.copyBytes part →
        (remaining - f.copyBytes part = 0 ∨ (f.copied part).eof = true) →
        Delivers (b :: rest) remaining f := by
      intro hmin hdone
      have hle := Nat.le_trans (copyBytes_le f part).1 hroom
      refine ⟨f.copied part, _, hcons (readLoop_done rest hdone), ?_, copied_moved f part, hplaced,
        ?_⟩
      · rw [hmin, List.flatMap_cons, take_inside _ _ hle hblen, List.append_nil]
      · rw [hoff, List.append_nil, hcopy _ hle]
    by_cases hless : f.bytesRemaining < part
    · have hcopied : f.copyBytes part = f.bytesRemaining := if_pos hless
      refine hlast ?_ (.inr ?_)
      · rw [hcopied, ← bytesRemaining_eq hp, hend hless]
      · rw [copied_eof, decide_eq_true hless, Bool.or_true]
    have hcopied : f.copyBytes part = part := if_neg hless
    by_cases hsmall : remaining ≤ f.ext2.blockSize - f.inBlock
    · obtain ⟨hall, hmin⟩ := hfit hless hsmall
      refine hlast ?_ (.inl ?_)
      · rw [hcopied, ← bytesRemaining_eq hp, hmin]
      · rw [hcopied, hall, Nat.sub_self]
    obtain ⟨hwhole, hmin⟩ := hmore hless (Nat.lt_of_not_le hsmall)
    have heof : (f.copied part).eof = false := by
      rw [copied_eof, he, decide_eq_false hless]
      rfl
    obtain ⟨hin, hneed⟩ := copied_next hp hwhole hcopied
    obtain ⟨t, more, hrun, hbytes, hmoved, hpt, htoff⟩ := ih (remaining - part) hplaced heof
      fun x hx => by
        rw [copied_ext2]
        refine hread x ?_
        rw [hneed, List.take_succ_cons]
        exact List.mem_cons_of_mem _ hx
    rw [hcopied] at hcons hoff
    rw [hoff, copied_inode, ← Nat.sub_sub, ← bytesRemaining_eq hp, hin, copied_ext2,
      List.drop_zero] at hbytes
    refine ⟨t, _, hcons hrun, ?_, (copied_moved f part).trans hmoved, hpt, ?_⟩
    · have hroom' : (blockBytes f.ext2 b).length = f.inBlock + part := by rw [hblen, hwhole]
      rw [hbytes, List.flatMap_cons, ← bytesRemaining_eq hp, hmin,
        take_split _ _ hroom' (Nat.le_add_right _ _), Nat.add_sub_cancel_left]
    · rw [htoff, hoff, List.length_append, hcopy part hroom, Nat.add_assoc]

/-- The blocks up to the one with the end of the file can be read. -/
def Needed (file : EXT2File) : Prop :=
  ∀ b ∈ file.blknos.take (file.inode.iSize / file.ext2.blockSize + 1), Readable file.ext2 b

theorem Moved.needed {s t : EXT2File} (h : Moved s t) (hn : Needed s) : Needed t := by
  unfold Needed at hn ⊢
  rwa [h.ext2, h.inode, h.blknos]

theorem length_blocks {g : Nat → Bytes} {size : Nat} (bl : List Nat)
    (h : ∀ b ∈ bl, (g b).length = size) : (bl.flatMap g).length = bl.length * size := by
  rw [List.length_flatMap, List.map_congr_left h, List.map_const', List.sum_replicate, smul_eq_mul]

/-- What lies from an offset on starts inside the block that `offset / size` counts. -/
theorem flatMap_drop {g : Nat → Bytes} {size : Nat} (bl : List Nat) (offset : Nat)
    (hlen : ∀ b ∈ bl.take (offset / size), (g b).length = size) :
    ((bl.drop (offset / size)).flatMap g).drop (offset % size) = (bl.flatMap g).drop offset := by
  have hall := length_blocks _ hlen
  have hsplit := Nat.div_add_mod offset size
  conv_rhs => rw [← List.take_append_drop (offset / size) bl, List.flatMap_append]
  by_cases hshort : bl.length ≤ offset / size
  · -- the list ends before the offset
    have hle : (bl.take (offset / size)).length * size ≤ offset / size * size :=
      Nat.mul_le_mul_right _ (List.length_take_le _ _)
    have hmul : offset / size * size ≤ offset := Nat.div_mul_le_self _ _
    rw [List.drop_eq_nil_of_le hshort, List.flatMap_nil, List.drop_nil, List.append_nil]
    exact (List.drop_eq_nil_of_le (by omega)).symm
  · rw [List.length_take_of_le (by omega), Nat.mul_comm] at hall
    have hpast : ((bl.take (offset / size)).flatMap g).drop offset = [] :=
      List.drop_eq_nil_of_le (by omega)
    have hinside : offset - ((bl.take (offset / size)).flatMap g).length = offset % size := by omega
    rw [List.drop_append, hpast, hinside, List.nil_append]

/-- A read delivers the content from the offset on and moves the offset past it. -/
theorem readFile_spec (hp : Placed f) (hn : Needed f) (size : Nat) :
    ∃ t, (readFile size).run f = .ok (((content f).drop f.offset).take size) t ∧ Moved f t ∧
      Placed t ∧ t.offset = f.offset + (((content f).drop f.offset).take size).length := by
  have hcontent : ((content f).drop f.offset).take size =
      ((f.blknos.flatMap (blockBytes f.ext2)).drop f.offset).take
        (min size (f.inode.iSize - f.offset)) := by
    rw [content, List.drop_take, List.take_take]
  unfold readFile
  rw [Prog.get_bind]
  cases he : f.eof with
  | true =>
    have hend : f.inode.iSize - f.offset = 0 := by rw [hp.atEnd he, Nat.sub_self]
    have hnone : ((content f).drop f.offset).take size = [] := by
      rw [hcontent, hend, Nat.min_zero, List.take_zero]
    rw [hnone]
    exact ⟨f, readLoop_done _ (.inr he), .refl f, hp, rfl⟩
  | false =>
    have hfirst : u32 (f.offset / f.ext2.blockSize) = f.offset / f.ext2.blockSize :=
      u32_of_lt (Nat.lt_of_le_of_lt (Nat.le_trans (Nat.div_le_self _ _) hp.inside) (iSize_lt _))
    have hblocks : f.offset / f.ext2.blockSize + f.needed = f.inode.iSize / f.ext2.blockSize + 1 := by
      have hpos : 0 < f.ext2.blockSize := f.ext2.sb.blockSize_pos
      have hsum : f.inode.iSize = f.inBlock + (f.inode.iSize - f.offset) +
          f.ext2.blockSize * (f.offset / f.ext2.blockSize) := by
        have hmod := Nat.mod_add_div f.offset f.ext2.blockSize
        have hsub := Nat.sub_add_cancel hp.inside
        unfold EXT2File.inBlock
        rw [Nat.add_right_comm, hmod, Nat.add_comm]
        exact hsub.symm
      conv_rhs => rw [hsum, Nat.add_mul_div_left _ _ hpos]
      unfold EXT2File.needed
      rw [Nat.add_comm, Nat.add_right_comm]
    have hread : ∀ b ∈ (f.blknos.drop (f.offset / f.ext2.blockSize)).take f.needed,
        Readable f.ext2 b := by
      intro b hb
      rw [List.take_drop, hblocks] at hb
      exact hn b (List.mem_of_mem_drop hb)
    have hearlier : ∀ b ∈ f.blknos.take (f.offset / f.ext2.blockSize),
        (blockBytes f.ext2 b).length = f.ext2.blockSize := by
      intro b hb
      have hle : f.offset / f.ext2.blockSize ≤ f.inode.iSize / f.ext2.blockSize + 1 :=
        hblocks ▸ Nat.le_add_right _ _
      exact length_block (hn b (List.take_subset_take_left _ hle hb))
    obtain ⟨t, bytes, hrun, hbytes, hmoved, hpt, hoff⟩ :=
      readLoop_spec (f.blknos.drop (f.offset / f.ext2.blockSize)) size hp he hread
    rw [EXT2File.inBlock, flatMap_drop f.blknos f.offset hearlier, ← hcontent] at hbytes
    rw [hfirst, hrun, ← hbytes]
    exact ⟨t, rfl, hmoved, hpt, hoff⟩

/-! ## Seeks and reads -/

inductive Op where
  | seek (offset : Int64)
  | read (size : Nat)

def perform : Op → Prog EXT2File Unit Bytes
  | .seek offset => do
    seekFile offset
    pure []
  | .read size => readFile size

/-- A sequence of calls, all of them successful. -/
def calls : List Op → Prog EXT2File Unit Unit
  | [] => pure ()
  | op :: ops => do
    let _ ← perform op
    calls ops

/-- Every block can be read, and together they hold the file. -/
structure Mapped (file : EXT2File) : Prop where
  readable : ∀ b ∈ file.blknos, Readable file.ext2 b
  size : file.inode.iSize ≤ file.blknos.length * file.ext2.blockSize

/-- The offset is in the file, and any read delivers what the file holds from there on: no fewer
bytes than remain. -/
structure Reads (c : Bytes) (file : EXT2File) : Prop where
  inside : 0 ≤ tellFile file ∧ tellFile file ≤ file.inode.iSize
  delivers : ∀ size, ∃ bytes t, (readFile size).run file = .ok bytes t ∧
    bytes = (c.drop file.offset).take size ∧
    bytes.length = min size (file.inode.iSize - file.offset) ∧
    tellFile t = tellFile file + bytes.length

/-- At every point of the calls the offset is in the file and reads are exact. -/
def Right (file : EXT2File) (ops : List Op) : Prop :=
  ∀ past, past <+: ops → ∀ t, (calls past).run file = .ok () t → Reads (content file) t

/-- A seek to no negative offset and, once a read has hit the end of the file, only there. -/
def Allowed (file : EXT2File) : Op → Prop
  | .seek offset => 0 ≤ offset.toInt ∧ (file.eof = true → offset.toInt = file.inode.iSize)
  | .read _ => True

/-- In a run of the calls, each is allowed where it is made. -/
def Guarded : List Op → EXT2File → Prop
  | [], _ => True
  | op :: ops, file => Allowed file op ∧
      ∀ bytes t, (perform op).run file = .ok bytes t → Guarded ops t

theorem Mapped.needed (h : Mapped file) : Needed file :=
  fun b hb => h.readable b (List.mem_of_mem_take hb)

theorem length_content (h : Mapped file) : (content file).length = file.inode.iSize := by
  have hlen := length_blocks (g := blockBytes file.ext2) file.blknos
    fun b hb => length_block (h.readable b hb)
  rw [content, List.length_take, hlen, Nat.min_eq_left h.size]

theorem Moved.mapped {s t : EXT2File} (h : Moved s t) (hm : Mapped s) : Mapped t := by
  refine ⟨?_, ?_⟩
  · rw [h.blknos, h.ext2]
    exact hm.readable
  · rw [h.inode, h.blknos, h.ext2]
    exact hm.size

theorem tell_inside {n : Nat} (h : file.offset ≤ n) (hn : n < 2 ^ 32) :
    tellFile file = file.offset := if_pos (by omega)

theorem reads_of_placed (hp : Placed file) (hm : Mapped file) : Reads (content file) file := by
  have htell := tell_inside hp.inside (iSize_lt _)
  have hle := hp.inside
  refine ⟨?_, fun size => ?_⟩
  · rw [htell]
    exact ⟨Int.natCast_nonneg _, Int.ofNat_le.mpr hle⟩
  · obtain ⟨t, hrun, hmoved, hpt, hoff⟩ := readFile_spec hp hm.needed size
    refine ⟨_, t, hrun, rfl, ?_, ?_⟩
    · rw [List.length_take, List.length_drop, length_content hm]
    · rw [htell, tell_inside hpt.inside (iSize_lt _), hoff]
      exact Int.natCast_add _ _

theorem seekFile_ok {offset : Int64} {s t : EXT2File} {bytes : Bytes}
    (h : (perform (.seek offset)).run s = .ok bytes t) :
    offset.toInt ≤ s.inode.iSize ∧ t = { s with offset := (offset.toInt % 2 ^ 64).toNat } := by
  obtain ⟨u, t', hseek, hend⟩ := Prog.bind_eq_ok.mp h
  cases hend
  unfold seekFile at hseek
  rw [Prog.get_bind] at hseek
  split at hseek
  · cases hseek
  · rw [Prog.run_modify] at hseek
    cases hseek
    exact ⟨by omega, rfl⟩

/-- What one allowed call keeps. -/
theorem perform_keeps {s t : EXT2File} {op : Op} {bytes : Bytes} (hm : Mapped s) (hp : Placed s)
    (ha : Allowed s op) (h : (perform op).run s = .ok bytes t) : Moved s t ∧ Placed t := by
  cases op with
  | read size =>
    obtain ⟨u, hrun, hmoved, hpu, -⟩ := readFile_spec hp hm.needed size
    have heq : Res.ok bytes t = .ok _ u := h.symm.trans hrun
    cases heq
    exact ⟨hmoved, hpu⟩
  | seek offset =>
    obtain ⟨hle, rfl⟩ := seekFile_ok h
    have hlt := iSize_lt s.inode
    have hpos : 0 ≤ offset.toInt := ha.1
    have hoff : (offset.toInt % 2 ^ 64).toNat = offset.toInt.toNat := by
      rw [Int.emod_eq_of_lt hpos (by omega)]
    refine ⟨⟨rfl, rfl, rfl⟩, ⟨?_, fun he => ?_⟩⟩
    · rw [hoff]
      exact Int.toNat_le.mpr hle
    · have hend := ha.2 he
      rw [hoff, hend]
      rfl

/-- A call that goes wrong shows: by the offset, or by a read that delivers too little. -/
theorem allowed_of_reads {c : Bytes} {s t : EXT2File} {op : Op} {bytes : Bytes}
    (h : (perform op).run s = .ok bytes t) (hr : Reads c t) : Allowed s op := by
  cases op with
  | read size => trivial
  | seek offset =>
    obtain ⟨hle, rfl⟩ := seekFile_ok h
    have hlt := iSize_lt s.inode
    have hmin := offset.le_toInt
    have hmax := offset.toInt_lt
    have hpos : 0 ≤ offset.toInt := by
      by_contra hneg
      -- the offset becomes a number of 2^63 or more, and `EXT2TellFile` returns it as negative
      have hoff : (offset.toInt % 2 ^ 64).toNat = (offset.toInt + 2 ^ 64).toNat := by
        rw [← Int.add_emod_right, Int.emod_eq_of_lt (by omega) (by omega)]
      have htell := hr.inside.1
      unfold tellFile at htell
      dsimp only at htell
      rw [hoff] at htell
      split at htell <;> omega
    refine ⟨hpos, fun he => ?_⟩
    by_contra hne
    have hoff : (offset.toInt % 2 ^ 64).toNat = offset.toInt.toNat := by
      rw [Int.emod_eq_of_lt hpos (by omega)]
    obtain ⟨bs, u, hrun, -, hlen, -⟩ := hr.delivers 1
    have hnone : (readFile 1).run { s with offset := (offset.toInt % 2 ^ 64).toNat } =
        .ok [] { s with offset := (offset.toInt % 2 ^ 64).toNat } := by
      unfold readFile
      rw [Prog.get_bind]
      exact readLoop_done _ (.inr he)
    have heq : Res.ok bs u = .ok [] _ := hrun.symm.trans hnone
    cases heq
    dsimp only at hlen
    rw [hoff, List.length_nil] at hlen
    omega

theorem calls_append {as bs : List Op} {s t : EXT2File} {u : Unit} :
    (calls (as ++ bs)).run s = .ok u t ↔
      ∃ s', (calls as).run s = .ok () s' ∧ (calls bs).run s' = .ok u t := by
  induction as generalizing s with
  | nil => simp [calls]
  | cons a as ih =>
    simp only [List.cons_append, calls, Prog.bind_eq_ok, ih]
    constructor
    · rintro ⟨bytes, s1, h1, s2, h2, h3⟩; exact ⟨s2, ⟨bytes, s1, h1, h2⟩, h3⟩
    · rintro ⟨s2, ⟨bytes, s1, h1, h2⟩, h3⟩; exact ⟨bytes, s1, h1, s2, h2, h3⟩

theorem guarded_prefix {as bs : List Op} {s : EXT2File} (h : Guarded (as ++ bs) s) :
    Guarded as s := by
  induction as generalizing s with
  | nil => trivial
  | cons a as ih => exact ⟨h.1, fun bytes t hc => ih (h.2 bytes t hc)⟩

/-- Allowed calls keep the offset in the file, and at its end once `eof` is set. -/
theorem calls_keep {ops : List Op} : ∀ {s t : EXT2File} {u : Unit}, Mapped s → Placed s →
    Guarded ops s → (calls ops).run s = .ok u t → Moved s t ∧ Placed t := by
  induction ops with
  | nil =>
    intro s t u _ hp _ h
    cases h
    exact ⟨.refl s, hp⟩
  | cons op ops ih =>
    intro s t u hm hp hg h
    obtain ⟨bytes, s', h1, h2⟩ := Prog.bind_eq_ok.mp h
    obtain ⟨hmoved, hp'⟩ := perform_keeps hm hp hg.1 h1
    obtain ⟨hmoved', hpt⟩ := ih (hmoved.mapped hm) hp' (hg.2 bytes s' h1) h2
    exact ⟨hmoved.trans hmoved', hpt⟩

/-- Reads are exact at every point of the calls exactly where no seek goes to a negative offset
and, once a read has hit the end of the file, none goes elsewhere. -/
theorem cursor_right_iff {ext2 : EXT2} {inode : Inode} {blknos : List Nat} {ops : List Op} {t : EXT2File}
    (hm : Mapped (.opened ext2 inode blknos))
    (h : (calls ops).run (.opened ext2 inode blknos) = .ok () t) :
    Right (.opened ext2 inode blknos) ops ↔ Guarded ops (.opened ext2 inode blknos) := by
  generalize hfile : EXT2File.opened ext2 inode blknos = file at hm h ⊢
  have hstart : Placed file := by
    rw [← hfile]
    exact ⟨Nat.zero_le _, fun he => nomatch he⟩
  constructor
  · have key : ∀ (ops past : List Op) (s : EXT2File), (calls past).run file = .ok () s →
        (calls ops).run s = .ok () t → Right file (past ++ ops) → Guarded ops s := by
      intro ops
      induction ops with
      | nil => intros; trivial
      | cons op ops ih =>
        intro past s hs ht hr
        obtain ⟨bytes, s', hop, hrest⟩ := Prog.bind_eq_ok.mp ht
        have hs' : (calls (past ++ [op])).run file = .ok () s' := by
          refine calls_append.mpr ⟨s, hs, ?_⟩
          unfold calls
          rw [Prog.bind_ok hop]
          rfl
        have hpre : past ++ [op] <+: past ++ op :: ops := ⟨ops, by simp⟩
        refine ⟨allowed_of_reads hop (hr _ hpre s' hs'), fun bytes' u hu => ?_⟩
        rw [hop] at hu
        cases hu
        refine ih (past ++ [op]) _ hs' hrest ?_
        rwa [List.append_assoc]
    exact fun hr => key ops [] file rfl h hr
  · intro hg past hpre s hs
    obtain ⟨post, rfl⟩ := hpre
    obtain ⟨hmoved, hp⟩ := calls_keep hm hstart ( guarded_prefix hg) hs
    rw [← hmoved.content]
    exact reads_of_placed hp (hmoved.mapped hm)

/-- A file of ten bytes. -/
def tenBytes : Inode := Inode.create 0x8000 10 1 0 0

theorem tenBytes_size : tenBytes.iSize = 10 := by decide

/-- The file in block 3 of a volume, after calls that succeed. -/
theorem tenBytes_calls (ops : List Op) (offset : Nat) (eof : Bool)
    (h : (match ext2New (image (superBlock 8 0 8)) fun _ => 0 with
      | .ok s => (match readBlock s 3, (calls ops).run (.opened s tenBytes [3]) with
        | .ok _, .ok _ t => decide (t.offset = offset ∧ t.eof = eof)
        | _, _ => false)
      | _ => false) = true) :
    ∃ s t, Mapped (.opened s tenBytes [3]) ∧ (calls ops).run (.opened s tenBytes [3]) = .ok () t ∧
      t.offset = offset ∧ t.eof = eof := by
  split at h
  · rename_i s hs
    split at h
    · rename_i block u t hblock hrun
      have hplace := of_decide_eq_true h
      refine ⟨s, t, ⟨fun b hb => ?_, ?_⟩, hrun, hplace.1, hplace.2⟩
      · have hthree : b = 3 := List.mem_singleton.mp hb
        subst hthree
        refine (readable_or s 3).resolve_right fun herr => ?_
        obtain ⟨e, he⟩ := herr
        have hok : readBlock s 3 = .ok block := hblock
        rw [hok] at he
        cases he
      · have hpos : 1024 ≤ s.blockSize := Nat.le_mul_of_pos_right 1024 (by positivity)
        show tenBytes.iSize ≤ 1 * s.blockSize
        rw [tenBytes_size, Nat.one_mul]
        omega
    · cases h
  · cases h

theorem cursor_right_iff_rest : ∃ s t, Mapped (.opened s tenBytes [3]) ∧
    (calls [.seek 4, .read 100]).run (.opened s tenBytes [3]) = .ok () t ∧
    (Right (.opened s tenBytes [3]) [.seek 4, .read 100] ↔
      Guarded [.seek 4, .read 100] (.opened s tenBytes [3])) := by
  obtain ⟨s, t, hm, hrun, -⟩ := tenBytes_calls [.seek 4, .read 100] 10 true (by decide +kernel)
  exact ⟨s, t, hm, hrun, cursor_right_iff hm hrun⟩

/-- After a read to the end and a seek to the start nothing is read. -/
theorem nothing_after_eof : ¬ ∀ ext2 inode blknos ops t, Mapped (.opened ext2 inode blknos) →
    (calls ops).run (.opened ext2 inode blknos) = .ok () t →
    Right (.opened ext2 inode blknos) ops := by
  intro h
  obtain ⟨s, t, hm, hrun, hoff, heof⟩ := tenBytes_calls [.read 100, .seek 0] 0 true (by decide +kernel)
  have hreads := h s tenBytes [3] _ t hm hrun _ (List.prefix_refl _) t hrun
  have hmoved : t.inode = tenBytes := by
    obtain ⟨bytes, u, h1, h2⟩ := Prog.bind_eq_ok.mp hrun
    obtain ⟨bytes', v, h3, h4⟩ := Prog.bind_eq_ok.mp h2
    obtain ⟨w, hr, hw, -⟩ := readFile_spec ⟨Nat.zero_le _, fun he => by cases he⟩ hm.needed 100
    have hu : Res.ok bytes u = .ok _ w := h1.symm.trans hr
    cases hu
    cases h4
    obtain ⟨-, rfl⟩ := seekFile_ok h3
    exact hw.inode
  obtain ⟨bytes, u, hread, -, hlen, -⟩ := hreads.delivers 1
  have hnone : (readFile 1).run t = .ok [] t := by
    unfold readFile
    rw [Prog.get_bind]
    exact readLoop_done _ (.inr heof)
  have heq : Res.ok bytes u = .ok [] t := hread.symm.trans hnone
  cases heq
  rw [hmoved, tenBytes_size, hoff, List.length_nil] at hlen
  cases hlen

end LsvmTools.Ext2.FileCursor
