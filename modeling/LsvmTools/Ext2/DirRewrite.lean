import LsvmTools.Ext2.Records
import LsvmTools.Ext2.Open

/-! # Rewriting a directory

`_IndexDirectoryToLinkedListDirectory` packs the records of a directory and a new one into a
buffer of the directory's size. The record at the end of a block is lengthened to end there, and
so is the last one of all, even where it fills its block already. -/
namespace LsvmTools.Ext2.DirRewrite
open Lib.ByteString Lib.Program Volume Dir Write Records Open

/-! ## Directories -/

/-- The records from `pos` to `stop`. Each has room for its name, and none crosses the end of a
block. -/
inductive Tiles (blksize : Nat) (mem : Bytes) (stop : Nat) : Nat → List Rec → Prop
  | nil : Tiles blksize mem stop stop []
  | cons {pos len : Nat} {r : Rec} {rs : List Rec} (h : RecAt mem pos len r)
      (hroom : recSize r.name.length ≤ len) (hdvd : 4 ∣ len)
      (hblock : pos % blksize + len ≤ blksize) (rest : Tiles blksize mem stop (pos + len) rs) :
      Tiles blksize mem stop pos (r :: rs)

/-- A linked list directory of `size` bytes. The length of a record, which can be that of a
block, has 16 bits. -/
structure Directory (blksize : Nat) (mem : Bytes) (size : Nat) (rs : List Rec) : Prop where
  pos : 0 < size
  size_lt : size < 2 ^ 32
  blocks : blksize ∣ size
  blksize_lt : blksize < 2 ^ 16
  records : Tiles blksize mem size 0 rs

/-- The records with a name. -/
def named (rs : List Rec) : List Rec := rs.filter fun r => !r.name.isEmpty

/-- Where a record for `nameLen` characters starts if the record before it ends at `dest`. -/
def startAt (blksize dest nameLen : Nat) : Nat :=
  if dest % blksize + recSize nameLen > blksize then dest + (blksize - dest % blksize) else dest

/-- Where the last of the records ends if each takes only the space for its name and starts where
the one before it ends, or at the next block. -/
def packedEnd (blksize : Nat) : Nat → List Rec → Nat
  | dest, [] => dest
  | dest, r :: rs =>
    packedEnd blksize (startAt blksize dest r.name.length + recSize r.name.length) rs

theorem packedEnd_snoc (blksize dest : Nat) (rs : List Rec) (r : Rec) :
    packedEnd blksize dest (rs ++ [r]) =
      startAt blksize (packedEnd blksize dest rs) r.name.length + recSize r.name.length := by
  induction rs generalizing dest with
  | nil => rfl
  | cons a rs ih => exact ih _

/-! ## Packed records -/

/-- Records that take no more space than their names need, but for those at the end of a block. -/
inductive Packed (blksize : Nat) (mem : Bytes) (stop : Nat) : Nat → List Rec → Prop
  | nil : Packed blksize mem stop stop []
  | cons {pos len : Nat} {r : Rec} {rs : List Rec} (h : RecAt mem pos len r)
      (hroom : recSize r.name.length ≤ len)
      (hlen : len = recSize r.name.length ∨ len = blksize - pos % blksize)
      (hblock : pos % blksize + len ≤ blksize) (rest : Packed blksize mem stop (pos + len) rs) :
      Packed blksize mem stop pos (r :: rs)

section Packed

variable {blksize stop pos len : Nat} {mem mem' : Bytes} {r : Rec} {rs : List Rec}

theorem Packed.le (h : Packed blksize mem stop pos rs) : pos ≤ stop := by
  induction h with
  | nil => exact Nat.le_refl _
  | cons _ _ _ _ _ ih => omega

theorem Packed.snoc (h : Packed blksize mem pos stop rs) (hr : RecAt mem pos len r)
    (hroom : recSize r.name.length ≤ len)
    (hlen : len = recSize r.name.length ∨ len = blksize - pos % blksize)
    (hblock : pos % blksize + len ≤ blksize) :
    Packed blksize mem (pos + len) stop (rs ++ [r]) := by
  induction h with
  | nil => exact .cons hr hroom hlen hblock .nil
  | cons h1 h2 h3 h4 _ ih => exact .cons h1 h2 h3 h4 ih

theorem Packed.congr (h : Packed blksize mem stop pos rs) (hl : mem'.length = mem.length)
    (hb : ∀ i, i < stop → byteAt mem' i = byteAt mem i) : Packed blksize mem' stop pos rs := by
  induction h with
  | nil => exact .nil
  | @cons pos len r rs hr hroom hlen hblock rest ih =>
    have hle := rest.le
    have := le_recSize r.name.length
    exact .cons (RecAt.congr hr hl fun i hi => hb i (by omega)) hroom hlen hblock ih

theorem Packed.tiles (h : Packed blksize mem stop pos rs) (hb : 4 ∣ blksize) (hpos : 4 ∣ pos) :
    Tiles blksize mem stop pos rs := by
  induction h with
  | nil => exact .nil
  | @cons pos len r rs hr hroom hlen hblock rest ih =>
    have hdvd : 4 ∣ len := by
      rcases hlen with rfl | rfl
      · exact dvd_recSize _
      · exact Nat.dvd_sub hb ((Nat.dvd_mod_iff hb).mpr hpos)
    exact .cons hr hroom hdvd hblock (ih (Nat.dvd_add hpos hdvd))

end Packed

/-! ## The buffer -/

/-- What the buffer holds: records up to `dest`, of which the last one, at `prev`, takes only the
space for its name. -/
inductive Holds (blksize : Nat) : Packer → List Rec → Prop
  | empty {data : Bytes} : Holds blksize ⟨data, 0, none⟩ []
  | last {data : Bytes} {prev : Nat} {front : List Rec} {r : Rec}
      (hfront : Packed blksize data prev 0 front)
      (h : RecAt data prev (recSize r.name.length) r)
      (hblock : prev % blksize + recSize r.name.length ≤ blksize) :
      Holds blksize ⟨data, prev + recSize r.name.length, some prev⟩ (front ++ [r])

section Holds

variable {blksize dest len pos : Nat} {data mem : Bytes} {pk : Packer} {r : Rec} {rs : List Rec}

theorem Holds.packed (h : Holds blksize pk rs) : Packed blksize pk.data pk.dest 0 rs := by
  cases h with
  | empty => exact .nil
  | last hfront h hblock => exact hfront.snoc h (Nat.le_refl _) (.inl rfl) hblock

theorem Holds.exists_prev (h : Holds blksize pk rs) (hoff : pk.dest % blksize ≠ 0) :
    ∃ prev, pk.prev = some prev := by
  cases h with
  | empty => exact absurd (Nat.zero_mod blksize) hoff
  | last _ _ _ => exact ⟨_, rfl⟩

theorem end_mod {prev n : Nat} (hblock : prev % blksize + n ≤ blksize)
    (hne : (prev + n) % blksize ≠ 0) : (prev + n) % blksize = prev % blksize + n := by
  rw [← Nat.mod_add_mod] at hne ⊢
  refine Nat.mod_eq_of_lt (Nat.lt_of_le_of_ne hblock fun he => hne ?_)
  rw [he, Nat.mod_self]

/-- The last record is lengthened to end where its block does. -/
theorem Holds.extend (h : Holds blksize pk rs) {prev : Nat} (hprev : pk.prev = some prev)
    (hoff : pk.dest % blksize ≠ 0) (hlt : blksize < 2 ^ 16) :
    ∃ data, pk.extend prev (blksize - pk.dest % blksize) =
        .ok ⟨data, pk.dest + (blksize - pk.dest % blksize), some prev⟩ ∧
      data.length = pk.data.length ∧
      Packed blksize data (pk.dest + (blksize - pk.dest % blksize)) 0 rs := by
  cases h with
  | empty => cases hprev
  | @last data prev' front r hfront h hblock =>
    obtain rfl : prev' = prev := by simpa using hprev
    dsimp only at hoff ⊢
    have hin := h.inside
    have hmod := end_mod hblock hoff
    obtain ⟨len, hlen⟩ : ∃ len, len = blksize - prev' % blksize := ⟨_, rfl⟩
    have hsum : recSize r.name.length + (blksize - (prev' + recSize r.name.length) % blksize) =
        len := by omega
    have hput : data.length = (put16 data (prev' + 4) len).length := by
      rw [put16, length_splice (by rw [length_enc16]; omega)]
    refine ⟨put16 data (prev' + 4) len, ?_, hput.symm, ?_⟩
    · unfold Packer.extend
      rw [if_pos (by dsimp only; omega)]
      dsimp only
      rw [h.len, hsum, u16_of_lt (by omega)]
      rfl
    · rw [Nat.add_assoc, hsum]
      refine Packed.snoc (hfront.congr hput.symm fun i hi => ?_) (RecAt.setLen h (by omega))
        (by omega) (.inr hlen) (by omega)
      rw [put16, byteAt_splice (by rw [length_enc16]; omega), if_neg (by omega)]

/-- A record is written behind the others. -/
theorem Packed.place (h : Packed blksize pk.data pk.dest 0 rs) (hr : RecAt mem pos len r)
    (hblock : pk.dest % blksize + recSize r.name.length ≤ blksize)
    (hroom : pk.dest + recSize r.name.length ≤ pk.data.length) :
    ∃ pk', pk.place (recSize r.name.length) ((mem.drop pos).take (8 + r.name.length)) = .ok pk' ∧
      pk'.data.length = pk.data.length ∧ pk'.dest = pk.dest + recSize r.name.length ∧
      Holds blksize pk' (rs ++ [r]) := by
  have hin := hr.inside
  have hsize := le_recSize r.name.length
  have hmax := hr.recSize_le
  have hbytes : ((mem.drop pos).take (8 + r.name.length)).length = 8 + r.name.length := by
    rw [List.length_take, List.length_drop]; omega
  obtain ⟨zeroed, hz⟩ : ∃ zeroed, zeroed =
      splice pk.data pk.dest (List.replicate (recSize r.name.length) 0) := ⟨_, rfl⟩
  have hzl : zeroed.length = pk.data.length := by
    rw [hz, length_splice (by rw [List.length_replicate]; exact hroom)]
  have hmove := @RecAt.move _ _ _ _ hr zeroed pk.dest (by omega)
  obtain ⟨moved, hm⟩ : ∃ moved, moved =
      splice zeroed pk.dest ((mem.drop pos).take (8 + r.name.length)) := ⟨_, rfl⟩
  have hml : moved.length = pk.data.length := by
    rw [hm, length_splice (by rw [hbytes]; omega), hzl]
  rw [← hm] at hmove
  have hpl : (put16 moved (pk.dest + 4) (recSize r.name.length)).length = pk.data.length := by
    rw [length_put16 (by omega), hml]
  refine ⟨⟨put16 moved (pk.dest + 4) (recSize r.name.length), pk.dest + recSize r.name.length,
    some pk.dest⟩, ?_, hpl, rfl, ?_⟩
  · unfold Packer.place
    rw [if_pos ⟨hroom, by rw [hbytes]; omega⟩, ← hz]
    dsimp only
    rw [← hm]
    rfl
  · refine .last (h.congr hpl fun i hi => ?_) (RecAt.setLen hmove (by omega)) hblock
    rw [put16, byteAt_splice (by rw [length_enc16]; omega), if_neg (by omega), hm,
      byteAt_splice (by rw [hbytes]; omega), if_neg (by omega), hz,
      byteAt_splice (by rw [List.length_replicate]; exact hroom), if_neg (by omega)]

/-- The block a record does not fit in is closed first. -/
theorem Holds.append_eq (h : Holds blksize pk rs) (hr : RecAt mem pos len r)
    (hbig : 264 ≤ blksize) (hlt : blksize < 2 ^ 16) (bytes : Bytes) :
    ∃ closed : Packer, Packed blksize closed.data closed.dest 0 rs ∧
      closed.data.length = pk.data.length ∧
      closed.dest = startAt blksize pk.dest r.name.length ∧
      closed.dest % blksize + recSize r.name.length ≤ blksize ∧
      pk.append blksize r.name.length bytes =
        (closed.place (recSize r.name.length) bytes >>= fun pk => pure (some pk)) := by
  have hmax := hr.recSize_le
  by_cases hover : pk.dest % blksize + recSize r.name.length > blksize
  · have hoff : pk.dest % blksize ≠ 0 := by omega
    obtain ⟨prev, hprev⟩ := h.exists_prev hoff
    obtain ⟨data, hext, hl, hpacked⟩ := h.extend hprev hoff hlt
    have hnext : (pk.dest + (blksize - pk.dest % blksize)) % blksize = 0 := by
      have hlt := Nat.mod_lt pk.dest (show 0 < blksize by omega)
      rw [← Nat.mod_add_mod, show pk.dest % blksize + (blksize - pk.dest % blksize) = blksize by
        omega, Nat.mod_self]
    refine ⟨⟨data, pk.dest + (blksize - pk.dest % blksize), some prev⟩, hpacked, hl,
      by unfold startAt; rw [if_pos hover], by dsimp only; omega, ?_⟩
    unfold Packer.append
    dsimp only
    rw [if_pos hover, hprev]
    dsimp only
    rw [hext, Out.ok_bind]
  · refine ⟨pk, h.packed, rfl, by unfold startAt; rw [if_neg hover], by omega, ?_⟩
    unfold Packer.append
    dsimp only
    rw [if_neg hover]

theorem appendDirectoryEntry_eq (hr : RecAt mem pos len r) (pk : Packer) :
    appendDirectoryEntry blksize pk mem pos =
      (pk.append blksize r.name.length ((mem.drop pos).take (8 + r.name.length)) >>= fun res =>
        match res with
        | some pk => pure pk
        | none => .err .failed) := by
  have hin := hr.inside
  unfold appendDirectoryEntry bytesAt
  rw [hr.head, Out.ok_bind]
  dsimp only
  rw [if_pos (by omega)]
  rfl

theorem Holds.appendDirectoryEntry (h : Holds blksize pk rs) (hr : RecAt mem pos len r)
    (hbig : 264 ≤ blksize) (hlt : blksize < 2 ^ 16)
    (hfit : startAt blksize pk.dest r.name.length + recSize r.name.length ≤ pk.data.length) :
    ∃ pk', Write.appendDirectoryEntry blksize pk mem pos = .ok pk' ∧
      pk'.data.length = pk.data.length ∧
      pk'.dest = startAt blksize pk.dest r.name.length + recSize r.name.length ∧
      Holds blksize pk' (rs ++ [r]) := by
  obtain ⟨closed, hpacked, hl, hdest, hblock, happ⟩ :=
    h.append_eq hr hbig hlt ((mem.drop pos).take (8 + r.name.length))
  obtain ⟨pk', hplace, hl', hdest', hholds⟩ :=
    hpacked.place hr hblock (by rw [hdest, hl]; exact hfit)
  refine ⟨pk', ?_, by rw [hl', hl], by rw [hdest', hdest], hholds⟩
  rw [appendDirectoryEntry_eq hr, happ, hplace]
  rfl

/-- The record does not end in the buffer. -/
theorem Holds.appendDirectoryEntry_stuck (h : Holds blksize pk rs) (hr : RecAt mem pos len r)
    (hbig : 264 ≤ blksize) (hlt : blksize < 2 ^ 16)
    (hfit : pk.data.length < startAt blksize pk.dest r.name.length + recSize r.name.length) :
    Write.appendDirectoryEntry blksize pk mem pos = .stuck := by
  obtain ⟨closed, -, hl, hdest, -, happ⟩ :=
    h.append_eq hr hbig hlt ((mem.drop pos).take (8 + r.name.length))
  have hplace : closed.place (recSize r.name.length) ((mem.drop pos).take (8 + r.name.length)) =
      .stuck := by
    unfold Packer.place
    rw [if_neg (by rw [hdest, hl]; omega)]
  rw [appendDirectoryEntry_eq hr, happ, hplace]
  rfl

end Holds

/-! ## The copying loop -/

/-- Packing keeps a record from starting behind where it was: as long as the two are in one
block, what fit there before still does. -/
theorem startAt_le {blksize dest pos n : Nat} (hle : dest ≤ pos)
    (hblock : pos % blksize + recSize n ≤ blksize) : startAt blksize dest n ≤ pos := by
  unfold startAt
  split
  · rename_i hover
    have hq : dest / blksize ≤ pos / blksize := Nat.div_le_div_right hle
    have h1 := Nat.div_add_mod dest blksize
    have h2 := Nat.div_add_mod pos blksize
    have hpos : 0 < blksize := by unfold recSize at hblock; omega
    have hm := Nat.mod_lt dest hpos
    rcases Nat.lt_or_ge (dest / blksize) (pos / blksize) with hlt | hge
    · have := Nat.mul_le_mul_left blksize hlt
      rw [Nat.mul_succ] at this
      omega
    · have heq : dest / blksize = pos / blksize := Nat.le_antisymm hq hge
      rw [heq] at h1
      omega
  · exact hle

section Copy

variable {blksize size pos : Nat} {mem : Bytes} {rs : List Rec}

theorem Tiles.le (h : Tiles blksize mem size pos rs) : pos ≤ size := by
  induction h with
  | nil => exact Nat.le_refl _
  | cons _ _ _ _ _ ih => omega

theorem Holds.copyEntries (h : Tiles blksize mem size pos rs) (hbig : 264 ≤ blksize)
    (hlt : blksize < 2 ^ 16) {pk : Packer} {done : List Rec} (hpk : Holds blksize pk done)
    (hsize : size ≤ pk.data.length) (hdest : pk.dest ≤ pos) {fuel : Nat} (hf : size - pos ≤ fuel) :
    ∃ pk', Write.copyEntries blksize mem size fuel pos pk = .ok pk' ∧
      pk'.data.length = pk.data.length ∧ pk'.dest = packedEnd blksize pk.dest rs ∧
      Holds blksize pk' (done ++ rs) := by
  induction h generalizing fuel pk done with
  | nil =>
    refine ⟨pk, ?_, rfl, rfl, by rw [List.append_nil]; exact hpk⟩
    cases fuel <;> simp [Write.copyEntries]
  | @cons pos len r rs hr hroom hdvd hblock rest ih =>
    have hle := rest.le
    have hmin := le_recSize r.name.length
    cases fuel with
    | zero => omega
    | succ fuel =>
      have hstart : startAt blksize pk.dest r.name.length ≤ pos := startAt_le hdest (by omega)
      obtain ⟨pk1, happ, hl1, hdest1, hholds1⟩ :=
        hpk.appendDirectoryEntry hr hbig hlt (by omega)
      obtain ⟨pk2, hcopy, hl2, hdest2, hholds2⟩ :=
        ih hholds1 (by omega) (by omega) (show size - (pos + len) ≤ fuel by omega)
      refine ⟨pk2, ?_, by omega, by rw [hdest2, hdest1]; rfl, ?_⟩
      · unfold Write.copyEntries
        rw [if_neg (by omega), hr.head, Out.ok_bind, happ, Out.ok_bind]
        exact hcopy
      · rw [List.append_assoc] at hholds2
        exact hholds2

end Copy

/-! ## The check at the end -/

section Check

variable {blksize size mid pos len : Nat} {mem : Bytes} {r : Rec} {rs : List Rec}

/-- Packed records pass the check. -/
theorem Packed.check (h : Packed blksize mem mid pos rs) (hmid : mid ≤ size) {fuel : Nat}
    (hf : size - pos ≤ fuel) :
    ∃ fuel', size - mid ≤ fuel' ∧ checkDirectoryEntriesFrom blksize mem size fuel pos =
      checkDirectoryEntriesFrom blksize mem size fuel' mid := by
  induction h generalizing fuel with
  | nil => exact ⟨fuel, hf, rfl⟩
  | @cons pos len r rs hr hroom hlen hblock rest ih =>
    have hle := rest.le
    have hmin := le_recSize r.name.length
    cases fuel with
    | zero => omega
    | succ fuel =>
      obtain ⟨fuel', hf', hrest⟩ := ih (show size - (pos + len) ≤ fuel by omega)
      refine ⟨fuel', hf', ?_⟩
      rw [checkDirectoryEntriesFrom, if_neg (by omega), hr.head, Out.ok_bind]
      dsimp only
      rw [if_neg (by omega)]
      exact hrest

theorem Packed.check_ok (h : Packed blksize mem size 0 rs) :
    checkDirectoryEntriesFrom blksize mem size size 0 = .ok () := by
  obtain ⟨fuel, -, hc⟩ := h.check (Nat.le_refl _) (show size - 0 ≤ size by omega)
  rw [hc]
  cases fuel <;> simp [checkDirectoryEntriesFrom]

/-- A record of another length does not. -/
theorem Packed.check_failed (h : Packed blksize mem mid 0 rs) (hmid : mid < size)
    (hr : RecAt mem mid len r) (hlen : recSize r.name.length ≠ len)
    (hend : blksize - mid % blksize ≠ len) :
    checkDirectoryEntriesFrom blksize mem size size 0 = .err .failed := by
  obtain ⟨fuel, hf, hc⟩ := h.check (Nat.le_of_lt hmid) (show size - 0 ≤ size by omega)
  rw [hc]
  cases fuel with
  | zero => omega
  | succ fuel =>
    rw [checkDirectoryEntriesFrom, if_neg (by omega), hr.head, Out.ok_bind]
    dsimp only
    rw [if_pos ⟨hlen, hend⟩]

end Check

/-! ## The rewritten directory -/

section Rewrite

variable {ext2 : EXT2} {mem newEnt : Bytes} {size len : Nat} {rs : List Rec} {new : Rec}

/-- The new directory has the named records of the old one and the new record, in the buffer that
was made for it. -/
def Rewritten (ext2 : EXT2) (mem : Bytes) (size : Nat) (rs : List Rec) (newEnt : Bytes)
    (new : Rec) : Prop :=
  ∃ pk rs', indexDirectoryToLinkedListDirectory ext2 newEnt mem size = .ok pk ∧
    Directory ext2.blockSize pk.data pk.dest rs' ∧ named rs' = named rs ++ [new]

/-- Packed, the records end in `size` bytes, and not where a block ends. -/
structure Room (blksize size : Nat) (rs : List Rec) : Prop where
  inside : packedEnd blksize 0 rs ≤ size
  notFull : packedEnd blksize 0 rs % blksize ≠ 0

theorem blockSize_bounds (ext2 : EXT2) : 264 ≤ ext2.blockSize ∧ 4 ∣ ext2.blockSize := by
  have h : ext2.blockSize = 1024 * 2 ^ ext2.sb.sLogBlockSize := rfl
  have hpos := Nat.one_le_two_pow (n := ext2.sb.sLogBlockSize)
  constructor
  · omega
  · exact ⟨256 * 2 ^ ext2.sb.sLogBlockSize, by omega⟩

theorem Directory.mem_ne_nil {blksize : Nat} (hd : Directory blksize mem size rs) : mem ≠ [] := by
  have hpos := hd.pos
  cases hd.records with
  | nil => omega
  | cons h _ _ _ _ =>
    have := h.inside
    rintro rfl
    simp at this

/-- What happens after the old records have been copied. -/
theorem rewrite_eq (hd : Directory ext2.blockSize mem size rs) (newEnt : Bytes) :
    ∃ pk, Holds ext2.blockSize pk rs ∧ pk.data.length = size ∧
      pk.dest = packedEnd ext2.blockSize 0 rs ∧
      indexDirectoryToLinkedListDirectory ext2 newEnt mem size = (do
        let pk ← appendDirectoryEntry ext2.blockSize pk newEnt 0
        let pk ← pk.finish ext2.blockSize
        let newSize := u32 pk.dest
        checkDirectoryEntries ext2 pk.data newSize
        pure { pk with dest := newSize }) := by
  have hpos := hd.pos
  obtain ⟨pk, hcopy, hl, hdest, hholds⟩ := Holds.copyEntries hd.records (blockSize_bounds ext2).1
    hd.blksize_lt (show Holds _ (Packer.init size) [] from .empty) (by simp [Packer.init])
    (Nat.zero_le _) (show size - 0 ≤ size by omega)
  refine ⟨pk, hholds, by rw [hl]; simp [Packer.init], hdest, ?_⟩
  unfold indexDirectoryToLinkedListDirectory
  rw [if_neg (by simp [hd.mem_ne_nil]; omega), hcopy, Out.ok_bind]

/-- The new record does not end in the buffer. -/
theorem rewrite_stuck (hd : Directory ext2.blockSize mem size rs) (hnew : RecAt newEnt 0 len new)
    (hover : size < packedEnd ext2.blockSize 0 (rs ++ [new])) :
    indexDirectoryToLinkedListDirectory ext2 newEnt mem size = .stuck := by
  obtain ⟨pk, hholds, hl, hdest, heq⟩ := rewrite_eq hd newEnt
  rw [packedEnd_snoc, ← hdest, ← hl] at hover
  rw [heq, hholds.appendDirectoryEntry_stuck hnew (blockSize_bounds ext2).1 hd.blksize_lt hover,
    Out.stuck_bind]

/-- What happens after the new record has been written. -/
theorem rewrite_appended (hd : Directory ext2.blockSize mem size rs)
    (hnew : RecAt newEnt 0 len new)
    (hroom : packedEnd ext2.blockSize 0 (rs ++ [new]) ≤ size) :
    ∃ pk, Holds ext2.blockSize pk (rs ++ [new]) ∧ pk.data.length = size ∧
      pk.dest = packedEnd ext2.blockSize 0 (rs ++ [new]) ∧
      indexDirectoryToLinkedListDirectory ext2 newEnt mem size = (do
        let pk ← pk.finish ext2.blockSize
        let newSize := u32 pk.dest
        checkDirectoryEntries ext2 pk.data newSize
        pure { pk with dest := newSize }) := by
  obtain ⟨pk, hholds, hl, hdest, heq⟩ := rewrite_eq hd newEnt
  rw [packedEnd_snoc, ← hdest] at hroom ⊢
  obtain ⟨pk', happ, hl', hdest', hholds'⟩ := hholds.appendDirectoryEntry hnew
    (blockSize_bounds ext2).1 hd.blksize_lt (by rw [hl]; exact hroom)
  exact ⟨pk', hholds', by rw [hl', hl], hdest', by rw [heq, happ, Out.ok_bind]⟩

theorem rewritten_of_room (hd : Directory ext2.blockSize mem size rs)
    (hnew : RecAt newEnt 0 len new) (hname : new.name ≠ [])
    (hroom : Room ext2.blockSize size (rs ++ [new])) : Rewritten ext2 mem size rs newEnt new := by
  obtain ⟨hbig, hdvd⟩ := blockSize_bounds ext2
  obtain ⟨pk, hholds, hl, hdest, heq⟩ := rewrite_appended hd hnew hroom.inside
  have hoff : pk.dest % ext2.blockSize ≠ 0 := by rw [hdest]; exact hroom.notFull
  obtain ⟨prev, hprev⟩ := hholds.exists_prev hoff
  obtain ⟨data, hext, hl', hpacked⟩ := hholds.extend hprev hoff hd.blksize_lt
  obtain ⟨stop, hstop⟩ : ∃ stop, stop = pk.dest + (ext2.blockSize - pk.dest % ext2.blockSize) :=
    ⟨_, rfl⟩
  have hmod := Nat.mod_lt pk.dest (show 0 < ext2.blockSize by omega)
  have hstop_dvd : ext2.blockSize ∣ stop := by
    refine ⟨pk.dest / ext2.blockSize + 1, ?_⟩
    have := Nat.div_add_mod pk.dest ext2.blockSize
    rw [Nat.mul_succ]
    omega
  -- the end of the block is in the buffer too, since that is a number of blocks
  have hstop_le : stop ≤ size := by
    have hin := hroom.inside
    rw [← hdest] at hin
    obtain ⟨k, hk⟩ := hd.blocks
    have hlt : pk.dest / ext2.blockSize < k := by
      refine Nat.lt_of_not_le fun hge => ?_
      have h1 := Nat.mul_le_mul_left ext2.blockSize hge
      have h2 := Nat.div_add_mod pk.dest ext2.blockSize
      omega
    have h1 := Nat.mul_le_mul_left ext2.blockSize hlt
    rw [Nat.mul_succ] at h1
    have h2 := Nat.div_add_mod pk.dest ext2.blockSize
    omega
  have hsize := hd.size_lt
  rw [← hstop] at hext hpacked
  refine ⟨⟨data, stop, some prev⟩, rs ++ [new], ?_, ⟨by dsimp only; omega, by dsimp only; omega,
    hstop_dvd, hd.blksize_lt, hpacked.tiles hdvd (Nat.dvd_zero 4)⟩, ?_⟩
  · rw [heq, Packer.finish, hprev]
    dsimp only
    rw [hext, Out.ok_bind]
    dsimp only
    rw [u32_of_lt (by omega), checkDirectoryEntries,
      if_neg (by rw [Nat.mod_eq_zero_of_dvd hstop_dvd]; simp), hpacked.check_ok, Out.ok_bind]
    rfl
  · have hn : new.name.isEmpty = false := by simpa using hname
    simp [named, hn]

/-- Where the last record fills its block it gets a length that leads beyond it. -/
theorem rewrite_full (hd : Directory ext2.blockSize mem size rs) (hnew : RecAt newEnt 0 len new)
    (hroom : packedEnd ext2.blockSize 0 (rs ++ [new]) ≤ size)
    (hfull : packedEnd ext2.blockSize 0 (rs ++ [new]) % ext2.blockSize = 0) {pk' : Packer}
    (hok : indexDirectoryToLinkedListDirectory ext2 newEnt mem size = .ok pk') : pk'.dest = 0 := by
  obtain ⟨hbig, -⟩ := blockSize_bounds ext2
  have hlt := hd.blksize_lt
  obtain ⟨pk, hholds, hl, hdest, heq⟩ := rewrite_appended hd hnew hroom
  rw [← hdest] at hroom hfull
  generalize hall : rs ++ [new] = all at hholds
  cases hholds with
  | empty => simp at hall
  | @last data prev front r hfront h hblock =>
    dsimp only at hl hroom hfull
    have hin := h.inside
    have hmin := le_recSize r.name.length
    have hmax := h.recSize_le
    have hend : prev % ext2.blockSize + recSize r.name.length = ext2.blockSize := by
      rw [← Nat.mod_add_mod] at hfull
      refine Nat.le_antisymm hblock (Nat.le_of_dvd (by omega) (Nat.dvd_of_mod_eq_zero hfull))
    obtain ⟨bad, hbad⟩ : ∃ bad, bad = u16 (recSize r.name.length + ext2.blockSize) := ⟨_, rfl⟩
    have hbad_ne : bad ≠ recSize r.name.length ∧ bad < 2 ^ 16 := by
      rw [hbad]
      unfold u16
      omega
    have hput : (put16 data (prev + 4) bad).length = data.length := length_put16 (by omega)
    have hrec : RecAt (put16 data (prev + 4) bad) prev bad r := RecAt.setLen h hbad_ne.2
    have hpacked : Packed ext2.blockSize (put16 data (prev + 4) bad) prev 0 front := by
      refine hfront.congr hput fun i hi => ?_
      rw [put16, byteAt_splice (by rw [length_enc16]; omega), if_neg (by omega)]
    rw [heq, Packer.finish] at hok
    dsimp only at hok
    rw [Packer.extend, if_pos (by dsimp only; omega)] at hok
    dsimp only at hok
    rw [h.len, hfull, Nat.sub_zero, ← hbad, Out.pure_eq, Out.ok_bind] at hok
    dsimp only at hok
    have hsize := hd.size_lt
    by_cases hwrap : prev + recSize r.name.length + ext2.blockSize < 2 ^ 32
    · rw [u32_of_lt hwrap, checkDirectoryEntries] at hok
      rw [if_neg (by rw [Nat.add_mod_right, hfull]; simp),
        hpacked.check_failed (by omega) hrec (fun he => hbad_ne.1 he.symm) (by omega)] at hok
      cases hok
    · -- the new size is taken in 32 bits, and what is left of it is less than a block
      obtain ⟨rest, hrest⟩ : ∃ rest, rest =
        u32 (prev + recSize r.name.length + ext2.blockSize) := ⟨_, rfl⟩
      have hsmall : rest < ext2.blockSize := by
        rw [hrest]
        unfold u32
        omega
      rw [← hrest, checkDirectoryEntries] at hok
      by_cases h0 : rest = 0
      · obtain ⟨-, -, hok⟩ := Out.bind_eq_ok.mp hok
        rw [Out.pure_eq, Out.ok.injEq] at hok
        rw [← hok]
        exact h0
      · rw [if_pos (by rw [Nat.mod_eq_of_lt hsmall]; exact h0)] at hok
        cases hok

/-- A directory is rewritten exactly where the packed records leave the end of the last block
free. -/
theorem rewritten_iff (hd : Directory ext2.blockSize mem size rs) (hnew : RecAt newEnt 0 len new)
    (hname : new.name ≠ []) :
    Rewritten ext2 mem size rs newEnt new ↔ Room ext2.blockSize size (rs ++ [new]) := by
  constructor
  · rintro ⟨pk, rs', hok, hdir, -⟩
    have hin : packedEnd ext2.blockSize 0 (rs ++ [new]) ≤ size := by
      refine Nat.le_of_not_lt fun hover => ?_
      rw [rewrite_stuck hd hnew hover] at hok
      cases hok
    refine ⟨hin, fun hfull => ?_⟩
    have h0 := rewrite_full hd hnew hin hfull hok
    exact absurd hdir.pos (by omega)
  · exact rewritten_of_room hd hnew hname

end Rewrite

/-! ## A block with 208 bytes to fill -/

/-- The bytes of a record of `len` bytes. -/
def recBytes (len : Nat) (r : Rec) : Bytes :=
  enc32 r.inode ++ enc16 len ++ [UInt8.ofNat r.name.length, UInt8.ofNat r.fileType] ++ r.name ++
    List.replicate (len - 8 - r.name.length) 0

instance (mem : Bytes) (pos len : Nat) (r : Rec) : Decidable (RecAt mem pos len r) :=
  decidable_of_iff (pos + 8 + r.name.length ≤ mem.length ∧ le32 mem pos = r.inode ∧
      le16 mem (pos + 4) = len ∧ (byteAt mem (pos + 6)).toNat = r.name.length ∧
      (byteAt mem (pos + 7)).toNat = r.fileType ∧ (mem.drop (pos + 8)).take r.name.length = r.name)
    ⟨fun h => ⟨h.1, h.2.1, h.2.2.1, h.2.2.2.1, h.2.2.2.2.1, h.2.2.2.2.2⟩,
      fun h => ⟨h.inside, h.inode, h.len, h.nameLen, h.fileType, h.name⟩⟩

/-- A volume with blocks of 1024 bytes. -/
def smallBlocks : EXT2 where
  dev := image (superBlock 8 0 8)
  sb := ⟨superBlock 8 0 8 ++ List.replicate 934 0, by decide +kernel, by decide +kernel,
    by decide +kernel, by decide +kernel, by decide +kernel, by decide +kernel⟩
  groups := []
  uninit := fun _ => 0

/-- A file of this inode number with `n` times the letter `c` for its name. -/
def fileRec (inode n : Nat) (c : UInt8) : Rec := ⟨inode, 1, List.replicate n c⟩

/-- `.`, `..` and three files with names of 255 characters. -/
def fiveRecs : List Rec :=
  [⟨2, 2, [46]⟩, ⟨2, 2, [46, 46]⟩, fileRec 12 255 97, fileRec 13 255 98, fileRec 14 255 99]

/-- The five records in one block. -/
def fiveRecBytes : Bytes :=
  ([12, 12, 264, 264, 472].zip fiveRecs).flatMap fun x => recBytes x.1 x.2

theorem smallBlocks_blockSize : smallBlocks.blockSize = 1024 := by decide

theorem fiveRecBytes_tiles : Tiles 1024 fiveRecBytes 1024 0 fiveRecs := by
  have h0 : RecAt fiveRecBytes 0 12 ⟨2, 2, [46]⟩ := by decide +kernel
  have h1 : RecAt fiveRecBytes 12 12 ⟨2, 2, [46, 46]⟩ := by decide +kernel
  have h2 : RecAt fiveRecBytes 24 264 (fileRec 12 255 97) := by decide +kernel
  have h3 : RecAt fiveRecBytes 288 264 (fileRec 13 255 98) := by decide +kernel
  have h4 : RecAt fiveRecBytes 552 472 (fileRec 14 255 99) := by decide +kernel
  refine .cons h0 (by decide) (by decide) (by decide) ?_
  refine .cons h1 (by decide) (by decide) (by decide) ?_
  refine .cons h2 (by decide +kernel) (by decide) (by decide) ?_
  refine .cons h3 (by decide +kernel) (by decide) (by decide) ?_
  refine .cons h4 (by decide +kernel) (by decide) (by decide) ?_
  exact .nil

theorem fiveRecBytes_directory : Directory smallBlocks.blockSize fiveRecBytes 1024 fiveRecs := by
  rw [smallBlocks_blockSize]
  exact ⟨by decide, by decide, by decide, by decide, fiveRecBytes_tiles⟩

/-- A short name is added. -/
theorem rewritten_iff_short : Rewritten smallBlocks fiveRecBytes 1024 fiveRecs
    (recBytes 12 (fileRec 15 1 110)) (fileRec 15 1 110) := by
  have hnew : RecAt (recBytes 12 (fileRec 15 1 110)) 0 12 (fileRec 15 1 110) := by decide +kernel
  refine (rewritten_iff fiveRecBytes_directory hnew (by decide)).mpr ?_
  rw [smallBlocks_blockSize]
  exact ⟨by decide +kernel, by decide +kernel⟩

/-- A name of 200 characters, whose record fills the block, is not. -/
theorem exactly_full_block : ¬ ∀ ext2 mem size rs newEnt len new,
    Directory ext2.blockSize mem size rs → RecAt newEnt 0 len new → new.name ≠ [] →
      new.name ∉ rs.map Rec.name → Rewritten ext2 mem size rs newEnt new := by
  intro h
  have hnew : RecAt (recBytes 208 (fileRec 15 200 110)) 0 208 (fileRec 15 200 110) := by
    decide +kernel
  obtain ⟨pk, rs', hok, hdir, -⟩ := h smallBlocks fiveRecBytes 1024 fiveRecs
    (recBytes 208 (fileRec 15 200 110)) 208 (fileRec 15 200 110) fiveRecBytes_directory hnew
    (by decide) (by decide +kernel)
  have h0 := rewrite_full fiveRecBytes_directory hnew (by rw [smallBlocks_blockSize]; decide +kernel)
    (by rw [smallBlocks_blockSize]; decide +kernel) hok
  exact absurd hdir.pos (by omega)

end LsvmTools.Ext2.DirRewrite
