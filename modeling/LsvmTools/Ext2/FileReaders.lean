import LsvmTools.Ext2.BlockAddress
import LsvmTools.Ext2.FileCursor
import LsvmTools.Ext2.Files

/-! # Two ways to read a file

`EXT2LoadFileFromInode` reads runs of consecutive blocks in one piece, `EXT2ReadFile` reads
block by block. `Agree` says that they deliver the same and that the first one reports what it
cannot read. It drops the error of a run of several blocks, and the size it returns is that of
the inode even where there are fewer blocks. -/
namespace LsvmTools.Ext2.FileReaders
open Lib.ByteString Lib.Program BlockDevice Volume Blocks Dir Strings Files Open FileCursor

/-- Read on, in chunks of these sizes, until a read delivers nothing. -/
def readUntil (sizes : Nat → Nat) : Nat → Prog EXT2File Unit (Option Bytes)
  | 0 => pure none
  | fuel + 1 => do
    let bytes ← readFile (sizes 0)
    if bytes.isEmpty then pure (some [])
    else do
      let more ← readUntil (fun i => sizes (i + 1)) fuel
      pure (more.map (bytes ++ ·))

/-- In chunks of any positive sizes the file reads as `c`. -/
def ReadsAs (file : EXT2File) (c : Bytes) : Prop :=
  ∀ sizes : Nat → Nat, (∀ i, 0 < sizes i) →
    ∃ fuel t, (readUntil sizes fuel).run file = .ok (some c) t

/-- The sectors of a block exist and can be read. -/
def Sectors (ext2 : EXT2) (blkno : Nat) : Prop :=
  ∀ i, blkno * ext2.blockSize ≤ i * 512 → i * 512 < (blkno + 1) * ext2.blockSize →
    i < ext2.dev.nblks ∧ ext2.dev.readable i = true

/-- What is loaded is what the open file reads as, and nothing is loaded if a sector of the file
cannot be read. -/
structure Agree (ext2 : EXT2) (inode : Inode) : Prop where
  same : ∀ blknos data, loadBlockNumbersFromInode ext2 inode false = .ok blknos →
    loadFileFromInode ext2 inode = .ok data → data.size ≤ data.mem.length ∧
      ReadsAs (.opened ext2 inode blknos) (data.mem.take data.size)
  fails : ∀ blknos, loadBlockNumbersFromInode ext2 inode false = .ok blknos →
    (∃ b ∈ blknos, ¬ Sectors ext2 b) → ∃ e, loadFileFromInode ext2 inode = .err e

/-- What `EXT2LoadFileFromInode` reads at once. -/
def readRun (ext2 : EXT2) (r : Nat × Nat) : Out Err Bytes :=
  if r.2 = 1 then readBlock ext2 r.1 else readBlocks ext2 r.1 r.2

/-- The first run that cannot be read is a single block. -/
def SingleFails (ext2 : EXT2) (blknos : List Nat) : Prop :=
  ∃ before b after, runs blknos = before ++ (b, 1) :: after ∧
    (∀ r ∈ before, ∃ bytes, readRun ext2 r = .ok bytes) ∧ ∃ e, readBlock ext2 b = .err e

/-- Every sector of the file can be read, its blocks cover its size and can be read one by one
up to there, and the runs, if anything is to be read, hold the same bytes. -/
structure Whole (ext2 : EXT2) (inode : Inode) (blknos : List Nat) : Prop where
  sectors : ∀ b ∈ blknos, Sectors ext2 b
  needed : Needed (.opened ext2 inode blknos)
  size : inode.iSize ≤ blknos.length * ext2.blockSize
  runs : inode.iSize = 0 ∨ ∃ bytes, Out.gather (readRun ext2) (runs blknos) = .ok bytes ∧
    bytes.take inode.iSize = content (.opened ext2 inode blknos)

def Harmless (ext2 : EXT2) (inode : Inode) : Prop :=
  ∀ blknos, loadBlockNumbersFromInode ext2 inode false = .ok blknos →
    SingleFails ext2 blknos ∨ Whole ext2 inode blknos

variable {ext2 : EXT2} {inode : Inode} {blknos : List Nat} {f : EXT2File}

/-! ## Reading in chunks -/

theorem readUntil_spec (hn : Needed f) : ∀ (fuel : Nat) {s : EXT2File} (sizes : Nat → Nat),
    Moved f s → Placed s → (∀ i, 0 < sizes i) → (content f).length - s.offset < fuel →
    ∃ t, (readUntil sizes fuel).run s = .ok (some ((content f).drop s.offset)) t := by
  intro fuel
  induction fuel with
  | zero =>
    intro s sizes _ _ _ hfuel
    exact absurd hfuel (Nat.not_lt_zero _)
  | succ fuel ih =>
    intro s sizes hmoved hp hpos hfuel
    obtain ⟨t, hrun, hmt, hpt, hoff⟩ := readFile_spec hp (hmoved.needed hn) (sizes 0)
    rw [hmoved.content] at hrun hoff
    unfold readUntil
    rw [Prog.bind_ok hrun]
    by_cases hrest : (content f).drop s.offset = []
    · -- nothing is left: the read that delivers nothing
      refine ⟨t, ?_⟩
      rw [hrest, List.take_nil]
      rfl
    have hlen : 0 < ((content f).drop s.offset).length := List.length_pos_of_ne_nil hrest
    have htake : 0 < (((content f).drop s.offset).take (sizes 0)).length := by
      rw [List.length_take]
      exact Nat.lt_min.mpr ⟨hpos 0, hlen⟩
    have hsome : (((content f).drop s.offset).take (sizes 0)).isEmpty = false := by
      rw [List.isEmpty_eq_false_iff]
      exact List.ne_nil_of_length_pos htake
    have hless : (content f).length - t.offset < fuel := by
      rw [List.length_drop] at hlen
      rw [hoff]
      generalize (((content f).drop s.offset).take (sizes 0)).length = n at htake
      omega
    obtain ⟨u, hmore⟩ := ih (fun i => sizes (i + 1)) (hmoved.trans hmt) hpt
      (fun i => hpos (i + 1)) hless
    refine ⟨u, ?_⟩
    rw [hsome, if_neg Bool.false_ne_true, Prog.bind_ok hmore, Prog.run_pure, hoff]
    have hjoin : ((content f).drop s.offset).take (sizes 0) ++ (content f).drop
        (s.offset + (((content f).drop s.offset).take (sizes 0)).length) =
          (content f).drop s.offset := by
      rw [← List.drop_drop, List.length_take]
      conv_rhs => rw [← List.take_append_drop (sizes 0) ((content f).drop s.offset)]
      congr 1
      by_cases hle : sizes 0 ≤ ((content f).drop s.offset).length
      · rw [Nat.min_eq_left hle]
      · rw [Nat.min_eq_right (by omega), List.drop_length, List.drop_eq_nil_of_le (by omega)]
    rw [Option.map_some, hjoin]

theorem readUntil_more {c : Bytes} {more : Nat} : ∀ {fuel : Nat} {sizes : Nat → Nat}
    {s t : EXT2File}, (readUntil sizes fuel).run s = .ok (some c) t →
      (readUntil sizes (fuel + more)).run s = .ok (some c) t := by
  intro fuel
  induction fuel generalizing c with
  | zero =>
    intro sizes s t h
    cases h
  | succ fuel ih =>
    intro sizes s t h
    rw [Nat.succ_add_eq_add_succ, Nat.add_succ]
    unfold readUntil at h ⊢
    obtain ⟨bytes, u, hread, hrest⟩ := Prog.bind_eq_ok.mp h
    rw [Prog.bind_ok hread]
    by_cases hnone : bytes.isEmpty = true
    · rw [if_pos hnone] at hrest ⊢
      exact hrest
    · rw [if_neg hnone] at hrest ⊢
      obtain ⟨found, v, hmore, hend⟩ := Prog.bind_eq_ok.mp hrest
      cases found with
      | none => cases hend
      | some d =>
        rw [Prog.bind_ok (ih hmore)]
        exact hend

/-- A long read meets the first block that it cannot read. -/
theorem readLoop_fails : ∀ (bl : List Nat) (remaining : Nat) {f : EXT2File}, Placed f →
    f.eof = false → f.inode.iSize - f.offset < remaining →
    (∃ b ∈ bl.take f.needed, ¬ Readable f.ext2 b) →
    ∃ t, (readLoop bl remaining).run f = .err () t := by
  intro bl
  induction bl with
  | nil =>
    intro remaining f _ _ _ hbad
    obtain ⟨b, hb, -⟩ := hbad
    rw [List.take_nil] at hb
    cases hb
  | cons b rest ih =>
    intro remaining f hp he hlong hbad
    have hr : 0 < remaining := Nat.lt_of_le_of_lt (Nat.zero_le _) hlong
    rcases readable_or f.ext2 b with hb | ⟨e, hb⟩
    · obtain ⟨part, hpart⟩ : ∃ part, min remaining (f.ext2.blockSize - f.inBlock) = part :=
        ⟨_, rfl⟩
      obtain ⟨x, hx, hxbad⟩ := hbad
      have hne : x ≠ b := fun hxb => hxbad (hxb ▸ hb)
      have hlt : f.inBlock < f.ext2.blockSize := Nat.mod_lt _ f.ext2.sb.blockSize_pos
      obtain ⟨hend, hfit, hmore⟩ := round_sizes hpart
      by_cases hless : f.bytesRemaining < part
      · -- the file ends in this block: it is the last one needed
        have hroom : part ≤ f.ext2.blockSize - f.inBlock := hpart ▸ Nat.min_le_right _ _
        have hin : f.inBlock + (f.inode.iSize - f.offset) < f.ext2.blockSize := by
          rw [← bytesRemaining_eq hp]
          exact Nat.add_lt_of_lt_sub' (Nat.lt_of_lt_of_le hless hroom)
        unfold EXT2File.needed at hx
        rw [Nat.div_eq_of_lt hin, List.take_succ_cons, List.take_zero] at hx
        exact absurd (List.mem_singleton.mp hx) hne
      have hcopied : f.copyBytes part = part := if_neg hless
      have hle : ¬ f.inode.iSize - f.offset < part := by rwa [← bytesRemaining_eq hp]
      have hlarge : f.ext2.blockSize - f.inBlock < remaining := by
        by_contra hsmall
        have hall := (hfit hle (Nat.le_of_not_lt hsmall)).1
        rw [hall] at hle
        exact hle hlong
      have hwhole := (hmore hle hlarge).1
      have heof : (f.copied part).eof = false := by
        rw [copied_eof, he, decide_eq_false hless]
        rfl
      obtain ⟨hin, hneed⟩ := copied_next hp hwhole hcopied
      have hoff := copied_offset hp part
      rw [hcopied] at hoff
      have hlong' : (f.copied part).inode.iSize - (f.copied part).offset < remaining - part := by
        rw [copied_inode, hoff, ← Nat.sub_sub]
        exact Nat.sub_lt_sub_right (Nat.le_of_not_lt hle) hlong
      have hrest : x ∈ rest.take (f.copied part).needed := by
        rw [hneed, List.take_succ_cons] at hx
        exact (List.mem_cons.mp hx).resolve_left hne
      obtain ⟨t, ht⟩ := ih (remaining - part) (copied_placed hp he part) heof hlong'
        ⟨x, hrest, by rwa [copied_ext2]⟩
      refine ⟨t, ?_⟩
      rw [readLoop_cons hr he hb hpart, hcopied, ht]
    · have hgo : ¬ (remaining = 0 ∨ f.eof = true) := by
        rw [he]
        rintro (h | h)
        · exact absurd h (Nat.ne_of_gt hr)
        · cases h
      have hread : Out.mapErr (fun _ => ()) (readBlock f.ext2 b) = Out.err () := by
        rw [hb]
        rfl
      refine ⟨f, ?_⟩
      rw [readLoop, Prog.get_bind, if_neg hgo]
      exact Prog.bind_err (Prog.read_err (f := fun file : EXT2File =>
        Out.mapErr (fun _ => ()) (readBlock file.ext2 b)) hread) _

theorem placed_opened (ext2 : EXT2) (inode : Inode) (blknos : List Nat) :
    Placed (.opened ext2 inode blknos) :=
  ⟨Nat.zero_le _, fun he => by cases he⟩

theorem needed_opened : (EXT2File.opened ext2 inode blknos).needed =
    inode.iSize / ext2.blockSize + 1 := by
  unfold EXT2File.needed EXT2File.inBlock
  show (0 % ext2.blockSize + (inode.iSize - 0)) / ext2.blockSize + 1 = _
  rw [Nat.zero_mod, Nat.zero_add, Nat.sub_zero]

/-- An open file reads as the content of its blocks, if those up to its end can be read. -/
theorem readsAs_iff {c : Bytes} : ReadsAs (.opened ext2 inode blknos) c ↔
    Needed (.opened ext2 inode blknos) ∧ c = content (.opened ext2 inode blknos) := by
  generalize hfile : EXT2File.opened ext2 inode blknos = file
  have hp : Placed file := hfile ▸ placed_opened ext2 inode blknos
  have hoff : file.offset = 0 := by rw [← hfile]; rfl
  have hall : Needed file → ∀ sizes : Nat → Nat, (∀ i, 0 < sizes i) → ∀ fuel,
      (content file).length < fuel →
      ∃ t, (readUntil sizes fuel).run file = .ok (some (content file)) t := by
    intro hn sizes hpos fuel hfuel
    have hspec := readUntil_spec hn fuel sizes (.refl file) hp hpos
      (Nat.lt_of_le_of_lt (Nat.sub_le _ _) hfuel)
    rwa [hoff, List.drop_zero] at hspec
  constructor
  · intro hc
    have hn : Needed file := by
      by_contra hbad
      have hlong : file.inode.iSize - file.offset < file.inode.iSize + 1 :=
        Nat.lt_succ_of_le (Nat.sub_le _ _)
      have hex : ∃ b ∈ (file.blknos.drop 0).take file.needed, ¬ Readable file.ext2 b := by
        have hneed : file.needed = file.inode.iSize / file.ext2.blockSize + 1 := by
          rw [← hfile, needed_opened]
          rfl
        unfold Needed at hbad
        rw [List.drop_zero, hneed]
        simpa only [not_forall, exists_prop] using hbad
      obtain ⟨t, ht⟩ := readLoop_fails (file.blknos.drop 0) _ hp (by rw [← hfile]; rfl) hlong hex
      have hread : (readFile (file.inode.iSize + 1)).run file = .err () t := by
        have hfirst : u32 (0 / file.ext2.blockSize) = 0 := by
          rw [Nat.zero_div]
          exact u32_of_lt (by decide)
        unfold readFile
        rw [Prog.get_bind, hoff, hfirst]
        exact ht
      obtain ⟨fuel, u, hu⟩ := hc (fun _ => file.inode.iSize + 1) fun _ => Nat.succ_pos _
      cases fuel with
      | zero => cases hu
      | succ fuel =>
        have herr : (readUntil (fun _ => file.inode.iSize + 1) (fuel + 1)).run file = .err () t :=
          Prog.bind_err hread _
        rw [herr] at hu
        cases hu
    refine ⟨hn, ?_⟩
    -- with enough fuel for both, the two reads are the same
    obtain ⟨fuel, t, ht⟩ := hc (fun _ => 1) fun _ => Nat.one_pos
    obtain ⟨u, hu⟩ := hall hn (fun _ => 1) (fun _ => Nat.one_pos) (fuel + ((content file).length + 1))
      (by omega)
    rw [readUntil_more ht] at hu
    cases hu
    rfl
  · rintro ⟨hn, rfl⟩
    intro sizes hpos
    obtain ⟨t, ht⟩ := hall hn sizes hpos _ (Nat.lt_succ_self _)
    exact ⟨_, t, ht⟩

/-! ## Loading -/

theorem loadRuns_cons (buf : Buf) (r : Nat × Nat) (rs : List (Nat × Nat)) :
    loadRuns ext2 buf (r :: rs) = match readRun ext2 r with
      | .ok bytes => loadRuns ext2 (buf.append bytes) rs
      | .err e => if r.2 = 1 then .err e else .ok none
      | .stuck => .stuck := by
  obtain ⟨b, n⟩ := r
  rw [loadRuns]
  unfold readRun
  dsimp only
  by_cases hn : n = 1
  · rw [if_pos hn, if_pos hn]
    cases readBlock ext2 b with
    | ok bytes => rfl
    | err e =>
      dsimp only
      rw [if_pos hn]
      rfl
    | stuck => rfl
  · rw [if_neg hn, if_neg hn]
    cases readBlocks ext2 b n with
    | ok bytes => rfl
    | err e =>
      dsimp only
      rw [if_neg hn]
      rfl
    | stuck => rfl

theorem loadRuns_ok {rs : List (Nat × Nat)} : ∀ {bytes : Bytes} (buf : Buf),
    Out.gather (readRun ext2) rs = .ok bytes →
    ∃ buf', loadRuns ext2 buf rs = .ok (some buf') ∧ buf'.bytes = buf.bytes ++ bytes := by
  induction rs with
  | nil =>
    intro bytes buf h
    cases h
    exact ⟨buf, rfl, (List.append_nil _).symm⟩
  | cons r rs ih =>
    intro bytes buf h
    obtain ⟨x, y, hx, hy, rfl⟩ := Out.gather_cons_ok.mp h
    obtain ⟨buf', hload, hbytes⟩ := ih (buf.append x) hy
    refine ⟨buf', ?_, ?_⟩
    · rw [loadRuns_cons, hx]
      exact hload
    · rw [hbytes, Files.append_bytes, List.append_assoc]

/-- Where the loading stops at the first run that cannot be read. -/
theorem loadRuns_fails {before after : List (Nat × Nat)} {r : Nat × Nat} {e : Err}
    (hr : readRun ext2 r = .err e) : ∀ (buf : Buf),
    (∀ x ∈ before, ∃ bytes, readRun ext2 x = .ok bytes) →
    loadRuns ext2 buf (before ++ r :: after) = if r.2 = 1 then .err e else .ok none := by
  induction before with
  | nil =>
    intro buf _
    rw [List.nil_append, loadRuns_cons, hr]
  | cons x before ih =>
    intro buf hok
    obtain ⟨bytes, hx⟩ := hok x (List.mem_cons_self ..)
    rw [List.cons_append, loadRuns_cons, hx]
    exact ih _ fun y hy => hok y (List.mem_cons_of_mem _ hy)

theorem readRun_returns (ext2 : EXT2) (r : Nat × Nat) : readRun ext2 r ≠ .stuck := by
  unfold readRun
  split
  · unfold readBlock
    split
    · exact fun h => nomatch h
    · unfold Out.ofOption
      split <;> exact fun h => nomatch h
  · unfold readBlocks Out.ofOption
    split <;> exact fun h => nomatch h

/-- All runs can be read, or there is a first one that cannot. -/
theorem runs_first (ext2 : EXT2) (rs : List (Nat × Nat)) :
    (∃ bytes, Out.gather (readRun ext2) rs = .ok bytes) ∨
      ∃ before r after e, rs = before ++ r :: after ∧
        (∀ x ∈ before, ∃ bytes, readRun ext2 x = .ok bytes) ∧ readRun ext2 r = .err e := by
  induction rs with
  | nil => exact .inl ⟨[], rfl⟩
  | cons r rs ih =>
    cases hr : readRun ext2 r with
    | stuck => exact absurd hr (readRun_returns ext2 r)
    | err e => exact .inr ⟨[], r, rs, e, rfl, fun _ hx => absurd hx List.not_mem_nil, hr⟩
    | ok bytes =>
      rcases ih with ⟨rest, hrest⟩ | ⟨before, x, after, e, rfl, hok, hx⟩
      · exact .inl ⟨bytes ++ rest, Out.gather_cons_ok.mpr ⟨bytes, rest, hr, hrest, rfl⟩⟩
      · refine .inr ⟨r :: before, x, after, e, rfl, fun y hy => ?_, hx⟩
        rcases List.mem_cons.mp hy with rfl | hy
        · exact ⟨bytes, hr⟩
        · exact hok y hy

/-- What is returned for what the loop has filled. -/
def loaded (ext2 : EXT2) (inode : Inode) : Option Buf → FileData
  | some buf => ⟨buf.memory ext2.uninit, inode.iSize⟩
  | none => ⟨[], 0⟩

theorem loadFile_bind (hb : loadBlockNumbersFromInode ext2 inode false = .ok blknos)
    {found : Option Buf} (hl : loadRuns ext2 Buf.empty (runs blknos) = .ok found) :
    loadFileFromInode ext2 inode = .ok (loaded ext2 inode found) := by
  unfold loadFileFromInode
  rw [hb, Out.ok_bind, hl, Out.ok_bind]
  cases found <;> rfl

theorem memory_take {buf : Buf} {n : Nat} (uninit : Nat → UInt8) (h : n ≤ buf.bytes.length) :
    n ≤ (buf.memory uninit).length ∧ (buf.memory uninit).take n = buf.bytes.take n := by
  unfold Buf.memory
  refine ⟨?_, List.take_append_of_le_length h⟩
  rw [List.length_append]
  exact Nat.le_trans h (Nat.le_add_right _ _)

theorem content_of_size (h : Needed (.opened ext2 inode blknos))
    (hs : inode.iSize ≤ blknos.length * ext2.blockSize) :
    (content (.opened ext2 inode blknos)).length = inode.iSize := by
  have hpre := length_blocks (g := blockBytes ext2)
    (blknos.take (inode.iSize / ext2.blockSize + 1)) fun b hb => length_block (h b hb)
  have hlong : inode.iSize ≤
      ((blknos.take (inode.iSize / ext2.blockSize + 1)).flatMap (blockBytes ext2)).length := by
    rw [hpre, List.length_take]
    rcases Nat.le_total (inode.iSize / ext2.blockSize + 1) blknos.length with hle | hle
    · rw [Nat.min_eq_left hle, Nat.mul_comm]
      exact Nat.le_of_lt (Nat.lt_mul_div_succ _ ext2.sb.blockSize_pos)
    · rw [Nat.min_eq_right hle]
      exact hs
  have hall : inode.iSize ≤ (blknos.flatMap (blockBytes ext2)).length := by
    rw [← List.take_append_drop (inode.iSize / ext2.blockSize + 1) blknos, List.flatMap_append,
      List.length_append]
    exact Nat.le_trans hlong (Nat.le_add_right _ _)
  exact List.length_take_of_le hall

theorem agree_of_harmless (h : Harmless ext2 inode) : Agree ext2 inode := by
  have hsingle : ∀ {blknos}, loadBlockNumbersFromInode ext2 inode false = .ok blknos →
      SingleFails ext2 blknos → ∃ e, loadFileFromInode ext2 inode = .err e := by
    rintro blknos hb ⟨before, b, after, hruns, hok, e, he⟩
    have hrun : readRun ext2 (b, 1) = .err e := (if_pos rfl).trans he
    have hload := @loadRuns_fails _ _ after _ _ hrun Buf.empty hok
    rw [if_pos rfl] at hload
    refine ⟨e, ?_⟩
    unfold loadFileFromInode
    rw [hb, Out.ok_bind, hruns, hload]
    rfl
  refine ⟨fun blknos data hb hdata => ?_, fun blknos hb hbad => ?_⟩
  · rcases h blknos hb with hfail | hw
    · obtain ⟨e, he⟩ := hsingle hb hfail
      rw [he] at hdata
      cases hdata
    have hlen := content_of_size hw.needed hw.size
    have hempty : inode.iSize = 0 → content (.opened ext2 inode blknos) = [] := fun h0 =>
      List.eq_nil_of_length_eq_zero (hlen.trans h0)
    rcases runs_first ext2 (runs blknos) with ⟨bytes, hbytes⟩ | ⟨before, r, after, e, hruns, hok, hr⟩
    · obtain ⟨buf, hload, hbuf⟩ := loadRuns_ok Buf.empty hbytes
      rw [loadFile_bind hb hload] at hdata
      cases hdata
      have hbuf : buf.bytes = bytes := hbuf
      have hcover : inode.iSize ≤ bytes.length ∧
          bytes.take inode.iSize = content (.opened ext2 inode blknos) := by
        rcases hw.runs with h0 | ⟨bytes', hbytes', htake⟩
        · rw [hempty h0, h0]
          exact ⟨Nat.zero_le _, List.take_zero⟩
        · rw [hbytes] at hbytes'
          cases hbytes'
          refine ⟨?_, htake⟩
          rw [← hlen, ← htake, List.length_take]
          exact Nat.min_le_right _ _
      rw [← hbuf] at hcover
      obtain ⟨hle, htake⟩ := memory_take ext2.uninit hcover.1
      refine ⟨hle, readsAs_iff.mpr ⟨hw.needed, ?_⟩⟩
      exact htake.trans hcover.2
    · have hload := @loadRuns_fails _ _ after _ _ hr Buf.empty hok
      rw [← hruns] at hload
      by_cases hone : r.2 = 1
      · unfold loadFileFromInode at hdata
        rw [hb, Out.ok_bind, hload, if_pos hone] at hdata
        cases hdata
      · -- nothing is delivered, and nothing was to be
        rw [if_neg hone] at hload
        rw [loadFile_bind hb hload] at hdata
        cases hdata
        have h0 : inode.iSize = 0 := by
          refine hw.runs.resolve_right fun hall => ?_
          obtain ⟨bytes, hbytes, -⟩ := hall
          obtain ⟨x, hx, -⟩ := Out.gather_ok_of_mem hbytes (a := r) (by rw [hruns]; simp)
          rw [hr] at hx
          cases hx
        exact ⟨Nat.le_refl _, readsAs_iff.mpr ⟨hw.needed, (hempty h0).symm⟩⟩
  · rcases h blknos hb with hfail | hw
    · exact hsingle hb hfail
    · obtain ⟨b, hmem, hno⟩ := hbad
      exact absurd (hw.sectors b hmem) hno

/-! ## Uninitialised memory -/

/-- The volume with other bytes in the memory that is not initialised. -/
def withMemory (ext2 : EXT2) (uninit : Nat → UInt8) : EXT2 := { ext2 with uninit }

theorem readRun_memory (uninit : Nat → UInt8) : readRun (withMemory ext2 uninit) = readRun ext2 := rfl

theorem loadRuns_memory (uninit : Nat → UInt8) (rs : List (Nat × Nat)) : ∀ buf : Buf,
    loadRuns (withMemory ext2 uninit) buf rs = loadRuns ext2 buf rs := by
  induction rs with
  | nil => exact fun _ => rfl
  | cons r rs ih =>
    intro buf
    rw [loadRuns_cons, loadRuns_cons, readRun_memory]
    simp only [ih]

theorem loadBlockNumbers_memory (uninit : Nat → UInt8) :
    loadBlockNumbersFromInode (withMemory ext2 uninit) inode false =
      loadBlockNumbersFromInode ext2 inode false := rfl

theorem content_memory (uninit : Nat → UInt8) :
    content (.opened (withMemory ext2 uninit) inode blknos) =
      content (.opened ext2 inode blknos) := rfl

theorem harmless_memory (uninit : Nat → UInt8) (h : Harmless ext2 inode) :
    Harmless (withMemory ext2 uninit) inode := by
  intro blknos hb
  rcases h blknos hb with hfail | hw
  · exact .inl hfail
  · exact .inr ⟨hw.sectors, hw.needed, hw.size, hw.runs⟩

theorem memory_get {buf : Buf} {uninit : Nat → UInt8} {n : Nat} (hn : buf.bytes.length ≤ n)
    (hlt : n < (buf.memory uninit).length) : (buf.memory uninit)[n] = uninit n := by
  have hrest : n - buf.bytes.length < buf.cap - buf.bytes.length := by
    rw [Buf.memory, List.length_append, length_readMem] at hlt
    omega
  have hval : (buf.memory uninit)[n]? = some (uninit n) := by
    rw [Buf.memory, List.getElem?_append_right hn, readMem, List.getElem?_map,
      List.getElem?_range' hrest, Option.map_some, Nat.one_mul, Nat.add_sub_cancel' hn]
  rw [List.getElem?_eq_getElem hlt] at hval
  exact Option.some.inj hval

theorem add_one_ne (x : UInt8) : x + 1 ≠ x := by
  intro h
  have h0 : x + 1 = x + 0 := h.trans (UInt8.add_zero x).symm
  exact absurd ((UInt8.add_right_inj x).mp h0) (by decide)

/-- What the buffer holds of the file was read from the runs: it holds it whatever stands in the
memory that is not initialised. -/
theorem bytes_of_memory {buf : Buf} {file : Bytes} {n : Nat} (hlen : file.length = n)
    (h : ∀ uninit, n ≤ (buf.memory uninit).length ∧ (buf.memory uninit).take n = file) :
    buf.bytes.take n = file := by
  by_cases hle : n ≤ buf.bytes.length
  · rw [← (memory_take (fun _ => 0) hle).2, (h fun _ => 0).2]
  · exfalso
    have hlt : buf.bytes.length < file.length := by omega
    obtain ⟨x, hx⟩ : ∃ x, file[buf.bytes.length]? = some x := ⟨_, List.getElem?_eq_getElem hlt⟩
    -- memory that holds something else there
    obtain ⟨hmem, htake⟩ := h fun _ => x + 1
    have hin : buf.bytes.length < (buf.memory fun _ => x + 1).length := by omega
    rw [← htake, List.getElem?_take_of_lt (by omega), List.getElem?_eq_getElem hin,
      memory_get (Nat.le_refl _) hin] at hx
    exact absurd (Option.some.inj hx) (add_one_ne x)

theorem length_blocks_le {g : Nat → Bytes} {size : Nat} (bl : List Nat)
    (h : ∀ b, (g b).length ≤ size) : (bl.flatMap g).length ≤ bl.length * size := by
  rw [List.length_flatMap]
  have hsum := List.sum_le_card_nsmul (bl.map fun b => (g b).length) size fun n hn => by
    obtain ⟨b, -, rfl⟩ := List.mem_map.mp hn
    exact h b
  rwa [List.length_map, smul_eq_mul] at hsum

theorem harmless_of_agree (h : ∀ uninit, Agree (withMemory ext2 uninit) inode) :
    Harmless ext2 inode := by
  have hown : Agree ext2 inode := h ext2.uninit
  intro blknos hb
  have hsectors : ∀ {data}, loadFileFromInode ext2 inode = .ok data →
      ∀ b ∈ blknos, Sectors ext2 b := by
    intro data hdata b hmem
    by_contra hno
    obtain ⟨e, he⟩ := hown.fails blknos hb ⟨b, hmem, hno⟩
    rw [hdata] at he
    cases he
  have hlength : (content (.opened ext2 inode blknos)).length ≤ blknos.length * ext2.blockSize := by
    have hle := length_blocks_le (g := blockBytes ext2) blknos fun b => by
      rcases readable_or ext2 b with hr | ⟨e, he⟩
      · exact Nat.le_of_eq (length_block hr)
      · rw [blockBytes, he]
        exact Nat.zero_le _
    exact Nat.le_trans (List.length_take_le' _ _) hle
  rcases runs_first ext2 (runs blknos) with ⟨bytes, hbytes⟩ | ⟨before, r, after, e, hruns, hok, hr⟩
  · right
    obtain ⟨buf, hload, hbuf⟩ := loadRuns_ok Buf.empty hbytes
    have hbuf : buf.bytes = bytes := hbuf
    have hdata := loadFile_bind hb hload
    have hall : ∀ uninit, inode.iSize ≤ (buf.memory uninit).length ∧
        Needed (.opened ext2 inode blknos) ∧
        (buf.memory uninit).take inode.iSize = content (.opened ext2 inode blknos) := by
      intro uninit
      have hload' : loadFileFromInode (withMemory ext2 uninit) inode =
          .ok (loaded (withMemory ext2 uninit) inode (some buf)) :=
        loadFile_bind ((loadBlockNumbers_memory uninit).trans hb)
          ((loadRuns_memory uninit _ _).trans hload)
      obtain ⟨hle, hreads⟩ := (h uninit).same blknos _ hb hload'
      obtain ⟨hneed, htake⟩ := readsAs_iff.mp hreads
      exact ⟨hle, hneed, htake.trans (content_memory uninit)⟩
    obtain ⟨hle, hneed, htake⟩ := hall fun _ => 0
    have hclen : (content (.opened ext2 inode blknos)).length = inode.iSize := by
      rw [← htake]
      exact List.length_take_of_le hle
    refine ⟨hsectors hdata, hneed, hclen ▸ hlength, .inr ⟨bytes, hbytes, ?_⟩⟩
    rw [← hbuf]
    exact bytes_of_memory hclen fun uninit => ⟨(hall uninit).1, (hall uninit).2.2⟩
  · by_cases hone : r.2 = 1
    · left
      obtain ⟨b, n⟩ := r
      have hn : n = 1 := hone
      subst hn
      exact ⟨before, b, after, hruns, hok, e, (if_pos rfl).symm.trans hr⟩
    · right
      have hload := @loadRuns_fails _ _ after _ _ hr Buf.empty hok
      rw [← hruns, if_neg hone] at hload
      have hdata := loadFile_bind hb hload
      obtain ⟨-, hreads⟩ := hown.same blknos _ hb hdata
      obtain ⟨hneed, hnone⟩ := readsAs_iff.mp hreads
      have hzero : inode.iSize = 0 := by
        -- there is a block, and what is needed of the file begins with it
        have hsome : blknos ≠ [] := by
          rintro rfl
          have hnil := congrArg List.length hruns
          rw [List.length_append, List.length_cons] at hnil
          exact absurd hnil (Nat.ne_of_lt (Nat.lt_of_lt_of_le (Nat.succ_pos _) (Nat.le_add_left _ _)))
        obtain ⟨b, rest, rfl⟩ := List.exists_cons_of_ne_nil hsome
        have hblock := length_block (hneed b (by
          show b ∈ (b :: rest).take (inode.iSize / ext2.blockSize + 1)
          rw [List.take_succ_cons]
          exact List.mem_cons_self ..))
        have hshort := congrArg List.length hnone
        have hpos := ext2.sb.blockSize_pos
        rw [content] at hshort
        change 0 = (((b :: rest).flatMap (blockBytes ext2)).take inode.iSize).length at hshort
        rw [List.length_take, List.flatMap_cons, List.length_append] at hshort
        have hb : (blockBytes ext2 b).length = ext2.sb.blockSize := hblock
        rw [hb] at hshort
        omega
      refine ⟨hsectors hdata, hneed, ?_, .inl hzero⟩
      rw [hzero]
      exact Nat.zero_le _

/-- Consecutive blocks whose sectors can be read are read in one piece. -/
theorem read_blocks {b n : Nat} (hb : 0 < b) (hn : 0 < n)
    (hlow : (b + n) * ext2.blockSize ≤ 2 ^ 32) (hs : ∀ x ∈ List.range' b n, Sectors ext2 x) :
    Device.read ext2.dev (ext2.blockOffset b) (u32 (n * ext2.blockSize)) =
      some (readMem ext2.dev.data (b * ext2.blockSize) (n * ext2.blockSize)) := by
  obtain ⟨k, hk⟩ := BlockAddress.blockSize_sectors ext2
  have hpos : 0 < ext2.blockSize := ext2.sb.blockSize_pos
  have hkpos : 0 < k := by omega
  have hone : ext2.blockSize ≤ b * ext2.blockSize := Nat.le_mul_of_pos_left _ hb
  have hone' : ext2.blockSize ≤ n * ext2.blockSize := Nat.le_mul_of_pos_left _ hn
  rw [Nat.add_mul] at hlow
  have hplace : b * ext2.blockSize = b * k * 512 := by rw [hk]; ring
  have hcount : n * ext2.blockSize = n * k * 512 := by rw [hk]; ring
  have hsector : ∀ j, b * k ≤ j → j < b * k + n * k →
      j < ext2.dev.nblks ∧ ext2.dev.readable j = true := by
    intro j hj hjn
    have hdiv := Nat.div_add_mod j k
    have hlt := Nat.mod_lt j hkpos
    have hlo : b ≤ j / k := (Nat.le_div_iff_mul_le hkpos).mpr hj
    have hhi : j / k < b + n := by
      rw [Nat.div_lt_iff_lt_mul hkpos, Nat.add_mul]
      exact hjn
    refine hs (j / k) (List.mem_range'_1.mpr ⟨hlo, hhi⟩) j ?_ ?_
    · have hle : j / k * k ≤ j := Nat.div_mul_le_self j k
      rw [hk, show j / k * (512 * k) = j / k * k * 512 by ring]
      exact Nat.mul_le_mul_right _ hle
    · have hlt' : j < (j / k + 1) * k := by
        rw [Nat.add_mul, Nat.one_mul, Nat.mul_comm (j / k)]
        omega
      rw [hk, show (j / k + 1) * (512 * k) = (j / k + 1) * k * 512 by ring]
      exact Nat.mul_lt_mul_of_pos_right hlt' (by decide)
  have hnk : 0 < n * k := Nat.mul_pos hn hkpos
  have hlast := (hsector (b * k + n * k - 1) (by omega) (by omega)).1
  have hall : (List.range' (b * k) (n * k)).all ext2.dev.readable = true := by
    rw [List.all_eq_true]
    intro j hj
    obtain ⟨h1, h2⟩ := List.mem_range'_1.mp hj
    exact (hsector j h1 h2).2
  have hoff : ext2.blockOffset b = b * k * 512 := by
    rw [EXT2.blockOffset, u32_of_lt (by omega), hplace]
  have hsize : u32 (n * ext2.blockSize) = n * k * 512 := by rw [u32_of_lt (by omega), hcount]
  rw [hoff, hsize, DeviceExact.read_sectors _ (by omega) (by omega), getN, if_pos ⟨by omega, hall⟩, hplace,
    hcount]

theorem whole_of_small (hbs : ext2.blockSize ≤ 8192)
    (hlow : ∀ b ∈ blknos, 0 < b ∧ (b + 1) * ext2.blockSize ≤ 2 ^ 32)
    (hsec : ∀ b ∈ blknos, Sectors ext2 b) (hsize : inode.iSize ≤ blknos.length * ext2.blockSize) :
    Whole ext2 inode blknos := by
  have hpos : 0 < ext2.blockSize := ext2.sb.blockSize_pos
  have hblock : ∀ b ∈ blknos, readBlock ext2 b =
      .ok (readMem ext2.dev.data (b * ext2.blockSize) ext2.blockSize) := by
    intro b hb
    have hread := read_blocks (n := 1) (hlow b hb).1 Nat.one_pos (hlow b hb).2 fun x hx => by
      rw [List.range'_one, List.mem_singleton] at hx
      exact hx ▸ hsec b hb
    rw [Nat.one_mul, u32_of_lt (Nat.lt_of_le_of_lt hbs (by decide))] at hread
    rw [readBlock, if_neg (by omega), hread]
    rfl
  have hbytes : ∀ b ∈ blknos, blockBytes ext2 b =
      readMem ext2.dev.data (b * ext2.blockSize) ext2.blockSize := by
    intro b hb
    rw [blockBytes, hblock b hb]
  have hnext : ∀ b ∈ blknos, b + 1 < 2 ^ 32 := by
    intro b hb
    have hle := (hlow b hb).2
    have hk : 1024 ≤ ext2.blockSize := Nat.le_mul_of_pos_right 1024 (by positivity)
    have hmul : (b + 1) * 1024 ≤ (b + 1) * ext2.blockSize := Nat.mul_le_mul_left _ hk
    omega
  obtain ⟨hflat, hlen⟩ := runs_spec blknos hnext
  have hruns : ∀ r ∈ runs blknos, readRun ext2 r =
      .ok ((List.range' r.1 r.2).flatMap (blockBytes ext2)) := by
    intro r hr
    obtain ⟨b, n⟩ := r
    have hmem : ∀ x ∈ List.range' b n, x ∈ blknos := by
      intro x hx
      rw [← hflat]
      exact List.mem_flatMap.mpr ⟨(b, n), hr, hx⟩
    have hn : 0 < n := hlen _ hr
    have hall : (List.range' b n).flatMap (blockBytes ext2) =
        readMem ext2.dev.data (b * ext2.blockSize) (n * ext2.blockSize) := by
      rw [readMem_blocks]
      exact List.flatMap_congr fun x hx => hbytes x (hmem x hx)
    have hfirst := hmem b (List.mem_range'_1.mpr ⟨Nat.le_refl _, by omega⟩)
    unfold readRun
    dsimp only
    split
    · rename_i h1
      subst h1
      rw [hblock b hfirst, hall, Nat.one_mul]
    · have hlast := hmem (b + (n - 1)) (List.mem_range'_1.mpr ⟨by omega, by omega⟩)
      have hend : b + (n - 1) + 1 = b + n := by omega
      have hread := read_blocks (hlow b hfirst).1 hn (by rw [← hend]; exact (hlow _ hlast).2)
        fun x hx => hsec x (hmem x hx)
      rw [readBlocks, hread, hall]
      rfl
  refine ⟨hsec, fun b hb => ?_, hsize, .inr ⟨_, Out.gather_ok hruns, ?_⟩⟩
  · have hmem : b ∈ blknos := List.mem_of_mem_take hb
    show readBlock ext2 b = .ok (blockBytes ext2 b)
    rw [hblock b hmem, hbytes b hmem]
  · rw [← List.flatMap_assoc, hflat]
    rfl

/-! ## A sector that cannot be read -/

/-- A volume whose last sector cannot be read. -/
def damaged : Blkdev := { image (superBlock 8 0 8) with readable := fun i => i != 7 }

/-- A file in the last two blocks. -/
def twoBlocks : Inode := (Inode.create 0x8000 2048 1 0 0).setBlocks 0 [2, 3]

theorem damaged_load : ∃ s, ext2New damaged (fun _ => 0) = .ok s ∧
    loadBlockNumbersFromInode s twoBlocks false = .ok [2, 3] ∧
    loadFileFromInode s twoBlocks = .ok ⟨[], 0⟩ ∧ s.blockSize = 1024 ∧
    s.dev.readable 7 = false := by
  have h : (ext2New damaged fun _ => 0).passes (fun s =>
      loadBlockNumbersFromInode s twoBlocks false = .ok [2, 3] ∧
        loadFileFromInode s twoBlocks = .ok ⟨[], 0⟩ ∧ s.blockSize = 1024 ∧
        s.dev.readable 7 = false) = true := by decide +kernel
  obtain ⟨s, hs, hp⟩ := Out.of_passes h
  exact ⟨s, hs, of_decide_eq_true hp⟩

end LsvmTools.Ext2.FileReaders
