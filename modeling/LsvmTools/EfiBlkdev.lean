import LsvmTools.Blkdev

/-! # The EFI block device

`efiblkdev.c` makes a block device of an `EFI_BLOCK_IO`. Reads of up to eight blocks are served
block by block from a window of eight blocks that was read ahead; longer reads and all writes go
to the disk. A write leaves the window as it is, so what it held before can be read afterwards. -/
namespace LsvmTools.EfiBlkdev
open Lib.ByteString Lib.Program Lib.Sectors Blkdev
open Addr (nth)

/-! ## The disk -/

/-- A disk that is an array of blocks. `lastBlock` is `Media->LastBlock`. -/
structure BlockIO where
  lastBlock : UInt64
  blocks : UInt64 → Sector

namespace BlockIO

/-- `ReadBlocks`. -/
def readBlocks (lba : UInt64) (n : Nat) : Prog BlockIO Unit (List Sector) := do
  let bio ← Prog.get
  if lba.toNat + n ≤ bio.lastBlock.toNat + 1 then pure (load bio.blocks lba n) else Prog.throw ()

/-- `WriteBlocks`. -/
def writeBlocks (lba : UInt64) (ds : List Sector) : Prog BlockIO Unit Unit := do
  let bio ← Prog.get
  if lba.toNat + ds.length ≤ bio.lastBlock.toNat + 1 then
    Prog.modify fun bio => { bio with blocks := store bio.blocks lba 0 ds }
  else Prog.throw ()

end BlockIO

/-! ## The block device -/

/-- `CACHE_SIZE`. -/
def cacheSize : Nat := 8

structure BlkdevImpl where
  bio : BlockIO
  cached : Bool
  blkno : UInt64
  cache : List Sector

/-- The block is in the window. The end of the window is a `UINTN`. -/
def BlkdevImpl.hit (impl : BlkdevImpl) (blkno : UInt64) : Bool :=
  impl.cached && impl.blkno ≤ blkno && blkno < impl.blkno + UInt64.ofNat cacheSize

/-- The place of a block in the window. -/
def BlkdevImpl.index (impl : BlkdevImpl) (blkno : UInt64) : Nat := (blkno - impl.blkno).toNat

/-- How many blocks `n * BLKDEV_BLKSIZE` bytes are, as a `UINTN`. -/
def wholeBlocks (n : Nat) : Nat := u64 (n * 512) / 512

/-- A call of the disk. -/
def onBio {α : Type} (m : Prog BlockIO Unit α) : Prog BlkdevImpl Unit α where
  exec impl := match m.run impl.bio with
    | .ok a bio => .ok a { impl with bio }
    | .err e bio => .err e { impl with bio }
    | .stuck => .stuck

/-- `ReadBIO` of this many blocks. -/
def readBIO (blkno : UInt64) (n : Nat) : Prog BlkdevImpl Unit (List Sector) :=
  onBio ( BlockIO.readBlocks blkno n)

/-- `_Get`. -/
def get (blkno : UInt64) : Prog BlkdevImpl Unit (List Sector) := do
  let impl ← Prog.get
  if impl.hit blkno then do
    let block ← Prog.read fun impl => Out.index impl.cache (impl.index blkno)
    pure [block]
  else if blkno + UInt64.ofNat cacheSize ≤ impl.bio.lastBlock then do
    let run ← readBIO blkno cacheSize
    Prog.modify fun impl => { impl with cached := true, blkno, cache := run }
    pure (run.take 1)
  else readBIO blkno 1

/-- The loop of `_GetN` over `n` blocks from the `k`-th on. -/
def getEach (blkno : UInt64) : Nat → Nat → Prog BlkdevImpl Unit (List Sector)
  | _, 0 => pure []
  | k, n + 1 => do
    let block ← get (nth blkno k)
    let rest ← getEach blkno (k + 1) n
    pure (block ++ rest)

/-- `_GetN`. -/
def getN (blkno : UInt64) (nblocks : Nat) : Prog BlkdevImpl Unit (List Sector) :=
  if nblocks = 0 then pure []
  else if nblocks ≤ cacheSize then getEach blkno 0 nblocks
  else readBIO blkno (wholeBlocks nblocks)

/-- `_PutN`. -/
def putN (blkno : UInt64) (data : List Sector) : Prog BlkdevImpl Unit Unit :=
  if data.length = 0 then pure ()
  else onBio ( BlockIO.writeBlocks blkno (data.take (wholeBlocks data.length)))

/-- `_SetFlags`: no flags are supported. -/
def setFlags (_ : UInt32) : Prog BlkdevImpl Unit Unit := Prog.throw ()

def efiBlkdev : Device UInt64 BlkdevImpl Sector := ⟨getN, putN⟩

/-- `BlkdevFromBIO`. -/
def blkdevFromBIO (bio : BlockIO) : BlkdevImpl :=
  ⟨bio, false, 0, List.replicate cacheSize (Sector.fill 0)⟩

/-! ## Reading its own writes -/

/-- A number of blocks whose bytes fit in memory. -/
def Sized : Call UInt64 Sector UInt32 → Prop
  | .getN _ n => n * 512 < 2 ^ 64
  | .putN _ ds => ds.length * 512 < 2 ^ 64
  | .other _ => True

/-- Reads deliver what was last written, at every point of the calls. -/
def ReadsLastWritten (bio : BlockIO) (calls : List (Call UInt64 Sector UInt32)) : Prop :=
  ∀ past, past <+: calls → ∀ s b n ds t, n * 512 < 2 ^ 64 →
    (session efiBlkdev setFlags past).run ( blkdevFromBIO bio) = .ok () s →
    (getN b n).run s = .ok ds t →
    ds = (List.range n).map fun k => (lastWritten (nth b k) (writes past)).getD (bio.blocks (nth b k))

/-- A write that changes no block the window holds. -/
def Coherent (s : BlkdevImpl) : Call UInt64 Sector UInt32 → Prop
  | .putN b ds => ∀ x, s.hit x = true → ∀ d, written b x 0 ds = some d →
      s.cache[s.index x]? = some d
  | .getN _ _ | .other _ => True

/-- The window holds what is on the disk. -/
structure Fresh (s : BlkdevImpl) : Prop where
  size : s.cache.length = cacheSize
  same : ∀ x, s.hit x = true → s.cache[s.index x]? = some (s.bio.blocks x)

variable {s t : BlkdevImpl}

theorem index_lt {x : UInt64} (h : s.hit x = true) : s.index x < cacheSize := by
  simp only [BlkdevImpl.hit, Bool.and_eq_true, decide_eq_true_eq] at h
  obtain ⟨⟨-, hle⟩, hlt⟩ := h
  have hend : x.toNat < (s.blkno.toNat + 8) % 2 ^ 64 := hlt
  have hmod : (s.blkno.toNat + 8) % 2 ^ 64 ≤ s.blkno.toNat + 8 := Nat.mod_le _ _
  unfold BlkdevImpl.index
  rw [UInt64.toNat_sub_of_le _ _ hle]
  show x.toNat - s.blkno.toNat < 8
  omega

theorem nth_index (s : BlkdevImpl) (x : UInt64) : nth s.blkno (s.index x) = x := by
  rw [nth_eq, BlkdevImpl.index, UInt64.ofNat_toNat, UInt64.add_comm, UInt64.sub_add_cancel]

theorem getElem_load {a : UInt64 → Sector} {b : UInt64} {n i : Nat} (h : i < n) :
    (load a b n)[i]? = some (a (nth b i)) := by
  simp [load, h]

/-! ## Single calls -/

theorem onBio_ok {α : Type} {m : Prog BlockIO Unit α} {a : α} :
    (onBio m).run s = .ok a t ↔ ∃ bio, m.run s.bio = .ok a bio ∧ t = { s with bio } := by
  show (match m.run s.bio with
    | .ok a bio => Res.ok a { s with bio }
    | .err e bio => .err e { s with bio }
    | .stuck => .stuck) = _ ↔ _
  cases m.run s.bio <;> simp [eq_comm]

theorem readBIO_ok {b : UInt64} {n : Nat} {ds : List Sector}
    (h : ( readBIO b n).run s = .ok ds t) : ds = load s.bio.blocks b n ∧ t = s := by
  obtain ⟨bio, hm, rfl⟩ := onBio_ok.mp h
  unfold BlockIO.readBlocks at hm
  rw [Prog.get_bind] at hm
  split at hm
  · cases hm
    exact ⟨rfl, rfl⟩
  · cases hm

/-- The window read ahead from block `b` on. -/
def BlkdevImpl.ahead (s : BlkdevImpl) (b : UInt64) : BlkdevImpl :=
  { s with cached := true, blkno := b, cache := load s.bio.blocks b cacheSize }

/-- What a `_Get` can do: take the block from the window, or read it and move the window or
leave it. -/
theorem get_ok {b : UInt64} {ds : List Sector} (h : (get b).run s = .ok ds t) :
    (s.hit b = true ∧ (∃ d, s.cache[s.index b]? = some d ∧ ds = [d]) ∧ t = s) ∨
      (ds = [s.bio.blocks b] ∧ (t = s ∨ t = s.ahead b)) := by
  unfold get at h
  rw [Prog.get_bind] at h
  by_cases hh : s.hit b = true
  · rw [if_pos hh] at h
    obtain ⟨d, u, hd, hrest⟩ := Prog.bind_eq_ok.mp h
    obtain ⟨hidx, rfl⟩ := Prog.read_eq_ok.mp hd
    rw [Prog.run_pure] at hrest
    cases hrest
    refine .inl ⟨hh, ⟨d, ?_, rfl⟩, rfl⟩
    unfold Out.index at hidx
    split at hidx
    · rename_i hc
      rw [hc, Out.ok.inj hidx]
    · cases hidx
  rw [if_neg hh] at h
  right
  split at h
  · obtain ⟨run, u, hr, hrest⟩ := Prog.bind_eq_ok.mp h
    obtain ⟨rfl, rfl⟩ := readBIO_ok hr
    rw [Prog.modify_bind, Prog.run_pure] at hrest
    cases hrest
    refine ⟨?_, .inr rfl⟩
    show [u.bio.blocks (nth b 0)] = _
    rw [nth_eq]
    exact congrArg (fun x => [u.bio.blocks x]) (UInt64.add_zero b)
  · obtain ⟨rfl, rfl⟩ := readBIO_ok h
    refine ⟨?_, .inl rfl⟩
    show [t.bio.blocks (nth b 0)] = _
    rw [nth_eq]
    exact congrArg (fun x => [t.bio.blocks x]) (UInt64.add_zero b)

/-- What reads leave alone: the disk, and a window that holds what is on it. -/
structure Kept (s t : BlkdevImpl) : Prop where
  bio : t.bio = s.bio
  size : s.cache.length = cacheSize → t.cache.length = cacheSize
  fresh : Fresh s → Fresh t

theorem Kept.refl (s : BlkdevImpl) : Kept s s := ⟨rfl, fun h => h, fun h => h⟩

theorem Kept.trans {u : BlkdevImpl} (h : Kept s t) (h' : Kept t u) : Kept s u :=
  ⟨h'.bio.trans h.bio, fun hs => h'.size (h.size hs), fun hs => h'.fresh (h.fresh hs)⟩

theorem ahead_kept (s : BlkdevImpl) (b : UInt64) : Kept s (s.ahead b) := by
  have hlen : (s.ahead b).cache.length = cacheSize := length_load _ _ _
  refine ⟨rfl, fun _ => hlen, fun _ => ⟨hlen, fun x hx => ?_⟩⟩
  have hload := getElem_load (a := s.bio.blocks) (b := b) (index_lt hx)
  have hplace := nth_index (s.ahead b) x
  rw [show (s.ahead b).blkno = b from rfl] at hplace
  rw [hplace] at hload
  exact hload

theorem get_kept {b : UInt64} {ds : List Sector} (h : (get b).run s = .ok ds t) :
    Kept s t ∧ (Fresh s → ds = [s.bio.blocks b]) := by
  rcases get_ok h with ⟨hh, ⟨d, hd, rfl⟩, rfl⟩ | ⟨rfl, rfl | rfl⟩
  · refine ⟨.refl _, fun hf => ?_⟩
    rw [hf.same b hh] at hd
    rw [Option.some.inj hd]
  · exact ⟨.refl _, fun _ => rfl⟩
  · exact ⟨ahead_kept s b, fun _ => rfl⟩

theorem getEach_kept {b : UInt64} {n : Nat} : ∀ {k : Nat} {s : BlkdevImpl} {ds : List Sector},
    (getEach b k n).run s = .ok ds t →
      Kept s t ∧ (Fresh s → ds = (List.range' k n).map fun j => s.bio.blocks (nth b j)) := by
  induction n with
  | zero =>
    intro k s ds h
    cases h
    exact ⟨.refl _, fun _ => rfl⟩
  | succ n ih =>
    intro k s ds h
    obtain ⟨block, u, h1, hrest⟩ := Prog.bind_eq_ok.mp h
    obtain ⟨rest, v, h2, hend⟩ := Prog.bind_eq_ok.mp hrest
    cases hend
    obtain ⟨hk1, hd1⟩ := get_kept h1
    obtain ⟨hk2, hd2⟩ := ih h2
    refine ⟨hk1.trans hk2, fun hf => ?_⟩
    rw [hd1 hf, hd2 (hk1.fresh hf), hk1.bio]
    rfl

theorem wholeBlocks_of_lt {n : Nat} (h : n * 512 < 2 ^ 64) : wholeBlocks n = n := by
  rw [wholeBlocks, u64, Nat.mod_eq_of_lt h, Nat.mul_div_cancel n (by decide)]

/-- `_GetN` of a buffer that fits in memory. -/
theorem getN_kept {b : UInt64} {n : Nat} {ds : List Sector} (h : (getN b n).run s = .ok ds t) :
    Kept s t ∧ (n * 512 < 2 ^ 64 → Fresh s → ds = load s.bio.blocks b n) := by
  unfold getN at h
  split at h
  · rename_i h0
    cases h
    subst h0
    exact ⟨.refl _, fun _ _ => rfl⟩
  split at h
  · obtain ⟨hk, hd⟩ := getEach_kept h
    refine ⟨hk, fun _ hf => ?_⟩
    rw [hd hf, ← List.range_eq_range']
    rfl
  · obtain ⟨rfl, rfl⟩ := readBIO_ok h
    refine ⟨.refl _, fun hn _ => ?_⟩
    rw [wholeBlocks_of_lt hn]

theorem putN_ok {b : UInt64} {ds : List Sector} {u : Unit} (hsize : ds.length * 512 < 2 ^ 64)
    (h : (putN b ds).run s = .ok u t) :
    t = { s with bio := { s.bio with blocks := store s.bio.blocks b 0 ds } } := by
  unfold putN at h
  split at h
  · rename_i h0
    cases h
    rw [List.eq_nil_of_length_eq_zero h0]
    rfl
  have hall : ds.take (wholeBlocks ds.length) = ds := by
    rw [wholeBlocks_of_lt hsize, List.take_length]
  rw [hall] at h
  obtain ⟨bio, hm, rfl⟩ := onBio_ok.mp h
  unfold BlockIO.writeBlocks at hm
  rw [Prog.get_bind] at hm
  split at hm
  · rw [Prog.run_modify] at hm
    cases hm
    rfl
  · cases hm

/-! ## Sequences of calls -/

/-- Every call stores what it writes on the disk. -/
theorem stores_of_sized {c : Call UInt64 Sector UInt32} (hc : Sized c) :
    Stores efiBlkdev setFlags (fun s => s.bio.blocks) s c := by
  intro ds t h x
  cases c with
  | getN b n =>
    show t.bio.blocks x = _
    rw [(getN_kept h).1.bio]
    rfl
  | putN b ds =>
    obtain ⟨u, t', hp, he⟩ := Prog.bind_eq_ok.mp h
    cases he
    rw [putN_ok hc hp]
    show store s.bio.blocks b 0 ds x = _
    rw [store_eq]
    rfl
  | other c =>
    obtain ⟨u, t', hp, he⟩ := Prog.bind_eq_ok.mp h
    cases hp

theorem guarded_stores {calls : List (Call UInt64 Sector UInt32)} (hc : ∀ c ∈ calls, Sized c)
    (s : BlkdevImpl) : Guarded efiBlkdev setFlags
      (Stores efiBlkdev setFlags fun s => s.bio.blocks) calls s := by
  induction calls generalizing s with
  | nil => trivial
  | cons c cs ih =>
    exact ⟨stores_of_sized (hc c (List.mem_cons_self ..)),
      fun _ t _ => ih (fun d hd => hc d (List.mem_cons_of_mem _ hd)) t⟩

/-- A call keeps the window as large as it is and, where it is coherent, fresh. -/
theorem call_kept {c : Call UInt64 Sector UInt32} {ds : List Sector} (hc : Sized c)
    (h : (call efiBlkdev setFlags c).run s = .ok ds t) :
    (s.cache.length = cacheSize → t.cache.length = cacheSize) ∧
      (Coherent s c → Fresh s → Fresh t) := by
  cases c with
  | getN b n =>
    have hk := (getN_kept h).1
    exact ⟨hk.size, fun _ => hk.fresh⟩
  | putN b ds =>
    obtain ⟨u, t', hp, he⟩ := Prog.bind_eq_ok.mp h
    cases he
    rw [putN_ok hc hp]
    refine ⟨fun hs => hs, fun hcoh hf => ⟨hf.size, fun x hx => ?_⟩⟩
    show s.cache[s.index x]? = some (store s.bio.blocks b 0 ds x)
    rw [store_eq]
    cases hw : written b x 0 ds with
    | none => exact hf.same x hx
    | some d => exact hcoh x hx d hw
  | other c =>
    obtain ⟨u, t', hp, he⟩ := Prog.bind_eq_ok.mp h
    cases hp

theorem session_kept {calls : List (Call UInt64 Sector UInt32)} {u : Unit} :
    ∀ {s : BlkdevImpl}, (∀ c ∈ calls, Sized c) → (session efiBlkdev setFlags calls).run s = .ok u t →
      (s.cache.length = cacheSize → t.cache.length = cacheSize) ∧
        (Guarded efiBlkdev setFlags Coherent calls s → Fresh s → Fresh t) := by
  induction calls with
  | nil =>
    intro s _ h
    cases h
    exact ⟨fun h => h, fun _ h => h⟩
  | cons c cs ih =>
    intro s hc h
    obtain ⟨ds, s', h1, h2⟩ := Prog.bind_eq_ok.mp h
    obtain ⟨hs1, hf1⟩ := call_kept (hc c (List.mem_cons_self ..)) h1
    obtain ⟨hs2, hf2⟩ := ih (fun d hd => hc d (List.mem_cons_of_mem _ hd)) h2
    exact ⟨fun hs => hs2 (hs1 hs), fun hg hf => hf2 (hg.2 _ _ h1) (hf1 hg.1 hf)⟩

theorem fresh_new (bio : BlockIO) : Fresh ( blkdevFromBIO bio) :=
  ⟨List.length_replicate, fun _ h => nomatch h⟩

/-- A read of one block that is in the window. -/
theorem getN_hit {x : UInt64} {d : Sector} (hh : s.hit x = true)
    (hd : s.cache[s.index x]? = some d) : (getN x 1).run s = .ok [d] s := by
  have hx : nth x 0 = x := UInt64.add_zero x
  have hget : (get x).run s = .ok [d] s := by
    unfold get
    rw [Prog.get_bind, if_pos hh,
      Prog.bind_ok (Prog.read_ok (a := d) (by unfold Out.index; rw [hd]))]
    rfl
  unfold getN
  rw [if_neg (by decide), if_pos (by decide)]
  unfold getEach
  rw [hx, Prog.bind_ok hget]
  rfl

/-- A write that is not coherent is read back wrongly. -/
theorem coherent_of_reads {bio : BlockIO} {past : List (Call UInt64 Sector UInt32)}
    {c : Call UInt64 Sector UInt32} {ds : List Sector} (hsize : ∀ d ∈ past ++ [c], Sized d)
    (hs : (session efiBlkdev setFlags past).run ( blkdevFromBIO bio) = .ok () s)
    (hcall : (call efiBlkdev setFlags c).run s = .ok ds t)
    (hr : ReadsLastWritten bio (past ++ [c])) : Coherent s c := by
  cases c with
  | getN b n => trivial
  | other f => trivial
  | putN b es =>
    intro x hx d hd
    obtain ⟨u, t', hput, he⟩ := Prog.bind_eq_ok.mp hcall
    cases he
    have ht := putN_ok (hsize (.putN b es) (by simp)) hput
    have hlen : s.cache.length = cacheSize :=
      (session_kept (fun d hd => hsize d (List.mem_append_left _ hd)) hs).1 (fresh_new bio).size
    have hlt : s.index x < s.cache.length := by
      rw [hlen]
      exact index_lt hx
    have hone : (getN x 1).run t = .ok [s.cache[s.index x]] t := by
      refine getN_hit ?_ ?_
      · rw [ht]
        exact hx
      · rw [ht]
        exact List.getElem?_eq_getElem hlt
    have hsess : (session efiBlkdev setFlags (past ++ [.putN b es])).run ( blkdevFromBIO bio) =
        .ok () t := by
      refine session_append.mpr ⟨s, hs, ?_⟩
      simp only [session, Prog.bind_ok hcall, Prog.run_pure]
    have hread := hr _ (List.prefix_refl _) t x 1 _ t (by decide) hsess hone
    rw [List.getElem?_eq_getElem hlt]
    have hlast : lastWritten x (writes (past ++ [.putN b es])) = some d := by
      rw [writes_append, lastWritten_append]
      show ((Option.none.or (written b x 0 es)).or _) = some d
      rw [hd]
      rfl
    have hx0 : nth x 0 = x := UInt64.add_zero x
    rw [List.range_one, List.map_singleton, hx0, hlast, Option.getD_some] at hread
    exact congrArg some (List.head_eq_of_cons_eq hread)

/-- Reads deliver what was last written exactly where no write changes a block that the window
holds. -/
theorem window_reads_last_written_iff {bio : BlockIO} {calls : List (Call UInt64 Sector UInt32)}
    (hsize : ∀ c ∈ calls, Sized c)
    (h : (session efiBlkdev setFlags calls).run ( blkdevFromBIO bio) = .ok () t) :
    ReadsLastWritten bio calls ↔
      Guarded efiBlkdev setFlags Coherent calls ( blkdevFromBIO bio) := by
  constructor
  · have key : ∀ (calls past : List (Call UInt64 Sector UInt32)) (s : BlkdevImpl),
        (∀ c ∈ past ++ calls, Sized c) →
        (session efiBlkdev setFlags past).run ( blkdevFromBIO bio) = .ok () s →
        (session efiBlkdev setFlags calls).run s = .ok () t →
        ReadsLastWritten bio (past ++ calls) →
        Guarded efiBlkdev setFlags Coherent calls s := by
      intro calls
      induction calls with
      | nil => intros; trivial
      | cons c calls ih =>
        intro past s hc hs ht hr
        obtain ⟨ds, s', hcall, hrest⟩ := Prog.bind_eq_ok.mp ht
        have hpre : past ++ [c] <+: past ++ c :: calls := ⟨calls, by simp⟩
        refine ⟨coherent_of_reads (fun d hd => hc d (hpre.mem hd)) hs hcall
          fun p hp => hr p (hp.trans hpre), fun es u hu => ?_⟩
        rw [hcall] at hu
        cases hu
        refine ih (past ++ [c]) _ ?_ (session_append.mpr ⟨s, hs, ?_⟩) hrest ?_
        · rwa [List.append_assoc]
        · simp only [session, Prog.bind_ok hcall, Prog.run_pure]
        · rwa [List.append_assoc]
    exact fun hr => key calls [] _ hsize rfl h hr
  · intro hg past hp s b n ds t' hn hs hread
    obtain ⟨post, rfl⟩ := hp
    have hpast : ∀ c ∈ past, Sized c := fun c hc => hsize c (List.mem_append_left _ hc)
    have hfresh : Fresh s := (session_kept hpast hs).2 ( guarded_prefix hg) (fresh_new bio)
    have hst := session_ok (guarded_stores hpast ( blkdevFromBIO bio)) hs
    rw [(getN_kept hread).2 hn hfresh]
    exact List.map_congr_left fun k _ => hst _

/-- A disk of 100 blocks of zeros. -/
def zeroDisk : BlockIO := ⟨99, fun _ => Sector.fill 0⟩

/-- A block is read and then written. -/
def staleCalls : List (Call UInt64 Sector UInt32) := [.getN 0 1, .putN 0 [Sector.fill 1]]

theorem staleCalls_sized : ∀ c ∈ staleCalls, Sized c := by
  intro c hc
  simp only [staleCalls, List.mem_cons, List.not_mem_nil, or_false] at hc
  rcases hc with rfl | rfl
  · show 1 * 512 < 2 ^ 64
    decide
  · show 1 * 512 < 2 ^ 64
    decide

/-- What `staleCalls` lead to: the window was read before the write. -/
def staleState : BlkdevImpl :=
  { ( blkdevFromBIO zeroDisk).ahead 0 with
    bio := { zeroDisk with blocks := store zeroDisk.blocks 0 0 [Sector.fill 1] } }

theorem staleCalls_run :
    (session efiBlkdev setFlags staleCalls).run ( blkdevFromBIO zeroDisk) = .ok () staleState := by
  have hget : (call efiBlkdev setFlags (.getN 0 1)).run ( blkdevFromBIO zeroDisk) =
      .ok [Sector.fill 0] (( blkdevFromBIO zeroDisk).ahead 0) := rfl
  have hput : (putN 0 [Sector.fill 1]).run (( blkdevFromBIO zeroDisk).ahead 0) =
      .ok () staleState := by
    unfold putN
    rw [if_neg (by decide), wholeBlocks_of_lt (by decide)]
    rfl
  have hcall : (call efiBlkdev setFlags (.putN 0 [Sector.fill 1])).run
      (( blkdevFromBIO zeroDisk).ahead 0) = .ok [] staleState := Prog.bind_ok hput _
  unfold staleCalls session
  rw [Prog.bind_ok hget]
  unfold session
  rw [Prog.bind_ok hcall]
  rfl

theorem window_reads_last_written_iff_stale : ReadsLastWritten zeroDisk staleCalls ↔
    Guarded efiBlkdev setFlags Coherent staleCalls ( blkdevFromBIO zeroDisk) :=
  window_reads_last_written_iff staleCalls_sized staleCalls_run

/-- The write is not read back. -/
theorem stale_window : ¬ ∀ bio calls t, (∀ c ∈ calls, Sized c) →
    (session efiBlkdev setFlags calls).run ( blkdevFromBIO bio) = .ok () t →
    ReadsLastWritten bio calls := by
  intro h
  have hread := h zeroDisk staleCalls staleState staleCalls_sized staleCalls_run staleCalls
    (List.prefix_refl _) staleState 0 1 [Sector.fill 0] staleState (by decide) staleCalls_run
    (getN_hit rfl rfl)
  have hlast : lastWritten (nth 0 0) (writes staleCalls) = some (Sector.fill 1) := rfl
  rw [List.range_one, List.map_singleton, hlast, Option.getD_some] at hread
  exact fill_ne (by decide) (List.head_eq_of_cons_eq hread)

end LsvmTools.EfiBlkdev
