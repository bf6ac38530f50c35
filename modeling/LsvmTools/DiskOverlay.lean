import LsvmTools.DiskBio

/-! # The disk as the hooks show it

With the hooks on, the blocks of the regions hide those of the disk. A request is split
once, where the region of its first block ends; what is left goes to the disk. So it is
served right if no region begins inside it. -/
namespace LsvmTools.DiskOverlay
open Lib.ByteString Lib.Program Lib.Sectors Blkdev DiskBio

variable {σ ρ : Type} {disk : Bio σ} {bio : Bio ρ} {dc : σ → Nat → Sector} {rc : ρ → Nat → Sector}

instance : Addr Nat := ⟨fun b k => b + k⟩

theorem nth_nat (b k : Nat) : Addr.nth b k = b + k := rfl

/-! ## What the devices hold -/

/-- Requests of whole blocks that succeed read and write the array that the state is. -/
structure Faithful (bio : Bio σ) (content : σ → Nat → Sector) : Prop where
  read_ok : ∀ {s t b n d}, (bio.readBlocks b (512 * n)).run s = .ok d t →
    d = concat (load (content s) b n) ∧ content t = content s
  write_ok : ∀ {s t b ds u}, (bio.writeBlocks b (concat ds)).run s = .ok u t →
    content t = store (content s) b 0 ds

/-- Every read succeeds. -/
def Reliable (bio : Bio σ) : Prop := ∀ s b size, ∃ d t, (bio.readBlocks b size).run s = .ok d t


/-- What a block of a region holds, counted from its first one. -/
def content (rc : ρ → Nat → Sector) (reg : Region ρ) (localLBA : Nat) : Sector :=
  match reg.backing with
  | .bio s => rc s localLBA
  | .blocks data => if localLBA < reg.numBlocks then data localLBA else Sector.fill 0

/-- What a block of the disk holds with the regions laid over it. -/
def overlay (dc : σ → Nat → Sector) (rc : ρ → Nat → Sector) (w : World σ ρ) (b : Nat) : Sector :=
  match w.regions.find? fun reg => reg.has b with
  | some reg => content rc reg (b - reg.firstLBA)
  | none => dc w.disk b

/-! ## The loop over a region -/

/-- How many of `n` blocks from the `i`-th on the loop handles: the last block number is
followed by 0, so a region that ends there is never left. -/
def span (last i n : Nat) : Nat := if last + 1 = 2 ^ 64 then n else min n (last + 1 - i)

theorem span_le (last i n : Nat) : span last i n ≤ n := by
  unfold span
  split <;> omega

theorem lt_span {last i n k : Nat} (hk : k < n) (hb : i + k < 2 ^ 64) :
    k < span last i n ↔ i + k ≤ last := by
  unfold span
  split <;> omega

theorem span_of_lt {last i n : Nat} (h : span last i n < n) :
    last + 1 ≠ 2 ^ 64 ∧ span last i n = last + 1 - i := by
  unfold span at h ⊢
  split at h
  · omega
  · rename_i hne
    rw [if_neg hne]
    omega

/-- Another round of the loop. -/
theorem span_succ {last i n : Nat} (hi : i ≤ last) (hlast : last < 2 ^ 64) :
    span last i (n + 1) = span last (u64 (i + 1)) n + 1 := by
  unfold span u64
  split
  · rfl
  · rw [Nat.mod_eq_of_lt (by omega)]
    omega

theorem local_eq {i first : Nat} (h : first ≤ i) (hi : i < 2 ^ 64) :
    u64 (i + 2 ^ 64 - first) = i - first := by
  unfold u64
  omega

theorem readBlock_ok (hb : Faithful bio rc) {reg reg' : Region ρ} {k : Nat} {d : Bytes}
    (h : (readBlock bio k).run reg = .ok d reg') :
    d = (content rc reg k).bytes ∧ reg'.toSlot = reg.toSlot ∧ content rc reg' = content rc reg := by
  unfold readBlock at h
  rw [Prog.get_bind] at h
  cases hback : reg.backing with
  | blocks data =>
    rw [hback] at h
    cases h
    refine ⟨?_, rfl, rfl⟩
    unfold content
    rw [hback]
    split <;> rfl
  | bio s =>
    rw [hback] at h
    obtain ⟨t, ht, rfl⟩ := onBio_ok.mp (orUnsupported_ok.mp h)
    obtain ⟨rfl, hsame⟩ := hb.read_ok (n := 1) ht
    refine ⟨?_, rfl, ?_⟩
    · unfold content
      rw [hback]
      exact concat_one _
    · funext x
      unfold content
      rw [hback]
      exact congrFun hsame x

theorem sector_ext {d e : Sector} (h : d.bytes = e.bytes) : d = e := by
  cases d
  cases e
  cases h
  rfl

theorem bytes_take (d : Sector) : d.bytes.take 512 = d.bytes := by
  rw [List.take_of_length_le d.size.le]

theorem drop_block (d : Sector) (b : Bytes) (k : Nat) :
    (d.bytes ++ b).drop (512 * (k + 1)) = b.drop (512 * k) := by
  have h : 512 * (k + 1) = d.bytes.length + 512 * k := by rw [d.size]; omega
  rw [h, List.drop_length_add_append]

/-- A successful read of a region delivers its blocks up to its end. -/
theorem readRegion_ok (hb : Faithful bio rc) {fuel i n : Nat} {reg reg' : Region ρ}
    {r : Bytes × Nat × Nat} (hlast : reg.lastLBA < 2 ^ 64) (hi : i ≤ reg.lastLBA + 1)
    (hi64 : i < 2 ^ 64) (h : (readRegion bio fuel i (512 * n)).run reg = .ok r reg') :
    r.2.2 = 512 * (n - span reg.lastLBA i n) ∧
      (span reg.lastLBA i n < n → r.2.1 = reg.lastLBA + 1) ∧
      r.1.length = 512 * span reg.lastLBA i n ∧
      (∀ k, k < span reg.lastLBA i n → reg.firstLBA ≤ i → i + k ≤ reg.lastLBA →
        (r.1.drop (512 * k)).take 512 = (content rc reg (i + k - reg.firstLBA)).bytes) ∧
      reg'.toSlot = reg.toSlot ∧ content rc reg' = content rc reg := by
  induction fuel generalizing i n reg r with
  | zero => cases h
  | succ fuel ih =>
    unfold readRegion at h
    rw [Prog.get_bind] at h
    by_cases hgo : i ≤ reg.lastLBA ∧ 0 < 512 * n
    · rw [if_pos hgo] at h
      obtain ⟨n, rfl⟩ : ∃ m, n = m + 1 := ⟨n - 1, by omega⟩
      obtain ⟨d, reg1, hd, h⟩ := Prog.bind_eq_ok.mp h
      obtain ⟨rest, reg2, hrest, h⟩ := Prog.bind_eq_ok.mp h
      rw [Prog.run_pure, Res.ok.injEq] at h
      obtain ⟨rfl, rfl⟩ := h
      obtain ⟨rfl, hslot, hsame⟩ := readBlock_ok hb hd
      have hmin : min 512 (512 * (n + 1)) = 512 := by omega
      have hrem : 512 * (n + 1) - 512 = 512 * n := by omega
      rw [hmin, hrem] at hrest
      rw [← hslot] at hlast hgo
      have hnext : u64 (i + 1) ≤ reg1.lastLBA + 1 := by unfold u64; omega
      have hspan := span_succ (n := n) hgo.1 hlast
      obtain ⟨h1, h2, h3, h4, h5, h6⟩ := ih hlast hnext (by unfold u64; omega) hrest
      rw [hslot] at h1 h2 h3 h4 h5 hspan hgo hlast
      rw [hsame] at h4 h6
      rw [hmin, bytes_take, hspan]
      refine ⟨by rw [h1]; omega, fun hlt => h2 (by omega), ?_, ?_, h5, h6⟩
      · rw [List.length_append, Sector.size, h3]
        omega
      · intro k hk hfirst hle
        cases k with
        | zero =>
          rw [Nat.mul_zero, List.drop_zero, List.take_append_of_le_length (Sector.size _).ge,
            bytes_take, local_eq hfirst (by omega), Nat.add_zero]
        | succ k =>
          have hsucc : u64 (i + 1) = i + 1 := by unfold u64; omega
          have hadd : i + 1 + k = i + (k + 1) := by omega
          rw [drop_block, h4 k (by omega) (by omega) (by omega), hsucc, hadd]
    · rw [if_neg hgo] at h
      cases h
      have h0 : span reg'.lastLBA i n = 0 := by
        have := span_le reg'.lastLBA i n
        by_cases hn : n = 0
        · omega
        · unfold span
          rw [if_neg (by omega)]
          omega
      rw [h0]
      refine ⟨rfl, fun hlt => ?_, rfl, fun k hk => absurd hk (Nat.not_lt_zero k), rfl, rfl⟩
      show i = _
      omega

/-! ## Tables of regions -/

/-- Regions that do not overlap, which end at a block number. -/
structure Layout where
  slots : List Slot
  last_lt : ∀ slot ∈ slots, slot.lastLBA < 2 ^ 64
  apart : slots.Pairwise fun a b => ∀ lba, a.has lba = true → b.has lba = false

/-- The table has this layout. -/
def Laid (regions : List (Region ρ)) (layout : Layout) : Prop :=
  regions.map (·.toSlot) = layout.slots

variable {layout : Layout} {regions : List (Region ρ)} {reg reg' : Region ρ} {k b : Nat}

theorem Laid.apart (h : Laid regions layout) :
    regions.Pairwise fun a b => ∀ lba, a.has lba = true → b.has lba = false := by
  have hp := layout.apart
  rwa [← h, List.pairwise_map] at hp

theorem Laid.last_lt (h : Laid regions layout) (hreg : reg ∈ regions) : reg.lastLBA < 2 ^ 64 :=
  layout.last_lt _ (h ▸ List.mem_map_of_mem hreg)

theorem Laid.set (h : Laid regions layout) (hk : regions[k]? = some reg)
    (hslot : reg'.toSlot = reg.toSlot) : Laid (regions.set k reg') layout := by
  unfold Laid
  rw [List.map_set, hslot, ← h]
  refine List.ext_getElem? fun i => ?_
  rw [List.getElem?_set]
  split
  · rename_i hi
    subst hi
    rw [List.getElem?_map, hk]
    have hlt := (List.getElem?_eq_some_iff.mp hk).1
    rw [List.length_map, if_pos hlt]
    rfl
  · rfl

/-- At most one region has a block. -/
theorem Laid.unique (h : Laid regions layout) (hk : regions[k]? = some reg)
    (hb : reg.has b = true) : regions.find? (fun reg => reg.has b) = some reg := by
  have hp := h.apart
  clear h
  induction regions generalizing k with
  | nil => cases hk
  | cons r rs ih =>
    obtain ⟨hr, hrs⟩ := List.pairwise_cons.mp hp
    cases k with
    | zero =>
      cases hk
      exact List.find?_cons_of_pos hb
    | succ k =>
      have hno : ¬ r.has b = true := by
        intro hrb
        have := hr reg (List.mem_of_getElem? hk) b hrb
        rw [hb] at this
        cases this
      rw [List.find?_cons, Bool.eq_false_iff.mpr hno]
      exact ih hk hrs

theorem find_set {p : Region ρ → Bool} (hk : regions[k]? = some reg) (hreg : p reg = false)
    (hreg' : p reg' = false) : (regions.set k reg').find? p = regions.find? p := by
  induction regions generalizing k with
  | nil => rfl
  | cons r rs ih =>
    cases k with
    | zero =>
      cases hk
      rw [List.set_cons_zero, List.find?_cons_of_neg (by simp [hreg']),
        List.find?_cons_of_neg (by simp [hreg])]
    | succ k =>
      rw [List.set_cons_succ, List.find?_cons, List.find?_cons, ih hk]

theorem findRegion_some (h : findRegion regions b = some k) :
    ∃ reg, regions[k]? = some reg ∧ reg.has b = true := by
  obtain ⟨hlt, hb, -⟩ := List.findIdx?_eq_some_iff_getElem.mp h
  exact ⟨regions[k], List.getElem?_eq_getElem hlt, hb⟩

theorem findRegion_none (h : findRegion regions b = none) (hreg : reg ∈ regions) :
    reg.has b = false := List.findIdx?_eq_none_iff.mp h reg hreg

theorem has_iff {slot : Slot} : slot.has b = true ↔ slot.firstLBA ≤ b ∧ b ≤ slot.lastLBA := by
  simp [Slot.has]

variable {w w' : World σ ρ}

theorem overlay_in (hl : Laid w.regions layout) (hk : w.regions[k]? = some reg)
    (hb : reg.has b = true) : overlay dc rc w b = content rc reg (b - reg.firstLBA) := by
  unfold overlay
  rw [hl.unique hk hb]

theorem overlay_out (h : ∀ reg ∈ w.regions, reg.has b = false) :
    overlay dc rc w b = dc w.disk b := by
  unfold overlay
  rw [List.find?_eq_none.mpr (by simpa using h)]

/-- What a change of one region changes of the disk. -/
theorem overlay_set (hl : Laid w.regions layout) (hk : w.regions[k]? = some reg)
    (hslot : reg'.toSlot = reg.toSlot) (b : Nat) :
    overlay dc rc { w with regions := w.regions.set k reg' } b =
      if reg.has b then content rc reg' (b - reg.firstLBA) else overlay dc rc w b := by
  have hk' : (w.regions.set k reg')[k]? = some reg' := by
    rw [List.getElem?_set_self (List.getElem?_eq_some_iff.mp hk).1]
  by_cases hb : reg.has b = true
  · rw [if_pos hb, ← hslot]
    exact overlay_in (w := { w with regions := w.regions.set k reg' }) (hl.set hk hslot) hk'
      (by rw [hslot]; exact hb)
  · rw [if_neg hb]
    unfold overlay
    rw [find_set hk (by simpa using hb) (by rw [hslot]; simpa using hb)]

/-! ## Reading through the hooks -/

/-- How many blocks of a request the region of its first block serves. -/
def served (regions : List (Region ρ)) (lba n : Nat) : Nat :=
  match regions.find? fun reg => reg.has lba with
  | some reg => span reg.lastLBA lba n
  | none => 0

def slice (d : Bytes) (k : Nat) : Bytes := (d.drop (512 * k)).take 512

theorem slice_append_left {d e : Bytes} {k n : Nat} (hd : d.length = 512 * n) (hk : k < n) :
    slice (d ++ e) k = slice d k := by
  unfold slice
  rw [List.drop_append_of_le_length (by omega), List.take_append_of_le_length (by simp; omega)]

theorem slice_append_right {d e : Bytes} {k n : Nat} (hd : d.length = 512 * n) (hk : n ≤ k) :
    slice (d ++ e) k = slice e (k - n) := by
  have h : 512 * k = d.length + 512 * (k - n) := by omega
  unfold slice
  rw [h, List.drop_length_add_append]

theorem slice_concat {ds : List Sector} {k : Nat} (hk : k < ds.length) :
    slice (concat ds) k = ds[k].bytes := by
  induction ds generalizing k with
  | nil => simp at hk
  | cons d ds ih =>
    unfold slice at ih ⊢
    rw [concat, List.flatMap_cons]
    cases k with
    | zero =>
      rw [Nat.mul_zero, List.drop_zero, List.take_append_of_le_length d.size.ge, bytes_take]
      rfl
    | succ k =>
      rw [drop_block]
      exact ih (Nat.lt_of_succ_lt_succ hk)

theorem slice_load {a : Nat → Sector} {b n k : Nat} (hk : k < n) :
    slice (concat (load a b n)) k = (a (b + k)).bytes := by
  rw [slice_concat (by rw [length_load]; exact hk)]
  simp [load, nth_nat]

/-- The region of the first block serves the blocks up to its end, and the disk the rest. -/
theorem readBlocksHook_ok (hd : Faithful disk dc) (hb : Faithful bio rc)
    (hon : w.enableIOHooks = true) (hl : Laid w.regions layout) {lba n : Nat} {d : Bytes}
    (hlba : lba < 2 ^ 64) (h : (readBlocksHook disk bio lba (512 * n)).run w = .ok d w') :
    d.length = 512 * n ∧
      (∀ k, k < n → lba + k < 2 ^ 64 → slice d k =
        if k < served w.regions lba n then (overlay dc rc w (lba + k)).bytes
        else (dc w.disk (lba + k)).bytes) ∧
      w'.enableIOHooks = true ∧ Laid w'.regions layout ∧
      overlay dc rc w' = overlay dc rc w ∧ dc w'.disk = dc w.disk := by
  unfold readBlocksHook at h
  rw [Prog.get_bind, hon, Bool.not_true, if_neg (by decide)] at h
  obtain ⟨t, hrun, rfl⟩ := withoutHooks_ok.mp h
  obtain ⟨front, u, hfront, hrest⟩ := Prog.bind_eq_ok.mp hrun
  unfold readFront at hfront
  have hback : ∀ {m}, m ≤ n → front.2.2 = 512 * (n - m) → front.1.length = 512 * m →
      (m < n → front.2.1 = lba + m) → dc u.disk = dc w.disk →
      d.length = 512 * n ∧ (∀ k, k < m → slice d k = slice front.1 k) ∧
        (∀ k, m ≤ k → k < n → slice d k = (dc w.disk (lba + k)).bytes) ∧
        t.regions = u.regions ∧ dc t.disk = dc u.disk := by
    intro m hm hrem hlen hnext hdisk
    by_cases h0 : front.2.2 = 0
    · rw [if_pos h0] at hrest
      cases hrest
      have hmn : m = n := by omega
      subst hmn
      exact ⟨hlen, fun _ _ => rfl, fun k h1 h2 => absurd h2 (by omega), rfl, rfl⟩
    · rw [if_neg h0] at hrest
      obtain ⟨e, v, he, hpure⟩ := Prog.bind_eq_ok.mp hrest
      cases hpure
      obtain ⟨s, hs, rfl⟩ := onDisk_ok.mp (orUnsupported_ok.mp he)
      rw [hrem] at hs
      obtain ⟨rfl, hsame⟩ := hd.read_ok hs
      have hlenr : (concat (load (dc u.disk) front.2.1 (n - m))).length = 512 * (n - m) := by
        rw [length_concat, length_load, Nat.mul_comm]
      refine ⟨by rw [List.length_append, hlen, hlenr]; omega,
        fun k hk => slice_append_left hlen hk, fun k h1 h2 => ?_, rfl, hsame⟩
      rw [slice_append_right hlen h1, slice_load (by omega), hnext (by omega), hdisk]
      congr 2
      omega
  cases hfind : findRegion w.regions lba with
  | none =>
    rw [hfind] at hfront
    cases hfront
    have hserved : served w.regions lba n = 0 := by
      unfold served
      rw [List.find?_eq_none.mpr (by simpa using fun reg hreg => findRegion_none hfind hreg)]
    obtain ⟨h1, -, h3, h4, h5⟩ := hback (m := 0) (Nat.zero_le _) rfl rfl (fun _ => rfl) rfl
    refine ⟨h1, fun k hk _ => ?_, hon, h4 ▸ hl, ?_, h5⟩
    · rw [hserved, if_neg (Nat.not_lt_zero k)]
      exact h3 k (Nat.zero_le k) hk
    · funext x
      unfold overlay
      rw [h4, h5]
  | some j =>
    rw [hfind] at hfront
    obtain ⟨reg, hreg, hhas⟩ := findRegion_some hfind
    obtain ⟨reg', hloop, rfl⟩ :=
      (onRegion_ok (w := { w with enableIOHooks := false }) hreg).mp hfront
    have hbounds := has_iff.mp hhas
    have hlast := hl.last_lt (List.mem_of_getElem? hreg)
    obtain ⟨r1, r2, r3, r4, r5, r6⟩ := readRegion_ok hb hlast (by omega) hlba hloop
    have hserved : served w.regions lba n = span reg.lastLBA lba n := by
      unfold served
      rw [hl.unique hreg hhas]
    have hnext : span reg.lastLBA lba n < n → front.2.1 = lba + span reg.lastLBA lba n := by
      intro hlt
      rw [r2 hlt, (span_of_lt hlt).2]
      omega
    obtain ⟨h1, h2, h3, h4, h5⟩ := hback (span_le _ _ _) r1 r3 hnext rfl
    rw [hserved]
    refine ⟨h1, fun k hk hlt => ?_, hon, ?_, ?_, h5⟩
    · by_cases hks : k < span reg.lastLBA lba n
      · have hle := (lt_span hk hlt).mp hks
        rw [if_pos hks, h2 k hks, overlay_in hl hreg (has_iff.mpr ⟨by omega, hle⟩)]
        exact r4 k hks hbounds.1 hle
      · rw [if_neg hks]
        exact h3 k (by omega) hk
    · show Laid t.regions layout
      rw [h4]
      exact hl.set hreg r5
    · funext x
      have hset : overlay dc rc { w with regions := w.regions.set j reg' } x =
          if reg.has x then content rc reg' (x - reg.firstLBA) else overlay dc rc w x :=
        overlay_set hl hreg r5 x
      have ht : overlay dc rc { t with enableIOHooks := w.enableIOHooks } x =
          overlay dc rc { w with regions := w.regions.set j reg' } x := by
        unfold overlay
        rw [h4, h5]
      rw [ht, hset, r6]
      by_cases hx : reg.has x = true
      · rw [if_pos hx, overlay_in hl hreg hx]
      · rw [if_neg hx]

/-- The blocks that the region of the first block serves are the ones it has. -/
theorem lt_served (hl : Laid regions layout) {lba n : Nat} (hk : k < n) (hlt : lba + k < 2 ^ 64) :
    k < served regions lba n ↔ ∃ reg ∈ regions, reg.has lba = true ∧ reg.has (lba + k) = true := by
  unfold served
  cases hfind : regions.find? fun reg => reg.has lba with
  | none =>
    have hnone := List.find?_eq_none.mp hfind
    refine ⟨fun h => absurd h (Nat.not_lt_zero k), ?_⟩
    rintro ⟨reg, hreg, hhas, -⟩
    exact absurd hhas (hnone reg hreg)
  | some reg =>
    have hhas : reg.has lba = true :=
      List.find?_some (p := fun reg : Region ρ => reg.has lba) hfind
    have hbounds := has_iff.mp hhas
    show k < span reg.lastLBA lba n ↔ _
    rw [lt_span hk hlt]
    constructor
    · intro hle
      exact ⟨reg, List.mem_of_find?_eq_some hfind, hhas, has_iff.mpr ⟨by omega, hle⟩⟩
    · rintro ⟨r, hr, hrlba, hrk⟩
      obtain ⟨j, hj⟩ := List.getElem?_of_mem hr
      have hsame := hl.unique hj hrlba
      rw [hfind] at hsame
      cases hsame
      exact (has_iff.mp hrk).2

theorem readBlock_runs (hb : Reliable bio) (reg : Region ρ) (k : Nat) :
    ∃ d reg', (readBlock bio k).run reg = .ok d reg' := by
  unfold readBlock
  rw [Prog.get_bind]
  cases reg.backing with
  | blocks data => exact ⟨_, _, rfl⟩
  | bio s =>
    obtain ⟨d, t, h⟩ := hb s k 512
    exact ⟨d, _, orUnsupported_ok.mpr (onBio_ok.mpr ⟨t, h, rfl⟩)⟩

theorem readRegion_runs (hb : Reliable bio) {fuel rem : Nat} (hfuel : rem < fuel) (i : Nat)
    (reg : Region ρ) : ∃ r reg', (readRegion bio fuel i rem).run reg = .ok r reg' := by
  induction fuel generalizing i rem reg with
  | zero => omega
  | succ fuel ih =>
    unfold readRegion
    rw [Prog.get_bind]
    by_cases hgo : i ≤ reg.lastLBA ∧ 0 < rem
    · obtain ⟨d, reg1, hd⟩ := readBlock_runs hb reg (u64 (i + 2 ^ 64 - reg.firstLBA))
      have hless : rem - min 512 rem < fuel := by omega
      obtain ⟨r, reg2, hr⟩ := ih hless (u64 (i + 1)) reg1
      rw [if_pos hgo, Prog.bind_ok hd, Prog.bind_ok hr]
      exact ⟨_, _, rfl⟩
    · rw [if_neg hgo]
      exact ⟨_, _, rfl⟩

/-- A read through the hooks fails only where a read of a device fails. -/
theorem readBlocksHook_runs (hd : Reliable disk) (hb : Reliable bio) (hon : w.enableIOHooks = true)
    (lba size : Nat) : ∃ d w', (readBlocksHook disk bio lba size).run w = .ok d w' := by
  have hfront : ∃ r u, (readFront bio w.regions lba size).run
      { w with enableIOHooks := false } = .ok r u := by
    unfold readFront
    cases hfind : findRegion w.regions lba with
    | none => exact ⟨_, _, rfl⟩
    | some j =>
      obtain ⟨reg, hreg, -⟩ := findRegion_some hfind
      obtain ⟨r, reg', hr⟩ := readRegion_runs hb (Nat.lt_succ_self size) lba reg
      exact ⟨r, _, (onRegion_ok (w := { w with enableIOHooks := false }) hreg).mpr ⟨reg', hr, rfl⟩⟩
  obtain ⟨r, u, hr⟩ := hfront
  unfold readBlocksHook
  rw [Prog.get_bind, hon, Bool.not_true, if_neg (by decide)]
  have hrest : ∃ d t, (if r.2.2 = 0 then (pure r.1 : Prog (World σ ρ) EfiStatus Bytes) else do
      let back ← orUnsupported (onDisk (disk.readBlocks r.2.1 r.2.2))
      pure (r.1 ++ back)).run u = .ok d t := by
    by_cases h0 : r.2.2 = 0
    · rw [if_pos h0]
      exact ⟨_, _, rfl⟩
    · obtain ⟨e, s, he⟩ := hd u.disk r.2.1 r.2.2
      rw [if_neg h0, Prog.bind_ok (orUnsupported_ok.mpr (onDisk_ok.mpr ⟨s, he, rfl⟩))]
      exact ⟨_, _, rfl⟩
  obtain ⟨d, t, ht⟩ := hrest
  exact ⟨d, _, withoutHooks_ok.mpr ⟨t, by rw [Prog.bind_ok hr, ht], rfl⟩⟩

/-! ## Requests that no region cuts -/

/-- Every region that has a block of the request has its first block. -/
def Clear (slots : List Slot) (lba n : Nat) : Prop :=
  ∀ k, k < n → lba + k < 2 ^ 64 → ∀ slot ∈ slots, slot.has (lba + k) = true → slot.has lba = true

/-- Whatever the disk and the regions hold, a read of the request delivers what the disk
with the regions laid over it holds. -/
def ReadsOverlay (layout : Layout) (lba n : Nat) : Prop :=
  ∀ {σ ρ : Type} {disk : Bio σ} {bio : Bio ρ} {dc : σ → Nat → Sector} {rc : ρ → Nat → Sector}
    (w : World σ ρ), Faithful disk dc → Faithful bio rc → w.enableIOHooks = true →
    Laid w.regions layout →
    (Reliable disk → Reliable bio →
      ∃ d w', (readBlocksHook disk bio lba (512 * n)).run w = .ok d w') ∧
    ∀ d w', (readBlocksHook disk bio lba (512 * n)).run w = .ok d w' → d.length = 512 * n ∧
      ∀ k, k < n → lba + k < 2 ^ 64 → slice d k = (overlay dc rc w (lba + k)).bytes

/-- A device that is an array of blocks. -/
def arrayBio : Bio (Nat → Sector) where
  readBlocks b size := do
    let a ← Prog.get
    pure ((concat (load a b ((size + 511) / 512))).take size)
  writeBlocks b buffer :=
    Prog.modify fun a => store a b 0 (split buffer ((buffer.length + 511) / 512))

theorem arrayBio_faithful : Faithful arrayBio id where
  read_ok := by
    intro s t b n d h
    cases h
    have hn : (512 * n + 511) / 512 = n := by omega
    refine ⟨?_, rfl⟩
    rw [hn]
    exact List.take_of_length_le (by rw [length_concat, length_load]; omega)
  write_ok := by
    intro s t b ds u h
    cases h
    have hn : ((concat ds).length + 511) / 512 = ds.length := by rw [length_concat]; omega
    rw [hn, split_concat]
    rfl

theorem arrayBio_reliable : Reliable arrayBio := fun _ _ _ => ⟨_, _, rfl⟩

theorem arrayBio_accepting (s : Nat → Sector) (b : Nat) (buffer : Bytes) :
    ∃ t, (arrayBio.writeBlocks b buffer).run s = .ok () t := ⟨_, rfl⟩

/-- Regions of zeros on a disk of ones. -/
def zeroRegions (layout : Layout) : World (Nat → Sector) (Nat → Sector) where
  enableIOHooks := true
  disk := fun _ => Sector.fill 1
  regions := layout.slots.map fun slot => ⟨slot, .blocks fun _ => Sector.fill 0⟩
  requests := []

theorem zeroRegions_laid (layout : Layout) : Laid (zeroRegions layout).regions layout := by
  unfold Laid zeroRegions
  rw [List.map_map]
  exact List.map_id' _

theorem overlay_zeroRegions {slot : Slot} (hslot : slot ∈ layout.slots) (hb : slot.has b = true) :
    overlay id id (zeroRegions layout) b = Sector.fill 0 := by
  have hmem : (⟨slot, .blocks fun _ => Sector.fill 0⟩ : Region (Nat → Sector)) ∈
      (zeroRegions layout).regions := List.mem_map_of_mem hslot
  obtain ⟨j, hj⟩ := List.getElem?_of_mem hmem
  rw [overlay_in (zeroRegions_laid layout) hj hb]
  exact ite_self _

theorem readsOverlay_iff {lba n : Nat} (hlba : lba < 2 ^ 64) :
    ReadsOverlay layout lba n ↔ Clear layout.slots lba n := by
  constructor
  · intro h k hk hlt slot hslot hhas
    by_contra hno
    have hl := zeroRegions_laid layout
    obtain ⟨hruns, hexact⟩ := h (zeroRegions layout) arrayBio_faithful arrayBio_faithful rfl hl
    obtain ⟨d, w', hrun⟩ := hruns arrayBio_reliable arrayBio_reliable
    have hread := (readBlocksHook_ok arrayBio_faithful arrayBio_faithful rfl hl hlba hrun).2.1 k
      hk hlt
    have hdisk : ¬ k < served (zeroRegions layout).regions lba n := by
      rw [lt_served hl hk hlt]
      rintro ⟨reg, hreg, h1, h2⟩
      have hsome := (hl.unique (List.getElem?_of_mem hreg).choose_spec h2).symm.trans
        (hl.unique (List.getElem?_of_mem (List.mem_map_of_mem hslot)).choose_spec hhas)
      rw [Option.some.inj hsome] at h1
      exact hno h1
    rw [if_neg hdisk, (hexact d w' hrun).2 k hk hlt, overlay_zeroRegions hslot hhas] at hread
    exact fill_ne (by decide) (sector_ext hread)
  · intro hclear σ ρ disk bio dc rc w hd hb hon hl
    refine ⟨fun hrd hrb => readBlocksHook_runs hrd hrb hon lba _, fun d w' hrun => ?_⟩
    obtain ⟨hlen, hslice, -⟩ := readBlocksHook_ok hd hb hon hl hlba hrun
    refine ⟨hlen, fun k hk hlt => ?_⟩
    rw [hslice k hk hlt]
    by_cases hks : k < served w.regions lba n
    · rw [if_pos hks]
    · rw [if_neg hks, overlay_out]
      intro reg hreg
      by_contra hhas
      rw [Bool.not_eq_false] at hhas
      refine hks ((lt_served hl hk hlt).mpr ⟨reg, hreg, ?_, hhas⟩)
      exact hclear k hk hlt reg.toSlot (hl ▸ List.mem_map_of_mem hreg) hhas

/-! ## Writing through the hooks -/

theorem store_nat (a : Nat → Sector) (b k : Nat) (ds : List Sector) (x : Nat) :
    store a b k ds x = if b + k ≤ x then (ds[x - (b + k)]?).getD (a x) else a x := by
  induction ds generalizing a k with
  | nil => simp [store]
  | cons d ds ih =>
    rw [store, ih, nth_nat]
    by_cases hx : x = b + k
    · subst hx
      simp
    · by_cases hle : b + k ≤ x
      · have hidx : x - (b + k) = x - (b + (k + 1)) + 1 := by omega
        rw [if_pos hle, if_pos (by omega), hidx, List.getElem?_cons_succ,
          Function.update_of_ne hx]
      · rw [if_neg hle, if_neg (by omega), Function.update_of_ne hx]

theorem store_shift (a : Nat → Sector) (b j : Nat) (ds : List Sector) :
    store a (b + j) 0 ds = store a b j ds := by
  funext x
  rw [store_nat, store_nat, Nat.add_zero]

theorem writeBlock_ok (hb : Faithful bio rc) {d : Sector} {u : Unit}
    (h : (writeBlock bio k d).run reg = .ok u reg') :
    reg'.toSlot = reg.toSlot ∧
      (k < reg.numBlocks → content rc reg' = Function.update (content rc reg) k d) := by
  unfold writeBlock at h
  rw [Prog.get_bind] at h
  cases hback : reg.backing with
  | blocks data =>
    rw [hback] at h
    simp only at h
    split at h
    · cases h
      refine ⟨rfl, fun hk => ?_⟩
      funext x
      unfold content
      rw [hback]
      by_cases hx : x = k
      · subst hx
        simp [hk]
      · simp [hx]
    · rename_i hno
      cases h
      exact ⟨rfl, fun hk => absurd hk hno⟩
  | bio s =>
    rw [hback] at h
    obtain ⟨t, ht, rfl⟩ := onBio_ok.mp (orUnsupported_ok.mp h)
    rw [← concat_one] at ht
    refine ⟨rfl, fun _ => ?_⟩
    funext x
    unfold content
    rw [hback]
    exact congrFun (hb.write_ok ht) x

theorem writeRegion_nil {fuel i : Nat} {r : Nat × Bytes}
    (h : (writeRegion bio fuel i []).run reg = .ok r reg') : r = (i, []) ∧ reg' = reg := by
  cases fuel with
  | zero => cases h
  | succ fuel =>
    unfold writeRegion at h
    rw [Prog.get_bind, if_neg (by simp)] at h
    cases h
    exact ⟨rfl, rfl⟩

/-- A successful write to a region stores the blocks up to its end. -/
theorem writeRegion_ok (hb : Faithful bio rc) {fuel i : Nat} {ds : List Sector}
    {r : Nat × Bytes} (hlast : reg.lastLBA < 2 ^ 64)
    (hcover : reg.lastLBA < reg.firstLBA + reg.numBlocks) (hfirst : reg.firstLBA ≤ i)
    (hi : i ≤ reg.lastLBA + 1) (hroom : i + ds.length ≤ 2 ^ 64)
    (h : (writeRegion bio fuel i (concat ds)).run reg = .ok r reg') :
    r.2 = concat (ds.drop (span reg.lastLBA i ds.length)) ∧
      (span reg.lastLBA i ds.length < ds.length → r.1 = reg.lastLBA + 1) ∧
      reg'.toSlot = reg.toSlot ∧ content rc reg' =
        store (content rc reg) (i - reg.firstLBA) 0 (ds.take (span reg.lastLBA i ds.length)) := by
  induction fuel generalizing i ds reg r with
  | zero => cases h
  | succ fuel ih =>
    cases ds with
    | nil =>
      obtain ⟨rfl, rfl⟩ := writeRegion_nil h
      have h0 : span reg'.lastLBA i ([] : List Sector).length = 0 := Nat.le_zero.mp (span_le _ _ _)
      rw [h0]
      exact ⟨rfl, fun hlt => absurd hlt (Nat.not_lt_zero 0), rfl, rfl⟩
    | cons d ds =>
      have hsplit : concat (d :: ds) = d.bytes ++ concat ds := rfl
      have hsize := d.size
      rw [List.length_cons] at hroom
      unfold writeRegion at h
      rw [Prog.get_bind] at h
      by_cases hgo : i ≤ reg.lastLBA
      · have hpos : 0 < (concat (d :: ds)).length := by
          rw [hsplit, List.length_append]
          omega
        rw [if_pos ⟨hgo, hpos⟩, hsplit, ofBytes_append, local_eq hfirst (by omega)] at h
        obtain ⟨u, reg1, hd, hrest⟩ := Prog.bind_eq_ok.mp h
        obtain ⟨hslot, hsame⟩ := writeBlock_ok hb hd
        have hdrop : (d.bytes ++ concat ds).drop 512 = concat ds := by
          rw [← hsize, List.drop_left]
        rw [hdrop] at hrest
        have hspan := span_succ (n := ds.length) hgo hlast
        have htail : ∀ m, store (content rc reg1) (i + 1 - reg.firstLBA) 0 (ds.take m) =
            store (content rc reg) (i - reg.firstLBA) 0 ((d :: ds).take (m + 1)) := by
          intro m
          have hadd : i + 1 - reg.firstLBA = i - reg.firstLBA + 1 := by omega
          rw [hsame (by omega), hadd, store_shift, List.take_succ_cons, store, nth_nat, Nat.add_zero]
        rw [List.length_cons, hspan, List.drop_succ_cons]
        cases ds with
        | nil =>
          obtain ⟨rfl, rfl⟩ := writeRegion_nil hrest
          have h0 : span reg.lastLBA (u64 (i + 1)) ([] : List Sector).length = 0 :=
            Nat.le_zero.mp (span_le _ _ _)
          rw [h0]
          refine ⟨rfl, fun hlt => absurd hlt (Nat.lt_irrefl _), hslot, ?_⟩
          exact htail 0
        | cons e es =>
          have hsucc : u64 (i + 1) = i + 1 := by
            rw [List.length_cons] at hroom
            unfold u64
            omega
          rw [hsucc] at hrest ⊢
          rw [← hslot] at hlast hcover hfirst hgo
          obtain ⟨h1, h2, h3, h4⟩ := ih hlast hcover (by omega) (by omega) (by omega) hrest
          rw [hslot] at h1 h2 h3 h4
          exact ⟨h1, fun hlt => h2 (by omega), h3, h4.trans (htail _)⟩
      · rw [if_neg fun hand => hgo hand.1] at h
        cases h
        have h0 : span reg'.lastLBA i (d :: ds).length = 0 := by
          rw [List.length_cons]
          unfold span
          rw [if_neg (by omega)]
          omega
        rw [h0]
        refine ⟨rfl, fun _ => ?_, rfl, rfl⟩
        show i = _
        omega

/-- Every write succeeds. -/
def Accepting (bio : Bio σ) : Prop := ∀ s b buffer, ∃ t, (bio.writeBlocks b buffer).run s = .ok () t

theorem writeBlock_runs (hb : Accepting bio) (reg : Region ρ) (k : Nat) (d : Sector) :
    ∃ reg', (writeBlock bio k d).run reg = .ok () reg' := by
  unfold writeBlock
  rw [Prog.get_bind]
  cases reg.backing with
  | blocks data =>
    by_cases hk : k < reg.numBlocks
    · exact ⟨_, by simp only [hk, if_true]; rfl⟩
    · exact ⟨_, by simp only [hk, if_false]; rfl⟩
  | bio s =>
    obtain ⟨t, h⟩ := hb s k d.bytes
    exact ⟨_, orUnsupported_ok.mpr (onBio_ok.mpr ⟨t, h, rfl⟩)⟩

theorem writeRegion_runs (hb : Accepting bio) {fuel : Nat} {buffer : Bytes}
    (hfuel : buffer.length < fuel) (i : Nat) (reg : Region ρ) :
    ∃ r reg', (writeRegion bio fuel i buffer).run reg = .ok r reg' := by
  induction fuel generalizing i buffer reg with
  | zero => omega
  | succ fuel ih =>
    unfold writeRegion
    rw [Prog.get_bind]
    by_cases hgo : i ≤ reg.lastLBA ∧ 0 < buffer.length
    · obtain ⟨reg1, h1⟩ := writeBlock_runs hb reg (u64 (i + 2 ^ 64 - reg.firstLBA))
        (Sector.ofBytes buffer)
      have hdrop : (buffer.drop 512).length < fuel := by
        rw [List.length_drop]
        omega
      obtain ⟨r, reg2, h2⟩ := ih hdrop (u64 (i + 1)) reg1
      rw [if_pos hgo, Prog.bind_ok h1, h2]
      exact ⟨r, reg2, rfl⟩
    · rw [if_neg hgo]
      exact ⟨_, _, rfl⟩

theorem writeDisk_runs (hd : Accepting disk) (lba : Nat) (buffer : Bytes) (w : World σ ρ) :
    ∃ s, (writeDisk disk lba buffer).run w =
      .ok () { w with disk := s, requests := w.requests ++ [(lba, buffer.length)] } := by
  obtain ⟨s, hs⟩ := hd w.disk lba buffer
  exact ⟨s, onDisk_ok.mpr ⟨s, hs, rfl⟩⟩

/-- A write to a region that may be written to fails only where a write of a device fails. -/
theorem writeFront_runs (hb : Accepting bio) (hl : Laid regions layout) (lba : Nat) (buffer : Bytes)
    (hro : ∀ slot ∈ layout.slots, slot.has lba = true → slot.readOnly = false)
    (hw : w.regions = regions) : ∃ r w', (writeFront bio regions lba buffer).run w = .ok r w' := by
  subst hw
  unfold writeFront
  cases hfind : findRegion w.regions lba with
  | none => exact ⟨_, _, rfl⟩
  | some j =>
    obtain ⟨reg, hreg, hhas⟩ := findRegion_some hfind
    have hslot := hro reg.toSlot (hl ▸ List.mem_map_of_mem (List.mem_of_getElem? hreg)) hhas
    obtain ⟨r, reg', hr⟩ := writeRegion_runs hb (Nat.lt_succ_self buffer.length) lba reg
    refine ⟨r, _, (onRegion_ok hreg).mpr ⟨reg', ?_, rfl⟩⟩
    rw [Prog.get_bind, hslot, if_neg (by decide)]
    exact hr

theorem writeBlocksHook_runs (hd : Accepting disk) (hb : Accepting bio)
    (hon : w.enableIOHooks = true) (hl : Laid w.regions layout) (lba : Nat) (buffer : Bytes)
    (hro : ∀ slot ∈ layout.slots, slot.has lba = true → slot.readOnly = false) :
    ∃ w', (writeBlocksHook disk bio lba buffer).run w = .ok () w' := by
  obtain ⟨r, v, hr⟩ := writeFront_runs (w := { w with enableIOHooks := false }) hb hl lba buffer
    hro rfl
  have hrest : ∃ t, (if r.2.length = 0 then (pure () : Prog (World σ ρ) EfiStatus Unit)
      else orUnsupported (writeDisk disk r.1 r.2)).run v = .ok () t := by
    by_cases h0 : r.2.length = 0
    · rw [if_pos h0]
      exact ⟨v, rfl⟩
    · obtain ⟨s, hs⟩ := writeDisk_runs hd r.1 r.2 v
      rw [if_neg h0]
      exact ⟨_, orUnsupported_ok.mpr hs⟩
  obtain ⟨t, ht⟩ := hrest
  unfold writeBlocksHook
  rw [Prog.get_bind, hon, Bool.not_true, if_neg (by decide)]
  exact ⟨_, withoutHooks_ok.mpr ⟨t, by rw [Prog.bind_ok hr, ht], rfl⟩⟩

/-- Regions that may be written to have all of their blocks. -/
def Covered (slots : List Slot) : Prop :=
  ∀ slot ∈ slots, slot.readOnly = false → slot.lastLBA < slot.firstLBA + slot.numBlocks

theorem Clear.outside (hl : Laid regions layout) {lba n : Nat} (hc : Clear layout.slots lba n)
    (hk : k < n) (hlt : lba + k < 2 ^ 64) (hs : served regions lba n ≤ k) :
    ∀ reg ∈ regions, reg.has (lba + k) = false := by
  intro reg hreg
  by_contra hhas
  rw [Bool.not_eq_false] at hhas
  have hfirst := hc k hk hlt reg.toSlot (hl ▸ List.mem_map_of_mem hreg) hhas
  have := (lt_served hl hk hlt).mpr ⟨reg, hreg, hfirst, hhas⟩
  omega

/-- The part of a write that goes to the region of the first block. -/
theorem writeFront_ok (hb : Faithful bio rc) (hl : Laid w.regions layout)
    (hcover : Covered layout.slots) {lba : Nat} {ds : List Sector} {r : Nat × Bytes}
    (hroom : lba + ds.length ≤ 2 ^ 64)
    (h : (writeFront bio w.regions lba (concat ds)).run w = .ok r w') :
    r.2 = concat (ds.drop (served w.regions lba ds.length)) ∧
      (served w.regions lba ds.length < ds.length →
        r.1 = lba + served w.regions lba ds.length) ∧
      Laid w'.regions layout ∧ w'.disk = w.disk ∧ w'.enableIOHooks = w.enableIOHooks ∧
      overlay dc rc w' = store (overlay dc rc w) lba 0 (ds.take (served w.regions lba ds.length)) := by
  unfold writeFront at h
  cases hfind : findRegion w.regions lba with
  | none =>
    rw [hfind] at h
    cases h
    have hserved : served w.regions lba ds.length = 0 := by
      unfold served
      rw [List.find?_eq_none.mpr (by simpa using fun reg hreg => findRegion_none hfind hreg)]
    rw [hserved]
    exact ⟨rfl, fun _ => rfl, hl, rfl, rfl, rfl⟩
  | some j =>
    rw [hfind] at h
    obtain ⟨reg, hreg, hhas⟩ := findRegion_some hfind
    obtain ⟨reg', hrun, rfl⟩ := (onRegion_ok hreg).mp h
    rw [Prog.get_bind] at hrun
    have hmem := List.mem_of_getElem? hreg
    have hlast := hl.last_lt hmem
    have hbounds := has_iff.mp hhas
    have hserved : served w.regions lba ds.length = span reg.lastLBA lba ds.length := by
      unfold served
      rw [hl.unique hreg hhas]
    cases hro : reg.readOnly with
    | true =>
      rw [hro, if_pos rfl] at hrun
      cases hrun
    | false =>
      rw [hro, if_neg (by decide)] at hrun
      have hc := hcover reg.toSlot (hl ▸ List.mem_map_of_mem hmem) hro
      obtain ⟨h1, h2, h3, h4⟩ := writeRegion_ok hb hlast hc hbounds.1 (by omega) hroom hrun
      rw [hserved]
      refine ⟨h1, fun hlt => ?_, hl.set hreg h3, rfl, rfl, ?_⟩
      · rw [h2 hlt, (span_of_lt hlt).2]
        omega
      funext x
      rw [overlay_set hl hreg h3, h4, store_nat, store_nat, Nat.add_zero, Nat.add_zero]
      by_cases hx : reg.has x = true
      · have hxb := has_iff.mp hx
        rw [if_pos hx, overlay_in hl hreg hx]
        by_cases hle : lba ≤ x
        · have hidx : x - reg.firstLBA - (lba - reg.firstLBA) = x - lba := by omega
          rw [if_pos (by omega), if_pos hle, hidx]
        · rw [if_neg (by omega), if_neg hle]
      · rw [if_neg hx]
        by_cases hle : lba ≤ x
        · have hout : (ds.take (span reg.lastLBA lba ds.length))[x - lba]? = none := by
            rw [List.getElem?_eq_none_iff, List.length_take]
            have hno : ¬ (reg.firstLBA ≤ x ∧ x ≤ reg.lastLBA) := fun h => hx (has_iff.mpr h)
            by_cases hn : x - lba < ds.length
            · have hspan := (lt_span (i := lba) hn (by omega)).mp.mt (show ¬ lba + (x - lba) ≤
                reg.lastLBA by omega)
              omega
            · omega
          rw [if_pos hle, hout]
          rfl
        · rw [if_neg hle]

/-- A successful write of a request that no region cuts is a write to the disk with the
regions laid over it. -/
theorem writeBlocksHook_ok (hd : Faithful disk dc) (hb : Faithful bio rc)
    (hon : w.enableIOHooks = true) (hl : Laid w.regions layout) (hcover : Covered layout.slots)
    {lba : Nat} {ds : List Sector} {u : Unit}
    (hroom : lba + ds.length ≤ 2 ^ 64) (hc : Clear layout.slots lba ds.length)
    (h : (writeBlocksHook disk bio lba (concat ds)).run w = .ok u w') :
    w'.enableIOHooks = true ∧ Laid w'.regions layout ∧
      overlay dc rc w' = store (overlay dc rc w) lba 0 ds := by
  unfold writeBlocksHook at h
  rw [Prog.get_bind, hon, Bool.not_true, if_neg (by decide)] at h
  obtain ⟨t, hrun, rfl⟩ := withoutHooks_ok.mp h
  obtain ⟨r, v, hfront, hrest⟩ := Prog.bind_eq_ok.mp hrun
  obtain ⟨h1, h2, h3, h4, -, h6⟩ := @writeFront_ok _ _ _ dc _ _ { w with enableIOHooks := false }
    _ hb hl hcover _ _ _ hroom hfront
  generalize hm : served w.regions lba ds.length = m at h1 h2 h6
  have hm' : served w.regions lba ds.length ≤ m := hm.le
  have hsplit : store (overlay dc rc w) lba 0 ds =
      store (overlay dc rc v) lba (min m ds.length) (ds.drop m) := by
    have happ := store_append (overlay dc rc w) lba 0 (ds.take m) (ds.drop m)
    rw [List.take_append_drop, List.length_take, Nat.zero_add] at happ
    rw [happ, h6]
    rfl
  by_cases h0 : r.2.length = 0
  · rw [if_pos h0] at hrest
    cases hrest
    have hnil : ds.drop m = [] := by
      rw [h1, length_concat] at h0
      exact List.length_eq_zero_iff.mp (by omega)
    rw [hnil] at hsplit
    exact ⟨hon, h3, hsplit.symm⟩
  · rw [if_neg h0] at hrest
    obtain ⟨s, hs, rfl⟩ := onDisk_ok.mp (orUnsupported_ok.mp hrest)
    have hlt : m < ds.length := by
      rw [h1, length_concat, List.length_drop] at h0
      omega
    rw [h1, h2 (by omega)] at hs
    have hstore := hd.write_ok hs
    have hdisk : dc s = store (dc v.disk) (lba + m) 0 (ds.drop m) := hstore
    refine ⟨hon, h3, ?_⟩
    funext x
    rw [hsplit, Nat.min_eq_left hlt.le, ← store_shift, store_nat, Nat.add_zero]
    by_cases hx : lba + m ≤ x ∧ x < lba + ds.length
    · have hout : ∀ reg ∈ w.regions, reg.has x = false := by
        have := hc.outside hl (k := x - lba) (by omega) (by omega) (by omega)
        rwa [show lba + (x - lba) = x by omega] at this
      have hout' : ∀ reg ∈ v.regions, reg.has x = false := by
        intro reg hreg
        have hslot : reg.toSlot ∈ w.regions.map (·.toSlot) := by
          rw [hl, ← h3]
          exact List.mem_map_of_mem hreg
        obtain ⟨r0, hr0, heq⟩ := List.mem_map.mp hslot
        rw [← heq]
        exact hout r0 hr0
      have hlen : x - (lba + m) < (ds.drop m).length := by rw [List.length_drop]; omega
      have hdiskx : overlay dc rc ⟨w.enableIOHooks, s, v.regions,
          v.requests ++ [(r.1, r.2.length)]⟩ x = dc s x := overlay_out hout'
      rw [if_pos hx.1]
      refine hdiskx.trans ?_
      rw [hdisk, store_nat, Nat.add_zero, if_pos hx.1, List.getElem?_eq_getElem hlen]
      rfl
    · have hsame : (if lba + m ≤ x then ((ds.drop m)[x - (lba + m)]?).getD (overlay dc rc v x)
          else overlay dc rc v x) = overlay dc rc v x := by
        split
        · rw [List.getElem?_eq_none (by rw [List.length_drop]; omega)]
          rfl
        · rfl
      have hdiskx : dc s x = dc v.disk x := by
        rw [hdisk, store_nat, Nat.add_zero]
        split
        · rw [List.getElem?_eq_none (by rw [List.length_drop]; omega)]
          rfl
        · rfl
      rw [hsame]
      unfold overlay
      simp only [hdiskx]

/-! ## Sequences of requests -/

def dropStatus {ω α : Type} (m : Prog ω EfiStatus α) : Prog ω Unit α where
  exec s := match m.run s with
    | .ok a t => .ok a t
    | .err _ t => .err () t
    | .stuck => .stuck

theorem dropStatus_ok {ω α : Type} {m : Prog ω EfiStatus α} {s t : ω} {a : α} :
    (dropStatus m).run s = .ok a t ↔ m.run s = .ok a t := by
  show (match m.run s with
    | .ok a t => Res.ok a t
    | .err _ t => .err () t
    | .stuck => .stuck) = _ ↔ _
  cases m.run s <;> simp

/-- The disk with its hooks, as a device of blocks. -/
def hookedDisk (disk : Bio σ) (bio : Bio ρ) : Device Nat (World σ ρ) Sector where
  getN b n := do
    let d ← dropStatus (readBlocksHook disk bio b (512 * n))
    pure (split d n)
  putN b ds := dropStatus (writeBlocksHook disk bio b (concat ds))

/-- No region cuts the request, nor does the last block number. -/
def Fits (slots : List Slot) : Call Nat Sector Empty → Prop
  | .getN b n => b < 2 ^ 64 ∧ b + n ≤ 2 ^ 64 ∧ Clear slots b n
  | .putN b ds => b < 2 ^ 64 ∧ b + ds.length ≤ 2 ^ 64 ∧ Clear slots b ds.length

theorem split_slices {n : Nat} {d : Bytes} {f : Nat → Sector} (hd : d.length = 512 * n)
    (h : ∀ k, k < n → slice d k = (f k).bytes) : split d n = (List.range n).map f := by
  induction n generalizing d f with
  | zero => rfl
  | succ n ih =>
    have hhead : Sector.ofBytes d = f 0 := by
      have h0 := h 0 (Nat.succ_pos n)
      have hsplit : d = (f 0).bytes ++ d.drop 512 := by
        rw [← h0]
        exact (List.take_append_drop 512 d).symm
      rw [hsplit, ofBytes_append]
    have htail : split (d.drop 512) n = (List.range n).map (fun k => f (k + 1)) := by
      refine ih (by rw [List.length_drop]; omega) fun k hk => ?_
      rw [← h (k + 1) (by omega)]
      unfold slice
      rw [List.drop_drop, Nat.mul_succ, Nat.add_comm]
    rw [split, hhead, htail, List.range_succ_eq_map, List.map_cons, List.map_map]
    rfl

theorem hookedDisk_getN (hd : Faithful disk dc) (hb : Faithful bio rc)
    (hon : w.enableIOHooks = true) (hl : Laid w.regions layout) {n : Nat} {ds : List Sector}
    (hfits : Fits layout.slots (.getN b n)) (h : ((hookedDisk disk bio).getN b n).run w = .ok ds w') :
    ds = load (overlay dc rc w) b n ∧ w'.enableIOHooks = true ∧ Laid w'.regions layout ∧
      overlay dc rc w' = overlay dc rc w := by
  obtain ⟨hb64, hroom, hclear⟩ := hfits
  obtain ⟨d, t, hrun, hpure⟩ := Prog.bind_eq_ok.mp h
  cases hpure
  have hread := dropStatus_ok.mp hrun
  obtain ⟨hlen, -, hon', hl', hsame, -⟩ := readBlocksHook_ok hd hb hon hl hb64 hread
  have hslices := ((readsOverlay_iff hb64).mpr hclear w hd hb hon hl).2 d _ hread
  exact ⟨split_slices hlen fun k hk => hslices.2 k hk (by omega), hon', hl', hsame⟩

theorem hookedDisk_putN (hd : Faithful disk dc) (hb : Faithful bio rc)
    (hon : w.enableIOHooks = true) (hl : Laid w.regions layout) (hcover : Covered layout.slots)
    {ds : List Sector} {u : Unit} (hfits : Fits layout.slots (.putN b ds))
    (h : ((hookedDisk disk bio).putN b ds).run w = .ok u w') :
    w'.enableIOHooks = true ∧ Laid w'.regions layout ∧
      overlay dc rc w' = store (overlay dc rc w) b 0 ds :=
  writeBlocksHook_ok hd hb hon hl hcover hfits.2.1 hfits.2.2 (dropStatus_ok.mp h)

/-- No call but reads and writes. -/
def noOther (c : Empty) : Prog (World σ ρ) Unit Unit := nomatch c

theorem call_keeps (hd : Faithful disk dc) (hb : Faithful bio rc) (hon : w.enableIOHooks = true)
    (hl : Laid w.regions layout) (hcover : Covered layout.slots) {c : Call Nat Sector Empty}
    {ds : List Sector} (hfits : Fits layout.slots c)
    (h : (call (hookedDisk disk bio) noOther c).run w = .ok ds w') :
    w'.enableIOHooks = true ∧ Laid w'.regions layout ∧
      ∀ x, overlay dc rc w' x = (lastWritten x (writes [c])).getD (overlay dc rc w x) := by
  cases c with
  | getN b n =>
    obtain ⟨-, h1, h2, h3⟩ := hookedDisk_getN hd hb hon hl hfits h
    exact ⟨h1, h2, fun x => congrFun h3 x⟩
  | putN b es =>
    obtain ⟨u, t, hp, hpure⟩ := Prog.bind_eq_ok.mp h
    cases hpure
    obtain ⟨h1, h2, h3⟩ := hookedDisk_putN hd hb hon hl hcover hfits hp
    refine ⟨h1, h2, fun x => ?_⟩
    rw [h3, store_eq]
    rfl
  | other c => exact nomatch c

/-- In a run of requests that fit, each of them stores what it writes. -/
theorem session_keeps (hd : Faithful disk dc) (hb : Faithful bio rc) (hon : w.enableIOHooks = true)
    (hl : Laid w.regions layout) (hcover : Covered layout.slots)
    {calls : List (Call Nat Sector Empty)} (hfits : ∀ c ∈ calls, Fits layout.slots c) {u : Unit}
    (h : (session (hookedDisk disk bio) noOther calls).run w = .ok u w') :
    w'.enableIOHooks = true ∧ Laid w'.regions layout ∧
      ∀ x, overlay dc rc w' x = (lastWritten x (writes calls)).getD (overlay dc rc w x) := by
  induction calls generalizing w with
  | nil =>
    cases h
    exact ⟨hon, hl, fun _ => rfl⟩
  | cons c calls ih =>
    obtain ⟨ds, t, hcall, hrest⟩ := Prog.bind_eq_ok.mp h
    obtain ⟨h1, h2, h3⟩ := call_keeps hd hb hon hl hcover (hfits c List.mem_cons_self) hcall
    obtain ⟨h4, h5, h6⟩ := ih h1 h2 (fun e he => hfits e (List.mem_cons_of_mem c he)) hrest
    refine ⟨h4, h5, fun x => ?_⟩
    rw [h6, h3, writes_cons c calls, lastWritten_append]
    cases lastWritten x (writes calls) <;> rfl

/-- A read through the hooks sees the regions over the disk exactly where no region begins
inside it, and over any requests of this kind each read delivers what was last written. -/
theorem overlay_exact_iff (layout : Layout) :
    (∀ lba n, lba < 2 ^ 64 → 1 ≤ n → 512 * n < 2 ^ 64 →
      (ReadsOverlay layout lba n ↔ Clear layout.slots lba n)) ∧
    ∀ {σ ρ : Type} {disk : Bio σ} {bio : Bio ρ} {dc : σ → Nat → Sector} {rc : ρ → Nat → Sector}
      {w t t' : World σ ρ} {past : List (Call Nat Sector Empty)} {b n : Nat} {ds : List Sector},
      Faithful disk dc → Faithful bio rc → w.enableIOHooks = true → Laid w.regions layout →
      Covered layout.slots → (∀ c ∈ past, Fits layout.slots c) → Fits layout.slots (.getN b n) →
      (session (hookedDisk disk bio) noOther past).run w = .ok () t →
      ((hookedDisk disk bio).getN b n).run t = .ok ds t' →
      ds = (List.range n).map fun k =>
        (lastWritten (b + k) (writes past)).getD (overlay dc rc w (b + k)) := by
  constructor
  · intro lba n hlba _ _
    exact readsOverlay_iff hlba
  · intro σ ρ disk bio dc rc w t t' past b n ds hd hb hon hl hcover hpast hget hs hread
    obtain ⟨h1, h2, h3⟩ := session_keeps hd hb hon hl hcover hpast hs
    rw [(hookedDisk_getN hd hb h1 h2 hget hread).1]
    exact List.map_congr_left fun k _ => h3 _

/-- Eight blocks from the eighth on, in a buffer that may be written. -/
def oneRegion : Layout where
  slots := [⟨8, 15, 8, false⟩]
  last_lt := by
    intro slot h
    rw [List.mem_singleton.mp h]
    decide
  apart := List.pairwise_singleton _ _

theorem overlay_exact_iff_inside :
    (ReadsOverlay oneRegion 8 2 ↔ Clear oneRegion.slots 8 2) ∧
      ∃ t t' ds,
        (session (hookedDisk arrayBio arrayBio) noOther [.putN 9 [Sector.fill 2]]).run
          (zeroRegions oneRegion) = .ok () t ∧
        ((hookedDisk arrayBio arrayBio).getN 9 1).run t = .ok ds t' ∧
        ds = (List.range 1).map fun k =>
          (lastWritten (9 + k) (writes [.putN (γ := Empty) 9 [Sector.fill 2]])).getD
            (overlay id id (zeroRegions oneRegion) (9 + k)) := by
  have hmain := overlay_exact_iff oneRegion
  have hcover : Covered oneRegion.slots := by
    intro slot h _
    rw [List.mem_singleton.mp h]
    decide
  have hclear : ∀ n, Clear oneRegion.slots 9 n := by
    intro n k _ _ slot h _
    rw [List.mem_singleton.mp h]
    decide
  have hput : Fits oneRegion.slots (.putN 9 [Sector.fill 2]) := ⟨by decide, by decide, hclear 1⟩
  have hget : Fits oneRegion.slots (.getN 9 1) := ⟨by decide, by decide, hclear 1⟩
  obtain ⟨t, hs⟩ : ∃ t, (session (hookedDisk arrayBio arrayBio) noOther
      [.putN 9 [Sector.fill 2]]).run (zeroRegions oneRegion) = .ok () t := by
    obtain ⟨t, ht⟩ := writeBlocksHook_runs arrayBio_accepting arrayBio_accepting rfl
      (zeroRegions_laid oneRegion) 9 (concat [Sector.fill 2]) (by
        intro slot h _
        rw [List.mem_singleton.mp h])
    have hput1 : ((hookedDisk arrayBio arrayBio).putN 9 [Sector.fill 2]).run
        (zeroRegions oneRegion) = .ok () t := dropStatus_ok.mpr ht
    refine ⟨t, ?_⟩
    simp only [session, call, Prog.run_bind, hput1, Prog.run_pure]
  obtain ⟨ds, t', hr⟩ : ∃ ds t', ((hookedDisk arrayBio arrayBio).getN 9 1).run t = .ok ds t' := by
    obtain ⟨hon, hl, -⟩ := session_keeps arrayBio_faithful arrayBio_faithful rfl
      (zeroRegions_laid _) hcover (by intro c hc; rw [List.mem_singleton.mp hc]; exact hput) hs
    obtain ⟨d, u, hd⟩ := readBlocksHook_runs arrayBio_reliable arrayBio_reliable hon 9 (512 * 1)
    exact ⟨split d 1, u, by rw [hookedDisk, Prog.bind_ok (dropStatus_ok.mpr hd)]; rfl⟩
  refine ⟨hmain.1 8 2 (by decide) (by decide) (by decide), t, t', ds, hs, hr, ?_⟩
  refine hmain.2 arrayBio_faithful arrayBio_faithful rfl (zeroRegions_laid _) hcover ?_ hget hs hr
  intro c hc
  rw [List.mem_singleton.mp hc]
  exact hput

/-- A request that runs into a region from outside shows the disk below it. -/
theorem cut_read : ¬ ReadsOverlay oneRegion 7 2 := by
  rw [readsOverlay_iff (by decide)]
  intro h
  have := h 1 (by decide) (by decide) _ (List.mem_singleton_self _) (by decide)
  exact absurd this (by decide)

/-! ## Adding regions -/

/-- The layout with one more region. -/
def Layout.add (layout : Layout) (slot : Slot) (hlast : slot.lastLBA < 2 ^ 64)
    (hapart : ∀ s ∈ layout.slots, ∀ lba, s.has lba = true → slot.has lba = false) : Layout where
  slots := layout.slots ++ [slot]
  last_lt := by
    intro s hs
    rcases List.mem_append.mp hs with h | h
    · exact layout.last_lt s h
    · rw [List.mem_singleton.mp h]
      exact hlast
  apart := by
    refine List.pairwise_append.mpr ⟨layout.apart, List.pairwise_singleton _ _, ?_⟩
    intro a ha b hb
    rw [List.mem_singleton.mp hb]
    exact hapart a ha

/-- `AddRegion` adds a region behind the others, eight at most. -/
theorem addRegion_laid {tab tab' : Table ρ} {first last num : Nat} {ro : Bool}
    {blocks : Option (Nat → Sector)} {bio : Option ρ} (hl : Laid tab.regions layout)
    (hlast : last < 2 ^ 64)
    (hapart : ∀ s ∈ layout.slots, ∀ lba, s.has lba = true →
      (⟨first, last, num, ro⟩ : Slot).has lba = false)
    (h : addRegion tab first last num ro blocks bio = .ok tab') :
    Laid tab'.regions (layout.add ⟨first, last, num, ro⟩ hlast hapart) ∧
      (tab.regions.length ≤ maxRegions → tab'.regions.length ≤ maxRegions) := by
  unfold addRegion at h
  split at h
  · cases h
  · rename_i hmax
    have hadd : ∀ backing : Backing ρ, tab'.regions =
        tab.regions ++ [⟨⟨first, last, num, ro⟩, backing⟩] →
        Laid tab'.regions (layout.add ⟨first, last, num, ro⟩ hlast hapart) ∧
          (tab.regions.length ≤ maxRegions → tab'.regions.length ≤ maxRegions) := by
      intro backing heq
      refine ⟨?_, fun hle => ?_⟩
      · unfold Laid
        rw [heq, List.map_append, hl]
        rfl
      · rw [heq, List.length_append, List.length_singleton]
        omega
    simp only at h
    split at h
    · cases h
    · rename_i backing _
      split at h
      · split at h
        · cases h
          exact hadd backing rfl
        · cases h
      · cases h
        exact hadd backing rfl

end LsvmTools.DiskOverlay
