import LsvmTools.CacheBlkdev

/-! # What the cache holds

The cache block device is an array: its child's, with the cached blocks on top.
Reads deliver that array and keep it. A write stores into it as long as it does
not go past a cached block. -/
namespace LsvmTools.CacheCoherence
open Lib.Program Lib.Sectors Blkdev CacheBlkdev
open Addr (nth)

variable {σ : Type} {child : Device UInt64 σ Sector} {c : σ → UInt64 → Sector}

/-- The array that the device is. -/
def content (c : σ → UInt64 → Sector) (s : BlkdevImpl σ) (x : UInt64) : Sector :=
  match getCache s x with
  | some p => p.data
  | none => c s.child x

/-! ## The chains -/

theorem getCache_push (s : BlkdevImpl σ) (b x : UInt64) (d : Sector) :
    getCache (push b d s) x = if x = b then some ⟨b, d⟩ else getCache s x := by
  unfold getCache push
  by_cases hx : x = b
  · subst hx; simp
  · by_cases hs : slot x = slot b
    · simp [hs, hx, Ne.symm hx]
    · simp [Function.update_of_ne hs, hx]

theorem find_overwrite (b x : UInt64) (d : Sector) (ps : List Block) :
    (overwrite b d ps).find? (fun p => p.blkno = x) =
      if x = b then (ps.find? fun p => p.blkno = x).map fun p => ⟨p.blkno, d⟩
      else ps.find? fun p => p.blkno = x := by
  induction ps with
  | nil => simp [overwrite]
  | cons p ps ih =>
    unfold overwrite
    by_cases hp : p.blkno = b
    · by_cases hx : x = b
      · subst hx; simp [hp]
      · simp [hp, hx, Ne.symm hx]
    · rw [if_neg hp, List.find?_cons, List.find?_cons, ih]
      by_cases hx : p.blkno = x
      · have : ¬ x = b := fun h => hp (hx.trans h)
        simp [hx, this]
      · simp [hx]

theorem getCache_setCached (s : BlkdevImpl σ) (b x : UInt64) (d : Sector) :
    getCache (setCached b d s) x =
      if x = b then (getCache s x).map fun p => ⟨p.blkno, d⟩ else getCache s x := by
  unfold getCache setCached
  by_cases hs : slot x = slot b
  · rw [hs]
    simp only [Function.update_self]
    exact find_overwrite b x d _
  · have hx : ¬ x = b := fun h => hs (by rw [h])
    simp [Function.update_of_ne hs, hx]

theorem getCache_blkno {s : BlkdevImpl σ} {x : UInt64} {p : Block} (h : getCache s x = some p) :
    p.blkno = x := by
  have := List.find?_some h
  simpa using this

theorem content_push (s : BlkdevImpl σ) (b : UInt64) (d : Sector) :
    content c (push b d s) = Function.update (content c s) b d := by
  funext x
  unfold content
  rw [getCache_push]
  by_cases hx : x = b
  · subst hx; simp
  · simp only [if_neg hx, Function.update_of_ne hx]
    rfl

theorem content_setCached {s : BlkdevImpl σ} {b : UInt64} (h : (getCache s b).isSome)
    (d : Sector) : content c (setCached b d s) = Function.update (content c s) b d := by
  funext x
  unfold content
  rw [getCache_setCached]
  by_cases hx : x = b
  · subst hx
    obtain ⟨p, hp⟩ := Option.isSome_iff_exists.mp h
    simp [hp]
  · simp only [if_neg hx, Function.update_of_ne hx]
    rfl

theorem content_of_miss {s : BlkdevImpl σ} {x : UInt64} (h : getCache s x = none) :
    content c s x = c s.child x := by simp [content, h]

/-! ## The representation -/

/-- Every block is in the chain of its slot, and in no chain twice. -/
structure Tidy (s : BlkdevImpl σ) : Prop where
  own : ∀ i, ∀ p ∈ s.chains i, slot p.blkno = i
  nodup : ∀ i, ((s.chains i).map Block.blkno).Nodup

/-- Cached blocks outside `W` are the child's. -/
def Clean (c : σ → UInt64 → Sector) (W : UInt64 → Prop) (s : BlkdevImpl σ) : Prop :=
  ∀ i, ∀ p ∈ s.chains i, ¬ W p.blkno → p.data = c s.child p.blkno

theorem Tidy.find {s : BlkdevImpl σ} (h : Tidy s) {i : Fin maxChains} {p : Block}
    (hp : p ∈ s.chains i) : getCache s p.blkno = some p := by
  have hi := h.own i p hp
  have hn := h.nodup i
  unfold getCache
  rw [hi]
  generalize s.chains i = ps at hp hn
  induction ps with
  | nil => cases hp
  | cons q ps ih =>
    rw [List.map_cons, List.nodup_cons] at hn
    rcases List.mem_cons.mp hp with rfl | hp
    · simp
    · have hne : q.blkno ≠ p.blkno := fun he => hn.1 (he ▸ List.mem_map_of_mem hp)
      rw [List.find?_cons_of_neg (by simpa using hne)]
      exact ih hp hn.2

theorem Tidy.pushed {s : BlkdevImpl σ} (h : Tidy s) {b : UInt64} (hb : getCache s b = none)
    (d : Sector) : Tidy (push b d s) := by
  constructor
  · intro i p hp
    unfold push at hp
    by_cases hi : i = slot b
    · subst hi
      simp only [Function.update_self, List.mem_cons] at hp
      rcases hp with rfl | hp
      · rfl
      · exact h.own _ p hp
    · simp only [Function.update_of_ne hi] at hp
      exact h.own i p hp
  · intro i
    unfold push
    by_cases hi : i = slot b
    · subst hi
      simp only [Function.update_self, List.map_cons, List.nodup_cons]
      refine ⟨fun hm => ?_, h.nodup _⟩
      obtain ⟨p, hp, he⟩ := List.mem_map.mp hm
      have := h.find hp
      rw [he, hb] at this
      cases this
    · simp only [Function.update_of_ne hi]
      exact h.nodup i

theorem overwrite_blknos (b : UInt64) (d : Sector) (ps : List Block) :
    (overwrite b d ps).map Block.blkno = ps.map Block.blkno := by
  induction ps with
  | nil => rfl
  | cons p ps ih =>
    unfold overwrite
    split
    · rfl
    · simp [ih]

theorem Tidy.overwritten {s : BlkdevImpl σ} (h : Tidy s) (b : UInt64) (d : Sector) :
    Tidy (setCached b d s) := by
  have hm : ∀ i, ((setCached b d s).chains i).map Block.blkno =
      (s.chains i).map Block.blkno := by
    intro i
    unfold setCached
    by_cases hi : i = slot b
    · subst hi
      simp only [Function.update_self]
      exact overwrite_blknos b d _
    · simp only [Function.update_of_ne hi]
  refine ⟨fun i p hp => ?_, fun i => by rw [hm]; exact h.nodup i⟩
  have hp' : p.blkno ∈ (s.chains i).map Block.blkno := by
    rw [← hm]; exact List.mem_map_of_mem hp
  obtain ⟨q, hq, he⟩ := List.mem_map.mp hp'
  rw [← he]
  exact h.own i q hq

theorem clean_push {W : UInt64 → Prop} {s : BlkdevImpl σ} (h : Clean c W s) {b : UInt64}
    {d : Sector} (hd : W b ∨ d = c s.child b) : Clean c W (push b d s) := by
  intro i p hp hw
  unfold push at hp
  by_cases hi : i = slot b
  · subst hi
    simp only [Function.update_self, List.mem_cons] at hp
    rcases hp with rfl | hp
    · exact hd.resolve_left hw
    · exact h _ p hp hw
  · simp only [Function.update_of_ne hi] at hp
    exact h i p hp hw

theorem mem_overwrite {b : UInt64} {d : Sector} {ps : List Block} {p : Block}
    (h : p ∈ overwrite b d ps) : p ∈ ps ∨ p.blkno = b := by
  induction ps with
  | nil => cases h
  | cons q ps ih =>
    unfold overwrite at h
    split at h
    · rename_i hq
      rcases List.mem_cons.mp h with rfl | h
      · exact .inr hq
      · exact .inl (List.mem_cons_of_mem _ h)
    · rcases List.mem_cons.mp h with rfl | h
      · exact .inl List.mem_cons_self
      · exact (ih h).imp (List.mem_cons_of_mem _) id

theorem clean_setCached {W : UInt64 → Prop} {s : BlkdevImpl σ} (h : Clean c W s) {b : UInt64}
    (d : Sector) (hb : W b) : Clean c W (setCached b d s) := by
  intro i p hp hw
  unfold setCached at hp
  by_cases hi : i = slot b
  · subst hi
    simp only [Function.update_self] at hp
    rcases mem_overwrite hp with hp | hp
    · exact h _ p hp hw
    · exact absurd (hp ▸ hb) hw
  · simp only [Function.update_of_ne hi] at hp
    exact h i p hp hw

/-! ## Reading -/

/-- What a read of `n` blocks keeps. -/
structure Kept (child : Device UInt64 σ Sector) (c : σ → UInt64 → Sector) (n : Nat)
    (s t : BlkdevImpl σ) : Prop where
  content : content c t = content c s
  reads : Reads child s.child t.child
  flags : t.flags = s.flags
  tidy : n < 2 ^ 64 → Tidy s → Tidy t
  clean : ∀ W, Clean c W s → Clean c W t

variable {n : Nat}

theorem Kept.refl (s : BlkdevImpl σ) : Kept child c n s s :=
  ⟨rfl, .refl _, rfl, fun _ h => h, fun _ h => h⟩

theorem Kept.trans {s t u : BlkdevImpl σ} (h : Kept child c n s t) (h' : Kept child c n t u) :
    Kept child c n s u :=
  ⟨h'.content.trans h.content, h.reads.trans h'.reads, h'.flags.trans h.flags,
    fun hn hs => h'.tidy hn (h.tidy hn hs), fun W hs => h'.clean W (h.clean W hs)⟩

theorem Kept.of_child (hc : Lawful child c) {s : BlkdevImpl σ} {t : σ}
    (h : Reads child s.child t) : Kept child c n s { s with child := t } := by
  have hct := hc.toHonest.reads h
  refine ⟨?_, h, rfl, fun _ hs => ⟨hs.own, hs.nodup⟩, fun W hs i p hp hw => ?_⟩
  · funext x
    unfold CacheCoherence.content
    change (match getCache s x with | some p => p.data | none => c t x) = _
    rw [hct]
  · rw [hs i p hp hw]
    exact congrFun hct.symm _

theorem hits_eq (s : BlkdevImpl σ) (b : UInt64) (i rem : Nat) :
    hits s b i rem = (List.range' i (hits s b i rem).length).map fun k => content c s (nth b k) := by
  induction rem generalizing i with
  | zero => rfl
  | succ rem ih =>
    unfold hits
    cases h : getCache s (nth b i) with
    | none => rfl
    | some p =>
      simp only [List.length_cons, List.range'_succ, List.map_cons, List.cons.injEq]
      exact ⟨by simp [content, h], ih (i + 1)⟩

theorem length_hits (s : BlkdevImpl σ) (b : UInt64) (i rem : Nat) :
    (hits s b i rem).length ≤ rem := by
  induction rem generalizing i with
  | zero => exact Nat.le_refl _
  | succ rem ih =>
    unfold hits
    have := ih (i + 1)
    split
    · rw [List.length_cons]; omega
    · simp

/-- The run of misses ends at a cached block or with the request. -/
theorem misses_spec (s : BlkdevImpl σ) (b : UInt64) (i rem : Nat) :
    misses s b i rem ≤ rem ∧ ∀ k, k < misses s b i rem → getCache s (nth b (i + k)) = none := by
  induction rem generalizing i with
  | zero => exact ⟨Nat.le_refl _, fun k hk => absurd hk (Nat.not_lt_zero k)⟩
  | succ rem ih =>
    obtain ⟨h1, h2⟩ := ih (i + 1)
    unfold misses
    split
    · exact ⟨Nat.zero_le _, fun k hk => absurd hk (Nat.not_lt_zero k)⟩
    · rename_i hm
      refine ⟨by omega, fun k hk => ?_⟩
      cases k with
      | zero => simpa using hm
      | succ k =>
        rw [show i + (k + 1) = i + 1 + k by omega]
        exact h2 k (by omega)

/-- After the hits comes a miss or the end of the request. -/
theorem hits_then_miss (s : BlkdevImpl σ) (b : UInt64) (i rem : Nat)
    (h : (hits s b i rem).length < rem) :
    0 < misses s b (i + (hits s b i rem).length) (rem - (hits s b i rem).length) := by
  induction rem generalizing i with
  | zero => omega
  | succ rem ih =>
    unfold hits at h ⊢
    cases hg : getCache s (nth b i) with
    | none => simp [misses, hg]
    | some p =>
      simp only [hg, List.length_cons] at h ⊢
      have := ih (i + 1) (by omega)
      rwa [show i + ((hits s b (i + 1) rem).length + 1) = i + 1 + (hits s b (i + 1) rem).length by
          omega, show rem + 1 - ((hits s b (i + 1) rem).length + 1) =
          rem - (hits s b (i + 1) rem).length by omega]

theorem putCache_ends {s : BlkdevImpl σ} {b : UInt64} {d : Sector} :
    Prog.Ends (putCache b d) s
      (fun _ t => t = push b d { s with heap := fun i => s.heap (i + 1) })
      (fun t => t = { s with heap := fun i => s.heap (i + 1) }) := by
  unfold putCache
  refine .get (.modify ?_)
  cases s.heap 0 with
  | true => rfl
  | false => exact .throw rfl

theorem Kept.of_heap (s : BlkdevImpl σ) (heap : Nat → Bool) :
    Kept child c n s { s with heap } :=
  ⟨rfl, .refl _, rfl, fun _ hs => ⟨hs.own, hs.nodup⟩, fun _ hs => hs⟩

/-- Caching what the device already holds keeps it. -/
theorem Kept.of_push {s : BlkdevImpl σ} {b : UInt64} (hb : n < 2 ^ 64 → getCache s b = none)
    {d : Sector} (hd : d = c s.child b) (hc : d = CacheCoherence.content c s b) :
    Kept child c n s (push b d s) := by
  refine ⟨?_, .refl _, rfl, fun hn hs => hs.pushed (hb hn) d, fun W hs => clean_push hs (.inr hd)⟩
  rw [content_push, hc, Function.update_eq_self]

theorem cacheRun_ends {b : UInt64} {ds : List Sector} {k : Nat} :
    ∀ {s : BlkdevImpl σ} (_ : n < 2 ^ 64 → ∀ j, k ≤ j → j < k + ds.length → getCache s (nth b j) = none)
      (_ : k + ds.length ≤ n)
      (_ : ds = (List.range' k ds.length).map fun j => c s.child (nth b j))
      (_ : ds = (List.range' k ds.length).map fun j => content c s (nth b j)),
    Prog.Ends (cacheRun b k ds) s (fun _ t => Kept child c n s t) (fun t => Kept child c n s t) := by
  induction ds generalizing k with
  | nil => intro s _ _ _ _; exact .pure (.refl s)
  | cons d ds ih =>
    intro s hmiss hn hds hds'
    rw [List.length_cons] at hmiss hn
    rw [List.length_cons, List.range'_succ, List.map_cons, List.cons.injEq] at hds hds'
    have hheap : Kept child c n s { s with heap := fun i => s.heap (i + 1) } := .of_heap s _
    have hpush : Kept child c n s (push (nth b k) d { s with heap := fun i => s.heap (i + 1) }) :=
      hheap.trans (.of_push (s := { s with heap := fun i => s.heap (i + 1) })
        (fun h => hmiss h k (Nat.le_refl _) (by omega)) hds.1 hds'.1)
    unfold cacheRun
    refine .bind (putCache_ends.mono (fun _ _ h => h) fun t h => h ▸ hheap) fun _ t ht => ?_
    subst ht
    refine Prog.Ends.mono (ih (k := k + 1) (fun h64 j h1 h2 => ?_) (by omega) hds.2 ?_)
      (fun _ t h => hpush.trans h) fun t h => hpush.trans h
    · rw [getCache_push, if_neg fun he => ?_]
      · exact hmiss h64 j (by omega) (by omega)
      · have := nth_inj b (by omega) (by omega) he
        omega
    · rw [hpush.content]
      exact hds'.2

theorem onChild_ends {α : Type} {m : Prog σ Unit α} {s : BlkdevImpl σ} {Q : α → σ → Prop}
    {E : σ → Prop} (h : Prog.Ends m s.child Q E) :
    Prog.Ends (onChild m) s (fun a t => ∃ u, t = { s with child := u } ∧ Q a u)
      (fun t => ∃ u, t = { s with child := u } ∧ E u) := by
  unfold Prog.Ends at h ⊢
  cases hr : m.run s.child with
  | ok a t =>
    have ho : (onChild m).run s = .ok a { s with child := t } := by
      simp only [Prog.run, onChild] at hr ⊢; rw [hr]
    rw [hr] at h
    rw [ho]
    exact ⟨t, rfl, h⟩
  | err e t =>
    have ho : (onChild m).run s = .err e { s with child := t } := by
      simp only [Prog.run, onChild] at hr ⊢; rw [hr]
    rw [hr] at h
    rw [ho]
    exact ⟨t, rfl, h⟩
  | stuck => rw [hr] at h; exact h.elim

theorem readRun_ends (hc : Lawful child c) {s : BlkdevImpl σ} {b : UInt64} {j m : Nat}
    (hm : j + m ≤ n) (hmiss : ∀ k, k < m → getCache s (nth b (j + k)) = none) :
    Prog.Ends (readRun child b j m) s
      (fun ds t => ds = (List.range' j m).map (fun k => content c s (nth b k)) ∧ Kept child c n s t)
      (fun t => Kept child c n s t) := by
  have hmiss' : ∀ k ∈ List.range' j m, getCache s (nth b k) = none := by
    intro k hk
    rw [List.mem_range'_1] at hk
    have := hmiss (k - j) (by omega)
    rwa [show j + (k - j) = k by omega] at this
  have hchild : Prog.Ends (child.getN (nth b j) m) s.child
      (fun ds t => ds = (List.range' j m).map (fun k => c s.child (nth b k)) ∧ Reads child s.child t)
      (fun t => Reads child s.child t) := by
    refine .intro ?_ ?_ (hc.getN_returns _ _ _)
    · intro ds t hr
      refine ⟨?_, .ok hr (.refl t)⟩
      rw [(hc.getN_ok hr).1, load, List.range'_eq_map_range, List.map_map]
      exact List.map_congr_left fun k _ => by rw [nth_nth]; rfl
    · intro e t hr
      exact .err hr (.refl t)
  have hcon : (List.range' j m).map (fun k => c s.child (nth b k)) =
      (List.range' j m).map fun k => content c s (nth b k) :=
    List.map_congr_left fun k hk => (content_of_miss (hmiss' k hk)).symm
  unfold readRun
  by_cases h0 : m = 0
  · subst h0
    rw [if_pos rfl]
    exact .pure ⟨rfl, .refl s⟩
  rw [if_neg h0]
  refine .get (.bind ((onChild_ends hchild).mono (fun _ _ h => h) ?_) ?_)
  · rintro t ⟨u, rfl, hr⟩
    exact .of_child hc hr
  · rintro ds t ⟨u, rfl, hds, hr⟩
    have hk : Kept child c n s { s with child := u } := .of_child hc hr
    have hlen : ds.length = m := by simp [hds]
    have hrun : Prog.Ends (cacheRun b j ds) { s with child := u }
        (fun _ t => Kept child c n { s with child := u } t)
        (fun t => Kept child c n { s with child := u } t) := by
      refine cacheRun_ends (fun _ k h1 h2 => hmiss' k ?_) (by omega) ?_ ?_
      · rw [List.mem_range'_1]; omega
      · rw [hlen, hc.toHonest.reads hr]; exact hds
      · rw [hlen, hk.content]; exact hds.trans hcon
    split
    · exact .bind (hrun.mono (fun _ _ h => h) fun t h => hk.trans h)
        fun _ t ht => .pure ⟨hds.trans hcon, hk.trans ht⟩
    · exact .pure ⟨hds.trans hcon, hk⟩

theorem getNLoop_ends (hc : Lawful child c) {b : UInt64} {fuel i : Nat} :
    ∀ {s : BlkdevImpl σ} (_ : n - i ≤ fuel),
    Prog.Ends (getNLoop child b n fuel i) s
      (fun ds t => ds = (List.range' i (n - i)).map (fun k => content c s (nth b k)) ∧
        Kept child c n s t)
      (fun t => Kept child c n s t) := by
  induction fuel generalizing i with
  | zero =>
    intro s hf
    unfold getNLoop
    rw [if_neg (by omega), show n - i = 0 by omega]
    exact .pure ⟨rfl, .refl s⟩
  | succ fuel ih =>
    intro s hf
    unfold getNLoop
    by_cases hi : n ≤ i
    · rw [if_pos hi, show n - i = 0 by omega]
      exact .pure ⟨rfl, .refl s⟩
    · rw [if_neg hi]
      refine .get ?_
      have hl := length_hits s b i (n - i)
      have hh := hits_eq (c := c) s b i (n - i)
      have hstep := hits_then_miss s b i (n - i)
      generalize hits s b i (n - i) = hit at hl hh hstep
      rw [show n - i - hit.length = n - (i + hit.length) by omega] at hstep
      obtain ⟨hm1, hm2⟩ := misses_spec s b (i + hit.length) (n - (i + hit.length))
      simp only []
      generalize misses s b (i + hit.length) (n - (i + hit.length)) = m at hm1 hm2 hstep ⊢
      refine .bind (readRun_ends hc (by omega) hm2) fun ds t ⟨hds, hk⟩ => ?_
      refine .bind ((ih (i := i + hit.length + m) (by omega)).mono (fun _ _ h => h)
        fun u h => hk.trans h) fun rest u ⟨hrest, hk'⟩ => .pure ⟨?_, hk.trans hk'⟩
      have e1 : n - i = hit.length + m + (n - (i + hit.length + m)) := by omega
      rw [e1, ← List.range'_append_1, ← List.range'_append_1, List.map_append, List.map_append,
        ← hh, ← hds, hrest, hk.content, Nat.add_assoc]

/-- A read delivers the array and keeps it. -/
theorem getN_ends (hc : Lawful child c) (s : BlkdevImpl σ) (b : UInt64) (n : Nat) :
    Prog.Ends (getN child b n) s (fun ds t => ds = load (content c s) b n ∧ Kept child c n s t)
      (fun t => Kept child c n s t) := by
  refine (getNLoop_ends hc (by omega)).mono (fun ds t h => ⟨?_, h.2⟩) fun _ h => h
  rw [h.1, Nat.sub_zero, load, List.range_eq_range']

/-! ## Writing -/

/-- What a write to the cache keeps, when it may only touch the blocks `W`. -/
structure Touched (c : σ → UInt64 → Sector) (W : UInt64 → Prop) (s t : BlkdevImpl σ) : Prop where
  child : t.child = s.child
  flags : t.flags = s.flags
  tidy : Tidy s → Tidy t
  clean : ∀ W', (∀ x, W x → W' x) → Clean c W' s → Clean c W' t
  content : ∀ x, ¬ W x → content c t x = content c s x

theorem Touched.refl (W : UInt64 → Prop) (s : BlkdevImpl σ) : Touched c W s s :=
  ⟨rfl, rfl, id, fun _ _ h => h, fun _ _ => rfl⟩

theorem Touched.trans {W : UInt64 → Prop} {s t u : BlkdevImpl σ} (h : Touched c W s t)
    (h' : Touched c W t u) : Touched c W s u :=
  ⟨h'.child.trans h.child, h'.flags.trans h.flags, h'.tidy ∘ h.tidy,
    fun W' hw hs => h'.clean W' hw (h.clean W' hw hs),
    fun x hx => (h'.content x hx).trans (h.content x hx)⟩

theorem Touched.of_heap (W : UInt64 → Prop) (s : BlkdevImpl σ) (heap : Nat → Bool) :
    Touched c W s { s with heap } :=
  ⟨rfl, rfl, fun hs => ⟨hs.own, hs.nodup⟩, fun _ _ hs => hs, fun _ _ => rfl⟩

theorem Touched.of_push {W : UInt64 → Prop} {s : BlkdevImpl σ} {b : UInt64} (hb : W b)
    (hm : getCache s b = none) (d : Sector) : Touched c W s (push b d s) where
  child := rfl
  flags := rfl
  tidy hs := hs.pushed hm d
  clean W' hw hs := clean_push hs (.inl (hw b hb))
  content x hx := by
    rw [content_push, Function.update_of_ne]
    rintro rfl
    exact hx hb

theorem Touched.of_setCached {W : UInt64 → Prop} {s : BlkdevImpl σ} {b : UInt64} (hb : W b)
    (hm : (getCache s b).isSome) (d : Sector) : Touched c W s (setCached b d s) where
  child := rfl
  flags := rfl
  tidy hs := hs.overwritten b d
  clean W' hw hs := clean_setCached hs d (hw b hb)
  content x hx := by
    rw [content_setCached hm, Function.update_of_ne]
    rintro rfl
    exact hx hb

theorem putNLoop_ends {W : UInt64 → Prop} {b : UInt64} {ds : List Sector} {k : Nat} :
    ∀ {s : BlkdevImpl σ} (_ : ∀ j, k ≤ j → j < k + ds.length → W (nth b j)),
    Prog.Ends (putNLoop b k ds) s
      (fun _ t => Touched c W s t ∧ content c t = store (content c s) b k ds)
      (fun t => Touched c W s t) := by
  induction ds generalizing k with
  | nil => intro s _; exact .pure ⟨.refl W s, rfl⟩
  | cons d ds ih =>
    intro s hW
    rw [List.length_cons] at hW
    have hk := hW k (Nat.le_refl _) (by omega)
    have hrest : ∀ t : BlkdevImpl σ, Touched c W s t →
        content c t = Function.update (content c s) (nth b k) d →
        Prog.Ends (putNLoop b (k + 1) ds) t
          (fun _ u => Touched c W s u ∧ content c u = store (content c s) b k (d :: ds))
          (fun u => Touched c W s u) := by
      intro t ht hct
      refine (ih fun j h1 h2 => hW j (by omega) (by omega)).mono
        (fun _ u hu => ⟨ht.trans hu.1, ?_⟩) fun u hu => ht.trans hu
      rw [hu.2, hct]
      rfl
    unfold putNLoop
    refine .get ?_
    cases hm : getCache s (nth b k) with
    | some p =>
      have hsome : (getCache s (nth b k)).isSome := by rw [hm]; rfl
      exact .modify (hrest _ (.of_setCached hk hsome d) (content_setCached hsome d))
    | none =>
      have hheap : Touched c W s { s with heap := fun i => s.heap (i + 1) } := .of_heap W s _
      refine .bind (putCache_ends.mono (fun _ _ h => h) fun t h => h ▸ hheap) fun _ t ht => ?_
      subst ht
      refine hrest _ (hheap.trans (.of_push (s := { s with heap := fun i => s.heap (i + 1) }) hk
        hm d)) ?_
      rw [content_push]
      rfl

theorem putN_cached {s : BlkdevImpl σ} (hf : caching s = true) (b : UInt64) (ds : List Sector) :
    Prog.Ends (putN child b ds) s
      (fun _ t => Touched c (fun x => ∃ k, k < ds.length ∧ x = nth b k) s t ∧
        content c t = store (content c s) b 0 ds)
      (fun t => Touched c (fun x => ∃ k, k < ds.length ∧ x = nth b k) s t) := by
  unfold putN
  refine .get ?_
  rw [if_pos hf]
  exact putNLoop_ends fun j _ hj => ⟨j, by omega, rfl⟩

/-- A write that goes past the cache leaves the cached blocks as they are. -/
theorem putN_direct (hc : Lawful child c) {s : BlkdevImpl σ} (hf : caching s = false) (b : UInt64)
    (ds : List Sector) :
    Prog.Ends (putN child b ds) s
      (fun _ t => ∃ u, t = { s with child := u } ∧ c u = store (c s.child) b 0 ds)
      (fun t => ∃ u, t = { s with child := u } ∧
        ∀ x, (∀ k, k < ds.length → x ≠ nth b k) → c u x = c s.child x) := by
  unfold putN
  refine .get ?_
  rw [hf, if_neg Bool.false_ne_true]
  exact onChild_ends (.intro (fun _ _ h => hc.putN_ok h) (fun _ _ h => hc.putN_err h)
    (hc.putN_returns _ _ _))

/-! ## Coherence

A write made while caching is not enabled is seen by reads only where it agrees
with the blocks that are cached. -/

/-- The write does not go past a cached block that holds something else. -/
def Coherent (s : BlkdevImpl σ) : Call UInt64 Sector UInt32 → Prop
  | .putN b ds => caching s = false → ∀ x p, getCache s x = some p →
      ∀ d, written b x 0 ds = some d → p.data = d
  | .getN _ _ | .other _ => True

theorem content_with_child (s : BlkdevImpl σ) (u : σ) (x : UInt64) :
    content c { s with child := u } x = match getCache s x with
      | some p => p.data
      | none => c u x := rfl

theorem stores_of_coherent (hc : Lawful child c) {s : BlkdevImpl σ}
    {req : Call UInt64 Sector UInt32} (h : Coherent s req) :
    Stores (cacheBlkdev child) setFlags (content c) s req := by
  intro ds t hr x
  cases req with
  | getN b n => rw [((getN_ends hc s b n).ok hr).2.content]; rfl
  | other flags =>
    obtain ⟨u, t', hp, he⟩ := Prog.bind_eq_ok.mp hr
    cases he
    unfold setFlags at hp
    split at hp
    · cases hp
    · cases hp; rfl
  | putN b es =>
    obtain ⟨u, t', hp, he⟩ := Prog.bind_eq_ok.mp hr
    cases he
    change content c t x = (written b x 0 es).getD (content c s x)
    cases hf : caching s with
    | true => rw [((putN_cached hf b es).ok hp).2, store_eq]
    | false =>
      obtain ⟨w, rfl, hw⟩ := (putN_direct hc hf b es).ok hp
      rw [content_with_child]
      have hx := h hf x
      unfold content
      cases hg : getCache s x with
      | none => simp only [hw, store_eq]
      | some p =>
        cases hd : written b x 0 es with
        | none => rfl
        | some d => exact hx p hg d hd

/-- Reads deliver what was last written, at every point of the calls. -/
def ReadsLastWritten (child : Device UInt64 σ Sector) (c : σ → UInt64 → Sector) (disk : σ)
    (heap : Nat → Bool) (calls : List (Call UInt64 Sector UInt32)) : Prop :=
  ∀ past, past <+: calls → ∀ u s b n ds t,
    (session (cacheBlkdev child) setFlags past).run (newCacheBlkdev disk heap) = .ok u s →
    ((cacheBlkdev child).getN b n).run s = .ok ds t →
    ds = (List.range n).map fun k => (lastWritten (nth b k) (writes past)).getD (c disk (nth b k))

theorem nth_zero (x : UInt64) : (nth x 0 : UInt64) = x := by
  exact UInt64.add_zero x

theorem getN_one_of_cached {s : BlkdevImpl σ} {x : UInt64} {p : Block} (h : getCache s x = some p) :
    (getN child x 1).run s = .ok [p.data] s := by
  have hh : hits s x 0 1 = [p.data] := by simp [hits, nth_zero, h]
  unfold getN getNLoop
  simp only [Nat.not_le_of_lt Nat.one_pos, if_false, Prog.get_bind, Nat.sub_zero, hh,
    List.length_singleton, Nat.zero_add, Nat.sub_self, misses, readRun, if_true, Prog.pure_bind,
    getNLoop, Nat.add_zero, Nat.lt_irrefl]
  rfl

/-- A write that is not coherent is read back wrongly. -/
theorem coherent_of_reads (hc : Lawful child c) {disk : σ} {heap : Nat → Bool}
    {past : List (Call UInt64 Sector UInt32)} {req : Call UInt64 Sector UInt32}
    {s t : BlkdevImpl σ} {ds : List Sector}
    (hs : (session (cacheBlkdev child) setFlags past).run (newCacheBlkdev disk heap) = .ok () s)
    (hcall : (call (cacheBlkdev child) setFlags req).run s = .ok ds t)
    (hr : ReadsLastWritten child c disk heap (past ++ [req])) : Coherent s req := by
  cases req with
  | getN b n => trivial
  | other f => trivial
  | putN b es =>
    intro hf x p hp d hd
    obtain ⟨u, t', hput, he⟩ := Prog.bind_eq_ok.mp hcall
    cases he
    obtain ⟨w, rfl, -⟩ := (putN_direct hc hf b es).ok hput
    have hone : (getN child x 1).run { s with child := w } = .ok [p.data] { s with child := w } :=
      getN_one_of_cached hp
    have hsession : (session (cacheBlkdev child) setFlags (past ++ [.putN b es])).run
        (newCacheBlkdev disk heap) = .ok () { s with child := w } := by
      refine session_append.mpr ⟨s, hs, ?_⟩
      simp only [session, Prog.bind_ok hcall, Prog.run_pure]
    have := hr _ (List.prefix_refl _) _ _ x 1 _ _ hsession hone
    have hlast : lastWritten x (writes (past ++ [Call.putN b es])) = some d := by
      rw [writes_append, lastWritten_append]
      simp [writes, lastWritten, hd]
    simpa [nth_zero, hlast] using this

/-- Reads deliver what was last written exactly where no write made while caching is
not enabled goes past a cached block that holds something else. -/
theorem reads_last_written_iff (hc : Lawful child c) {disk : σ} {heap : Nat → Bool}
    {calls : List (Call UInt64 Sector UInt32)} {t : BlkdevImpl σ}
    (h : (session (cacheBlkdev child) setFlags calls).run (newCacheBlkdev disk heap) = .ok () t) :
    ReadsLastWritten child c disk heap calls ↔
      Guarded (cacheBlkdev child) setFlags Coherent calls (newCacheBlkdev disk heap) := by
  constructor
  · have key : ∀ (calls past : List (Call UInt64 Sector UInt32)) (s : BlkdevImpl σ),
        (session (cacheBlkdev child) setFlags past).run (newCacheBlkdev disk heap) = .ok () s →
        (session (cacheBlkdev child) setFlags calls).run s = .ok () t →
        ReadsLastWritten child c disk heap (past ++ calls) →
        Guarded (cacheBlkdev child) setFlags Coherent calls s := by
      intro calls
      induction calls with
      | nil => intros; trivial
      | cons req calls ih =>
        intro past s hs ht hr
        obtain ⟨ds, s', hcall, hrest⟩ := Prog.bind_eq_ok.mp ht
        have hpre : past ++ [req] <+: past ++ req :: calls := ⟨calls, by simp⟩
        refine ⟨coherent_of_reads hc hs hcall fun p hp => hr p (hp.trans hpre), fun es u hu => ?_⟩
        rw [hcall] at hu
        cases hu
        refine ih (past ++ [req]) _ (session_append.mpr ⟨s, hs, ?_⟩) hrest ?_
        · simp only [session, Prog.bind_ok hcall, Prog.run_pure]
        · rwa [List.append_assoc]
    exact key calls [] _ rfl h
  · intro hg past hp u s b n ds t' hs hread
    obtain ⟨post, rfl⟩ := hp
    have hgp : Guarded (cacheBlkdev child) setFlags Coherent past (newCacheBlkdev disk heap) :=
      guarded_prefix hg
    have hst := session_ok (hgp.mono fun s c hcoh => stores_of_coherent hc hcoh) hs
    rw [((getN_ends hc s b n).ok hread).1]
    exact List.map_congr_left fun k _ => hst _

/-- A block is written while caching is enabled and again while it is not. -/
def staleCalls : List (Call UInt64 Sector UInt32) :=
  [.other 1, .putN 0 [Sector.fill 1], .other 0, .putN 0 [Sector.fill 2]]

theorem reads_last_written_iff_stale :
    ReadsLastWritten arrayDevice id (fun _ => Sector.fill 0) (fun _ => true) staleCalls ↔
      Guarded (cacheBlkdev arrayDevice) setFlags Coherent staleCalls
        (newCacheBlkdev (fun _ => Sector.fill 0) fun _ => true) :=
  reads_last_written_iff arrayDevice_lawful rfl

/-- The second write is not read back. -/
theorem stale_read : Lawful arrayDevice id ∧
    (∃ s, (session (cacheBlkdev arrayDevice) setFlags staleCalls).run
      (newCacheBlkdev (fun _ => Sector.fill 0) fun _ => true) = .ok () s) ∧
    ¬ ReadsLastWritten arrayDevice id (fun _ => Sector.fill 0) (fun _ => true) staleCalls := by
  refine ⟨arrayDevice_lawful, ⟨_, rfl⟩, fun h => ?_⟩
  have := h _ (List.prefix_refl _) _ _ 0 1 _ _ rfl
    (getN_one_of_cached (p := ⟨0, Sector.fill 1⟩) rfl)
  simp only [List.range_one, List.map_cons, List.map_nil, nth_zero, lastWritten, staleCalls, writes,
    written, if_true, Option.none_or, Option.some_or, Option.getD_some, List.cons.injEq,
    and_true] at this
  exact fill_ne (by decide) this

/-! ## Caching keeps the disk -/

/-- A block that one of the calls writes. -/
def WrittenBy (calls : List (Call UInt64 Sector UInt32)) (x : UInt64) : Prop :=
  ∃ w ∈ writes calls, ∃ k, k < w.2.length ∧ x = nth w.1 k

/-- What holds of the cache after any calls. -/
structure Sane (c : σ → UInt64 → Sector) (calls : List (Call UInt64 Sector UInt32))
    (s : BlkdevImpl σ) : Prop where
  tidy : Tidy s
  clean : Clean c (WrittenBy calls) s

/-- Calls whose number of blocks is a `UINTN`. -/
def Sized : Call UInt64 Sector UInt32 → Prop
  | .getN _ n => n < 2 ^ 64
  | .putN _ _ | .other _ => True

/-- A `GetN` or a `PutN`. -/
def Accesses : Call UInt64 Sector UInt32 → Prop
  | .getN _ _ | .putN _ _ => True
  | .other _ => False

theorem WrittenBy.mono {calls more : List (Call UInt64 Sector UInt32)} {x : UInt64}
    (h : WrittenBy calls x) : WrittenBy (calls ++ more) x := by
  obtain ⟨w, hw, k, hk, hx⟩ := h
  exact ⟨w, by rw [writes_append]; exact List.mem_append_left _ hw, k, hk, hx⟩

theorem Clean.mono {W W' : UInt64 → Prop} {s : BlkdevImpl σ} (h : Clean c W s)
    (hw : ∀ x, W x → W' x) : Clean c W' s := fun i p hp hn => h i p hp (mt (hw _) hn)

/-- What a call leads to: the invariant is kept, and while caching is enabled the
child is read only. -/
structure After (child : Device UInt64 σ Sector) (c : σ → UInt64 → Sector)
    (past : List (Call UInt64 Sector UInt32)) (req : Call UInt64 Sector UInt32)
    (s t : BlkdevImpl σ) : Prop where
  sane : Sane c (past ++ [req]) t
  reads : caching s = true → Accesses req → Reads child s.child t.child
  flags : Accesses req → t.flags = s.flags

theorem call_ends (hc : Lawful child c) {past : List (Call UInt64 Sector UInt32)}
    {req : Call UInt64 Sector UInt32} {s : BlkdevImpl σ} (hreq : Sized req) (h : Sane c past s) :
    Prog.Ends (call (cacheBlkdev child) setFlags req) s (fun _ t => After child c past req s t)
      (fun t => After child c past req s t) := by
  have hw : ∀ x, WrittenBy past x → WrittenBy (past ++ [req]) x := fun x hx => hx.mono
  cases req with
  | getN b n =>
    have hkept : ∀ t, Kept child c n s t → After child c past (.getN b n) s t := fun t ht =>
      ⟨⟨ht.tidy hreq h.tidy, (ht.clean _ h.clean).mono hw⟩, fun _ _ => ht.reads, fun _ => ht.flags⟩
    exact (getN_ends hc s b n).mono (fun _ t ht => hkept t ht.2) hkept
  | other f =>
    have hsame : ∀ flags, After child c past (.other f) s { s with flags } := fun flags =>
      ⟨⟨⟨h.tidy.own, h.tidy.nodup⟩, h.clean.mono hw⟩, fun _ h => h.elim, fun h => h.elim⟩
    refine .bind (Q := fun _ t => After child c past (.other f) s t) ?_ fun _ t ht => .pure ht
    unfold setFlags
    split
    · exact hsame s.flags
    · exact hsame f
  | putN b ds =>
    have hcover : ∀ x, (∃ k, k < ds.length ∧ x = nth b k) → WrittenBy (past ++ [.putN b ds]) x := by
      rintro x ⟨k, hk, hx⟩
      exact ⟨(b, ds), by rw [writes_append]; simp [writes], k, hk, hx⟩
    unfold call
    cases hf : caching s with
    | true =>
      have htouched : ∀ t, Touched c (fun x => ∃ k, k < ds.length ∧ x = nth b k) s t →
          After child c past (.putN b ds) s t := fun t ht =>
        ⟨⟨ht.tidy h.tidy, ht.clean _ hcover (h.clean.mono hw)⟩, fun _ _ => ht.child ▸ .refl _,
          fun _ => ht.flags⟩
      exact .bind ((putN_cached hf b ds).mono (fun _ _ h => h) htouched)
        fun _ t ht => .pure (htouched t ht.1)
    | false =>
      have hdirect : ∀ u, (∀ x, (∀ k, k < ds.length → x ≠ nth b k) → c u x = c s.child x) →
          After child c past (.putN b ds) s { s with child := u } := by
        refine fun u hu => ⟨⟨⟨h.tidy.own, h.tidy.nodup⟩, fun i p hp hn => ?_⟩,
          fun hc => absurd (hf.symm.trans hc) Bool.false_ne_true, fun _ => rfl⟩
        rw [h.clean i p hp (mt (hw _) hn)]
        exact (hu _ fun k hk he => hn (hcover _ ⟨k, hk, he⟩)).symm
      refine .bind ((putN_direct hc hf b ds).mono (fun _ _ h => h) ?_) ?_
      · rintro t ⟨u, rfl, hu⟩
        exact hdirect u hu
      · rintro _ t ⟨u, rfl, hu⟩
        refine .pure (hdirect u fun x hx => ?_)
        rw [hu]
        exact store_of_not fun j _ hj => hx j (by omega)

theorem Sane.fresh (disk : σ) (heap : Nat → Bool) : Sane c [] (newCacheBlkdev disk heap) :=
  ⟨⟨fun _ _ h => (List.not_mem_nil h).elim, fun _ => List.nodup_nil⟩,
    fun _ _ h => (List.not_mem_nil h).elim⟩

/-- While caching is enabled the disk is only read, and the cache stays a function of
the block number that agrees with the disk on the blocks never written. -/
theorem caching_keeps_disk (hc : Lawful child c) (disk : σ) (heap : Nat → Bool)
    {past calls : List (Call UInt64 Sector UInt32)} {s : BlkdevImpl σ}
    (hpast : attempts (cacheBlkdev child) setFlags past (newCacheBlkdev disk heap) = some s)
    (hf : caching s = true) (hcalls : ∀ req ∈ calls, Accesses req)
    (hsize : ∀ req ∈ past ++ calls, Sized req) :
    ∃ t, attempts (cacheBlkdev child) setFlags calls s = some t ∧ Reads child s.child t.child ∧
      (∀ i, ∀ p ∈ t.chains i, p.blkno.toNat % maxChains = i) ∧
      (∀ i, ((t.chains i).map Block.blkno).Nodup) ∧
      (∀ i j, ∀ p ∈ t.chains i, ∀ q ∈ t.chains j, p.blkno = q.blkno → i = j) ∧
      (∀ i, ∀ p ∈ t.chains i, ¬ WrittenBy (past ++ calls) p.blkno →
        p.data = c t.child p.blkno) := by
  obtain ⟨s', hs', hsane⟩ := attempts_keep (P := fun calls s => Sane c calls s) (D := Sized)
    (fun past req s hreq h => (call_ends hc hreq h).mono (fun _ _ h => h.sane) fun _ h => h.sane)
    (fun req hreq => hsize req (List.mem_append_left _ hreq)) (Sane.fresh disk heap)
  rw [hpast] at hs'
  cases hs'
  obtain ⟨t, ht, hsane', hreads, -⟩ := attempts_keep
    (P := fun calls t => Sane c calls t ∧ Reads child s.child t.child ∧ t.flags = s.flags)
    (D := fun req => Sized req ∧ Accesses req)
    (fun past req u hreq h => by
      have hfu : caching u = true := by unfold caching at hf ⊢; rw [h.2.2]; exact hf
      have hafter : ∀ t, After child c past req u t → Sane c (past ++ [req]) t ∧
          Reads child s.child t.child ∧ t.flags = s.flags := fun t ht =>
        ⟨ht.sane, h.2.1.trans (ht.reads hfu hreq.2), (ht.flags hreq.2).trans h.2.2⟩
      exact (call_ends hc hreq.1 h.1).mono (fun _ => hafter) hafter)
    (fun req hreq => ⟨hsize req (List.mem_append_right _ hreq), hcalls req hreq⟩)
    ⟨hsane, .refl _, rfl⟩
  refine ⟨t, ht, hreads, fun i p hp => congrArg Fin.val (hsane'.tidy.own i p hp),
    hsane'.tidy.nodup, fun i j p hp q hq he => ?_, hsane'.clean⟩
  rw [← hsane'.tidy.own i p hp, ← hsane'.tidy.own j q hq, he]

theorem caching_keeps_disk_write :
    ∃ t, attempts (cacheBlkdev arrayDevice) setFlags [.getN 3 2, .putN 4 [Sector.fill 1]]
        { newCacheBlkdev (fun _ => Sector.fill 0) fun _ => true with flags := 1 } = some t ∧
      Reads arrayDevice (fun _ => Sector.fill 0) t.child ∧
      (∀ i, ∀ p ∈ t.chains i, p.blkno.toNat % maxChains = i) ∧
      (∀ i, ((t.chains i).map Block.blkno).Nodup) ∧
      (∀ i j, ∀ p ∈ t.chains i, ∀ q ∈ t.chains j, p.blkno = q.blkno → i = j) ∧
      (∀ i, ∀ p ∈ t.chains i,
        ¬ WrittenBy [.other 1, .getN 3 2, .putN 4 [Sector.fill 1]] p.blkno →
        p.data = id t.child p.blkno) :=
  have hpast : attempts (cacheBlkdev arrayDevice) setFlags [.other 1]
      (newCacheBlkdev (fun _ => Sector.fill 0) fun _ => true) = some _ := rfl
  caching_keeps_disk arrayDevice_lawful _ _ hpast rfl (by simp [Accesses]) (by simp [Sized])

end LsvmTools.CacheCoherence
