import LsvmTools.CacheCoherence
import LsvmTools.LuksBlkdev

/-! # The boot device

`GetBootDevice` opens the LUKS device on a cache on the raw one. Until caching is enabled the cache
is empty and what is written is on the disk, encrypted; from then on the disk is only read, and
what is written is in the cache, encrypted all the same. -/
namespace LsvmTools.BootDevice
open Lib.ByteString Lib.Program Lib.Sectors Blkdev CacheBlkdev CacheCoherence Luks
open Addr (nth)

variable {σ : Type} (ssl : OpenSSL) (child : Device UInt64 σ Sector) (impl : LuksBlkdev.BlkdevImpl)

/-- The device that `GetBootDevice` delivers. -/
def bootdev : Device UInt64 (BlkdevImpl σ) Sector :=
  LuksBlkdev.luksBlkdev ssl (cacheBlkdev child) impl

/-- `BLKDEV_ENABLE_CACHING`. -/
def enableCaching : Call UInt64 Sector UInt32 := .other 1

/-- The plaintext of a disk. -/
def plaintext {τ : Type} (c : τ → UInt64 → Sector) (s : τ) : UInt64 → Sector :=
  LuksBlkdev.content ssl impl c s

/-! ## The cache while it is empty -/

variable {ssl child impl} {c : σ → UInt64 → Sector}

/-- No block is cached. -/
def Empty (s : BlkdevImpl σ) : Prop := ∀ x, getCache s x = none

theorem hits_empty {s : BlkdevImpl σ} (h : Empty s) (b : UInt64) (i n : Nat) : hits s b i n = [] := by
  cases n with
  | zero => rfl
  | succ n => rw [hits, h]

theorem misses_empty {s : BlkdevImpl σ} (h : Empty s) (b : UInt64) (i n : Nat) :
    misses s b i n = n := by
  induction n generalizing i with
  | zero => rfl
  | succ n ih => rw [misses, h, Option.isSome_none, if_neg Bool.false_ne_true, ih]

theorem getNLoop_done (b : UInt64) (n fuel i : Nat) (h : n ≤ i) :
    getNLoop child b n fuel i = pure [] := by
  cases fuel with
  | zero => rw [getNLoop, if_neg (by omega)]
  | succ fuel => rw [getNLoop, if_pos h]

/-- A read of an empty cache is one of the child. -/
theorem getN_past {s : BlkdevImpl σ} (h : Empty s) (hf : caching s = false) (b : UInt64) {n : Nat}
    (hn : n ≠ 0) : (getN child b n).run s = (onChild (child.getN b n)).run s := by
  obtain ⟨m, rfl⟩ := Nat.exists_eq_succ_of_ne_zero hn
  have hrun : (readRun child b 0 (m + 1)).run s = (onChild (child.getN b (m + 1))).run s := by
    unfold readRun
    rw [if_neg hn, Prog.get_bind, hf, nth_zero, Prog.run_bind]
    simp only [Bool.false_eq_true, if_false]
    cases (onChild (child.getN b (m + 1))).run s <;> rfl
  unfold getN getNLoop
  rw [if_neg (by omega), Prog.get_bind]
  simp only [hits_empty h, misses_empty h, List.length_nil, Nat.add_zero, Nat.sub_zero,
    List.nil_append]
  rw [Prog.run_bind, hrun]
  cases (onChild (child.getN b (m + 1))).run s with
  | ok ds t =>
    simp only [getNLoop_done b _ _ _ (Nat.le_of_eq (Nat.zero_add _).symm), Prog.pure_bind,
      List.append_nil, Prog.run_pure]
  | err e t => rfl
  | stuck => rfl

/-! ## One call of the cache -/

/-- Caching is enabled, or there is nothing in the cache. -/
def Steady (s : BlkdevImpl σ) : Prop := caching s = false → Empty s

/-- Caching may be enabled and is not disabled again. -/
def OneWay : Call UInt64 Sector UInt32 → Prop
  | .other flags => flags = 1
  | .getN _ _ | .putN _ _ => True

/-- The call does not write the block. -/
def Spares (x : UInt64) : Call UInt64 Sector UInt32 → Prop
  | .putN b ds => ∀ k, k < ds.length → x ≠ nth b k
  | .getN _ _ | .other _ => True

variable {req : Call UInt64 Sector UInt32} {s t : BlkdevImpl σ}

/-- What a call of the cache does to it and to the disk, whether or not it succeeds. -/
structure Step (child : Device UInt64 σ Sector) (c : σ → UInt64 → Sector)
    (req : Call UInt64 Sector UInt32) (s t : BlkdevImpl σ) : Prop where
  past : caching s = false → Accesses req → t = { s with child := t.child }
  reads : caching s = true → caching t = true ∧ Reads child s.child t.child
  spares : ∀ x, Spares x req → c t.child x = c s.child x
  steady : Steady t

theorem steady_of_caching (h : caching s = true) : Steady s := fun hf =>
  absurd (hf.symm.trans h) Bool.false_ne_true

theorem Step.refl (req : Call UInt64 Sector UInt32) (hs : Steady s) : Step child c req s s :=
  ⟨fun _ _ => rfl, fun h => ⟨h, .refl _⟩, fun _ _ => rfl, hs⟩

theorem Step.of_past (hs : Steady s) (hf : caching s = false) {u : σ}
    (hu : ∀ x, Spares x req → c u x = c s.child x) :
    Step child c req s { s with child := u } :=
  ⟨fun _ _ => rfl, fun h => absurd (hf.symm.trans h) Bool.false_ne_true, hu, hs⟩

theorem Step.of_cached (hc : Lawful child c) (hf : caching s = true) (hflags : t.flags = s.flags)
    (hr : Reads child s.child t.child) : Step child c req s t := by
  have ht : caching t = true := by rw [caching, hflags]; exact hf
  exact ⟨fun h => absurd (h.symm.trans hf) Bool.false_ne_true, fun _ => ⟨ht, hr⟩,
    fun x _ => by rw [hc.toHonest.reads hr], steady_of_caching ht⟩

theorem call_step (hc : Lawful child c) (hreq : OneWay req) (hs : Steady s) :
    Prog.Ends (call (cacheBlkdev child) setFlags req) s (fun _ t => Step child c req s t)
      (fun t => Step child c req s t) := by
  cases req with
  | getN b n =>
    cases hf : caching s with
    | true =>
      refine (getN_ends hc s b n).mono (fun _ t h => ?_) fun t h => ?_
      · exact .of_cached hc hf h.2.flags h.2.reads
      · exact .of_cached hc hf h.flags h.reads
    | false =>
      by_cases hn : n = 0
      · subst hn
        exact .refl _ hs
      · have hends := onChild_ends (s := s) (.intro (Q := fun _ u => c u = c s.child)
          (E := fun u => c u = c s.child) (fun _ _ h => (hc.getN_ok h).2)
          (fun _ _ h => hc.getN_err h) (hc.getN_returns s.child b n))
        unfold Prog.Ends
        rw [show (call (cacheBlkdev child) setFlags (.getN b n)).run s =
          (onChild (child.getN b n)).run s from getN_past (hs hf) hf b hn]
        refine hends.mono ?_ ?_
        · rintro ds t ⟨u, rfl, hu⟩
          exact .of_past hs hf fun x _ => congrFun hu x
        · rintro t ⟨u, rfl, hu⟩
          exact .of_past hs hf fun x _ => congrFun hu x
  | putN b ds =>
    unfold call
    cases hf : caching s with
    | true =>
      have hstep : ∀ t, Touched c (fun x => ∃ k, k < ds.length ∧ x = nth b k) s t →
          Step child c (.putN b ds) s t := fun t h =>
        .of_cached hc hf h.flags (h.child ▸ .refl _)
      exact .bind ((putN_cached hf b ds).mono (fun _ _ h => h) hstep) fun _ t h => .pure (hstep t h.1)
    | false =>
      refine .bind ((putN_direct hc hf b ds).mono (fun _ _ h => h) ?_) ?_
      · rintro t ⟨u, rfl, hu⟩
        exact .of_past hs hf hu
      · rintro _ t ⟨u, rfl, hu⟩
        refine .pure (.of_past hs hf fun x hx => ?_)
        rw [hu]
        exact store_of_not fun j _ hj => hx j (by omega)
  | other flags =>
    cases hreq
    have ht : caching { s with flags := 1 } = true := by
      show ((1 : UInt32) &&& 1 != 0) = true
      decide
    have hstep : Step child c (.other 1) s { s with flags := 1 } :=
      ⟨fun _ h => h.elim, fun _ => ⟨ht, .refl _⟩, fun _ _ => rfl, steady_of_caching ht⟩
    exact hstep

/-! ## The device while it is steady -/

/-- The device, where what is asked of it in other states is refused. -/
noncomputable def within {σ ι β : Type} (dev : Device ι σ β) (p : σ → Prop) : Device ι σ β where
  getN b n := ⟨fun s => open Classical in if p s then (dev.getN b n).run s else .err () s⟩
  putN b ds := ⟨fun s => open Classical in if p s then (dev.putN b ds).run s else .err () s⟩

section Within

variable {σ ι β : Type} {dev : Device ι σ β} {p : σ → Prop} {s t : σ} {b : ι} {n : Nat}
  {ds : List β} {u : Unit}

theorem within_getN (h : p s) : ((within dev p).getN b n).run s = (dev.getN b n).run s :=
  if_pos h

theorem within_putN (h : p s) : ((within dev p).putN b ds).run s = (dev.putN b ds).run s :=
  if_pos h

theorem within_getN_refused (h : ¬ p s) : ((within dev p).getN b n).run s = .err () s :=
  if_neg h

theorem within_putN_refused (h : ¬ p s) : ((within dev p).putN b ds).run s = .err () s :=
  if_neg h

/-- What holds of the calls in these states makes the device an array. -/
theorem within_honest [Addr ι] [DecidableEq ι] {content : σ → ι → β}
    (hget : ∀ s b n, p s → Prog.Ends (dev.getN b n) s
      (fun ds t => ds = load (content s) b n ∧ content t = content s) fun t => content t = content s)
    (hput : ∀ s b ds, p s → Prog.Ends (dev.putN b ds) s
      (fun _ t => content t = store (content s) b 0 ds)
      fun t => ∀ x, (∀ k, k < ds.length → x ≠ nth b k) → content t x = content s x) :
    Honest (within dev p) content where
  getN_ok {s t b n ds} h := by
    by_cases hp : p s
    · rw [within_getN hp] at h
      exact (hget s b n hp).ok h
    · rw [within_getN_refused hp] at h
      cases h
  getN_err {s t b n e} h := by
    by_cases hp : p s
    · rw [within_getN hp] at h
      exact (hget s b n hp).err h
    · rw [within_getN_refused hp] at h
      cases h
      rfl
  putN_ok {s t b ds u} h := by
    by_cases hp : p s
    · rw [within_putN hp] at h
      exact (hput s b ds hp).ok h
    · rw [within_putN_refused hp] at h
      cases h
  putN_err {s t b ds e} h := by
    by_cases hp : p s
    · rw [within_putN hp] at h
      exact (hput s b ds hp).err h
    · rw [within_putN_refused hp] at h
      cases h
      exact fun _ _ => rfl

end Within

theorem content_empty {s : BlkdevImpl σ} (h : Empty s) : content c s = c s.child := by
  funext x
  rw [content_of_miss (h x)]

theorem cacheBlkdev_honest (hc : Lawful child c) :
    Honest (within (cacheBlkdev child) Steady) (content c) := by
  refine within_honest (fun s b n _ => ?_) fun s b ds hs => ?_
  · exact (getN_ends hc s b n).mono (fun _ _ h => ⟨h.1, h.2.content⟩) fun _ h => h.content
  · cases hf : caching s with
    | true =>
      refine (putN_cached hf b ds).mono (fun _ _ h => h.2) fun t h x hx => h.content x ?_
      rintro ⟨k, hk, rfl⟩
      exact hx k hk rfl
    | false =>
      have hempty : Empty s := hs hf
      refine (putN_direct hc hf b ds).mono ?_ ?_
      · rintro _ t ⟨u, rfl, hu⟩
        rw [content_empty (s := { s with child := u }) hempty, content_empty hempty]
        exact hu
      · rintro t ⟨u, rfl, hu⟩
        rw [content_empty (s := { s with child := u }) hempty, content_empty hempty]
        exact hu

/-! ## The LUKS device -/

/-- The call of the raw device that one of the LUKS device leads to. -/
def Shifted (header : LUKSHeader) : Call UInt64 Sector UInt32 → Call UInt64 Sector UInt32 → Prop
  | .getN b n, req => req = .getN (LuksBlkdev.payload header + b) n
  | .putN b ds, req => ∃ es, es.length = ds.length ∧ req = .putN (LuksBlkdev.payload header + b) es
  | .other flags, req => req = .other flags

section Luks

variable {τ : Type} {raw raw' : Device UInt64 τ Sector} {s t : τ}
  {req : Call UInt64 Sector UInt32}

/-- The LUKS device is the same on devices that do the same. -/
theorem luks_getN_congr {b : UInt64} {n : Nat}
    (h : ∀ b n, (raw.getN b n).run s = (raw'.getN b n).run s) :
    (LuksBlkdev.getN ssl raw impl b n).run s = (LuksBlkdev.getN ssl raw' impl b n).run s := by
  unfold LuksBlkdev.getN
  split
  · rfl
  · split
    · rfl
    · split
      · rfl
      · rw [Prog.run_bind, Prog.run_bind, h]

theorem luks_putN_congr {b : UInt64} {ds : List Sector}
    (h : ∀ b ds, (raw.putN b ds).run s = (raw'.putN b ds).run s) :
    (LuksBlkdev.putN ssl raw impl b ds).run s = (LuksBlkdev.putN ssl raw' impl b ds).run s := by
  unfold LuksBlkdev.putN
  split
  · rfl
  · split
    · rfl
    · split
      · rfl
      · unfold LuksBlkdev.crypt
        cases luksCrypt ssl true impl.header impl.masterkey (concat ds) b with
        | ok tmp =>
          have hread : (Prog.read fun _ => Out.ok tmp).run s = (.ok tmp s : Res τ Unit Bytes) := rfl
          rw [Prog.bind_ok hread, Prog.bind_ok hread, h]
        | err e => rfl
        | stuck => rfl

/-- What is left behind by a call that returns. -/
def Leaves {α : Type} (m : Prog τ Unit α) (s t : τ) : Prop :=
  (∃ a, m.run s = .ok a t) ∨ ∃ e, m.run s = .err e t

theorem attempt_leaves {dev : Device UInt64 τ Sector} {other : UInt32 → Prog τ Unit Unit} :
    attempt dev other req s = some t ↔ Leaves (call dev other req) s t := by
  unfold attempt Leaves
  cases (call dev other req).run s <;> simp

theorem Leaves.bind_pure {m : Prog τ Unit Unit} {α : Type} {a : α} :
    Leaves (do m; pure a) s t ↔ Leaves m s t := by
  unfold Leaves
  rw [Prog.run_bind]
  cases m.run s <;> simp

theorem Leaves.pure {α : Type} {a : α} (h : Leaves (pure a) s t) : t = s := by
  obtain ⟨a, h⟩ | ⟨e, h⟩ := h
  · cases h
    rfl
  · cases h

theorem Leaves.throw {α : Type} {e : Unit} (h : Leaves (Prog.throw e : Prog τ Unit α) s t) :
    t = s := by
  obtain ⟨a, h⟩ | ⟨e, h⟩ := h
  · cases h
  · cases h
    rfl

theorem Leaves.not_stuck {α : Type} (h : Leaves (Prog.stuck : Prog τ Unit α) s t) : False := by
  obtain ⟨a, h⟩ | ⟨e, h⟩ := h <;> cases h

theorem Leaves.read {α β : Type} {x : Out Unit α} {k : α → Prog τ Unit β}
    (h : Leaves (Prog.read (fun _ => x) >>= k) s t) : t = s ∨ ∃ a, x = .ok a ∧ Leaves (k a) s t := by
  cases x with
  | ok a => exact .inr ⟨a, rfl, h⟩
  | err e =>
    obtain ⟨a, h⟩ | ⟨e, h⟩ := h
    · cases h
    · cases h
      exact .inl rfl
  | stuck => obtain ⟨a, h⟩ | ⟨e, h⟩ := h <;> cases h

/-- Nothing is left behind by what only reads. -/
theorem Leaves.bind {α β : Type} {m : Prog τ Unit α} {k : α → Prog τ Unit β}
    (h : Leaves (m >>= k) s t) (hk : ∀ a u, Leaves (k a) u t → t = u) : Leaves m s t := by
  unfold Leaves at h ⊢
  rw [Prog.run_bind] at h
  cases hm : m.run s with
  | ok a u =>
    rw [hm] at h
    rw [hk a u h]
    exact .inl ⟨a, rfl⟩
  | err e u =>
    rw [hm] at h
    obtain ⟨a, h⟩ | ⟨e', h⟩ := h
    · cases h
    · cases h
      exact .inr ⟨e, rfl⟩
  | stuck =>
    rw [hm] at h
    obtain ⟨a, h⟩ | ⟨e, h⟩ := h <;> cases h

theorem length_split (data : Bytes) (n : Nat) : (split data n).length = n := by
  induction n generalizing data with
  | zero => rfl
  | succ n ih => rw [split, List.length_cons, ih]

/-- A call of the LUKS device is a call of the raw one with as many blocks, or none. -/
theorem luks_attempt {other : UInt32 → Prog τ Unit Unit}
    (h : attempt (LuksBlkdev.luksBlkdev ssl raw impl) other req s = some t) : t = s ∨
      ∃ req', attempt raw other req' s = some t ∧ Shifted impl.header req req' := by
  rw [attempt_leaves] at h
  cases req with
  | other flags => exact .inr ⟨.other flags, attempt_leaves.mpr h, rfl⟩
  | getN b n =>
    have h : Leaves (LuksBlkdev.getN ssl raw impl b n) s t := h
    unfold LuksBlkdev.getN at h
    split at h
    · exact .inl h.pure
    · split at h
      · exact .inl h.throw
      · split at h
        · exact h.not_stuck.elim
        · refine .inr ⟨.getN (LuksBlkdev.payload impl.header + b) n, attempt_leaves.mpr ?_, rfl⟩
          refine h.bind fun tmp u h => ?_
          obtain h | ⟨data, -, h⟩ := h.read
          · exact h
          · exact h.pure
  | putN b ds =>
    have h : Leaves (LuksBlkdev.putN ssl raw impl b ds) s t := Leaves.bind_pure.mp h
    unfold LuksBlkdev.putN at h
    split at h
    · exact .inl h.pure
    · split at h
      · exact .inl h.throw
      · split at h
        · exact h.not_stuck.elim
        · obtain h | ⟨tmp, -, h⟩ := h.read
          · exact .inl h
          · exact .inr ⟨.putN (LuksBlkdev.payload impl.header + b) (split tmp ds.length),
              attempt_leaves.mpr (Leaves.bind_pure.mpr h), _, length_split .., rfl⟩

end Luks

/-! ## Runs -/

/-- What one call keeps, any run of them does. -/
theorem attempts_invariant {τ : Type} {dev : Device UInt64 τ Sector}
    {other : UInt32 → Prog τ Unit Unit} {p : τ → Prop} {calls : List (Call UInt64 Sector UInt32)}
    (hstep : ∀ req ∈ calls, ∀ s t, p s → attempt dev other req s = some t → p t) {s t : τ}
    (hs : p s) (h : attempts dev other calls s = some t) : p t := by
  induction calls generalizing s with
  | nil =>
    cases h
    exact hs
  | cons req calls ih =>
    obtain ⟨u, hu, h⟩ := Option.bind_eq_some_iff.mp h
    exact ih (fun req' hreq => hstep req' (by simp [hreq]))
      (hstep req List.mem_cons_self s u hs hu) h

theorem session_attempts {τ : Type} {dev : Device UInt64 τ Sector}
    {other : UInt32 → Prog τ Unit Unit} {calls : List (Call UInt64 Sector UInt32)} {s t : τ}
    {u : Unit} (h : (session dev other calls).run s = .ok u t) :
    attempts dev other calls s = some t := by
  induction calls generalizing s with
  | nil =>
    cases h
    rfl
  | cons req calls ih =>
    obtain ⟨ds, s', hcall, h⟩ := Prog.bind_eq_ok.mp h
    exact Option.bind_eq_some_iff.mpr ⟨s', attempt_leaves.mpr (.inl ⟨ds, hcall⟩), ih h⟩

/-- A call of the boot device is a step of the cache. -/
theorem bootdev_step (hc : Lawful child c) (hreq : OneWay req) (hs : Steady s)
    (h : attempt (bootdev ssl child impl) setFlags req s = some t) : t = s ∨
      ∃ req', Shifted impl.header req req' ∧ Step child c req' s t := by
  refine (luks_attempt h).imp id fun hstep => ?_
  obtain ⟨req', hreq', hshift⟩ := hstep
  have hone : OneWay req' := by
    cases req with
    | getN b n => subst hshift; trivial
    | putN b ds =>
      obtain ⟨es, -, rfl⟩ := hshift
      trivial
    | other flags =>
      subst hshift
      exact hreq
  have hends := call_step hc hone hs
  obtain ⟨ds, hr⟩ | ⟨e, hr⟩ := attempt_leaves.mp hreq'
  · exact ⟨req', hshift, hends.ok hr⟩
  · exact ⟨req', hshift, hends.err hr⟩

theorem bootdev_steady (hc : Lawful child c) (hreq : OneWay req) (hs : Steady s)
    (h : attempt (bootdev ssl child impl) setFlags req s = some t) : Steady t := by
  obtain rfl | ⟨req', -, hstep⟩ := bootdev_step hc hreq hs h
  · exact hs
  · exact hstep.steady

theorem accesses_oneWay (h : Accesses req) : OneWay req := by
  cases req with
  | getN b n => trivial
  | putN b ds => trivial
  | other flags => exact h.elim

/-- Until caching is enabled the cache is as it was. -/
theorem run_past (hc : Lawful child c) {calls : List (Call UInt64 Sector UInt32)}
    (hcalls : ∀ req ∈ calls, Accesses req) (hf : caching s = false) (hs : Steady s)
    (h : attempts (bootdev ssl child impl) setFlags calls s = some t) :
    t = { s with child := t.child } := by
  refine attempts_invariant (p := fun t => t = { s with child := t.child }) ?_ rfl h
  rintro req hreq t u ht hu
  have hft : caching t = false := by rw [ht]; exact hf
  have hst : Steady t := by rw [ht]; exact hs
  obtain rfl | ⟨req', hshift, hstep⟩ := bootdev_step hc (accesses_oneWay (hcalls req hreq)) hst hu
  · exact ht
  · have hacc : Accesses req' := by
      have := hcalls req hreq
      cases req with
      | getN b n => subst hshift; trivial
      | putN b ds =>
        obtain ⟨es, -, rfl⟩ := hshift
        trivial
      | other flags => exact this.elim
    rw [hstep.past hft hacc, ht]

/-- Once caching is enabled the disk is only read. -/
theorem run_reads (hc : Lawful child c) {calls : List (Call UInt64 Sector UInt32)}
    (hcalls : ∀ req ∈ calls, OneWay req) (hf : caching s = true)
    (h : attempts (bootdev ssl child impl) setFlags calls s = some t) :
    Reads child s.child t.child := by
  have hrun := attempts_invariant
    (p := fun t : BlkdevImpl σ => caching t = true ∧ Reads child s.child t.child)
    (fun req hreq t u ht hu => ?_) ⟨hf, .refl _⟩ h
  · exact hrun.2
  · obtain rfl | ⟨req', -, hstep⟩ :=
      bootdev_step hc (hcalls req hreq) (steady_of_caching ht.1) hu
    · exact ht
    · exact ⟨(hstep.reads ht.1).1, ht.2.trans (hstep.reads ht.1).2⟩

theorem shifted_spares {req' : Call UInt64 Sector UInt32} (hshift : Shifted impl.header req req')
    (hfits : LuksBlkdev.Fits impl.header req) {x : UInt64}
    (hx : x.toNat < (LuksBlkdev.payload impl.header).toNat) : Spares x req' := by
  cases req with
  | getN b n => subst hshift; trivial
  | other flags => subst hshift; trivial
  | putN b ds =>
    obtain ⟨es, hlen, rfl⟩ := hshift
    intro k hk hxk
    have hfits : (LuksBlkdev.payload impl.header).toNat + b.toNat + ds.length ≤ 2 ^ 64 := hfits
    have hsum : (LuksBlkdev.payload impl.header + b + UInt64.ofNat k).toNat =
        (LuksBlkdev.payload impl.header).toNat + b.toNat + k := by
      rw [UInt64.toNat_add, UInt64.toNat_add, UInt64.toNat_ofNat_of_lt' (by show k < 2 ^ 64; omega)]
      omega
    rw [hxk, nth_eq, hsum] at hx
    omega

/-- The blocks below the payload are never written. -/
theorem run_spares (hc : Lawful child c) {calls : List (Call UInt64 Sector UInt32)}
    (hcalls : ∀ req ∈ calls, OneWay req) (hfits : ∀ req ∈ calls, LuksBlkdev.Fits impl.header req)
    {x : UInt64} (hx : x.toNat < (LuksBlkdev.payload impl.header).toNat) (hs : Steady s)
    (h : attempts (bootdev ssl child impl) setFlags calls s = some t) :
    c t.child x = c s.child x := by
  have hrun := attempts_invariant
    (p := fun t : BlkdevImpl σ => Steady t ∧ c t.child x = c s.child x)
    (fun req hreq t u ht hu => ?_) ⟨hs, rfl⟩ h
  · exact hrun.2
  · refine ⟨bootdev_steady hc (hcalls req hreq) ht.1 hu, ?_⟩
    obtain rfl | ⟨req', hshift, hstep⟩ := bootdev_step hc (hcalls req hreq) ht.1 hu
    · exact ht.2
    · exact (hstep.spares x (shifted_spares hshift (hfits req hreq) hx)).trans ht.2

/-! ## Reading what was written -/

theorem bootdev_run (hs : Steady s) (req : Call UInt64 Sector UInt32) :
    (call (bootdev ssl child impl) setFlags req).run s =
      (call (LuksBlkdev.luksBlkdev ssl (within (cacheBlkdev child) Steady) impl) setFlags req).run s := by
  cases req with
  | getN b n => exact luks_getN_congr fun b n => (within_getN hs).symm
  | putN b ds =>
    unfold call
    rw [Prog.run_bind, Prog.run_bind]
    rw [show ((bootdev ssl child impl).putN b ds).run s =
      ((LuksBlkdev.luksBlkdev ssl (within (cacheBlkdev child) Steady) impl).putN b ds).run s from
      luks_putN_congr fun b ds => (within_putN hs).symm]
  | other flags => rfl

theorem bootdev_honest (hssl : ssl.Sound) (hc : Lawful child c) :
    Honest (LuksBlkdev.luksBlkdev ssl (within (cacheBlkdev child) Steady) impl)
      (plaintext ssl impl (content c)) :=
  LuksBlkdev.luksBlkdev_honest hssl (cacheBlkdev_honest hc)

theorem bootdev_stores (hssl : ssl.Sound) (hc : Lawful child c)
    {calls : List (Call UInt64 Sector UInt32)} (hcalls : ∀ req ∈ calls, OneWay req)
    (hs : Steady s) : Guarded (bootdev ssl child impl) setFlags
      (Stores (bootdev ssl child impl) setFlags (plaintext ssl impl (content c))) calls s := by
  induction calls generalizing s with
  | nil => trivial
  | cons req calls ih =>
    have hreq := hcalls req List.mem_cons_self
    refine ⟨fun ds t hr => ?_, fun ds t hr => ih (fun r hr => hcalls r (by simp [hr])) ?_⟩
    · rw [bootdev_run hs] at hr
      refine (bootdev_honest hssl hc).stores ?_ s req ds t hr
      intro flags s t u hset
      unfold setFlags at hset
      split at hset
      · cases hset
      · cases hset
        rfl
    · exact bootdev_steady hc hreq hs (attempt_leaves.mpr (.inl ⟨ds, hr⟩))

theorem caching_new (disk : σ) (heap : Nat → Bool) : caching (newCacheBlkdev disk heap) = false := by
  show ((0 : UInt32) &&& 1 != 0) = false
  decide

/-- What the boot device does to a disk. -/
structure HoldsBack (ssl : OpenSSL) (child : Device UInt64 σ Sector) (impl : LuksBlkdev.BlkdevImpl)
    (c : σ → UInt64 → Sector) (disk : σ) (heap : Nat → Bool) : Prop where
  /-- Until caching is enabled all that is written is on the disk. -/
  direct : ∀ {past u s}, (∀ req ∈ past, Accesses req) →
    (session (bootdev ssl child impl) setFlags past).run (newCacheBlkdev disk heap) = .ok u s →
    ∀ x, plaintext ssl impl c s.child x =
      (lastWritten x (writes past)).getD (plaintext ssl impl c disk x)
  /-- From then on the disk is only read, whatever fails. -/
  kept : ∀ {past calls s t}, (∀ req ∈ past ++ calls, OneWay req) →
    attempts (bootdev ssl child impl) setFlags past (newCacheBlkdev disk heap) = some s →
    caching s = true → attempts (bootdev ssl child impl) setFlags calls s = some t →
    Reads child s.child t.child
  /-- Reads deliver what was last written, before or after. -/
  reads : ∀ {calls u s b n ds t}, (∀ req ∈ calls, OneWay req) →
    (session (bootdev ssl child impl) setFlags calls).run (newCacheBlkdev disk heap) = .ok u s →
    ((bootdev ssl child impl).getN b n).run s = .ok ds t →
    ds = (List.range n).map fun k =>
      (lastWritten (nth b k) (writes calls)).getD (plaintext ssl impl c disk (nth b k))
  /-- The LUKS header and the key material stay as they are. -/
  below : ∀ {calls s}, (∀ req ∈ calls, OneWay req ∧ LuksBlkdev.Fits impl.header req) →
    attempts (bootdev ssl child impl) setFlags calls (newCacheBlkdev disk heap) = some s →
    ∀ x : UInt64, x.toNat < (LuksBlkdev.payload impl.header).toNat → c s.child x = c disk x

end LsvmTools.BootDevice
