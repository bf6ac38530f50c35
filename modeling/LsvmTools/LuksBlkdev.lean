import LsvmTools.Luks

/-! # The LUKS block device

Block `b` of the device is raw sector `payload_offset + b`, encrypted as sector `b`.
Seen through the cipher the raw device is an array of plaintext sectors. -/
namespace LsvmTools.LuksBlkdev
open Lib.ByteString Lib.Program Lib.Sectors Blkdev Luks
open Addr (nth)

structure BlkdevImpl where
  header : LUKSHeader
  masterkey : Bytes
  /-- Whether an allocation of this size succeeds. -/
  malloc : Nat → Bool

variable {σ : Type} (ssl : OpenSSL) (rawdev : Device UInt64 σ Sector) (impl : BlkdevImpl)

def payload (header : LUKSHeader) : UInt64 := header.payloadOffset.toUInt64

/-- `LUKSCrypt`, as a step of a block device. -/
def crypt (enc : Bool) (input : Bytes) (sector : UInt64) : Prog σ Unit Bytes :=
  Prog.read fun _ => luksCrypt ssl enc impl.header impl.masterkey input sector

/-- `_GetN`. The size of the buffer is computed in 64 bits; a run for which it wraps
would not fit the buffer. -/
def getN (blkno : UInt64) (nblocks : Nat) : Prog σ Unit (List Sector) :=
  if nblocks = 0 then pure []
  else if !impl.malloc (u64 (nblocks * 512)) then Prog.throw ()
  else if 2 ^ 64 ≤ nblocks * 512 then Prog.stuck
  else do
    let tmp ← rawdev.getN (payload impl.header + blkno) nblocks
    let data ← crypt ssl impl false (concat tmp) blkno
    pure (split data nblocks)

/-- `_PutN`. -/
def putN (blkno : UInt64) (data : List Sector) : Prog σ Unit Unit :=
  if data.length = 0 then pure ()
  else if !impl.malloc (u64 (data.length * 512)) then Prog.throw ()
  else if 2 ^ 64 ≤ data.length * 512 then Prog.stuck
  else do
    let tmp ← crypt ssl impl true (concat data) blkno
    rawdev.putN (payload impl.header + blkno) (split tmp data.length)

def luksBlkdev : Device UInt64 σ Sector := ⟨getN ssl rawdev impl, putN ssl rawdev impl⟩

/-- `_SetFlags`: no flags are supported. -/
def setFlags (_ : UInt32) : Prog σ Unit Unit := Prog.throw ()

/-- `LUKSGetPayloadSector`. -/
def luksGetPayloadSector (sectorNumber : UInt64) : Prog σ Unit Bytes := do
  let data ← blkdevRead rawdev (payload impl.header + sectorNumber) 512
  crypt ssl impl false data sectorNumber

/-- `LUKSPutPayloadSector`. -/
def luksPutPayloadSector (sectorNumber : UInt64) (sector : Sector) : Prog σ Unit Unit := do
  let data ← crypt ssl impl true sector.bytes sectorNumber
  blkdevWrite rawdev (payload impl.header + sectorNumber) data

/-! ## The plaintext -/

variable {ssl rawdev impl} {c : σ → UInt64 → Sector}

/-- The plaintext of a raw sector that holds block `x`. -/
def plain (ssl : OpenSSL) (impl : BlkdevImpl) (x : UInt64) (d : Sector) : Sector :=
  match cryptSector ssl false impl.header impl.masterkey x d with
  | .ok b => Sector.ofBytes b
  | .err _ | .stuck => Sector.fill 0

/-- The array that the device is. -/
def content (ssl : OpenSSL) (impl : BlkdevImpl) (c : σ → UInt64 → Sector) (s : σ) (x : UInt64) :
    Sector := plain ssl impl x (c s (payload impl.header + x))

theorem plain_of_crypt {x : UInt64} {d e : Sector}
    (h : cryptSector ssl false impl.header impl.masterkey x d = .ok e.bytes) :
    plain ssl impl x d = e := by
  have := ofBytes_append e []
  rw [List.append_nil] at this
  unfold plain
  rw [h]
  exact this

theorem nth_payload (p x : UInt64) (k : Nat) : (nth (p + x) k : UInt64) = p + nth x k :=
  UInt64.add_assoc p x _

theorem plain_of_crypts {b : UInt64} {k : Nat} {ds es : List Sector}
    (h : Crypts ssl false impl.header impl.masterkey b k ds es) :
    es = ds.mapIdx fun j d => plain ssl impl (nth b (k + j)) d := by
  induction ds generalizing k es with
  | nil => exact h
  | cons d ds ih =>
    obtain ⟨e, es', rfl, he, h⟩ := h
    rw [List.mapIdx_cons, ih h]
    simp only [Nat.add_zero, plain_of_crypt he, List.cons.injEq, true_and]
    congr 1
    funext j d
    rw [show k + 1 + j = k + (j + 1) by omega]

theorem load_mapIdx (a : UInt64 → Sector) (b : UInt64) (n : Nat) (f : Nat → Sector → Sector) :
    (load a b n).mapIdx f = (List.range n).map fun j => f j (a (nth b j)) := by
  apply List.ext_getElem (by simp [load])
  intro i h1 h2
  simp [load]

/-- What is written to the raw device decrypts to what was written. -/
theorem written_crypts (hssl : ssl.Sound) {b : UInt64} {ds es : List Sector} {k : Nat}
    (h : Crypts ssl true impl.header impl.masterkey b k ds es) (x : UInt64) :
    (written (payload impl.header + b) (payload impl.header + x) k es).map (plain ssl impl x) =
      written b x k ds := by
  induction ds generalizing k es with
  | nil => cases h; rfl
  | cons d ds ih =>
    obtain ⟨e, es', rfl, he, h⟩ := h
    have hx : payload impl.header + x = nth (payload impl.header + b) k ↔ x = nth b k := by
      rw [nth_payload]; exact UInt64.add_right_inj _
    simp only [written, Option.map_or, ih h, hx]
    congr 1
    by_cases hk : x = nth b k
    · subst hk
      rw [if_pos rfl, if_pos rfl, Option.map_some, plain_of_crypt (decrypt_encrypt hssl he)]
    · rw [if_neg hk, if_neg hk, Option.map_none]

theorem getN_ok (hssl : ssl.Sound) (hc : Honest rawdev c) {s t : σ} {b : UInt64} {n : Nat}
    {ds : List Sector} (h : (getN ssl rawdev impl b n).run s = .ok ds t) :
    ds = load (content ssl impl c s) b n ∧ content ssl impl c t = content ssl impl c s := by
  unfold getN at h
  split at h
  · rename_i h0; subst h0; cases h; exact ⟨rfl, rfl⟩
  · rename_i h0
    split at h
    · cases h
    · split at h
      · cases h
      · obtain ⟨tmp, s', hr, h1⟩ := Prog.bind_eq_ok.mp h
        obtain ⟨data, hd, h2⟩ := Prog.read_bind_eq_ok.mp h1
        cases h2
        obtain ⟨htmp, hct⟩ := hc.getN_ok hr
        have hlen : tmp.length = n := by rw [htmp, length_load]
        have hne : tmp ≠ [] := fun he => h0 (by rw [← hlen, he, List.length_nil])
        obtain ⟨es, rfl, hes⟩ := luksCrypt_crypts hssl hne hd
        refine ⟨?_, by funext x; unfold content; rw [hct]⟩
        have hsplit : split (concat es) n = es := by rw [← hlen, ← hes.length_eq, split_concat]
        rw [hsplit, plain_of_crypts hes, htmp, load_mapIdx]
        refine List.map_congr_left fun j _ => ?_
        rw [Nat.zero_add, nth_payload]
        rfl

/-- A read is one read of the raw device. -/
theorem getN_raw {s t : σ} {b : UInt64} {n : Nat} {ds : List Sector}
    (h : (getN ssl rawdev impl b n).run s = .ok ds t) :
    t = s ∨ ∃ tmp, (rawdev.getN (payload impl.header + b) n).run s = .ok tmp t := by
  unfold getN at h
  split at h
  · cases h; exact .inl rfl
  · split at h
    · cases h
    · split at h
      · cases h
      · obtain ⟨tmp, u, hr, h1⟩ := Prog.bind_eq_ok.mp h
        obtain ⟨data, hd, h2⟩ := Prog.read_bind_eq_ok.mp h1
        cases h2
        exact .inr ⟨tmp, hr⟩

/-- A write is one write of the raw device. -/
theorem putN_run (hssl : ssl.Sound) {s : σ} {b : UInt64} {ds : List Sector} (h0 : ds ≠ [])
    {e : Unit} {t : σ} (h : (putN ssl rawdev impl b ds).run s = .ok e t) :
    ∃ es, Crypts ssl true impl.header impl.masterkey b 0 ds es ∧
      (rawdev.putN (payload impl.header + b) es).run s = .ok () t := by
  unfold putN at h
  split at h
  · rename_i hl; exact absurd (List.eq_nil_of_length_eq_zero hl) h0
  · split at h
    · cases h
    · split at h
      · cases h
      · obtain ⟨tmp, hd, h1⟩ := Prog.read_bind_eq_ok.mp h
        obtain ⟨es, rfl, hes⟩ := luksCrypt_crypts hssl h0 hd
        rw [← hes.length_eq, split_concat] at h1
        exact ⟨es, hes, h1⟩

theorem putN_ok (hssl : ssl.Sound) (hc : Honest rawdev c) {s t : σ} {b : UInt64}
    {ds : List Sector} {e : Unit} (h : (putN ssl rawdev impl b ds).run s = .ok e t) :
    content ssl impl c t = store (content ssl impl c s) b 0 ds := by
  by_cases h0 : ds = []
  · subst h0; cases h; rfl
  · obtain ⟨es, hes, hput⟩ := putN_run hssl h0 h
    funext x
    rw [store_eq, ← written_crypts hssl hes x]
    unfold content
    rw [hc.putN_ok hput, store_eq]
    cases written (payload impl.header + b) (payload impl.header + x) 0 es <;> rfl

/-- Every call of the raw device that is made ends the call. -/
theorem getN_err (hc : Honest rawdev c) {s t : σ} {b : UInt64} {n : Nat} {e : Unit}
    (h : (getN ssl rawdev impl b n).run s = .err e t) : c t = c s := by
  unfold getN at h
  split at h
  · cases h
  · split at h
    · cases h; rfl
    · split at h
      · cases h
      · rcases Prog.bind_eq_err.mp h with hr | ⟨tmp, u, hr, h1⟩
        · exact hc.getN_err hr
        · rw [← (hc.getN_ok hr).2]
          rcases Prog.bind_eq_err.mp h1 with hd | ⟨data, u', hd, h2⟩
          · rw [(Prog.read_eq_err.mp hd).2]
          · cases h2

theorem putN_err (hssl : ssl.Sound) (hc : Honest rawdev c) {s t : σ} {b : UInt64}
    {ds : List Sector} {e : Unit} (h : (putN ssl rawdev impl b ds).run s = .err e t) (x : UInt64)
    (hx : ∀ k, k < ds.length → x ≠ nth b k) :
    content ssl impl c t x = content ssl impl c s x := by
  unfold putN at h
  split at h
  · cases h
  · rename_i h0
    split at h
    · cases h; rfl
    · split at h
      · cases h
      · rcases Prog.bind_eq_err.mp h with hd | ⟨tmp, u, hd, h1⟩
        · rw [(Prog.read_eq_err.mp hd).2]
        · obtain ⟨hcrypt, rfl⟩ := Prog.read_eq_ok.mp hd
          obtain ⟨es, rfl, hes⟩ := luksCrypt_crypts hssl (fun he => h0 (by rw [he]; rfl)) hcrypt
          rw [← hes.length_eq, split_concat] at h1
          unfold content
          rw [hc.putN_err h1]
          intro k hk he
          rw [nth_payload, UInt64.add_right_inj] at he
          exact hx k (hes.length_eq ▸ hk) he

theorem luksBlkdev_honest (hssl : ssl.Sound) (hc : Honest rawdev c) :
    Honest (luksBlkdev ssl rawdev impl) (content ssl impl c) where
  getN_ok h := getN_ok hssl hc h
  getN_err h := by funext x; unfold content; rw [getN_err hc h]
  putN_ok h := putN_ok hssl hc h
  putN_err h := putN_err hssl hc h

/-! ## Single sectors -/

theorem read_one (dev : Device UInt64 σ Sector) (b : UInt64) :
    blkdevRead dev b 512 = (do
      let ds ← dev.getN b 1
      pure (concat ds)) := by
  have h1 : u64 (512 + 512 - 1) / 512 = 1 := by unfold u64; rfl
  unfold blkdevRead
  simp only [h1, Nat.one_ne_zero, if_false, Nat.mod_self, if_true]

theorem write_one (dev : Device UInt64 σ Sector) (b : UInt64) {d : Bytes} (hd : d.length = 512) :
    blkdevWrite dev b d = dev.putN b (split d 1) := by
  have h1 : u64 (512 + 512 - 1) / 512 = 1 := by unfold u64; rfl
  unfold blkdevWrite
  simp only [hd, h1, Nat.one_ne_zero, if_false, Nat.mod_self, if_true]

/-- What a sector is encrypted or decrypted to fits a sector. -/
theorem crypt_one_size (hssl : ssl.Sound) {enc : Bool} {d : Sector} {x : UInt64} {b : Bytes}
    (h : luksCrypt ssl enc impl.header impl.masterkey (concat [d]) x = .ok b) : b.length = 512 := by
  obtain ⟨es, rfl, hes⟩ := luksCrypt_crypts hssl (by simp) h
  rw [length_concat, hes.length_eq, List.length_singleton]

theorem malloc_one (hm : impl.malloc 512 = true) : impl.malloc (u64 (1 * 512)) = true := by
  have h512 : u64 (1 * 512) = 512 := by unfold u64; rfl
  rw [h512, hm]

theorem getN_one (hm : impl.malloc 512 = true) (x : UInt64) :
    getN ssl rawdev impl x 1 = (do
      let tmp ← rawdev.getN (payload impl.header + x) 1
      let data ← crypt ssl impl false (concat tmp) x
      pure (split data 1)) := by
  unfold getN
  rw [if_neg (by decide), malloc_one hm, if_neg (by decide), if_neg (by decide)]

theorem putN_one (hm : impl.malloc 512 = true) (x : UInt64) (d : Sector) :
    putN ssl rawdev impl x [d] = (do
      let tmp ← crypt ssl impl true (concat [d]) x
      rawdev.putN (payload impl.header + x) (split tmp 1)) := by
  unfold putN
  rw [List.length_singleton, if_neg (by decide), malloc_one hm, if_neg (by decide),
    if_neg (by decide)]

/-- The two ways to read a sector. -/
theorem getPayloadSector_ok (hssl : ssl.Sound) (hc : Honest rawdev c)
    (hm : impl.malloc 512 = true) {x : UInt64} {s t : σ} {d : Sector} :
    (luksGetPayloadSector ssl rawdev impl x).run s = .ok d.bytes t ↔
      (getN ssl rawdev impl x 1).run s = .ok [d] t := by
  have hone : ∀ {ds u}, (rawdev.getN (payload impl.header + x) 1).run s = .ok ds u →
      ∃ d, ds = [d] := fun hr => ⟨_, (hc.getN_ok hr).1⟩
  rw [getN_one hm]
  unfold luksGetPayloadSector
  rw [read_one]
  constructor
  · intro h
    obtain ⟨raw, u, hr, h1⟩ := Prog.bind_eq_ok.mp h
    obtain ⟨ds, u', hr', h2⟩ := Prog.bind_eq_ok.mp hr
    cases h2
    rw [Prog.bind_ok hr', Prog.bind_ok h1, split_one d.size]
    rfl
  · intro h
    obtain ⟨ds, u, hr, h1⟩ := Prog.bind_eq_ok.mp h
    obtain ⟨data, u', hd, h2⟩ := Prog.bind_eq_ok.mp h1
    obtain ⟨e, rfl⟩ := hone hr
    obtain ⟨hcrypt, rfl⟩ := Prog.read_eq_ok.mp hd
    rw [split_one (crypt_one_size hssl hcrypt)] at h2
    cases h2
    have hraw : (do
        let ds ← rawdev.getN (payload impl.header + x) 1
        pure (concat ds)).run s = .ok (concat [e]) t := by rw [Prog.bind_ok hr]; rfl
    rw [Prog.bind_ok hraw, hd]

/-- The two ways to write a sector. -/
theorem putPayloadSector_ok (hssl : ssl.Sound) (hm : impl.malloc 512 = true) {x : UInt64}
    {d : Sector} {s t : σ} :
    (luksPutPayloadSector ssl rawdev impl x d).run s = .ok () t ↔
      (putN ssl rawdev impl x [d]).run s = .ok () t := by
  rw [putN_one hm]
  unfold luksPutPayloadSector
  rw [concat_one, Prog.bind_eq_ok, Prog.bind_eq_ok]
  refine exists_congr fun data => exists_congr fun u => and_congr_right fun hd => ?_
  obtain ⟨hcrypt, -⟩ := Prog.read_eq_ok.mp hd
  rw [← concat_one] at hcrypt
  rw [write_one _ _ (crypt_one_size hssl hcrypt)]

/-! ## The device as a plaintext array -/

/-- The states that writes from raw sector `p` on, and reads, lead to. -/
inductive Above (rawdev : Device UInt64 σ Sector) (p : Nat) : σ → σ → Prop
  | refl (s : σ) : Above rawdev p s s
  | get {s t u : σ} {b : UInt64} {n : Nat} {ds : List Sector}
      (h : (rawdev.getN b n).run s = .ok ds t) (rest : Above rawdev p t u) : Above rawdev p s u
  | put {s t u : σ} {b : UInt64} {ds : List Sector} (hb : p ≤ b.toNat)
      (hn : b.toNat + ds.length ≤ 2 ^ 64) (h : (rawdev.putN b ds).run s = .ok () t)
      (rest : Above rawdev p t u) : Above rawdev p s u

theorem Above.trans {p : Nat} {s t u : σ} (h : Above rawdev p s t) (h' : Above rawdev p t u) :
    Above rawdev p s u := by
  induction h with
  | refl => exact h'
  | get h1 _ ih => exact .get h1 (ih h')
  | put hb hn h1 _ ih => exact .put hb hn h1 (ih h')

/-- A call that ends inside the numbers of the raw device. -/
def Fits (header : LUKSHeader) : Call UInt64 Sector UInt32 → Prop
  | .putN b ds => (payload header).toNat + b.toNat + ds.length ≤ 2 ^ 64
  | .getN _ _ | .other _ => True

theorem call_above (hssl : ssl.Sound) {req : Call UInt64 Sector UInt32}
    (hreq : Fits impl.header req) {s t : σ} {ds : List Sector}
    (h : (call (luksBlkdev ssl rawdev impl) setFlags req).run s = .ok ds t) :
    Above rawdev (payload impl.header).toNat s t := by
  cases req with
  | other f =>
    obtain ⟨_, _, hf, -⟩ := Prog.bind_eq_ok.mp h
    cases hf
  | getN b n =>
    rcases getN_raw h with rfl | ⟨tmp, hr⟩
    · exact .refl _
    · exact .get hr (.refl _)
  | putN b es =>
    obtain ⟨_, u, hp, h1⟩ := Prog.bind_eq_ok.mp h
    cases h1
    by_cases h0 : es = []
    · subst h0; cases hp; exact .refl _
    · obtain ⟨fs, hfs, hput⟩ := putN_run hssl h0 hp
      have hpos := List.length_pos_iff.mpr h0
      have hfits : (payload impl.header).toNat + b.toNat + es.length ≤ 2 ^ 64 := hreq
      have hsum : (payload impl.header + b).toNat = (payload impl.header).toNat + b.toNat := by
        rw [UInt64.toNat_add, Nat.mod_eq_of_lt (by omega)]
      exact .put (by omega) (by rw [hsum, hfs.length_eq]; exact hreq) hput (.refl _)

theorem session_above (hssl : ssl.Sound) {calls : List (Call UInt64 Sector UInt32)}
    (hfits : ∀ req ∈ calls, Fits impl.header req) {s t : σ} {u : Unit}
    (h : (session (luksBlkdev ssl rawdev impl) setFlags calls).run s = .ok u t) :
    Above rawdev (payload impl.header).toNat s t := by
  induction calls generalizing s with
  | nil => cases h; exact .refl _
  | cons req calls ih =>
    obtain ⟨ds, s', h1, h2⟩ := Prog.bind_eq_ok.mp h
    exact (call_above hssl (hfits req (by simp)) h1).trans (ih (fun r hr => hfits r (by simp [hr])) h2)

/-! ## Runs and single blocks -/

theorem getEach_ok (hssl : ssl.Sound) (hc : Honest rawdev c) {b : UInt64} {n k : Nat} {s t : σ}
    {ds : List Sector} (h : (getEach (luksBlkdev ssl rawdev impl) b k n).run s = .ok ds t) :
    ds = (List.range' k n).map (fun j => content ssl impl c s (nth b j)) ∧ c t = c s := by
  induction n generalizing k s ds with
  | zero => cases h; exact ⟨rfl, rfl⟩
  | succ n ih =>
    obtain ⟨d, u, h1, h2⟩ := Prog.bind_eq_ok.mp h
    obtain ⟨rest, u', h3, h4⟩ := Prog.bind_eq_ok.mp h2
    cases h4
    obtain ⟨hd, -⟩ := getN_ok hssl hc h1
    have hu : c u = c s := by
      rcases getN_raw h1 with rfl | ⟨tmp, hr⟩
      · rfl
      · exact (hc.getN_ok hr).2
    obtain ⟨hrest, ht⟩ := ih h3
    refine ⟨?_, ht.trans hu⟩
    rw [hd, hrest, List.range'_succ, List.map_cons]
    simp only [load, List.range_one, List.map_cons, List.map_nil, List.cons_append,
      List.nil_append, List.cons.injEq]
    refine ⟨by rw [show (nth (nth b k) 0 : UInt64) = nth b k from UInt64.add_zero _], ?_⟩
    exact List.map_congr_left fun j _ => by unfold content; rw [hu]

theorem putEach_ok (hssl : ssl.Sound) (hc : Honest rawdev c) {b : UInt64} {ds : List Sector}
    {k : Nat} {s t : σ} {e : Unit}
    (h : (putEach (luksBlkdev ssl rawdev impl) b k ds).run s = .ok e t) :
    ∃ es, Crypts ssl true impl.header impl.masterkey b k ds es ∧
      c t = store (c s) (payload impl.header + b) k es := by
  induction ds generalizing k s with
  | nil => cases h; exact ⟨[], rfl, rfl⟩
  | cons d ds ih =>
    obtain ⟨_, u, h1, h2⟩ := Prog.bind_eq_ok.mp h
    obtain ⟨es, hes, ht⟩ := ih h2
    obtain ⟨fs, ⟨f, fs', rfl, hf, hfs'⟩, hput⟩ := putN_run hssl (by simp) h1
    cases hfs'
    rw [show (nth (nth b k) 0 : UInt64) = nth b k from UInt64.add_zero _] at hf
    refine ⟨f :: es, ⟨f, es, rfl, hf, hes⟩, ?_⟩
    have hn : (nth (payload impl.header + nth b k) 0 : UInt64) =
        nth (payload impl.header + b) k := by
      rw [nth_payload, nth_payload,
        show (nth (nth b k) 0 : UInt64) = nth b k from UInt64.add_zero _]
    rw [ht, hc.putN_ok hput, store, store, store, hn]

theorem Crypts.unique {enc : Bool} {b : UInt64} {ds es fs : List Sector} {k : Nat}
    (h : Crypts ssl enc impl.header impl.masterkey b k ds es)
    (h' : Crypts ssl enc impl.header impl.masterkey b k ds fs) : es = fs := by
  induction ds generalizing k es fs with
  | nil => rw [show es = [] from h, show fs = [] from h']
  | cons d ds ih =>
    obtain ⟨⟨e, he⟩, es', rfl, h1, h⟩ := h
    obtain ⟨⟨f, hf⟩, fs', rfl, h2, h'⟩ := h'
    rw [h1] at h2
    cases h2
    rw [ih h h']

/-- What the device does, seen as an array of plaintext sectors on an array of raw
ones. -/
structure Refines (ssl : OpenSSL) (rawdev : Device UInt64 σ Sector) (impl : BlkdevImpl)
    (c : σ → UInt64 → Sector) : Prop where
  /-- Reads deliver what was last written. -/
  reads : ∀ {calls s u t b n ds t'}, (session (luksBlkdev ssl rawdev impl) setFlags calls).run s =
    .ok u t → ((luksBlkdev ssl rawdev impl).getN b n).run t = .ok ds t' →
    ds = (List.range n).map fun k =>
      (lastWritten (nth b k) (writes calls)).getD (content ssl impl c s (nth b k))
  /-- A run is read as its blocks one by one. -/
  getN_each : ∀ {b n s ds t es u}, ((luksBlkdev ssl rawdev impl).getN b n).run s = .ok ds t →
    (getEach (luksBlkdev ssl rawdev impl) b 0 n).run s = .ok es u → ds = es ∧ c t = c u
  /-- A run is written as its blocks one by one. -/
  putN_each : ∀ {b ds s t u}, ((luksBlkdev ssl rawdev impl).putN b ds).run s = .ok () t →
    (putEach (luksBlkdev ssl rawdev impl) b 0 ds).run s = .ok () u → c t = c u
  /-- The other access path reads the same. -/
  getPayloadSector : impl.malloc 512 = true → ∀ {x s d t},
    (luksGetPayloadSector ssl rawdev impl x).run s = .ok (Sector.bytes d) t ↔
      ((luksBlkdev ssl rawdev impl).getN x 1).run s = .ok [d] t
  /-- The other access path writes the same. -/
  putPayloadSector : impl.malloc 512 = true → ∀ {x s d t},
    (luksPutPayloadSector ssl rawdev impl x d).run s = .ok () t ↔
      ((luksBlkdev ssl rawdev impl).putN x [d]).run s = .ok () t
  /-- Writes that end inside the raw device leave the sectors below the payload
  alone. -/
  above : ∀ {calls s u t}, (∀ req ∈ calls, Fits impl.header req) →
    (session (luksBlkdev ssl rawdev impl) setFlags calls).run s = .ok u t →
    Above rawdev (payload impl.header).toNat s t

/-- The byte that a run is combined with: the key's, and but for `ECB` the vector's. -/
def mask (evp : Evp) (key iv : Bytes) : UInt8 :=
  if evp.mode = .ecb then byteAt key 0 else byteAt key 0 ^^^ byteAt iv 0

def xorCipher : OpenSSL where
  known _ := true
  cipher evp key iv _ x := some (x.map (· ^^^ mask evp key iv))
  sha256 key := key

theorem xorCipher_sound : xorCipher.Sound where
  decrypt evp key iv x y _ h := by
    have hcancel : ∀ m : UInt8, ((· ^^^ m) ∘ (· ^^^ m) : UInt8 → UInt8) = id := by
      intro m
      funext b
      simp
    cases h
    simp only [xorCipher, List.map_map, hcancel, List.map_id]
  size evp key iv enc x y hx h := by
    cases h
    simpa using hx
  ecb bits key iv enc x xs _ _ := by simp [xorCipher, mask]

def xorBlkdev : BlkdevImpl := ⟨⟨"aes", "cbc-plain", 2, 16⟩, [1], fun _ => true⟩

theorem xorBlkdev_crypt (x : UInt64) (y : UInt8) :
    cryptSector xorCipher true xorBlkdev.header xorBlkdev.masterkey x (Sector.fill y) =
      .ok (Sector.fill (y ^^^ (1 ^^^ byteAt ((enc64 x).take 4 ++ List.replicate 12 0) 0))).bytes := by
  have hcipher : luksGetCipher xorCipher xorBlkdev.header xorBlkdev.masterkey =
      some ⟨⟨128, .cbc⟩, [1]⟩ := by
    simp only [luksGetCipher, xorBlkdev, xorCipher, u32]
    rfl
  have hiv : genIV xorCipher xorBlkdev.header x xorBlkdev.masterkey =
      .ok ((enc64 x).take 4 ++ List.replicate 12 0) := rfl
  have hdata : ∀ iv, luksCryptData xorCipher ⟨⟨128, .cbc⟩, [1]⟩ true iv (Sector.fill y).bytes =
      .ok (Sector.fill (y ^^^ (1 ^^^ byteAt iv 0))).bytes := by
    intro iv
    unfold luksCryptData
    rw [if_neg (by rw [(Sector.fill y).size]; decide)]
    simp only [xorCipher, Sector.fill, List.map_replicate, mask, reduceCtorEq, if_false,
      Out.ofOption, show byteAt [1] 0 = 1 from rfl]
  rw [cryptSector_eq, hcipher, hiv, Out.ofOption, Out.ok_bind, Out.ok_bind]
  exact hdata _

end LsvmTools.LuksBlkdev
