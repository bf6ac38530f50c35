import LsvmTools.CpioAdd

/-! # Removing a file from an archive

`CPIORemoveFile` copies the entries to keep into an allocation of the size of its input
and then rounds their size up to whole blocks. The output is the archive without the
file exactly where that rounded size is within the input's. -/
namespace LsvmTools.CpioRemove
open Lib.ByteString Lib.Program Lib.Loop Strings Cpio CpioFormat CpioAdd

variable {b : Buffer} {mem : Nat → Bool} {a : Archive} {p : CStr}

/-- The entries that stay. -/
def keep (p : CStr) (es : List Entry) : List Entry := es.filter (·.name ≠ p)

theorem total_keep (p : CStr) (es : List Entry) : total (keep p es) ≤ total es := by
  induction es with
  | nil => exact Nat.le_refl _
  | cons e es ih =>
    by_cases he : e.name = p
    · rw [keep, List.filter_cons_of_neg (by simpa using he), total_cons]
      exact Nat.le_trans ih (Nat.le_add_left _ _)
    · rw [keep, List.filter_cons_of_pos (by simpa using he), total_cons, total_cons]
      exact Nat.add_le_add_left ih _

theorem keep_append (p : CStr) (es fs : List Entry) : keep p (es ++ fs) = keep p es ++ keep p fs :=
  List.filter_append ..

theorem keep_cons_of_ne {e : Entry} (h : e.name ≠ p) (es : List Entry) :
    keep p (e :: es) = e :: keep p es := List.filter_cons_of_pos (by simpa using h)

theorem keep_cons_of_eq {e : Entry} (h : e.name = p) (es : List Entry) :
    keep p (e :: es) = keep p es := List.filter_cons_of_neg (by simpa using h)

/-! ## The loop -/

/-- The variables of the loop when the allocation of `n` bytes has been filled. -/
def copied (n : Nat) (h : Int) (written : Bytes) (found : Bool) : Copy :=
  ⟨h, fill n written, written.length, found⟩

/-- An entry is copied to the end of what has been kept. -/
theorem copyEntry_eq {e : Entry} {h : Int} (he : Holds b h e) (hlt : e.size < 2 ^ 31) {n : Nat}
    {written : Bytes} {found : Bool} (hroom : written.length + e.size ≤ n)
    (hint : written.length + e.size < 2 ^ 31) :
    copyEntry b p (copied n h written found) =
      .ok (copied n h (written ++ (keep p [e]).flatMap Entry.bytes) (found || e.name = p)) := by
  unfold copyEntry copied
  rw [he.strcmp]
  by_cases hp : e.name = p
  · rw [keep_cons_of_eq hp]
    simp [hp, keep]
  · have hbytes : b.bytes h e.size = e.bytes := he
    have hcopy : memcpy (fill n written) written.length e.bytes =
        .ok (fill n (written ++ e.bytes)) := memcpy_fill (by rw [e.length_bytes]; exact hroom)
    have hoff : toInt ((written.length : Int) + e.size) = ((written.length + e.size : Nat) : Int) := by
      rw [← Int.natCast_add, toInt_of_lt (by omega) (by omega)]
    have hneg : ¬ (e.size : Int) < 0 := by omega
    rw [keep_cons_of_ne hp]
    simp only [Ne.symm hp, if_false, he.entrySize hlt, hneg, Int.toNat_natCast,
      hbytes, hcopy, Out.ok_bind, Out.pure_eq, hoff, hp, decide_false, Bool.or_false]
    simp [keep, e.length_bytes]

theorem removeLoop {es : List Entry} {t : Entry} {h : Int} (hp : Parses b b.size h es t)
    (ht : p ≠ trailerName) {n : Nat} {written : Bytes} {found : Bool}
    (hroom : written.length + total (es ++ [t]) ≤ n)
    (hint : written.length + total (es ++ [t]) < 2 ^ 31) :
    ∃ h', (Exec.loop (fun s => Exec.of (removeRound b p s)) (copied n h written found)).Ends (.ok
      (copied n h' (written ++ (keep p (es ++ [t])).flatMap Entry.bytes)
        (found || es.any (·.name = p)))) := by
  induction hp generalizing written found with
  | @trailer h t he hname hc hn =>
    simp only [List.nil_append, total_cons, total_nil, Nat.add_zero] at hroom hint
    have hcopy := @copyEntry_eq _ p _ _ he (by omega) _ _ found hroom hint
    have hcheck : cpioCheckEntry b (copied n h written found).header b.size = .ok () := hc
    refine ⟨h, Exec.loop_done ?_⟩
    rw [Exec.ends_of, removeRound, hcheck, Out.ok_bind, hcopy, Out.ok_bind, advance]
    simp [copied, hn, hname, Ne.symm ht]
  | @entry h e es t he hname hc hn rest ih =>
    rw [List.cons_append, total_cons] at hroom hint
    have hcopy := @copyEntry_eq _ p _ _ he (by omega) n written found (by omega) (by omega)
    have hcheck : cpioCheckEntry b (copied n h written found).header b.size = .ok () := hc
    have hlen : (written ++ (keep p [e]).flatMap Entry.bytes).length + total (es ++ [t]) ≤
        written.length + (e.size + total (es ++ [t])) := by
      have := total_keep p [e]
      rw [List.length_append, length_flatMap]
      simp only [total_cons, total_nil] at this
      omega
    obtain ⟨h', hrun⟩ := @ih (written ++ (keep p [e]).flatMap Entry.bytes)
      (found || decide (e.name = p)) (by omega) (by omega)
    have hsplit : keep p (e :: es ++ [t]) = keep p [e] ++ keep p (es ++ [t]) :=
      keep_append p [e] (es ++ [t])
    rw [hsplit, List.flatMap_append, ← List.append_assoc, List.any_cons, ← Bool.or_assoc]
    refine ⟨h', (Exec.loop_next ?_).mpr hrun⟩
    rw [Exec.ends_of, removeRound, hcheck, Out.ok_bind, hcopy, Out.ok_bind, advance]
    simp [copied, hn]

/-! ## What the function delivers -/

/-- The output is the archive without the file, within its allocation. -/
def RemoveExact (mem : Nat → Bool) (b : Buffer) (a : Archive) (p : CStr) : Prop :=
  ∃ made : Made, (cpioRemoveFile mem b p).Ends (.ok made) ∧ made.size ≤ made.out.length ∧
    ∀ b' : Buffer, b'.data = made.out.take made.size.toNat →
      Parses b' b'.size 0 (keep p a.entries) a.trailer

/-- The entries are within what an `int` says of the input, and so are the blocks of
those that stay. -/
def Fits (b : Buffer) (a : Archive) (p : CStr) : Prop :=
  total a.all ≤ toInt b.size ∧ ceil (total (keep p a.all)) 512 ≤ toInt b.size

theorem keep_all (hp : p ≠ trailerName) : keep p a.all = keep p a.entries ++ [a.trailer] := by
  rw [Archive.all, keep_append, keep_cons_of_ne (by rw [a.trailer_name]; exact Ne.symm hp)]
  rfl

/-- The archive without a file, padded to whole blocks. -/
def without (a : Archive) (p : CStr) : Archive where
  entries := keep p a.entries
  trailer := a.trailer
  rest := pad (total (keep p a.all)) 512
  named := fun e he => a.named e (List.mem_filter.mp he).1
  trailer_name := a.trailer_name
  trailer_data := a.trailer_data

theorem without_bytes (hp : p ≠ trailerName) :
    (without a p).bytes = (keep p a.all).flatMap Entry.bytes ++ pad (total (keep p a.all)) 512 := by
  have hall : (without a p).all = keep p a.all := (keep_all hp).symm
  rw [Archive.bytes, hall]
  simp only [without]

theorem length_without (hp : p ≠ trailerName) :
    (without a p).bytes.length = ceil (total (keep p a.all)) 512 := by
  rw [without_bytes hp, List.length_append, length_flatMap, length_pad (by omega)]

theorem toInt_le_u32 (n : Nat) : toInt n ≤ u32 n := by
  unfold toInt u32
  rw [Int.bmod_def]
  split <;> omega

/-- What the function makes of an archive whose entries fit. -/
theorem cpioRemoveFile_eq (hmem : ∀ n, n < 2 ^ 32 → mem n = true) (hb : b.data = a.bytes)
    (hp : p ≠ trailerName) (hin : ∃ e ∈ a.entries, e.name = p)
    (hroom : total a.all ≤ toInt b.size) :
    (cpioRemoveFile mem b p).Ends (.ok
      ⟨fill (u32 b.data.length) ((keep p a.all).flatMap Entry.bytes),
        toUintn (roundUpToMultiple (total (keep p a.all)) 512)⟩) := by
  have hparse := a.parses hb hroom
  have hlt := toInt_lt b.size
  have h32 : toInt b.size ≤ u32 b.data.length := toInt_le_u32 _
  obtain ⟨h, e, hl⟩ : ∃ h e, locate p 0 (a.entries ++ [a.trailer]) = some (h, e) := by
    obtain ⟨e, he, hname⟩ := hin
    exact locate_some hname (List.mem_append_left _ he)
  have hfind := hparse.findHeader p
  rw [hl] at hfind
  have hcalloc : calloc mem b.size = .ok (List.replicate (u32 b.data.length) 0) := by
    have hm := hmem _ (u32_lt b.data.length)
    simp only [calloc, Buffer.size, Int.toNat_natCast, hm, if_true, Out.pure_eq]
  obtain ⟨h', hloop⟩ := @removeLoop _ _ _ _ _ hparse hp (u32 b.data.length) [] false
    (by rw [List.length_nil, Nat.zero_add]; exact_mod_cast hroom.trans h32)
    (by rw [List.length_nil, Nat.zero_add]; unfold Archive.all at hroom; omega)
  have hfound : (false || a.entries.any (·.name = p)) = true := by
    simpa using hin
  have htotal : ((keep p a.all).flatMap Entry.bytes).length = total (keep p a.all) :=
    length_flatMap _
  have hkeep := total_keep p a.all
  unfold cpioRemoveFile
  rw [if_neg (size_pos hb)]
  refine hfind.bind ?_
  refine (Exec.ends_of.mpr hcalloc.symm).bind ?_
  have hstart : copied (u32 b.data.length) 0 [] false =
      ⟨0, List.replicate (u32 b.data.length) 0, 0, false⟩ := by rw [copied, fill_nil]; rfl
  rw [hstart] at hloop
  refine hloop.bind ?_
  rw [List.nil_append] at hloop ⊢
  simp only [copied, hfound, Bool.not_true, Bool.false_eq_true, if_false]
  rw [← Archive.all, htotal, uintn_nat (by omega)]
  exact Exec.ends_pure.mpr rfl

/-- Where the entries and the blocks fit, the output is as it should be. -/
theorem exact_of_fits (hmem : ∀ n, n < 2 ^ 32 → mem n = true) (hb : b.data = a.bytes)
    (hp : p ≠ trailerName) (hin : ∃ e ∈ a.entries, e.name = p) (hfits : Fits b a p) :
    RemoveExact mem b a p := by
  obtain ⟨hroom, hblocks⟩ := hfits
  have hlt := toInt_lt b.size
  have h32 : toInt b.size ≤ u32 b.data.length := toInt_le_u32 _
  have hle := le_ceil (show 0 < 512 by omega) (total (keep p a.all))
  have hsize : toUintn (roundUpToMultiple (total (keep p a.all) : Int) 512) =
      (ceil (total (keep p a.all)) 512 : Nat) := uintn_block rfl (by omega)
  have hlen := length_without (a := a) hp
  have hout : (fill (u32 b.data.length) ((keep p a.all).flatMap Entry.bytes)).take
      (ceil (total (keep p a.all)) 512) = (without a p).bytes := by
    rw [without_bytes hp, fill, List.take_append, length_flatMap,
      List.take_of_length_le (by rw [length_flatMap]; exact hle), List.take_replicate, pad]
    congr 2
    omega
  refine ⟨_, cpioRemoveFile_eq hmem hb hp hin hroom, ?_, fun b' hb' => ?_⟩
  · simp only [hsize, fill, List.length_append, List.length_replicate, length_flatMap]
    omega
  · simp only [hsize, Int.toNat_natCast, hout] at hb'
    refine (without a p).parses hb' ?_
    have hrest := (without a p).length_bytes
    unfold Buffer.size
    rw [hb', toInt_of_lt (by omega) (by omega)]
    omega

/-! ## Archives that do not fit -/

theorem entrySize_lt (x : CPIOHeader) : cpioGetEntrySize x < 2 ^ 31 := by
  unfold cpioGetEntrySize
  simp only
  split
  · decide
  · split
    · decide
    · exact toInt_lt _

theorem parses_lt {h cpioEnd : Int} {es : List Entry} {t : Entry} (hp : Parses b cpioEnd h es t) :
    ∀ e ∈ es, e.size < 2 ^ 31 := by
  induction hp with
  | trailer => simp
  | @entry h e es t he _ hc hn _ ih =>
    intro e' he'
    rcases List.mem_cons.mp he' with rfl | he'
    · have hlt := entrySize_lt (b.header h)
      unfold cpioNextHeader at hn
      rw [hc, Out.ok_bind] at hn
      split at hn
      · cases hn
      · simp only at hn
        split at hn
        · cases hn
        · obtain ⟨_, -, hn⟩ := Out.bind_eq_ok.mp hn
          have := Option.some.inj (Out.ok.inj hn)
          omega
    · exact ih e' he'

theorem copyEntry_header {s s' : Copy} (h : copyEntry b p s = .ok s') : s'.header = s.header := by
  unfold copyEntry at h
  split at h
  · cases h; rfl
  · simp only at h
    split at h
    · cases h
    · obtain ⟨out, -, h⟩ := Out.bind_eq_ok.mp h
      cases h
      rfl

theorem advance_next {σ ρ : Type} {h cpioEnd : Int} {f : Int → σ} {r : ρ} {x : Step σ ρ}
    (ha : advance b h cpioEnd f r = .ok x) :
    (∃ h', cpioNextHeader b h cpioEnd = .ok (some h') ∧ x = .next (f h')) ∨
      (cpioNextHeader b h cpioEnd = .ok none ∧ x = .done r) := by
  obtain ⟨o, ho, hx⟩ := Out.bind_eq_ok.mp ha
  cases o with
  | some h' => cases hx; exact .inl ⟨h', ho, rfl⟩
  | none => cases hx; exact .inr ⟨ho, rfl⟩

theorem removeRound_next {s : Copy} {x : Step Copy Copy} (hr : removeRound b p s = .ok x) :
    (∃ h' s', cpioNextHeader b s.header b.size = .ok (some h') ∧ x = .next s' ∧ s'.header = h') ∨
      (cpioNextHeader b s.header b.size = .ok none) := by
  obtain ⟨_, -, hr⟩ := Out.bind_eq_ok.mp hr
  obtain ⟨s', hs, hr⟩ := Out.bind_eq_ok.mp hr
  rw [copyEntry_header hs] at hr
  rcases advance_next hr with ⟨h', hn, rfl⟩ | ⟨hn, -⟩
  · exact .inl ⟨h', _, hn, rfl, rfl⟩
  · exact .inr hn

/-- From `h` on there are entries and a trailer, longer than what is left. -/
def Overlong (b : Buffer) (t : Entry) (h : Int) : Prop :=
  ∃ es : List Entry, (∀ e ∈ es, e.name ≠ trailerName ∧ e.size < 2 ^ 31) ∧
    b.bytes h (total (es ++ [t])) = (es ++ [t]).flatMap Entry.bytes ∧
    toInt (b.size - h) < total (es ++ [t])

theorem check_room {h cpioEnd : Int} {e : Entry} (he : Holds b h e) (hlt : e.size < 2 ^ 31)
    (hc : cpioCheckEntry b h cpioEnd = .ok ()) : e.size ≤ toInt (cpioEnd - h) := by
  by_contra hroom
  rw [he.check_err hlt (by omega)] at hc
  cases hc

theorem next_check {h cpioEnd : Int} {o : Option Int} (hn : cpioNextHeader b h cpioEnd = .ok o) :
    cpioCheckEntry b h cpioEnd = .ok () := by
  obtain ⟨_, hc, -⟩ := Out.bind_eq_ok.mp hn
  exact hc

/-- The walk stays before the end of what is too long. -/
theorem Overlong.next {t : Entry} {h : Int} {o : Option Int} (ht : t.size < 2 ^ 31)
    (ho : Overlong b t h) (hn : cpioNextHeader b h b.size = .ok o) :
    ∃ h', o = some h' ∧ Overlong b t h' := by
  have hc := next_check hn
  obtain ⟨es, hes, hbytes, hroom⟩ := ho
  cases es with
  | nil =>
    obtain ⟨he, -⟩ := holds_cons hbytes
    have := check_room he ht hc
    simp only [List.nil_append, total_cons, total_nil] at hroom
    omega
  | cons e es =>
    obtain ⟨he, hrest⟩ := holds_cons hbytes
    obtain ⟨hname, hlt⟩ := hes e (by simp)
    have hle := check_room he hlt hc
    rw [next_entry he hlt hname hc] at hn
    obtain ⟨_, -, hn⟩ := Out.bind_eq_ok.mp hn
    cases hn
    refine ⟨_, rfl, es, fun e he => hes e (by simp [he]), hrest, ?_⟩
    have hleft : toInt (b.size - (h + e.size)) = toInt (b.size - h) - e.size := by
      rw [← toInt_sub hle]
      congr 1
      omega
    rw [List.cons_append, total_cons] at hroom
    omega

/-- Where the entries are longer than the input, as an `int` says, there is no output. -/
theorem not_ok_of_overlong (hb : b.data = a.bytes) (hsmall : ∀ e ∈ a.all, e.size < 2 ^ 31)
    (hroom : toInt b.size < total a.all) (made : Made) :
    ¬ (cpioRemoveFile mem b p).Ends (.ok made) := by
  intro h
  have ht : a.trailer.size < 2 ^ 31 := hsmall _ (List.mem_append_right _ (by simp))
  have hstart : Overlong b a.trailer 0 := by
    refine ⟨a.entries, fun e he => ⟨a.named e he, hsmall e (List.mem_append_left _ he)⟩, ?_, ?_⟩
    · change b.bytes 0 (total a.all) = a.all.flatMap Entry.bytes
      rw [bytes_zero b (by rw [hb, a.length_bytes]; omega), hb, Archive.bytes, ← length_flatMap,
        List.take_left]
    · rw [Int.sub_zero]
      exact hroom
  unfold cpioRemoveFile at h
  rw [if_neg (size_pos hb)] at h
  obtain ⟨_, -, h⟩ := Exec.ends_bind_ok.mp h
  obtain ⟨out, -, h⟩ := Exec.ends_bind_ok.mp h
  obtain ⟨s, hloop, -⟩ := Exec.ends_bind_ok.mp h
  obtain ⟨s', ho, hdone⟩ := Exec.loop_ok (fun s => Overlong b a.trailer s.header) (by
    intro s s' ho hr
    rcases removeRound_next (Exec.ends_of.mp hr).symm with ⟨h', s'', hn, hs, rfl⟩ | hn
    · cases hs
      obtain ⟨_, he, ho'⟩ := ho.next ht hn
      cases he
      exact ho'
    · obtain ⟨_, he, -⟩ := ho.next ht hn
      cases he) hstart hloop
  rcases removeRound_next (Exec.ends_of.mp hdone).symm with ⟨h', s'', -, hs, -⟩ | hn
  · cases hs
  · obtain ⟨_, he, -⟩ := ho.next ht hn
    cases he

theorem memcpy_length {out d out' : Bytes} {offset : Int} (h : memcpy out offset d = .ok out') :
    out'.length = out.length := by
  unfold memcpy at h
  split at h
  · cases h
    exact length_splice (by omega)
  · cases h

theorem copyEntry_length {s s' : Copy} (h : copyEntry b p s = .ok s') :
    s'.out.length = s.out.length := by
  unfold copyEntry at h
  split at h
  · cases h; rfl
  · simp only at h
    split at h
    · cases h
    · obtain ⟨out, hm, h⟩ := Out.bind_eq_ok.mp h
      cases h
      exact memcpy_length hm

theorem removeRound_length {s : Copy} {x : Step Copy Copy} (hr : removeRound b p s = .ok x) :
    (match x with
      | .next s' => s'.out
      | .done s' => s'.out).length = s.out.length := by
  obtain ⟨_, -, hr⟩ := Out.bind_eq_ok.mp hr
  obtain ⟨s', hs, hr⟩ := Out.bind_eq_ok.mp hr
  rw [← copyEntry_length hs]
  rcases advance_next hr with ⟨h', -, rfl⟩ | ⟨-, rfl⟩ <;> rfl

theorem length_calloc {n : Int} {out : Bytes} (h : calloc mem n = .ok out) :
    out.length = u32 n.toNat := by
  unfold calloc at h
  simp only at h
  split at h
  · cases h
    exact List.length_replicate
  · cases h

/-- The output has the size of the allocation. -/
theorem length_out {made : Made} (h : (cpioRemoveFile mem b p).Ends (.ok made)) :
    made.out.length = u32 b.data.length := by
  unfold cpioRemoveFile at h
  split at h
  · cases Exec.ends_of.mp h
  · obtain ⟨_, -, h⟩ := Exec.ends_bind_ok.mp h
    obtain ⟨out, hout, h⟩ := Exec.ends_bind_ok.mp h
    obtain ⟨s, hloop, h⟩ := Exec.ends_bind_ok.mp h
    have hlen : out.length = u32 b.data.length := length_calloc (Exec.ends_of.mp hout).symm
    obtain ⟨s', hs', hdone⟩ := Exec.loop_ok (fun s : Copy => s.out.length = u32 b.data.length)
      (fun s s' hs hr => (removeRound_length (Exec.ends_of.mp hr).symm).trans hs) hlen hloop
    have hs := removeRound_length (Exec.ends_of.mp hdone).symm
    split at h
    · cases Exec.ends_of.mp h
    · cases Exec.ends_pure.mp h
      exact hs.trans hs'

theorem toInt_eq_u32 {n : Nat} (h : 0 ≤ toInt n) : toInt n = u32 n := by
  unfold toInt u32 at *
  rw [Int.bmod_def] at *
  split at h <;> omega

/-- Blocks that no `int` can count are reported as a size that no buffer has. -/
theorem roundUp_overflow {n : Nat} (hn : n < 2 ^ 31) (hc : 2 ^ 31 ≤ ceil n 512) :
    toUintn (roundUpToMultiple (n : Int) 512) = 2 ^ 64 - 2 ^ 31 := by
  have hceil : ceil n 512 = 2 ^ 31 := by
    have h1 := ceil_lt (show 0 < 512 by omega) n
    obtain ⟨k, hk⟩ := dvd_ceil n 512
    omega
  have hsum : ((n : Int) + (512 - 1)) = ((n + (512 - 1) : Nat) : Int) := by omega
  have hround : roundUpToMultiple (n : Int) 512 = toInt (ceil n 512 : Nat) := by
    unfold roundUpToMultiple ceil
    rw [hsum, uintn_nat (by omega)]
    push_cast
    rfl
  rw [hround, hceil]
  unfold toInt toUintn
  decide

theorem fits_of_exact (hmem : ∀ n, n < 2 ^ 32 → mem n = true) (hb : b.data = a.bytes)
    (hp : p ≠ trailerName) (hin : ∃ e ∈ a.entries, e.name = p)
    (hsmall : ∀ e ∈ a.entries, e.name = p → e.size < 2 ^ 31) (h : RemoveExact mem b a p) :
    Fits b a p := by
  obtain ⟨made, hmade, hsize, hparse⟩ := h
  have hall : ∀ e ∈ a.all, e.size < 2 ^ 31 := by
    intro e he
    rcases List.mem_append.mp he with he | he
    · by_cases hname : e.name = p
      · exact hsmall e he hname
      · have hlen : (made.out.take made.size.toNat).length < 2 ^ 63 := by
          have h1 := length_out hmade
          have h2 := u32_lt b.data.length
          rw [List.length_take]
          omega
        exact parses_lt (hparse ⟨_, fun _ => 0, hlen⟩ rfl) e
          (List.mem_filter.mpr ⟨he, by simpa using hname⟩)
    · rw [List.mem_singleton.mp he, a.trailer_size]
      decide
  have hroom : total a.all ≤ toInt b.size := by
    by_contra hlt
    exact not_ok_of_overlong hb hall (by omega) made hmade
  refine ⟨hroom, ?_⟩
  have hmake := cpioRemoveFile_eq hmem hb hp hin hroom
  cases hmake.unique hmade
  have hlt := toInt_lt b.size
  have hkeep := total_keep p a.all
  have h32 : toInt b.size = u32 b.data.length := toInt_eq_u32 (by unfold Buffer.size at hroom; omega)
  have hu32 := u32_lt b.data.length
  simp only [fill, List.length_append, List.length_replicate, length_flatMap] at hsize
  by_cases hc : ceil (total (keep p a.all)) 512 < 2 ^ 31
  · rw [uintn_block rfl hc] at hsize
    omega
  · rw [roundUp_overflow (by omega) (by omega)] at hsize
    omega

/-! ## The exact condition -/

/-- Removing a file that was just added gives back the entries there were. -/
theorem without_add {f : NewFile} (hnew : ∀ e ∈ a.entries, e.name ≠ f.path) :
    keep f.path (add a f).entries = a.entries := by
  have hentry : keep f.path [f.entry a.trailer] = [] := keep_cons_of_eq rfl []
  have hold : keep f.path a.entries = a.entries := by
    rw [keep, List.filter_eq_self]
    simpa using hnew
  rw [add, keep_append, hentry, hold, List.append_nil]

theorem remove_added {f : NewFile} (hmem : ∀ n, n < 2 ^ 32 → mem n = true)
    (hb : b.data = (add a f).bytes) (hlt : (add a f).bytes.length < 2 ^ 31) :
    RemoveExact mem b (add a f) f.path := by
  have hlen := (add a f).length_bytes
  have hadd := length_add a f
  have hint : toInt b.size = (add a f).bytes.length := by
    unfold Buffer.size
    rw [hb, toInt_of_lt (by omega) (by omega)]
  have hkeep := total_keep f.path (add a f).all
  have hblocks : ceil (total (keep f.path (add a f).all)) 512 ≤ (add a f).bytes.length := by
    have hdvd : 512 ∣ (add a f).bytes.length := by rw [hadd]; exact dvd_ceil _ _
    have hmono := ceil_mono (x := total (keep f.path (add a f).all))
      (y := (add a f).bytes.length) (m := 512) (by omega)
    rwa [ceil_of_dvd (show 0 < 512 by omega) hdvd] at hmono
  refine exact_of_fits hmem hb f.path_ne ⟨f.entry a.trailer, ?_, rfl⟩ ⟨by omega, by omega⟩
  exact List.mem_append_right _ (by simp)

/-- Removing a file is exact where the entries fit what an `int` says of the input, and
so do the whole blocks of those that stay; removing what was just added always is. -/
theorem cpioRemoveFile_exact_iff (hmem : ∀ n, n < 2 ^ 32 → mem n = true) :
    (∀ {a : Archive} {b : Buffer} {p : CStr}, b.data = a.bytes → p ≠ trailerName →
      (∃ e ∈ a.entries, e.name = p) → (∀ e ∈ a.entries, e.name = p → e.size < 2 ^ 31) →
      (RemoveExact mem b a p ↔ Fits b a p)) ∧
    (∀ {a : Archive} {b b' : Buffer} {f : NewFile} {out : Bytes}, b.data = a.bytes →
      a.bytes.length < 2 ^ 31 → (∀ e ∈ a.entries, e.name ≠ f.path) →
      addedSize a f.path f.data < 2 ^ 31 →
      (cpioAddFile mem b f.path (some f.data) f.data.length f.mode).Ends (.ok ⟨out, out.length⟩) →
      b'.data = out → ∃ a', b'.data = a'.bytes ∧ RemoveExact mem b' a' f.path ∧
        keep f.path a'.entries = a.entries) := by
  constructor
  · intro a b p hb hp hin hsmall
    exact ⟨fits_of_exact hmem hb hp hin hsmall, exact_of_fits hmem hb hp hin⟩
  · intro a b b' f out hb ha hnew hlt hadd hb'
    have hlen := length_add a f
    have heq : (cpioAddFile mem b f.path (some f.data) f.data.length f.mode).Ends _ :=
      cpioAddFile_eq (fun n hn => hmem n (by omega)) hb ha rfl hlt
    cases heq.unique hadd
    exact ⟨add a f, hb', remove_added hmem hb' (hlen ▸ hlt), without_add hnew⟩

/-! ## An archive of one file -/

/-- The path `a`. -/
def pathA : CStr := ⟨[97], by decide⟩

/-- An archive of an empty file and of some zeros after the trailer. -/
def oneFile (n : Nat) : Archive where
  entries := [plainEntry pathA [] (by decide) nil_lt]
  trailer := plainEntry trailerName [] trailerName_lt nil_lt
  rest := List.replicate n 0
  named := by
    intro e he
    rw [List.mem_singleton.mp he]
    exact fun h => by cases h
  trailer_name := plainTrailer_name
  trailer_data := plainTrailer_data

theorem length_oneFile (n : Nat) : (oneFile n).bytes.length = 236 + n := by
  rw [Archive.length_bytes, Archive.total_all, oneFile, List.length_replicate]
  rfl

def oneFileBuffer (n : Nat) (hn : n < 1024) : Buffer :=
  ⟨(oneFile n).bytes, fun _ => 0, by rw [length_oneFile]; omega⟩

theorem oneFile_size (n : Nat) (hn : n < 1024) :
    toInt (oneFileBuffer n hn).size = ((236 + n : Nat) : Int) := by
  unfold Buffer.size oneFileBuffer
  rw [length_oneFile, toInt_of_lt (by omega) (by omega)]

theorem cpioRemoveFile_exact_iff_padded :
    RemoveExact (fun _ => true) (oneFileBuffer 276 (by decide)) (oneFile 276) pathA :=
  have hb : (oneFileBuffer 276 (by decide)).data = (oneFile 276).bytes := rfl
  have hfits : Fits (oneFileBuffer 276 (by decide)) (oneFile 276) pathA :=
    ⟨by rw [oneFile_size]; decide, by rw [oneFile_size]; decide⟩
  ((cpioRemoveFile_exact_iff fun _ _ => rfl).1 hb (by decide)
    ⟨_, List.mem_singleton_self _, rfl⟩ (by
      intro e he _
      rw [List.mem_singleton.mp he]
      decide)).mpr hfits

/-- Without padding the output is reported to be longer than its allocation. -/
theorem unpadded_remove :
    (∃ made, (cpioRemoveFile (fun _ => true) (oneFileBuffer 0 (by decide)) pathA).Ends (.ok made) ∧
      made.out.length = 236 ∧ made.size = 512) ∧
    ¬ RemoveExact (fun _ => true) (oneFileBuffer 0 (by decide)) (oneFile 0) pathA := by
  have hb : (oneFileBuffer 0 (by decide)).data = (oneFile 0).bytes := rfl
  have hin : ∃ e ∈ (oneFile 0).entries, e.name = pathA := ⟨_, List.mem_singleton_self _, rfl⟩
  constructor
  · have hmade := cpioRemoveFile_eq (fun _ _ => rfl) hb (by decide) hin
      (by rw [oneFile_size]; decide)
    refine ⟨_, hmade, ?_, uintn_block (by decide) (by decide)⟩
    rw [length_out hmade, hb, length_oneFile]
    exact u32_of_lt (by decide)
  · intro h
    obtain ⟨-, hblocks⟩ := fits_of_exact (fun _ _ => rfl) hb (by decide) hin (by
      intro e he _
      rw [List.mem_singleton.mp he]
      decide) h
    rw [oneFile_size] at hblocks
    revert hblocks
    decide

end LsvmTools.CpioRemove
