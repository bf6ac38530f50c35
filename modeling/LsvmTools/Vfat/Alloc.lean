import LsvmTools.Vfat.Entries

/-! # Allocating a chain of clusters

`_AllocateFATChain` takes the first free clusters and links them. The chain it makes is
followed with the tests of the loops that read and write files: it ends at an end marker. -/
namespace LsvmTools.Vfat.Alloc
open Lib.ByteString Lib.Program Volume Entries

/-- The loop that looks for free entries, over the numbers `i` and with those found so far. -/
def findFree (vfat : VFAT) (numClusters : Nat) : List Nat → List Nat → Out Fail (List Nat)
  | [], buf => .ok buf
  | i :: rest, buf =>
    if numClusters ≤ buf.length then .ok buf
    else do
      let c ← getFATEntry vfat i
      findFree vfat numClusters rest (if c = 0 then buf ++ [i] else buf)

/-- The numbers the loop runs over. `CountOfClusters + 2` has 32 bits. -/
def candidates (vfat : VFAT) : List Nat := List.range' 2 (u32 (vfat.countOfClusters + 2) - 2)

/-- The loop that reserves the entries. -/
def setChain (vfat : VFAT) : List Nat → Out Fail VFAT
  | [] => .ok vfat
  | [c] => setFATEntry vfat c (getEOC vfat)
  | c :: d :: rest => do
    let vfat ← setFATEntry vfat c d
    setChain vfat (d :: rest)

/-- `_AllocateFATChain`: the head of the chain. -/
def allocateFATChain (numClusters : Nat) : Prog VFAT Fail Nat :=
  if numClusters = 0 then pure 0
  else do
    let buf ← Prog.read fun vfat => findFree vfat numClusters (candidates vfat) []
    if buf.length ≠ numClusters then Prog.throw .failed
    else do
      let vfat ← Prog.read fun vfat => setChain vfat buf
      Prog.set vfat
      pure (buf.headD 0)

/-! ## What is claimed of the chain -/

/-- The clusters that are visited from `c` on until an end marker. -/
inductive Follows (vfat : VFAT) : Nat → List Nat → Prop
  | stop {c : Nat} (hc : isEOF vfat c = true) : Follows vfat c []
  | step {c d : Nat} {cs : List Nat} (h0 : c ≠ 0) (hc : isEOF vfat c = false)
      (he : getFATEntry vfat c = .ok d) (rest : Follows vfat d cs) : Follows vfat c (c :: cs)

/-- The clusters `cs`, free before, are a chain from `head` on, and nothing else changed. -/
structure Made (old new : VFAT) (n head : Nat) (cs : List Nat) : Prop where
  follows : Follows new head cs
  length : cs.length = n
  distinct : cs.Nodup
  range : ∀ c ∈ cs, 2 ≤ c ∧ c ≤ old.countOfClusters + 1
  free : ∀ c ∈ cs, getFATEntry old c = .ok 0
  others : ∀ c, c ∉ cs → Inside old.fatType old.fat.data c → getFATEntry new c = getFATEntry old c

/-- A call that succeeds makes a chain; one that fails leaves the table as it is. -/
structure WellFormed (vfat : VFAT) (n : Nat) : Prop where
  made : ∀ head new, (allocateFATChain n).run vfat = .ok head new → ∃ cs, Made vfat new n head cs
  kept : ∀ e new, (allocateFATChain n).run vfat = .err e new → new = vfat

/-- The numbers of the first `n` free clusters. -/
def FirstFree (vfat : VFAT) (n : Nat) (cs : List Nat) : Prop :=
  ∃ m, m ≤ (candidates vfat).length ∧
    (∀ c ∈ (candidates vfat).take m, ∃ x, getFATEntry vfat c = .ok x) ∧
    cs = ((candidates vfat).take m).filter (fun c => getFATEntry vfat c = .ok 0) ∧ cs.length = n

/-! ## The search -/

variable {vfat : VFAT} {n : Nat} {buf cs : List Nat}

theorem findFree_ok {l : List Nat} (h : findFree vfat n l buf = .ok cs) :
    ∃ m, m ≤ l.length ∧ (∀ c ∈ l.take m, ∃ x, getFATEntry vfat c = .ok x) ∧
      cs = buf ++ (l.take m).filter (fun c => getFATEntry vfat c = .ok 0) := by
  induction l generalizing buf with
  | nil =>
    injection h with h
    exact ⟨0, Nat.le_refl _, by simp, by simp [h]⟩
  | cons i l ih =>
    unfold findFree at h
    split at h
    · injection h with h
      exact ⟨0, Nat.zero_le _, by simp, by simp [h]⟩
    · obtain ⟨x, hx, h⟩ := Out.bind_eq_ok.mp h
      obtain ⟨m, hm, hread, hcs⟩ := ih h
      refine ⟨m + 1, Nat.succ_le_succ hm, ?_, ?_⟩
      · intro c hc
        rw [List.take_succ_cons, List.mem_cons] at hc
        rcases hc with rfl | hc
        · exact ⟨x, hx⟩
        · exact hread c hc
      · rw [hcs, List.take_succ_cons, List.filter_cons, hx]
        by_cases h0 : x = 0
        · simp [h0]
        · simp [h0]

theorem findFree_of {l : List Nat} {m : Nat} (hm : m ≤ l.length)
    (hread : ∀ c ∈ l.take m, ∃ x, getFATEntry vfat c = .ok x)
    (hlen : (buf ++ (l.take m).filter (fun c => getFATEntry vfat c = .ok 0)).length = n) :
    findFree vfat n l buf =
      .ok (buf ++ (l.take m).filter (fun c => getFATEntry vfat c = .ok 0)) := by
  induction l generalizing buf m with
  | nil => rw [List.take_nil, List.filter_nil, List.append_nil, findFree]
  | cons i l ih =>
    unfold findFree
    by_cases hfull : n ≤ buf.length
    · have hnil : (((i :: l).take m).filter (fun c => getFATEntry vfat c = .ok 0)).length = 0 := by
        rw [List.length_append] at hlen
        omega
      rw [if_pos hfull, List.length_eq_zero_iff.mp hnil, List.append_nil]
    · cases m with
      | zero => simp at hlen; omega
      | succ m =>
        rw [if_neg hfull]
        rw [List.take_succ_cons] at hread hlen ⊢
        obtain ⟨x, hx⟩ := hread i List.mem_cons_self
        have hrest : ∀ c ∈ l.take m, ∃ x, getFATEntry vfat c = .ok x :=
          fun c hc => hread c (List.mem_cons_of_mem _ hc)
        have hm' : m ≤ l.length := Nat.le_of_succ_le_succ hm
        rw [hx, Out.ok_bind]
        rw [List.filter_cons, hx] at hlen ⊢
        by_cases h0 : x = 0
        · subst h0
          rw [if_pos rfl, if_pos (by simp), List.append_cons buf i (List.filter _ _)]
          rw [if_pos (by simp), List.append_cons buf i (List.filter _ _)] at hlen
          exact ih hm' hrest hlen
        · rw [if_neg h0, if_neg (by simpa using h0)]
          rw [if_neg (by simpa using h0)] at hlen
          exact ih hm' hrest hlen

/-- The search finds `n` numbers exactly where there are as many free clusters, and these
are the first ones. -/
theorem findFree_iff :
    (findFree vfat n (candidates vfat) [] = .ok cs ∧ cs.length = n) ↔ FirstFree vfat n cs := by
  constructor
  · rintro ⟨h, hlen⟩
    obtain ⟨m, hm, hread, hcs⟩ := findFree_ok h
    exact ⟨m, hm, hread, hcs, hlen⟩
  · rintro ⟨m, hm, hread, rfl, hlen⟩
    have hfind : findFree vfat n (candidates vfat) [] = .ok ([] ++
        ((candidates vfat).take m).filter (fun c => getFATEntry vfat c = .ok 0)) :=
      findFree_of hm hread hlen
    exact ⟨hfind, hlen⟩

/-- The numbers that can be read one after another lie inside the table: the offsets do
not wrap around before they leave it. -/
theorem inside_of_readable {m : Nat}
    (hread : ∀ c ∈ List.range' 2 m, ∃ x, getFATEntry vfat c = .ok x) :
    ∀ c ∈ List.range' 2 m, Inside vfat.fatType vfat.fat.data c := by
  have hsize := vfat.fat.size_lt
  induction m with
  | zero => simp
  | succ m ih =>
    intro c hc
    have hprev := ih fun c hc => hread c (by rw [List.mem_range'_1] at hc ⊢; omega)
    rw [List.mem_range'_1] at hc
    by_cases hlast : c = 2 + m
    · have hplace : place vfat.fatType c < 2 ^ 32 := by
        by_cases h0 : m = 0
        · rw [hlast, h0]
          cases vfat.fatType <;> decide
        · have h1 := hprev (c - 1) (by rw [List.mem_range'_1]; omega)
          have hc1 : c = c - 1 + 1 := by omega
          have hstep : place vfat.fatType c ≤ place vfat.fatType (c - 1) + width vfat.fatType := by
            cases vfat.fatType <;> simp only [place, width] <;> omega
          unfold Inside at h1
          omega
      obtain ⟨x, hx⟩ := hread c (by rw [List.mem_range'_1]; omega)
      unfold getFATEntry at hx
      split at hx
      · rename_i hin
        rwa [fatOffset_eq hplace] at hin
      · cases hx
    · exact hprev c (by rw [List.mem_range'_1]; omega)

/-- What the first free clusters are. -/
theorem FirstFree.spec (h : FirstFree vfat n cs) :
    cs.length = n ∧ cs.Pairwise (· < ·) ∧
      (∀ c ∈ cs, 2 ≤ c ∧ c ≤ vfat.countOfClusters + 1 ∧ getFATEntry vfat c = .ok 0 ∧
        Inside vfat.fatType vfat.fat.data c) ∧
      ∀ c ∈ cs, ∀ x, 2 ≤ x → x < c → getFATEntry vfat x = .ok 0 → x ∈ cs := by
  obtain ⟨m, hm, hread, rfl, hlen⟩ := h
  have hbound : u32 (vfat.countOfClusters + 2) ≤ vfat.countOfClusters + 2 := by
    unfold u32
    exact Nat.mod_le _ _
  have htake : (candidates vfat).take m = List.range' 2 m := by
    unfold candidates at hm ⊢
    rw [List.length_range'] at hm
    exact List.take_range'_of_length_ge hm
  have hm2 : m ≤ u32 (vfat.countOfClusters + 2) - 2 := by
    unfold candidates at hm
    rwa [List.length_range'] at hm
  rw [htake] at hread hlen ⊢
  refine ⟨hlen, List.Pairwise.filter _ List.pairwise_lt_range', ?_, ?_⟩
  · intro c hc
    obtain ⟨hc, hfree⟩ := List.mem_filter.mp hc
    have hin := inside_of_readable hread c hc
    rw [List.mem_range'_1] at hc
    exact ⟨by omega, by omega, by simpa using hfree, hin⟩
  · intro c hc x h2 hlt hx
    obtain ⟨hc, -⟩ := List.mem_filter.mp hc
    rw [List.mem_range'_1] at hc
    exact List.mem_filter.mpr ⟨by rw [List.mem_range'_1]; omega, by simpa using hx⟩

/-! ## The links -/

/-- Every entry holds the next number, the last one the end marker, reduced to the width of
an entry. -/
def Linked (ty : FATType) (eoc : Nat) (data : Bytes) : List Nat → Prop
  | [] => True
  | [c] => entryAt ty data c = eoc % entryMod ty
  | c :: d :: rest => entryAt ty data c = d % entryMod ty ∧ Linked ty eoc data (d :: rest)

theorem Linked.congr {ty : FATType} {eoc : Nat} {data data' : Bytes} {cs : List Nat}
    (h : Linked ty eoc data cs) (he : ∀ c ∈ cs, entryAt ty data' c = entryAt ty data c) :
    Linked ty eoc data' cs := by
  induction cs with
  | nil => trivial
  | cons c cs ih =>
    cases cs with
    | nil => exact (he c (by simp)).trans h
    | cons d cs =>
      exact ⟨(he c (by simp)).trans h.1, ih h.2 fun x hx => he x (List.mem_cons_of_mem _ hx)⟩

/-- The table after a chain is set. -/
structure SetTo (vfat : VFAT) (cs : List Nat) (fat : Fat) : Prop where
  length : fat.data.length = vfat.fat.data.length
  linked : Linked vfat.fatType (getEOC vfat) fat.data cs
  others : ∀ c, c ∉ cs → Inside vfat.fatType vfat.fat.data c →
    entryAt vfat.fatType fat.data c = entryAt vfat.fatType vfat.fat.data c

theorem setChain_ok (hin : ∀ c ∈ cs, Inside vfat.fatType vfat.fat.data c) (hnd : cs.Nodup) :
    ∃ fat : Fat, setChain vfat cs = .ok { vfat with fat := fat } ∧ SetTo vfat cs fat := by
  have hsize := vfat.fat.size_lt
  induction cs generalizing vfat with
  | nil => exact ⟨vfat.fat, rfl, rfl, trivial, fun _ _ _ => rfl⟩
  | cons c cs ih =>
    have hc := hin c List.mem_cons_self
    have hoff : fatOffset vfat.fatType c + width vfat.fatType ≤ vfat.fat.data.length := by
      rw [hc.offset hsize]
      exact hc
    cases cs with
    | nil =>
      obtain ⟨fat, hset, hfat⟩ := setFATEntry_ok hc (getEOC vfat)
      refine ⟨fat, hset, by rw [hfat, length_putEntry hoff], ?_, fun d hd hind => ?_⟩
      · change entryAt _ _ _ = _
        rw [hfat, entryAt_putEntry hc hsize]
      · rw [hfat, entryAt_putEntry_other hc hind hsize fun he => hd (by simp [he])]
    | cons d cs =>
      obtain ⟨fat, hset, hfat⟩ := setFATEntry_ok hc d
      have hlen : fat.data.length = vfat.fat.data.length := by rw [hfat, length_putEntry hoff]
      obtain ⟨hnot, hnd⟩ := List.nodup_cons.mp hnd
      obtain ⟨fat', hrest, hs⟩ := @ih { vfat with fat := fat }
        (fun x hx => (hin x (List.mem_cons_of_mem _ hx)).congr hlen) hnd fat.size_lt
      refine ⟨fat', ?_, hs.length.trans hlen, ⟨?_, hs.linked⟩, fun x hx hinx => ?_⟩
      · rw [setChain, hset, Out.ok_bind, hrest]
      · have h1 := hs.others c hnot (hc.congr hlen)
        refine h1.trans ?_
        change entryAt vfat.fatType fat.data c = _
        rw [hfat, entryAt_putEntry hc hsize]
      · obtain ⟨hne, hx⟩ : x ≠ c ∧ x ∉ d :: cs := by
          rw [List.mem_cons, not_or] at hx
          exact hx
        have h1 := hs.others x hx (hinx.congr hlen)
        refine h1.trans ?_
        change entryAt vfat.fatType fat.data x = _
        rw [hfat, entryAt_putEntry_other hc hinx hsize hne]

/-! ## Runs -/

/-- With enough free clusters the call succeeds and links the first ones. -/
theorem allocate_of_firstFree (hn : n ≠ 0) (h : FirstFree vfat n cs) :
    ∃ fat : Fat, (allocateFATChain n).run vfat = .ok (cs.headD 0) { vfat with fat := fat } ∧
      SetTo vfat cs fat := by
  obtain ⟨hfind, hlen⟩ := findFree_iff.mpr h
  obtain ⟨-, hlt, hspec, -⟩ := h.spec
  obtain ⟨fat, hset, hs⟩ := setChain_ok (fun c hc => (hspec c hc).2.2.2)
    (hlt.imp Nat.ne_of_lt)
  refine ⟨fat, ?_, hs⟩
  rw [allocateFATChain, if_neg hn,
    Prog.bind_ok (Prog.read_ok (f := fun vfat => findFree vfat n (candidates vfat) []) hfind),
    if_neg (by simpa using hlen),
    Prog.bind_ok (Prog.read_ok (f := fun vfat => setChain vfat cs) hset), Prog.set_bind, Prog.run_pure]

/-- A call that succeeds has found enough free clusters. -/
theorem firstFree_of_allocate (hn : n ≠ 0) {head : Nat} {new : VFAT}
    (h : (allocateFATChain n).run vfat = .ok head new) : ∃ cs, FirstFree vfat n cs := by
  rw [allocateFATChain, if_neg hn] at h
  obtain ⟨buf, hfind, h⟩ := Prog.read_bind_eq_ok.mp h
  split at h
  · cases h
  · rename_i hlen
    exact ⟨buf, findFree_iff.mp ⟨hfind, by simpa using hlen⟩⟩

theorem allocate_err {e : Fail} {new : VFAT} (h : (allocateFATChain n).run vfat = .err e new) :
    new = vfat := by
  unfold allocateFATChain at h
  split at h
  · cases h
  · rcases Prog.bind_eq_err.mp h with h1 | ⟨buf, t, hr, h1⟩
    · exact (Prog.read_eq_err.mp h1).2
    · obtain ⟨-, rfl⟩ := Prog.read_eq_ok.mp hr
      split at h1
      · injection h1 with _ h1
        exact h1.symm
      · rcases Prog.bind_eq_err.mp h1 with h2 | ⟨v, t', -, h2⟩
        · exact (Prog.read_eq_err.mp h2).2
        · cases h2

/-! ## Following the chain -/

theorem isEOF_iff {c : Nat} : isEOF vfat c = true ↔ eofMin vfat.fatType ≤ c := by
  unfold isEOF
  exact decide_eq_true_iff

/-- Numbers that are no end marker fit an entry. -/
theorem lt_entryMod {c : Nat} (h : isEOF vfat c = false) : c < entryMod vfat.fatType := by
  have hmin := eofMin_lt vfat.fatType
  have hc : ¬ eofMin vfat.fatType ≤ c := fun hle => by
    rw [isEOF_iff.mpr hle] at h
    cases h
  omega

/-- The end marker that is written is recognized, but for 16-bit entries. -/
theorem isEOF_getEOC :
    isEOF vfat (getEOC vfat % entryMod vfat.fatType) = true ↔ vfat.fatType ≠ .fat16 := by
  rw [isEOF_iff]
  unfold getEOC
  unfold eofMin entryMod
  cases vfat.fatType with
  | fat12 => norm_num; decide
  | fat16 => norm_num
  | fat32 => norm_num; decide

theorem follows_of_linked (hl : Linked vfat.fatType (getEOC vfat) vfat.fat.data cs) (h0 : cs ≠ [])
    (hin : ∀ c ∈ cs, Inside vfat.fatType vfat.fat.data c ∧ c ≠ 0 ∧ isEOF vfat c = false)
    (hty : vfat.fatType ≠ .fat16) : Follows vfat (cs.headD 0) cs := by
  induction cs with
  | nil => exact absurd rfl h0
  | cons c cs ih =>
    obtain ⟨hc, hne, heof⟩ := hin c List.mem_cons_self
    rw [List.headD_cons]
    cases cs with
    | nil =>
      refine .step hne heof (getFATEntry_inside hc) (.stop ?_)
      rw [show entryAt vfat.fatType vfat.fat.data c = _ from hl]
      exact isEOF_getEOC.mpr hty
    | cons d cs =>
      have hd := (hin d (by simp)).2.2
      have hrest := ih hl.2 (by simp) fun x hx => hin x (List.mem_cons_of_mem _ hx)
      refine .step hne heof (d := d) ?_ hrest
      rw [getFATEntry_inside hc, hl.1, Nat.mod_eq_of_lt (lt_entryMod hd)]

/-- The chain that is followed from a linked list of first free clusters, with `pre` the
clusters before it: it meets no end marker too early, and one at its end. -/
theorem linked_of_follows {new : VFAT} {pre : List Nat} {cs' : List Nat}
    (hty : new.fatType = vfat.fatType)
    (hl : Linked vfat.fatType (getEOC vfat) new.fat.data cs) (h0 : cs ≠ [])
    (hin : ∀ c ∈ cs, Inside new.fatType new.fat.data c)
    (hlt : cs.Pairwise (· < ·))
    (hfirst : ∀ c ∈ cs, ∀ x, 2 ≤ x → x < c → getFATEntry vfat x = .ok 0 → x ∈ pre ++ cs)
    (hF : Follows new (cs.headD 0 % entryMod vfat.fatType) cs') (hlen : cs'.length = cs.length)
    (hfree : ∀ c ∈ cs', 2 ≤ c ∧ getFATEntry vfat c = .ok 0 ∧ c ∉ pre) (hnd : cs'.Nodup) :
    (∀ c ∈ cs, isEOF vfat c = false) ∧ vfat.fatType ≠ .fat16 := by
  have heof : ∀ x, isEOF new x = isEOF vfat x := fun x => by unfold isEOF; rw [hty]
  induction cs generalizing pre cs' with
  | nil => exact absurd rfl h0
  | cons c cs ih =>
    cases hF with
    | stop => simp at hlen
    | @step x d cs1 hx0 hx he hrest =>
      rw [List.headD_cons] at hx he hfree hnd
      rw [heof] at hx
      have hc : isEOF vfat c = false := by
        by_contra hne
        obtain ⟨h2, hfr, hpre⟩ := hfree _ List.mem_cons_self
        by_cases hfit : c < entryMod vfat.fatType
        · rw [Nat.mod_eq_of_lt hfit] at hx
          exact hne hx
        · -- the number does not fit the entry, and an earlier cluster is visited instead
          have hxlt : c % entryMod vfat.fatType < c :=
            Nat.lt_of_lt_of_le (Nat.mod_lt _ (entryMod_pos _))
              (Nat.le_of_not_lt hfit)
          rcases List.mem_append.mp (hfirst c List.mem_cons_self _ h2 hxlt hfr) with hm | hm
          · exact hpre hm
          · rcases List.mem_cons.mp hm with hm | hm
            · omega
            · have := (List.pairwise_cons.mp hlt).1 _ hm
              omega
      rw [Nat.mod_eq_of_lt (lt_entryMod hc)] at he hfree hnd
      have hent := getFATEntry_inside (hin c List.mem_cons_self)
      rw [hent, Out.ok.injEq, hty] at he
      cases cs with
      | nil =>
        have hnil : cs1 = [] := by
          rw [List.length_cons, List.length_singleton] at hlen
          exact List.length_eq_zero_iff.mp (by omega)
        rw [show entryAt vfat.fatType new.fat.data c = _ from hl] at he
        rw [← he, hnil] at hrest
        cases hrest with
        | stop hstop =>
          rw [heof] at hstop
          exact ⟨by simpa using hc, isEOF_getEOC.mp hstop⟩
      | cons e cs =>
        rw [hl.1] at he
        rw [← he] at hrest
        obtain ⟨hnot, hnd1⟩ := List.nodup_cons.mp hnd
        obtain ⟨h1, h2⟩ := @ih (pre ++ [c]) cs1 hl.2 (by simp)
          (fun x hx => hin x (List.mem_cons_of_mem _ hx)) (List.pairwise_cons.mp hlt).2
          (fun y hy x hx2 hxy hxf => by
            have := hfirst y (List.mem_cons_of_mem _ hy) x hx2 hxy hxf
            simpa using this)
          hrest (by simpa using hlen)
          (fun y hy => by
            obtain ⟨g2, gf, gp⟩ := hfree y (List.mem_cons_of_mem _ hy)
            refine ⟨g2, gf, fun hm => ?_⟩
            rcases List.mem_append.mp hm with hm | hm
            · exact gp hm
            · rw [List.mem_singleton] at hm
              exact hnot (hm ▸ hy))
          hnd1
        refine ⟨fun y hy => ?_, h2⟩
        rcases List.mem_cons.mp hy with rfl | hy
        · exact hc
        · exact h1 y hy

/-! ## When the chain is well formed -/

/-- A call that finds enough free clusters makes a chain only where each of them can be told
from an end marker and the end marker is recognized. -/
theorem WellFormed.ends (hw : WellFormed vfat n) (hn : n ≠ 0) (h : FirstFree vfat n cs) :
    vfat.fatType ≠ .fat16 ∧ ∀ c ∈ cs, isEOF vfat c = false := by
  obtain ⟨hlen, hlt, hspec, hfirst⟩ := h.spec
  obtain ⟨fat, hrun, hset⟩ := allocate_of_firstFree hn h
  obtain ⟨cs', hmade⟩ := hw.made _ _ hrun
  have h0 : cs ≠ [] := fun he => hn (by rw [← hlen, he]; rfl)
  have hF := hmade.follows
  have hhead : isEOF vfat (cs.headD 0) = false := by
    cases hF with
    | stop => exact absurd hmade.length (Ne.symm hn)
    | step _ hc => exact hc
  have hF' : Follows { vfat with fat := fat } (cs.headD 0 % entryMod vfat.fatType) cs' := by
    rw [Nat.mod_eq_of_lt (lt_entryMod hhead)]
    exact hF
  obtain ⟨h1, h2⟩ := @linked_of_follows vfat cs { vfat with fat := fat } [] cs' rfl hset.linked h0
    (fun c hc => (hspec c hc).2.2.2.congr hset.length) hlt hfirst hF' (hmade.length.trans hlen.symm)
    (fun c hc => ⟨(hmade.range c hc).1, hmade.free c hc, by simp⟩) hmade.distinct
  exact ⟨h2, h1⟩

/-- The chain that is made of clusters below the end markers. -/
theorem made_of_firstFree (h : FirstFree vfat n cs) (hn : n ≠ 0) (hty : vfat.fatType ≠ .fat16)
    (heof : ∀ c ∈ cs, isEOF vfat c = false) {fat : Fat} (hset : SetTo vfat cs fat) :
    Made vfat { vfat with fat := fat } n (cs.headD 0) cs := by
  obtain ⟨hlen, hlt, hspec, -⟩ := h.spec
  have hin : ∀ c, Inside vfat.fatType vfat.fat.data c → Inside vfat.fatType fat.data c :=
    fun c hc => hc.congr hset.length
  refine ⟨@follows_of_linked { vfat with fat := fat } cs hset.linked ?_ ?_ hty, hlen,
    hlt.imp Nat.ne_of_lt, fun c hc => ⟨(hspec c hc).1, (hspec c hc).2.1⟩,
    fun c hc => (hspec c hc).2.2.1, fun c hc hc' => ?_⟩
  · exact fun he => hn (by rw [← hlen, he]; rfl)
  · intro c hc
    obtain ⟨h2, -, -, hi⟩ := hspec c hc
    exact ⟨hin c hi, by omega, heof c hc⟩
  · have hnew : getFATEntry { vfat with fat := fat } c = .ok (entryAt vfat.fatType fat.data c) :=
      getFATEntry_inside (hin c hc')
    rw [hnew, getFATEntry_inside hc', hset.others c hc hc']

/-- For every volume and every number of clusters: a successful allocation makes a chain of
that many distinct clusters, free before, which ends at an end marker and leaves the other
entries alone, and a failing one leaves the table alone, exactly if there are not enough
free clusters, or the entries do not have 16 bits and the first free clusters have numbers
below the end markers. -/
theorem wellFormed_iff (vfat : VFAT) (n : Nat) (hn : 1 ≤ n) :
    WellFormed vfat n ↔
      ∀ cs, FirstFree vfat n cs → vfat.fatType ≠ .fat16 ∧ ∀ c ∈ cs, isEOF vfat c = false := by
  have hn0 : n ≠ 0 := by omega
  constructor
  · intro hw cs h
    exact hw.ends hn0 h
  · intro hcond
    refine ⟨fun head new hrun => ?_, fun e new hrun => allocate_err hrun⟩
    obtain ⟨cs, h⟩ := firstFree_of_allocate hn0 hrun
    obtain ⟨hty, heof⟩ := hcond cs h
    obtain ⟨fat, hrun', hset⟩ := allocate_of_firstFree hn0 h
    rw [hrun'] at hrun
    injection hrun with hhead hnew
    rw [← hhead, ← hnew]
    exact ⟨cs, made_of_firstFree h hn0 hty heof hset⟩

/-- Two clusters of a volume with 12-bit entries. -/
theorem wellFormed_small12 : WellFormed small12 2 :=
  (wellFormed_iff small12 2 (by decide)).mpr fun cs h => by
    refine ⟨by decide, fun c hc => ?_⟩
    obtain ⟨-, -, hspec, -⟩ := h.spec
    have h1 := (hspec c hc).2.1
    have hcount : small12.countOfClusters = 4 := by decide +kernel
    have hc5 : c ≤ 5 := by rwa [hcount] at h1
    rw [← Bool.not_eq_true, isEOF_iff, show small12.fatType = .fat12 from rfl]
    unfold eofMin
    exact fun hle => absurd (Nat.le_trans hle hc5) (by norm_num)

/-- One cluster of a volume with 16-bit entries. -/
theorem chain16_has_no_end : ¬ ∀ vfat n, 1 ≤ n → WellFormed vfat n := by
  intro h
  have hfree : FirstFree small16 1 [2] := by
    refine ⟨1, by decide +kernel, fun c hc => ?_, by decide +kernel, rfl⟩
    have hc2 : (candidates small16).take 1 = [2] := by decide +kernel
    rw [hc2, List.mem_singleton] at hc
    rw [hc]
    exact ⟨0, by decide +kernel⟩
  exact ((h small16 1 (by decide)).ends (by decide) hfree).1 rfl

end LsvmTools.Vfat.Alloc
