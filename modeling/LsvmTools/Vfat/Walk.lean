import LsvmTools.Vfat.Entries

/-! # Loops over a chain of clusters

`ReadClusters`, `LoadFileFromDirectoryEntry` and `WriteClusters` follow the table from a
cluster on until an entry that is 0 or an end marker. `walk` is the loop they share: the
clusters that are touched. What a loop does with a cluster, and whether it leaves there, is
the step it is run with; the loop is stuck where an entry lies outside the table or where it
does not end. -/
namespace LsvmTools.Vfat.Walk
open Lib.ByteString Lib.Program BlockDevice Volume Entries Relation

variable {σ : Type}

/-- `clustno && !IsEOF(vfat, clustno)`. -/
def live (vfat : VFAT) (clustno : Nat) : Bool := clustno ≠ 0 && !isEOF vfat clustno

/-- The loop from `clustno` on. The step delivers no state where the loop is left. -/
def walk (vfat : VFAT) (step : Nat → σ → Option σ) : Nat → Nat → σ → Out Fail (List Nat)
  | 0, clustno, _ => if live vfat clustno then .stuck else pure []
  | fuel + 1, clustno, s =>
    if !live vfat clustno then pure []
    else match step clustno s with
      | none => pure [clustno]
      | some s => do
        let next ← getFATEntry vfat clustno
        let rest ← walk vfat step fuel next s
        pure (clustno :: rest)

/-! ## The three loops -/

/-- `WriteCluster`, on a whole cluster of data. -/
def writeCluster (vfat : VFAT) (clustno : Nat) (data : Bytes) : Option VFAT :=
  (putN vfat.dev (firstSectorOfCluster vfat clustno) (vfat.clusterSize / 512) data).map
    fun dev => { vfat with dev := dev }

/-- `ReadClusters`, with the buffer filled so far. -/
def readStep (vfat : VFAT) (clustno : Nat) (buf : Bytes) : Option Bytes :=
  match readCluster vfat clustno with
  | .ok b => some (buf ++ b)
  | _ => none

/-- `LoadFileFromDirectoryEntry`. -/
def loadStep (vfat : VFAT) (clustno : Nat) (buf : Bytes) : Option Bytes :=
  match readCluster vfat clustno with
  | .ok b => some (buf ++ b)
  | _ => none

/-- `WriteClusters`, with the volume and the data that is left. Less data than a cluster
takes is written in its last one. -/
def writeStep (clustno : Nat) (s : VFAT × Bytes) : Option (VFAT × Bytes) :=
  if s.2.length < s.1.clusterSize then none
  else
    (writeCluster s.1 clustno (s.2.take s.1.clusterSize)).map fun vfat =>
      (vfat, s.2.drop s.1.clusterSize)

/-- The loop ends, having read only entries inside the table, and touches no cluster
twice. -/
def Tame (vfat : VFAT) (step : Nat → σ → Option σ) (start : Nat) (s : σ) : Prop :=
  ∃ fuel touched, walk vfat step fuel start s = .ok touched ∧ touched.Nodup

/-- All three loops from `start` on, whatever is written. -/
structure AllTame (vfat : VFAT) (start : Nat) : Prop where
  read : Tame vfat (readStep vfat) start []
  load : Tame vfat (loadStep vfat) start []
  write : ∀ data, Tame vfat writeStep start (vfat, data)

/-! ## The chain -/

/-- The loops go on from `c` to `d`. -/
def Next (vfat : VFAT) (c d : Nat) : Prop := live vfat c = true ∧ getFATEntry vfat c = .ok d

/-- Every cluster that the entries lead to from `start` on has its entry inside the table,
and they do not lead back to it. -/
def Orderly (vfat : VFAT) (start : Nat) : Prop :=
  ∀ c, ReflTransGen (Next vfat) start c → live vfat c = true →
    Inside vfat.fatType vfat.fat.data c ∧ ¬ TransGen (Next vfat) c c

variable {vfat : VFAT} {step : Nat → σ → Option σ} {fuel c d : Nat} {s s' : σ}

theorem live_ne_eof (h : live vfat c = true) : c < entryMod vfat.fatType := by
  unfold live at h
  have h1 : isEOF vfat c = false := by simpa using (Bool.and_eq_true_iff.mp h).2
  have hmin := eofMin_lt vfat.fatType
  have hc : ¬ eofMin vfat.fatType ≤ c := of_decide_eq_false h1
  omega

/-- The offset of a cluster the loops go on from does not wrap around. -/
theorem live_offset (h : live vfat c = true) : fatOffset vfat.fatType c = place vfat.fatType c := by
  have hlt := live_ne_eof h
  refine fatOffset_eq ?_
  revert hlt
  unfold entryMod
  cases vfat.fatType <;> simp only [place] <;> intro hlt <;> omega

theorem inside_iff (h : live vfat c = true) :
    Inside vfat.fatType vfat.fat.data c ↔ ∃ d, getFATEntry vfat c = .ok d := by
  unfold getFATEntry Inside
  rw [live_offset h]
  split
  · rename_i hin
    exact ⟨fun _ => ⟨_, rfl⟩, fun _ => hin⟩
  · rename_i hout
    exact ⟨fun hin => absurd hin hout, fun ⟨_, he⟩ => by cases he⟩

theorem walk_stop (h : live vfat c = false) : walk vfat step fuel c s = .ok [] := by
  cases fuel with
  | zero => rw [walk, h, if_neg Bool.false_ne_true, Out.pure_eq]
  | succ fuel => rw [walk, h, Bool.not_false, if_pos rfl, Out.pure_eq]

theorem walk_leave (h : live vfat c = true) (hs : step c s = none) :
    walk vfat step (fuel + 1) c s = .ok [c] := by
  rw [walk, h, Bool.not_true, if_neg Bool.false_ne_true, hs, Out.pure_eq]

theorem walk_next (h : live vfat c = true) (hs : step c s = some s')
    (hd : getFATEntry vfat c = .ok d) :
    walk vfat step (fuel + 1) c s =
      walk vfat step fuel d s' >>= fun rest => pure (c :: rest) := by
  rw [walk, h, Bool.not_true, if_neg Bool.false_ne_true, hs]
  dsimp only
  rw [hd, Out.ok_bind]

/-! ## Orderly chains end -/

/-- With the clusters `seen` so far, none of which can come again, the loop ends before there
are more of them than entries. -/
theorem walk_of_orderly (h : Orderly vfat c) (seen : List Nat) (hnd : seen.Nodup)
    (hseen : ∀ x ∈ seen, x ≤ vfat.fat.data.length ∧ TransGen (Next vfat) x c)
    (hf : vfat.fat.data.length + 2 ≤ fuel + seen.length) :
    ∃ touched, walk vfat step fuel c s = .ok touched ∧ (touched ++ seen).Nodup := by
  induction fuel generalizing c s seen with
  | zero =>
    have hsub : seen ⊆ List.range (vfat.fat.data.length + 1) := fun x hx =>
      List.mem_range.mpr (Nat.lt_succ_of_le (hseen x hx).1)
    have hle := (hnd.subperm hsub).length_le
    rw [List.length_range] at hle
    omega
  | succ fuel ih =>
    cases hl : live vfat c with
    | false => exact ⟨[], walk_stop hl, hnd⟩
    | true =>
      obtain ⟨hin, hcyc⟩ := h c .refl hl
      have hnew : c ∉ seen := fun hc => hcyc (hseen c hc).2
      have hnd' : (c :: seen).Nodup := List.nodup_cons.mpr ⟨hnew, hnd⟩
      cases hs : step c s with
      | none => exact ⟨[c], walk_leave hl hs, hnd'⟩
      | some s' =>
        obtain ⟨d, hd⟩ := (inside_iff hl).mp hin
        have hcd : Next vfat c d := ⟨hl, hd⟩
        have hbound : c ≤ vfat.fat.data.length := by
          unfold Inside at hin
          have hplace : c ≤ place vfat.fatType c := by
            cases vfat.fatType <;> simp only [place] <;> omega
          omega
        obtain ⟨touched, ht, hn⟩ := @ih d s' (fun x hx => h x (.head hcd hx)) (c :: seen) hnd'
          (fun x hx => by
            rcases List.mem_cons.mp hx with rfl | hx
            · exact ⟨hbound, .single hcd⟩
            · exact ⟨(hseen x hx).1, (hseen x hx).2.tail hcd⟩)
          (by rw [List.length_cons]; omega)
        refine ⟨c :: touched, ?_, ?_⟩
        · rw [walk_next hl hs hd, ht, Out.ok_bind, Out.pure_eq]
        · have hperm : (touched ++ c :: seen).Perm (c :: touched ++ seen) := List.perm_middle
          exact hperm.nodup_iff.mp hn

theorem tame_of_orderly (h : Orderly vfat c) (step : Nat → σ → Option σ) (s : σ) :
    Tame vfat step c s := by
  obtain ⟨touched, ht, hn⟩ := @walk_of_orderly σ vfat step (vfat.fat.data.length + 2) c s h []
    List.nodup_nil (fun x hx => by cases hx) (Nat.le_refl _)
  rw [List.append_nil] at hn
  exact ⟨_, touched, ht, hn⟩

/-! ## Loops that never leave -/

/-- A loop that no cluster makes leave has followed the chain to its end. -/
theorem acc_of_walk (hstay : ∀ c s, step c s ≠ none) {touched : List Nat}
    (h : walk vfat step fuel c s = .ok touched) :
    Acc (fun d c => Next vfat c d) c ∧
      ∀ x, ReflTransGen (Next vfat) c x → live vfat x = true →
        Inside vfat.fatType vfat.fat.data x := by
  induction fuel generalizing c s touched with
  | zero =>
    cases hl : live vfat c with
    | true =>
      rw [walk, hl, if_pos rfl] at h
      cases h
    | false =>
      refine ⟨⟨_, fun d hd => by rw [hd.1] at hl; cases hl⟩, fun x hx hlx => ?_⟩
      rcases ReflTransGen.cases_head hx with rfl | ⟨y, hy, -⟩
      · rw [hl] at hlx; cases hlx
      · rw [hy.1] at hl; cases hl
  | succ fuel ih =>
    cases hl : live vfat c with
    | false =>
      refine ⟨⟨_, fun d hd => by rw [hd.1] at hl; cases hl⟩, fun x hx hlx => ?_⟩
      rcases ReflTransGen.cases_head hx with rfl | ⟨y, hy, -⟩
      · rw [hl] at hlx; cases hlx
      · rw [hy.1] at hl; cases hl
    | true =>
      cases hs : step c s with
      | none => exact absurd hs (hstay c s)
      | some s' =>
        rw [walk, hl, Bool.not_true, if_neg Bool.false_ne_true, hs] at h
        dsimp only at h
        obtain ⟨d, hd, h⟩ := Out.bind_eq_ok.mp h
        obtain ⟨rest, hrest, -⟩ := Out.bind_eq_ok.mp h
        obtain ⟨hacc, hin⟩ := ih hrest
        have honly : ∀ y, Next vfat c y → y = d := fun y hy => by
          have := hy.2
          rw [hd] at this
          injection this with this
          exact this.symm
        refine ⟨⟨_, fun y hy => honly y hy ▸ hacc⟩, fun x hx hlx => ?_⟩
        rcases ReflTransGen.cases_head hx with rfl | ⟨y, hy, hyx⟩
        · exact (inside_iff hl).mpr ⟨d, hd⟩
        · exact hin x (honly y hy ▸ hyx) hlx

/-- A chain that ends does not lead back to one of its clusters. -/
theorem no_return (h : Acc (fun d c => Next vfat c d) c) : ¬ TransGen (Next vfat) c c := by
  induction h with
  | intro c _ ih =>
    intro hc
    obtain ⟨d, hcd, hdc⟩ := TransGen.head'_iff.mp hc
    -- the successor lies on the same cycle
    exact ih d hcd (TransGen.tail' hdc hcd)

theorem orderly_of_walk (hstay : ∀ c s, step c s ≠ none) {touched : List Nat}
    (h : walk vfat step fuel c s = .ok touched) : Orderly vfat c := by
  obtain ⟨hacc, hin⟩ := acc_of_walk hstay h
  refine fun x hx hl => ⟨hin x hx hl, no_return ?_⟩
  induction hx with
  | refl => exact hacc
  | tail hxy hyz ih => exact (ih hyz.1).inv hyz

/-- A device with every sector there can be. -/
def fullDevice : Blkdev := ⟨2 ^ 33, fun _ => 0, fun _ => true, fun _ => true⟩

theorem getN_full {b n : Nat} (h : b + n ≤ 2 ^ 33) : ∃ d, getN fullDevice b n = some d := by
  have hall : (List.range' b n).all fullDevice.readable = true :=
    List.all_eq_true.mpr fun _ _ => rfl
  have hn : fullDevice.nblks = 2 ^ 33 := rfl
  refine ⟨_, if_pos ⟨?_, hall⟩⟩
  rw [hn]
  exact h

theorem firstSector_lt (vfat : VFAT) (c : Nat) : firstSectorOfCluster vfat c < 2 ^ 32 := by
  unfold firstSectorOfCluster
  exact u32_lt _

theorem readCluster_eq (vfat : VFAT) (c : Nat) : readCluster vfat c =
    Out.ofOption .io (getN vfat.dev (firstSectorOfCluster vfat c) vfat.bpb.secPerClus) := by
  have hsize : vfat.clusterSize / 512 = vfat.bpb.secPerClus := by
    rw [VFAT.clusterSize_eq, Nat.mul_div_cancel _ (by decide)]
  unfold readCluster blkdevRead
  rw [if_neg (Nat.ne_of_gt (VFAT.clusterSize_pos _)), hsize]

theorem readStep_full (hd : vfat.dev = fullDevice) (c : Nat) (buf : Bytes) :
    readStep vfat c buf ≠ none := by
  have hsec := firstSector_lt vfat c
  have hspc : vfat.bpb.secPerClus < 256 := UInt8.toNat_lt _
  obtain ⟨b, hb⟩ := @getN_full (firstSectorOfCluster vfat c) vfat.bpb.secPerClus (by omega)
  unfold readStep
  rw [readCluster_eq, hd, hb]
  exact Option.some_ne_none _

/-- For every table and every cluster: on all devices the three loops end, touch no cluster
twice and read only entries inside the table, exactly where every cluster that the entries
lead to has its entry inside the table and they never lead back to it. -/
theorem allTame_iff (vfat : VFAT) (start : Nat) :
    (∀ dev, AllTame { vfat with dev := dev } start) ↔ Orderly vfat start := by
  constructor
  · intro h
    obtain ⟨fuel, touched, hwalk, -⟩ := (h fullDevice).read
    have ho : Orderly { vfat with dev := fullDevice } start :=
      orderly_of_walk (readStep_full rfl) hwalk
    exact ho
  · intro h dev
    have hdev : Orderly { vfat with dev := dev } start := h
    exact ⟨tame_of_orderly hdev _ _, tame_of_orderly hdev _ _, fun _ => tame_of_orderly hdev _ _⟩

/-- The entry of cluster 2 holds 2. -/
def selfLinked : VFAT := { small12 with
  fat := ⟨[0xF8, 0xFF, 0xFF, 2] ++ List.replicate 508 0, by decide +kernel⟩
  dev := fullDevice }

theorem selfLinked_never_ends : ¬ ∀ vfat start, AllTame vfat start := by
  intro h
  obtain ⟨fuel, touched, hwalk, -⟩ := (h selfLinked 2).read
  have hloop : Next selfLinked 2 2 := ⟨by decide +kernel, by decide +kernel⟩
  exact (orderly_of_walk (readStep_full rfl) hwalk 2 .refl hloop.1).2 (.single hloop)

end LsvmTools.Vfat.Walk
