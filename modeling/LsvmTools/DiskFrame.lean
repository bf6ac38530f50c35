import LsvmTools.DiskOverlay

/-! # What a hooked write leaves alone

A write that begins in a region that is read only fails at once. Any other one may send
its end, and all of it where it begins outside the regions, to the disk below: without
looking whether that end lies under a region. -/
namespace LsvmTools.DiskFrame
open Lib.ByteString Lib.Program Blkdev DiskBio DiskOverlay

variable {σ ρ : Type} {disk : Bio σ} {bio : Bio ρ} {layout : Layout} {w w' : World σ ρ}
  {regions : List (Region ρ)} {reg reg' : Region ρ}

/-! ## Outcomes -/

/-- The call returns this status, 0 for success. -/
def Returns {ω : Type} (m : Prog ω EfiStatus Unit) (s : ω) (status : EfiStatus) (t : ω) : Prop :=
  (m.run s = .ok () t ∧ status = 0) ∨ m.run s = .err status t

/-- The blocks that so many bytes reach into. -/
def blocksOf (size : Nat) : Nat := (size + 511) / 512

/-- A write request from the disk reaches the block. -/
def Reaches (request : Nat × Nat) (b : Nat) : Prop :=
  request.1 ≤ b ∧ b < request.1 + blocksOf request.2

theorem blocksOf_drop {size n : Nat} (h : n < blocksOf size) :
    blocksOf (size - 512 * n) = blocksOf size - n := by
  unfold blocksOf at h ⊢
  omega

theorem writeBlock_slot {k : Nat} {d : Sector} {u : Unit}
    (h : (writeBlock bio k d).run reg = .ok u reg') : reg'.toSlot = reg.toSlot := by
  unfold writeBlock at h
  rw [Prog.get_bind] at h
  cases hback : reg.backing with
  | blocks data =>
    rw [hback] at h
    simp only at h
    split at h
    · cases h
      rfl
    · cases h
      rfl
  | bio s =>
    rw [hback] at h
    obtain ⟨t, -, rfl⟩ := onBio_ok.mp (orUnsupported_ok.mp h)
    rfl

theorem writeBlock_err {k : Nat} {d : Sector} {e : EfiStatus}
    (h : (writeBlock bio k d).run reg = .err e reg') :
    e = unsupported ∧ reg'.toSlot = reg.toSlot := by
  unfold writeBlock at h
  rw [Prog.get_bind] at h
  cases hback : reg.backing with
  | blocks data =>
    rw [hback] at h
    simp only at h
    split at h
    · cases h
    · cases h
  | bio s =>
    rw [hback] at h
    obtain ⟨rfl, e', he⟩ := orUnsupported_err.mp h
    obtain ⟨t, -, rfl⟩ := onBio_err.mp he
    exact ⟨rfl, rfl⟩

/-- The loop over a region, whatever its device does. -/
theorem writeRegion_slot {fuel i : Nat} {buffer : Bytes} {r : Nat × Bytes}
    (hlast : reg.lastLBA < 2 ^ 64) (hi : i ≤ reg.lastLBA + 1) (hi64 : i < 2 ^ 64)
    (h : (writeRegion bio fuel i buffer).run reg = .ok r reg') :
    reg'.toSlot = reg.toSlot ∧
      r.2.length = buffer.length - 512 * span reg.lastLBA i (blocksOf buffer.length) ∧
      (span reg.lastLBA i (blocksOf buffer.length) < blocksOf buffer.length →
        r.1 = reg.lastLBA + 1) := by
  induction fuel generalizing i buffer reg with
  | zero => cases h
  | succ fuel ih =>
    unfold writeRegion at h
    rw [Prog.get_bind] at h
    by_cases hgo : i ≤ reg.lastLBA ∧ 0 < buffer.length
    · rw [if_pos hgo] at h
      obtain ⟨u, reg1, h1, h2⟩ := Prog.bind_eq_ok.mp h
      have hslot := writeBlock_slot h1
      have hblocks : blocksOf buffer.length = blocksOf (buffer.drop 512).length + 1 := by
        rw [List.length_drop]
        unfold blocksOf
        omega
      have hspan := span_succ (n := blocksOf (buffer.drop 512).length) hgo.1 hlast
      have hend : reg1.lastLBA = reg.lastLBA := congrArg Slot.lastLBA hslot
      have hnext : u64 (i + 1) ≤ reg.lastLBA + 1 ∧ u64 (i + 1) < 2 ^ 64 := by
        unfold u64
        omega
      rw [← hend] at hlast hnext
      obtain ⟨h3, h4, h5⟩ := ih hlast hnext.1 hnext.2 h2
      rw [hslot] at h3 h4 h5
      rw [hblocks, hspan]
      refine ⟨h3, ?_, fun hlt => h5 (by omega)⟩
      rw [h4, List.length_drop]
      omega
    · rw [if_neg hgo] at h
      cases h
      have h0 : span reg'.lastLBA i (blocksOf buffer.length) = 0 := by
        have hle := span_le reg'.lastLBA i (blocksOf buffer.length)
        by_cases hn : buffer.length = 0
        · rw [hn] at hle ⊢
          exact Nat.le_zero.mp hle
        · unfold span
          rw [if_neg (by omega)]
          omega
      rw [h0]
      refine ⟨rfl, rfl, fun hlt => ?_⟩
      unfold blocksOf at hlt
      show i = _
      omega

theorem writeRegion_err {fuel i : Nat} {buffer : Bytes} {e : EfiStatus}
    (h : (writeRegion bio fuel i buffer).run reg = .err e reg') :
    e = unsupported ∧ reg'.toSlot = reg.toSlot := by
  induction fuel generalizing i buffer reg with
  | zero => cases h
  | succ fuel ih =>
    unfold writeRegion at h
    rw [Prog.get_bind] at h
    split at h
    · rcases Prog.bind_eq_err.mp h with h1 | ⟨u, reg1, h1, h2⟩
      · exact writeBlock_err h1
      · obtain ⟨h3, h4⟩ := ih h2
        exact ⟨h3, h4.trans (writeBlock_slot h1)⟩
    · cases h

/-! ## One write -/

/-- What a write through the hooks leaves of the state, whatever the devices do. -/
structure Kept (layout : Layout) (w w' : World σ ρ) : Prop where
  laid : Laid w'.regions layout
  hooks : w'.enableIOHooks = w.enableIOHooks
  readOnly : ∀ (j : Nat) (reg : Region ρ), w.regions[j]? = some reg → reg.readOnly = true →
    w'.regions[j]? = some reg

theorem Kept.of_set {j : Nat} (hl : Laid w.regions layout) (hreg : w.regions[j]? = some reg)
    (hslot : reg'.toSlot = reg.toSlot) (hro : reg.readOnly = false) :
    Kept layout w { w with regions := w.regions.set j reg' } := by
  refine ⟨hl.set hreg hslot, rfl, fun i r hr hrro => ?_⟩
  show (w.regions.set j reg')[i]? = _
  rw [List.getElem?_set]
  split
  · rename_i hi
    subst hi
    rw [hreg] at hr
    cases hr
    rw [hro] at hrro
    cases hrro
  · exact hr

/-- The part for the region of the first block, where it succeeds. -/
theorem writeFront_kept (hl : Laid w.regions layout) {lba : Nat} {buffer : Bytes}
    {r : Nat × Bytes} (hlba : lba < 2 ^ 64)
    (h : (writeFront bio w.regions lba buffer).run w = .ok r w') :
    Kept layout w w' ∧ w'.requests = w.requests ∧ w'.disk = w.disk ∧
      (∀ slot ∈ layout.slots, slot.has lba = true → slot.readOnly = false) ∧
      r.2.length = buffer.length - 512 * served w.regions lba (blocksOf buffer.length) ∧
      (served w.regions lba (blocksOf buffer.length) < blocksOf buffer.length →
        r.1 = lba + served w.regions lba (blocksOf buffer.length)) := by
  unfold writeFront at h
  cases hfind : findRegion w.regions lba with
  | none =>
    rw [hfind] at h
    cases h
    have hserved : served w.regions lba (blocksOf buffer.length) = 0 := by
      unfold served
      rw [List.find?_eq_none.mpr (by simpa using fun reg hreg => findRegion_none hfind hreg)]
    rw [hserved]
    refine ⟨⟨hl, rfl, fun _ _ h _ => h⟩, rfl, rfl, fun slot hslot hhas => ?_, rfl, fun _ => rfl⟩
    rw [← hl] at hslot
    obtain ⟨r, hr, rfl⟩ := List.mem_map.mp hslot
    rw [findRegion_none hfind hr] at hhas
    cases hhas
  | some j =>
    rw [hfind] at h
    obtain ⟨reg, hreg, hhas⟩ := findRegion_some hfind
    obtain ⟨reg', hrun, rfl⟩ := (onRegion_ok hreg).mp h
    rw [Prog.get_bind] at hrun
    have hbounds := has_iff.mp hhas
    have hlast := hl.last_lt (List.mem_of_getElem? hreg)
    cases hro : reg.readOnly with
    | true =>
      rw [hro, if_pos rfl] at hrun
      cases hrun
    | false =>
      rw [hro, if_neg (by decide)] at hrun
      obtain ⟨h1, h2, h3⟩ := writeRegion_slot hlast (by omega) hlba hrun
      have hserved : served w.regions lba (blocksOf buffer.length) =
          span reg.lastLBA lba (blocksOf buffer.length) := by
        unfold served
        rw [hl.unique hreg hhas]
      rw [hserved]
      refine ⟨.of_set hl hreg h1 hro, rfl, rfl, fun slot hslot hs => ?_, h2, fun hlt => ?_⟩
      · rw [← hl] at hslot
        obtain ⟨r, hr, rfl⟩ := List.mem_map.mp hslot
        obtain ⟨i, hi⟩ := List.getElem?_of_mem hr
        have hsame := (hl.unique hi hs).symm.trans (hl.unique hreg hhas)
        cases hsame
        exact hro
      · rw [h3 hlt, (span_of_lt hlt).2]
        omega

/-- It fails because the region is read only, or because a device fails. -/
theorem writeFront_err (hl : Laid w.regions layout) {lba : Nat} {buffer : Bytes} {e : EfiStatus}
    (h : (writeFront bio w.regions lba buffer).run w = .err e w') :
    Kept layout w w' ∧ w'.requests = w.requests ∧
      ((e = writeProtected ∧ ∃ slot ∈ layout.slots, slot.has lba = true ∧ slot.readOnly = true) ∨
        (e = unsupported ∧
          ∀ slot ∈ layout.slots, slot.has lba = true → slot.readOnly = false)) := by
  unfold writeFront at h
  cases hfind : findRegion w.regions lba with
  | none =>
    rw [hfind] at h
    cases h
  | some j =>
    rw [hfind] at h
    obtain ⟨reg, hreg, hhas⟩ := findRegion_some hfind
    obtain ⟨reg', hrun, rfl⟩ := (onRegion_err hreg).mp h
    rw [Prog.get_bind] at hrun
    have hmem : reg.toSlot ∈ layout.slots := hl ▸ List.mem_map_of_mem (List.mem_of_getElem? hreg)
    cases hro : reg.readOnly with
    | true =>
      rw [hro, if_pos rfl] at hrun
      cases hrun
      have hset : w.regions.set j reg = w.regions := by
        refine List.ext_getElem? fun i => ?_
        rw [List.getElem?_set]
        split
        · rename_i hi
          subst hi
          rw [hreg, if_pos (List.getElem?_eq_some_iff.mp hreg).1]
        · rfl
      rw [hset]
      exact ⟨⟨hl, rfl, fun _ _ h _ => h⟩, rfl, .inl ⟨rfl, _, hmem, hhas, hro⟩⟩
    | false =>
      rw [hro, if_neg (by decide)] at hrun
      obtain ⟨rfl, hslot⟩ := writeRegion_err hrun
      refine ⟨.of_set hl hreg hslot hro, rfl, .inr ⟨rfl, fun slot hs hb => ?_⟩⟩
      rw [← hl] at hs
      obtain ⟨r, hr, rfl⟩ := List.mem_map.mp hs
      obtain ⟨i, hi⟩ := List.getElem?_of_mem hr
      have hsame := (hl.unique hi hb).symm.trans (hl.unique hreg hhas)
      cases hsame
      exact hro

/-- What the disk is asked to write. -/
def asked (w w' : World σ ρ) (lba size served : Nat) : Prop :=
  w'.requests = w.requests ++ [(lba + served, size - 512 * served)]

/-- The outcomes of a write through the hooks. -/
inductive Outcome (layout : Layout) (w w' : World σ ρ) (lba size : Nat) : EfiStatus → Prop
  | readOnly (h : ∃ slot ∈ layout.slots, slot.has lba = true ∧ slot.readOnly = true)
      (hreq : w'.requests = w.requests) : Outcome layout w w' lba size writeProtected
  | device (h : ∀ slot ∈ layout.slots, slot.has lba = true → slot.readOnly = false)
      (hreq : w'.requests = w.requests) : Outcome layout w w' lba size unsupported
  | inside (h : ∀ slot ∈ layout.slots, slot.has lba = true → slot.readOnly = false)
      (hn : blocksOf size ≤ served w.regions lba (blocksOf size))
      (hreq : w'.requests = w.requests) : Outcome layout w w' lba size 0
  | disk {status : EfiStatus} (hs : status = 0 ∨ status = unsupported)
      (h : ∀ slot ∈ layout.slots, slot.has lba = true → slot.readOnly = false)
      (hn : served w.regions lba (blocksOf size) < blocksOf size)
      (hreq : asked w w' lba size (served w.regions lba (blocksOf size))) :
      Outcome layout w w' lba size status

theorem Kept.hooked {t : World σ ρ} (h : Kept layout { w with enableIOHooks := false } t) :
    Kept layout w { t with enableIOHooks := w.enableIOHooks } := ⟨h.laid, rfl, h.readOnly⟩

theorem writeBlocksHook_outcome (hl : Laid w.regions layout) (hon : w.enableIOHooks = true)
    {lba : Nat} {buffer : Bytes} {status : EfiStatus} (hlba : lba < 2 ^ 64)
    (h : Returns (writeBlocksHook disk bio lba buffer) w status w') :
    Kept layout w w' ∧ Outcome layout w w' lba buffer.length status := by
  have hback : ∀ {r : Nat × Bytes} {v t : World σ ρ} {st : EfiStatus},
      (writeFront bio w.regions lba buffer).run { w with enableIOHooks := false } = .ok r v →
      Returns (if r.2.length = 0 then (pure () : Prog (World σ ρ) EfiStatus Unit)
        else orUnsupported (writeDisk disk r.1 r.2)) v st t →
      Kept layout w { t with enableIOHooks := w.enableIOHooks } ∧
        Outcome layout w { t with enableIOHooks := w.enableIOHooks } lba buffer.length st := by
    intro r v t st hfront hrest
    obtain ⟨hk, hreq, -, hro, hlen, hnext⟩ := writeFront_kept
      (w := { w with enableIOHooks := false }) hl hlba hfront
    change r.2.length = buffer.length - 512 * served w.regions lba (blocksOf buffer.length) at hlen
    by_cases h0 : r.2.length = 0
    · rw [if_pos h0] at hrest
      rcases hrest with ⟨hrun, rfl⟩ | hrun
      · cases hrun
        refine ⟨hk.hooked, .inside hro ?_ hreq⟩
        generalize served w.regions lba (blocksOf buffer.length) = m at hlen ⊢
        unfold blocksOf
        omega
      · cases hrun
    · rw [if_neg h0] at hrest
      have hlt : served w.regions lba (blocksOf buffer.length) < blocksOf buffer.length := by
        have hpos : 0 < buffer.length - 512 * served w.regions lba (blocksOf buffer.length) := by
          rw [← hlen]
          omega
        generalize served w.regions lba (blocksOf buffer.length) = m at hpos ⊢
        unfold blocksOf
        omega
      have hasked : v.requests ++ [(r.1, r.2.length)] = w.requests ++
          [(lba + served w.regions lba (blocksOf buffer.length),
            buffer.length - 512 * served w.regions lba (blocksOf buffer.length))] := by
        rw [hnext hlt, hlen, hreq]
      rcases hrest with ⟨hrun, rfl⟩ | hrun
      · obtain ⟨s, -, rfl⟩ := onDisk_ok.mp (orUnsupported_ok.mp hrun)
        exact ⟨⟨hk.laid, rfl, hk.readOnly⟩, .disk (.inl rfl) hro hlt hasked⟩
      · obtain ⟨rfl, e', he⟩ := orUnsupported_err.mp hrun
        obtain ⟨s, -, rfl⟩ := onDisk_err.mp he
        exact ⟨⟨hk.laid, rfl, hk.readOnly⟩, .disk (.inr rfl) hro hlt hasked⟩
  unfold Returns writeBlocksHook at h
  rw [Prog.get_bind, hon, Bool.not_true, if_neg (by decide)] at h
  rcases h with ⟨hrun, rfl⟩ | hrun
  · obtain ⟨t, ht, rfl⟩ := withoutHooks_ok.mp hrun
    obtain ⟨r, v, hfront, hrest⟩ := Prog.bind_eq_ok.mp ht
    exact hback hfront (.inl ⟨hrest, rfl⟩)
  · obtain ⟨t, ht, rfl⟩ := withoutHooks_err.mp hrun
    rcases Prog.bind_eq_err.mp ht with hfront | ⟨r, v, hfront, hrest⟩
    · obtain ⟨hk, hreq, hcase⟩ := writeFront_err (w := { w with enableIOHooks := false }) hl hfront
      refine ⟨hk.hooked, ?_⟩
      rcases hcase with ⟨rfl, hro⟩ | ⟨rfl, hro⟩
      · exact .readOnly hro hreq
      · exact .device hro hreq
    · exact hback hfront (.inr hrest)

/-! ## The blocks under the regions -/

/-- Whatever the devices do: no request to the disk reaches a block of a region, a write
that reaches a region that is read only fails with `EFI_WRITE_PROTECTED` and leaves the
region as it is, and the hooks are on as before. -/
def Framed (layout : Layout) (lba : Nat) (buffer : Bytes) : Prop :=
  ∀ {σ ρ : Type} {disk : Bio σ} {bio : Bio ρ} (w w' : World σ ρ) (status : EfiStatus),
    w.enableIOHooks = true → Laid w.regions layout →
    Returns (writeBlocksHook disk bio lba buffer) w status w' →
    (∃ new, w'.requests = w.requests ++ new ∧ ∀ request ∈ new, ∀ b, b < 2 ^ 64 →
      Reaches request b → ∀ slot ∈ layout.slots, slot.has b = false) ∧
    (∀ slot ∈ layout.slots, slot.readOnly = true →
      (∃ k, k < blocksOf buffer.length ∧ lba + k < 2 ^ 64 ∧ slot.has (lba + k) = true) →
      status = writeProtected) ∧
    (∀ (j : Nat) (reg : Region ρ), w.regions[j]? = some reg → reg.readOnly = true →
      w'.regions[j]? = some reg) ∧
    w'.enableIOHooks = w.enableIOHooks

/-- The first block of the request is in a region that is read only. -/
def Protected (slots : List Slot) (lba : Nat) : Prop :=
  ∃ slot ∈ slots, slot.has lba = true ∧ slot.readOnly = true

theorem framed_of {lba : Nat} {buffer : Bytes} (hlba : lba < 2 ^ 64)
    (h : Protected layout.slots lba ∨ Clear layout.slots lba (blocksOf buffer.length)) :
    Framed layout lba buffer := by
  intro σ ρ disk bio w w' status hon hl hret
  obtain ⟨hk, hout⟩ := writeBlocksHook_outcome hl hon hlba hret
  refine ⟨?_, ?_, hk.readOnly, hk.hooks⟩
  · cases hout with
    | readOnly _ hreq => exact ⟨[], by rw [hreq, List.append_nil], fun _ h => by cases h⟩
    | device _ hreq => exact ⟨[], by rw [hreq, List.append_nil], fun _ h => by cases h⟩
    | inside _ _ hreq => exact ⟨[], by rw [hreq, List.append_nil], fun _ h => by cases h⟩
    | disk _ hro hn hreq =>
      refine ⟨_, hreq, fun request hmem b hb hreach slot hslot => ?_⟩
      rw [List.mem_singleton.mp hmem] at hreach
      obtain ⟨hle, hlt⟩ := hreach
      simp only [blocksOf_drop hn] at hle hlt
      rcases h with ⟨s, hs, hhas, hpro⟩ | hclear
      · rw [hro s hs hhas] at hpro
        cases hpro
      · rw [← hl] at hslot
        obtain ⟨reg, hreg, rfl⟩ := List.mem_map.mp hslot
        have hone := hclear.outside hl (k := b - lba) (by omega) (by omega) (by omega) reg hreg
        rwa [show lba + (b - lba) = b by omega] at hone
  · intro slot hslot hpro hreach
    obtain ⟨k, hk1, hk2, hhas⟩ := hreach
    have hfirst : Protected layout.slots lba := by
      rcases h with hp | hclear
      · exact hp
      · exact ⟨slot, hslot, hclear k hk1 hk2 slot hslot hhas, hpro⟩
    obtain ⟨s, hs, hsb, hsr⟩ := hfirst
    have hcontra : (∀ slot ∈ layout.slots, slot.has lba = true → slot.readOnly = false) →
        False := by
      intro hro
      rw [hro s hs hsb] at hsr
      cases hsr
    cases hout with
    | readOnly _ _ => rfl
    | device hro _ => exact (hcontra hro).elim
    | inside hro _ _ => exact (hcontra hro).elim
    | disk _ hro _ _ => exact (hcontra hro).elim

theorem of_framed {lba : Nat} {buffer : Bytes} (hlba : lba < 2 ^ 64)
    (h : Framed layout lba buffer) :
    Protected layout.slots lba ∨ Clear layout.slots lba (blocksOf buffer.length) := by
  by_contra hno
  rw [not_or] at hno
  obtain ⟨hpro, hcut⟩ := hno
  refine hcut fun k hk hlt slot hslot hhas => ?_
  by_contra hfirst
  have hl := zeroRegions_laid layout
  have hro : ∀ slot ∈ layout.slots, slot.has lba = true → slot.readOnly = false := by
    intro s hs hsb
    by_contra hr
    exact hpro ⟨s, hs, hsb, by simpa using hr⟩
  obtain ⟨w', hrun⟩ := writeBlocksHook_runs arrayBio_accepting arrayBio_accepting rfl hl lba buffer
    hro
  have hret : Returns (writeBlocksHook arrayBio arrayBio lba buffer) (zeroRegions layout) 0 w' :=
    .inl ⟨hrun, rfl⟩
  have hnot : ¬ k < served (zeroRegions layout).regions lba (blocksOf buffer.length) := by
    rw [lt_served hl hk hlt]
    rintro ⟨reg, hreg, h1, h2⟩
    obtain ⟨i, hi⟩ := List.getElem?_of_mem hreg
    obtain ⟨j, hj⟩ := List.getElem?_of_mem (hl ▸ hslot)
    rw [List.getElem?_map] at hj
    obtain ⟨r, hr, rfl⟩ := Option.map_eq_some_iff.mp hj
    have hsame := (hl.unique hi h2).symm.trans (hl.unique hr hhas)
    cases hsame
    exact hfirst h1
  obtain ⟨⟨new, hnew, hfree⟩, -⟩ := h (zeroRegions layout) w' 0 rfl hl hret
  obtain ⟨-, hout⟩ := writeBlocksHook_outcome hl rfl hlba hret
  generalize hst : (0 : EfiStatus) = st at hout
  cases hout with
  | readOnly _ _ => exact absurd hst (by decide)
  | device _ _ => exact absurd hst (by decide)
  | inside _ hn _ => omega
  | disk _ _ hn hreq =>
    have hsame := List.append_cancel_left (hnew.symm.trans hreq)
    rw [hsame] at hfree
    have hone := hfree _ (List.mem_singleton_self _) (lba + k) hlt (by
      unfold Reaches
      simp only [blocksOf_drop hn]
      omega) slot hslot
    rw [hhas] at hone
    cases hone

/-- The disk under the regions and the regions that are read only are safe from a write
exactly where it begins in one of these or no region begins inside it. -/
theorem framed_iff (layout : Layout) :
    (∀ lba buffer, lba < 2 ^ 64 → (Framed layout lba buffer ↔
      Protected layout.slots lba ∨ Clear layout.slots lba (blocksOf buffer.length))) ∧
    ∀ {σ ρ : Type} {disk : Bio σ} {bio : Bio ρ} {w w' : World σ ρ} {lba : Nat} {buffer : Bytes}
      {status : EfiStatus}, lba < 2 ^ 64 → Laid w.regions layout →
      Returns (writeBlocksHook disk bio lba buffer) w status w' →
      w'.enableIOHooks = w.enableIOHooks := by
  refine ⟨fun lba buffer hlba => ⟨of_framed hlba, framed_of hlba⟩, ?_⟩
  intro σ ρ disk bio w w' lba buffer status hlba hl hret
  cases hon : w.enableIOHooks with
  | true => exact (writeBlocksHook_outcome hl hon hlba hret).1.hooks.trans hon
  | false =>
    unfold Returns writeBlocksHook at hret
    rw [Prog.get_bind, hon, Bool.not_false, if_pos rfl] at hret
    rcases hret with ⟨hrun, rfl⟩ | hrun
    · obtain ⟨s, -, rfl⟩ := onDisk_ok.mp hrun
      exact hon
    · obtain ⟨s, -, rfl⟩ := onDisk_err.mp hrun
      exact hon

theorem framed_iff_inside :
    (Framed oneRegion 9 [1, 2] ↔
      Protected oneRegion.slots 9 ∨ Clear oneRegion.slots 9 (blocksOf 2)) ∧
    ∃ w', Returns (writeBlocksHook arrayBio arrayBio 9 [1, 2]) (zeroRegions oneRegion) 0 w' ∧
      w'.enableIOHooks = true := by
  obtain ⟨w', hw⟩ := writeBlocksHook_runs arrayBio_accepting arrayBio_accepting rfl
    (zeroRegions_laid oneRegion) 9 [1, 2] (by
      intro slot h _
      rw [List.mem_singleton.mp h])
  exact ⟨(framed_iff oneRegion).1 9 [1, 2] (by decide), w', .inl ⟨hw, rfl⟩,
    (framed_iff oneRegion).2 (by decide) (zeroRegions_laid oneRegion) (.inl ⟨hw, rfl⟩)⟩

/-- A write of two blocks that runs into a region from outside reaches the disk below it. -/
theorem cut_write : ¬ Framed oneRegion 7 (List.replicate 1024 0) := by
  intro h
  rcases of_framed (by decide) h with ⟨slot, hslot, hhas, -⟩ | hclear
  · rw [List.mem_singleton.mp hslot] at hhas
    exact absurd hhas (by decide)
  · rw [List.length_replicate] at hclear
    have := hclear 1 (by decide) (by decide) _ (List.mem_singleton_self _) (by decide)
    exact absurd this (by decide)

end LsvmTools.DiskFrame
