import Mathlib.Data.Fintype.Card
import Mathlib.Data.Set.Finite.Basic
import Mathlib.Logic.Relation

/-! # Files that include files

A line of a file either stands for itself or names a file whose lines take its place. Splicing
the included files in gives a text exactly where all files that are reached can be read, each
include in them is well formed and none of them includes itself in a roundabout way. A reader
that gives up at the first error comes to fewer files, those it `Visits`. -/
namespace LsvmTools.Lib.Inclusion
open Relation

/-! ## Cycles -/

section Cycle

variable {α : Type} {R : α → α → Prop}

theorem no_cycle_of_acc {a b : α} (h : Acc (flip R) a) (hb : ReflTransGen R a b) :
    ¬ TransGen R b b := by
  have hacc : Acc (flip R) b := by
    induction hb with
    | refl => exact h
    | tail _ hr ih => exact ih.inv hr
  have htrans : Acc (TransGen (flip R)) b := hacc.transGen
  clear hb hacc
  intro hc
  induction htrans with
  | intro x _ ih => exact ih x (transGen_swap.mpr hc) hc

/-- Where only finitely many points lead on, the only way not to come to an end is a cycle. -/
theorem acc_of_no_cycle (hfin : {a | ∃ b, R a b}.Finite) {a : α}
    (h : ∀ b, ReflTransGen R a b → ¬ TransGen R b b) : Acc (flip R) a := by
  -- The relation among the points that `a` leads to and that lead on themselves.
  let X := {b // ReflTransGen R a b ∧ ∃ c, R b c}
  have : Finite X := (hfin.subset fun b hb => hb.2).to_subtype
  let S : X → X → Prop := fun x y => TransGen R y.1 x.1
  have htrans : IsTrans X S := ⟨fun _ _ _ hxy hyz => TransGen.trans hyz hxy⟩
  have hirrefl : Std.Irrefl S := ⟨fun x hx => h x.1 x.2.1 hx⟩
  have hwf : WellFounded S := Finite.wellFounded_of_trans_of_irrefl S
  have hpoint : ∀ x : X, Acc (flip R) x.1 := by
    intro x
    induction x using hwf.induction with
    | _ x ih =>
      refine ⟨_, fun c hc => ?_⟩
      by_cases hon : ∃ d, R c d
      · exact ih ⟨c, x.2.1.tail hc, hon⟩ (.single hc)
      · exact ⟨_, fun d hd => absurd ⟨d, hd⟩ hon⟩
  by_cases hon : ∃ c, R a c
  · exact hpoint ⟨a, .refl, hon⟩
  · exact ⟨_, fun c hc => absurd ⟨c, hc⟩ hon⟩

theorem acc_iff_no_cycle (hfin : {a | ∃ b, R a b}.Finite) {a : α} :
    Acc (flip R) a ↔ ∀ b, ReflTransGen R a b → ¬ TransGen R b b := by
  constructor
  · intro h b hb
    exact no_cycle_of_acc h hb
  · intro h
    exact acc_of_no_cycle hfin h

end Cycle

/-! ## Sources -/

inductive Target (P : Type) where
  | plain
  | bad
  | file (p : P)
deriving DecidableEq

structure Sources (P L : Type) where
  contents : P → Option (List L)
  target : L → Target P

variable {P L : Type}

namespace Sources

variable (s : Sources P L)

/-- The lines with every include replaced by the lines of the file it names. -/
inductive Spliced : List L → List L → Prop where
  | nil : Spliced [] []
  | plain {l ls out} (hl : s.target l = .plain) (h : Spliced ls out) : Spliced (l :: ls) (l :: out)
  | file {l q inner ls out rest} (hl : s.target l = .file q) (hq : s.contents q = some inner)
      (hin : Spliced inner out) (h : Spliced ls rest) : Spliced (l :: ls) (out ++ rest)

def SplicedFile (p : P) (out : List L) : Prop := ∃ ls, s.contents p = some ls ∧ s.Spliced ls out

def Includes (p q : P) : Prop := ∃ ls, s.contents p = some ls ∧ ∃ l ∈ ls, s.target l = .file q

/-- An include that is come to: the lines before it can be spliced. -/
def Visits (p q : P) : Prop :=
  ∃ front l rest out, s.contents p = some (front ++ l :: rest) ∧ s.target l = .file q ∧
    s.Spliced front out

abbrev Reaches : P → P → Prop := ReflTransGen s.Includes

structure Resolvable (p : P) : Prop where
  acyclic : ∀ q, s.Reaches p q → ¬ TransGen s.Includes q q
  readable : ∀ q, s.Reaches p q → ∃ ls, s.contents q = some ls ∧ ∀ l ∈ ls, s.target l ≠ .bad

variable {s} {p q : P} {l : L} {ls out : List L}

theorem Visits.includes (h : s.Visits p q) : s.Includes p q := by
  obtain ⟨front, l, rest, out, hp, hl, -⟩ := h
  exact ⟨_, hp, l, by simp, hl⟩

theorem finite_includes (hfin : {p | s.contents p ≠ none}.Finite) :
    {p | ∃ q, s.Includes p q}.Finite := by
  refine hfin.subset ?_
  rintro p ⟨q, ls, hp, -⟩
  simp [hp]

theorem finite_visits (hfin : {p | s.contents p ≠ none}.Finite) :
    {p | ∃ q, s.Visits p q}.Finite :=
  (finite_includes hfin).subset fun _ ⟨q, hq⟩ => ⟨q, hq.includes⟩

/-! ## What has been spliced -/

theorem Spliced.unique {out' : List L} (h : s.Spliced ls out) (h' : s.Spliced ls out') :
    out = out' := by
  induction h generalizing out' with
  | nil => cases h'; rfl
  | plain hl _ ih =>
    cases h' with
    | plain _ h' => rw [ih h']
    | file hl' _ _ _ => rw [hl] at hl'; cases hl'
  | file hl hq _ _ ihin ih =>
    cases h' with
    | plain hl' _ => rw [hl] at hl'; cases hl'
    | file hl' hq' hin' h' =>
      rw [hl] at hl'
      cases hl'
      rw [hq] at hq'
      cases hq'
      rw [ihin hin', ih h']

theorem SplicedFile.unique {out' : List L} (h : s.SplicedFile p out) (h' : s.SplicedFile p out') :
    out = out' := by
  obtain ⟨ls, hp, h⟩ := h
  obtain ⟨ls', hp', h'⟩ := h'
  rw [hp] at hp'
  cases hp'
  exact h.unique h'

/-- A line that is in order, where `F` holds of the files that can be spliced. -/
structure Fine (s : Sources P L) (F : P → Prop) (l : L) : Prop where
  not_bad : s.target l ≠ .bad
  file : ∀ q, s.target l = .file q → F q

/-- What holds of a file when it holds of all files it includes, holds of every file that has
been spliced in. -/
theorem Spliced.forall_fine {F : P → Prop}
    (hF : ∀ q ls, s.contents q = some ls → (∀ l ∈ ls, s.Fine F l) → F q)
    (h : s.Spliced ls out) : ∀ l ∈ ls, s.Fine F l := by
  induction h with
  | nil => intro l hl; cases hl
  | @plain l ls out hl _ ih =>
    intro l' hm
    rcases List.mem_cons.mp hm with rfl | hm
    · exact ⟨by simp [hl], fun q hq => by rw [hl] at hq; cases hq⟩
    · exact ih l' hm
  | @file l q inner ls out rest hl hq _ _ ihin ih =>
    intro l' hm
    rcases List.mem_cons.mp hm with rfl | hm
    · refine ⟨by simp [hl], fun q' hq' => ?_⟩
      rw [hl] at hq'
      cases hq'
      exact hF q inner hq ihin
    · exact ih l' hm

theorem SplicedFile.induct {F : P → Prop}
    (hF : ∀ q ls, s.contents q = some ls → (∀ l ∈ ls, s.Fine F l) → F q)
    (h : s.SplicedFile p out) : F p := by
  obtain ⟨ls, hp, h⟩ := h
  exact hF p ls hp (h.forall_fine hF)

theorem exists_spliced (h : ∀ l ∈ ls, s.Fine (fun q => ∃ out, s.SplicedFile q out) l) :
    ∃ out, s.Spliced ls out := by
  induction ls with
  | nil => exact ⟨[], .nil⟩
  | cons l ls ih =>
    obtain ⟨rest, hrest⟩ := ih fun l' hm => h l' (List.mem_cons_of_mem _ hm)
    have hl := h l (List.mem_cons_self ..)
    cases ht : s.target l with
    | plain => exact ⟨_, .plain ht hrest⟩
    | bad => exact absurd ht hl.not_bad
    | file q =>
      obtain ⟨out, inner, hq, hin⟩ := hl.file q ht
      exact ⟨_, .file ht hq hin hrest⟩

theorem spliced_fine (h : s.Spliced ls out) :
    ∀ l ∈ ls, s.Fine (fun q => ∃ out, s.SplicedFile q out) l := by
  refine h.forall_fine fun q ls hq hls => ?_
  obtain ⟨out, hout⟩ := exists_spliced hls
  exact ⟨out, ls, hq, hout⟩

theorem SplicedFile.of_includes (h : s.SplicedFile p out) (hi : s.Includes p q) :
    ∃ out', s.SplicedFile q out' := by
  obtain ⟨ls, hp, h⟩ := h
  obtain ⟨ls', hp', l, hm, hl⟩ := hi
  rw [hp] at hp'
  cases hp'
  exact (spliced_fine h l hm).file q hl

theorem SplicedFile.of_reaches (h : s.SplicedFile p out) (hr : s.Reaches p q) :
    ∃ out', s.SplicedFile q out' := by
  induction hr with
  | refl => exact ⟨out, h⟩
  | tail _ hi ih =>
    obtain ⟨out', h'⟩ := ih
    exact h'.of_includes hi

theorem SplicedFile.acc (h : s.SplicedFile p out) : Acc (flip s.Includes) p := by
  refine SplicedFile.induct (fun q ls hq hls => ⟨_, fun q' hi => ?_⟩) h
  obtain ⟨ls', hq', l, hm, hl⟩ := hi
  rw [hq] at hq'
  cases hq'
  exact (hls l hm).file q' hl

theorem SplicedFile.resolvable (h : s.SplicedFile p out) : s.Resolvable p where
  acyclic q hr := no_cycle_of_acc h.acc hr
  readable q hr := by
    obtain ⟨out', ls, hq, hs⟩ := h.of_reaches hr
    exact ⟨ls, hq, fun l hm => (spliced_fine hs l hm).not_bad⟩

theorem Resolvable.spliced (hfin : {p | s.contents p ≠ none}.Finite) (h : s.Resolvable p) :
    ∃ out, s.SplicedFile p out := by
  have hacc : Acc (flip s.Includes) p := acc_of_no_cycle (finite_includes hfin) h.acyclic
  have hall : ∀ q, Acc (flip s.Includes) q → s.Reaches p q → ∃ out, s.SplicedFile q out := by
    intro q hq
    induction hq with
    | intro q _ ih =>
      intro hr
      obtain ⟨ls, hq, hbad⟩ := h.readable q hr
      have hfine : ∀ l ∈ ls, s.Fine (fun q => ∃ out, s.SplicedFile q out) l := by
        refine fun l hm => ⟨hbad l hm, fun q' hl => ?_⟩
        have hi : s.Includes q q' := ⟨ls, hq, l, hm, hl⟩
        exact ih q' hi (hr.tail hi)
      obtain ⟨out, hout⟩ := exists_spliced hfine
      exact ⟨out, ls, hq, hout⟩
  exact hall p hacc .refl

theorem resolvable_iff (hfin : {p | s.contents p ≠ none}.Finite) :
    s.Resolvable p ↔ ∃ out, s.SplicedFile p out := by
  constructor
  · intro h
    exact h.spliced hfin
  · rintro ⟨out, h⟩
    exact h.resolvable

/-! ## The lines of the result -/

theorem Spliced.mem (h : s.Spliced ls out) (hl : l ∈ ls) (ht : s.target l = .plain) : l ∈ out := by
  induction h with
  | nil => cases hl
  | plain _ _ ih =>
    rcases List.mem_cons.mp hl with rfl | hl
    · simp
    · exact List.mem_cons_of_mem _ (ih hl)
  | file ht' _ _ _ _ ih =>
    rcases List.mem_cons.mp hl with rfl | hl
    · rw [ht] at ht'; cases ht'
    · exact List.mem_append_right _ (ih hl)

theorem Spliced.mem_file {out' : List L} (h : s.Spliced ls out) (hl : l ∈ ls)
    (ht : s.target l = .file q) (hq : s.SplicedFile q out') : out' ⊆ out := by
  induction h with
  | nil => cases hl
  | plain ht' _ ih =>
    rcases List.mem_cons.mp hl with rfl | hl
    · rw [ht] at ht'; cases ht'
    · exact fun x hx => List.mem_cons_of_mem _ (ih hl hx)
  | file ht' hq' hin _ _ ih =>
    rcases List.mem_cons.mp hl with rfl | hl
    · rw [ht] at ht'
      cases ht'
      rw [SplicedFile.unique hq ⟨_, hq', hin⟩]
      exact List.subset_append_left ..
    · exact fun x hx => List.mem_append_right _ (ih hl hx)

/-- The lines of a file that stand for themselves. -/
def Own (s : Sources P L) (q : P) (l : L) : Prop :=
  ∃ ls, s.contents q = some ls ∧ l ∈ ls ∧ s.target l = .plain

theorem SplicedFile.mem_of_reaches (h : s.SplicedFile p out) (hr : s.Reaches p q)
    (hl : s.Own q l) : l ∈ out := by
  induction hr using ReflTransGen.head_induction_on generalizing out with
  | refl =>
    obtain ⟨ls, hp, hs⟩ := h
    obtain ⟨ls', hp', hm, ht⟩ := hl
    rw [hp] at hp'
    cases hp'
    exact hs.mem hm ht
  | head hi _ ih =>
    obtain ⟨out', hout'⟩ := h.of_includes hi
    obtain ⟨ls, hp, hs⟩ := h
    obtain ⟨ls', hp', l', hm, ht⟩ := hi
    rw [hp] at hp'
    cases hp'
    exact hs.mem_file hm ht hout' (ih hout')

theorem Spliced.origin (h : s.Spliced ls out) (hl : l ∈ out) :
    (l ∈ ls ∧ s.target l = .plain) ∨
      ∃ l' ∈ ls, ∃ q q', s.target l' = .file q ∧ s.Reaches q q' ∧ s.Own q' l := by
  induction h with
  | nil => cases hl
  | plain ht _ ih =>
    rcases List.mem_cons.mp hl with rfl | hl
    · exact .inl ⟨List.mem_cons_self .., ht⟩
    · rcases ih hl with ⟨hm, ht⟩ | ⟨l', hm, hq⟩
      · exact .inl ⟨List.mem_cons_of_mem _ hm, ht⟩
      · exact .inr ⟨l', List.mem_cons_of_mem _ hm, hq⟩
  | @file l₀ q inner _ _ _ ht hq _ _ ihin ih =>
    rcases List.mem_append.mp hl with hl | hl
    · refine .inr ⟨l₀, List.mem_cons_self .., q, ?_⟩
      rcases ihin hl with ⟨hm, hp⟩ | ⟨l', hm, q₁, q₂, ht', hr, ho⟩
      · exact ⟨q, ht, .refl, inner, hq, hm, hp⟩
      · exact ⟨q₂, ht, .head ⟨inner, hq, l', hm, ht'⟩ hr, ho⟩
    · rcases ih hl with ⟨hm, ht⟩ | ⟨l', hm, hq⟩
      · exact .inl ⟨List.mem_cons_of_mem _ hm, ht⟩
      · exact .inr ⟨l', List.mem_cons_of_mem _ hm, hq⟩

/-- The result has the lines of the files that are reached. -/
theorem SplicedFile.mem_iff (h : s.SplicedFile p out) :
    l ∈ out ↔ ∃ q, s.Reaches p q ∧ s.Own q l := by
  constructor
  · intro hl
    obtain ⟨ls, hp, hs⟩ := h
    rcases hs.origin hl with ⟨hm, ht⟩ | ⟨l', hm, q, q', ht, hr, ho⟩
    · exact ⟨p, .refl, ls, hp, hm, ht⟩
    · exact ⟨q', .head ⟨ls, hp, l', hm, ht⟩ hr, ho⟩
  · rintro ⟨q, hr, ho⟩
    exact h.mem_of_reaches hr ho

/-! ## Sources that agree -/

/-- The files that are reached from `p` are the same. -/
structure Agree (s t : Sources P L) (p : P) : Prop where
  target : t.target = s.target
  contents : ∀ q, s.Reaches p q → t.contents q = s.contents q

variable {t : Sources P L}

theorem Agree.includes (h : s.Agree t p) {q r : P} (hq : s.Reaches p q) :
    t.Includes q r ↔ s.Includes q r := by
  simp only [Includes, h.contents q hq, h.target]

theorem Agree.reaches (h : s.Agree t p) : t.Reaches p q ↔ s.Reaches p q := by
  constructor
  · intro hr
    induction hr with
    | refl => exact .refl
    | tail _ hi ih => exact ih.tail ((h.includes ih).mp hi)
  · intro hr
    induction hr with
    | refl => exact .refl
    | tail hq hi ih => exact ih.tail ((h.includes hq).mpr hi)

theorem Agree.symm (h : s.Agree t p) : t.Agree s p where
  target := h.target.symm
  contents q hq := (h.contents q (h.reaches.mp hq)).symm

theorem Agree.of_includes (h : s.Agree t p) (hi : s.Includes p q) : s.Agree t q where
  target := h.target
  contents r hr := h.contents r (.head hi hr)

theorem Spliced.congr (h : s.Spliced ls out) (ht : t.target = s.target)
    (ha : ∀ l ∈ ls, ∀ q, s.target l = .file q → s.Agree t q) : t.Spliced ls out := by
  induction h with
  | nil => exact .nil
  | plain hl _ ih =>
    exact .plain (ht ▸ hl) (ih fun l hm => ha l (List.mem_cons_of_mem _ hm))
  | @file l q inner ls out rest hl hq _ _ ihin ih =>
    have hag := ha l (List.mem_cons_self ..) q hl
    refine .file (ht ▸ hl) ((hag.contents q .refl).trans hq) (ihin fun l' hm q' hl' => ?_)
      (ih fun l' hm => ha l' (List.mem_cons_of_mem _ hm))
    exact hag.of_includes ⟨inner, hq, l', hm, hl'⟩

theorem Agree.spliced (ha : s.Agree t p) (h : s.SplicedFile p out) : t.SplicedFile p out := by
  obtain ⟨ls, hp, hs⟩ := h
  refine ⟨ls, (ha.contents p .refl).trans hp, hs.congr ha.target fun l hm q hl => ?_⟩
  exact ha.of_includes ⟨ls, hp, l, hm, hl⟩

theorem Agree.splicedFile_iff (ha : s.Agree t p) : t.SplicedFile p out ↔ s.SplicedFile p out := by
  constructor
  · intro h
    exact ha.symm.spliced h
  · intro h
    exact ha.spliced h

end Sources

end LsvmTools.Lib.Inclusion
