import LsvmTools.Lib.Program

/-! # Devices of numbered cells

A `Device` reads and writes runs of consecutive cells. It is `Honest` for a view
of its state as an array if each successful read delivers what the array holds
and each successful write stores into it; then a read delivers what was last
written, over any sequence of calls. -/
namespace LsvmTools.Lib.Sectors
open Program

/-- Addresses that can be counted on from. -/
class Addr (ι : Type) where
  nth : ι → Nat → ι

open Addr (nth)

variable {ι σ β γ : Type}

/-! ## Calls -/

/-- A call; `other` stands for one that is neither a read nor a write. -/
inductive Call (ι β γ : Type) where
  | getN (b : ι) (n : Nat)
  | putN (b : ι) (ds : List β)
  | other (c : γ)

/-- The writes among the calls, in order. -/
def writes : List (Call ι β γ) → List (ι × List β)
  | [] => []
  | .putN b ds :: cs => (b, ds) :: writes cs
  | .getN _ _ :: cs | .other _ :: cs => writes cs

theorem writes_cons (c : Call ι β γ) (cs : List (Call ι β γ)) :
    writes (c :: cs) = writes [c] ++ writes cs := by cases c <;> rfl

theorem writes_append (as bs : List (Call ι β γ)) : writes (as ++ bs) = writes as ++ writes bs := by
  induction as with
  | nil => rfl
  | cons a as ih =>
    rw [List.cons_append, writes_cons a (as ++ bs), writes_cons a as, ih, List.append_assoc]

/-! ## Devices -/

structure Device (ι σ β : Type) where
  getN : ι → Nat → Prog σ Unit (List β)
  putN : ι → List β → Prog σ Unit Unit

/-! ## Sequences of calls -/

/-- One call; only a read delivers anything. -/
def call (dev : Device ι σ β) (other : γ → Prog σ Unit Unit) : Call ι β γ → Prog σ Unit (List β)
  | .getN b n => dev.getN b n
  | .putN b ds => do
    dev.putN b ds
    pure []
  | .other c => do
    other c
    pure []

/-- A sequence of calls, all of them successful. -/
def session (dev : Device ι σ β) (other : γ → Prog σ Unit Unit) :
    List (Call ι β γ) → Prog σ Unit Unit
  | [] => pure ()
  | c :: cs => do
    let _ ← call dev other c
    session dev other cs

/-- In a run of the calls, `G` holds of each call and the state it is made in. -/
def Guarded (dev : Device ι σ β) (other : γ → Prog σ Unit Unit) (G : σ → Call ι β γ → Prop) :
    List (Call ι β γ) → σ → Prop
  | [], _ => True
  | c :: cs, s => G s c ∧ ∀ ds t, (call dev other c).run s = .ok ds t → Guarded dev other G cs t

variable {dev : Device ι σ β} {other : γ → Prog σ Unit Unit} {G : σ → Call ι β γ → Prop}

theorem Guarded.mono {G' : σ → Call ι β γ → Prop} (h : ∀ s c, G s c → G' s c)
    {cs : List (Call ι β γ)} {s : σ} (hg : Guarded dev other G cs s) :
    Guarded dev other G' cs s := by
  induction cs generalizing s with
  | nil => trivial
  | cons c cs ih => exact ⟨h s c hg.1, fun ds t hc => ih (hg.2 ds t hc)⟩

theorem guarded_of_forall (h : ∀ s c, G s c) (cs : List (Call ι β γ)) (s : σ) :
    Guarded dev other G cs s := by
  induction cs generalizing s with
  | nil => trivial
  | cons c cs ih => exact ⟨h s c, fun _ t _ => ih t⟩

theorem guarded_prefix {as bs : List (Call ι β γ)} {s : σ}
    (h : Guarded dev other G (as ++ bs) s) : Guarded dev other G as s := by
  induction as generalizing s with
  | nil => trivial
  | cons a as ih => exact ⟨h.1, fun ds t hc => ih (h.2 ds t hc)⟩

/-! ## Calls that may fail -/

/-- The state after a call, whether it succeeds or fails. -/
def attempt (dev : Device ι σ β) (other : γ → Prog σ Unit Unit) (c : Call ι β γ) (s : σ) :
    Option σ :=
  match (call dev other c).run s with
  | .ok _ t | .err _ t => some t
  | .stuck => none

def attempts (dev : Device ι σ β) (other : γ → Prog σ Unit Unit) : List (Call ι β γ) → σ → Option σ
  | [], s => some s
  | c :: cs, s => (attempt dev other c s).bind (attempts dev other cs)

/-- What every call keeps holds after any number of them. -/
theorem attempts_keep {P : List (Call ι β γ) → σ → Prop} {D : Call ι β γ → Prop}
    (hstep : ∀ past c s, D c → P past s →
      Prog.Ends (call dev other c) s (fun _ t => P (past ++ [c]) t) (P (past ++ [c])))
    {cs past : List (Call ι β γ)} {s : σ} (hok : ∀ c ∈ cs, D c) (h : P past s) :
    ∃ t, attempts dev other cs s = some t ∧ P (past ++ cs) t := by
  induction cs generalizing s past with
  | nil => exact ⟨s, rfl, by simpa using h⟩
  | cons c cs ih =>
    have h1 := hstep past c s (hok c (by simp)) h
    have h2 : ∃ s', attempt dev other c s = some s' ∧ P (past ++ [c]) s' := by
      unfold attempt
      cases hr : (call dev other c).run s with
      | ok ds t => exact ⟨t, rfl, h1.ok hr⟩
      | err e t => exact ⟨t, rfl, h1.err hr⟩
      | stuck => exact absurd hr h1.returns
    obtain ⟨s', ha, hp⟩ := h2
    obtain ⟨t, ht, hq⟩ := ih (fun d hd => hok d (by simp [hd])) hp
    exact ⟨t, by simp [attempts, ha, ht], by rwa [List.append_assoc] at hq⟩

theorem session_append {as bs : List (Call ι β γ)} {s t : σ} {u : Unit} :
    (session dev other (as ++ bs)).run s = .ok u t ↔
      ∃ s', (session dev other as).run s = .ok () s' ∧ (session dev other bs).run s' = .ok u t := by
  induction as generalizing s with
  | nil => simp [session]
  | cons a as ih =>
    simp only [List.cons_append, session, Prog.bind_eq_ok, ih]
    constructor
    · rintro ⟨ds, s1, h1, s2, h2, h3⟩; exact ⟨s2, ⟨ds, s1, h1, h2⟩, h3⟩
    · rintro ⟨s2, ⟨ds, s1, h1, h2⟩, h3⟩; exact ⟨ds, s1, h1, s2, h2, h3⟩

/-- The states that reads alone lead to. -/
inductive Reads (dev : Device ι σ β) : σ → σ → Prop
  | refl (s : σ) : Reads dev s s
  | ok {s t u : σ} {b : ι} {n : Nat} {ds : List β} (h : (dev.getN b n).run s = .ok ds t)
      (rest : Reads dev t u) : Reads dev s u
  | err {s t u : σ} {b : ι} {n : Nat} {e : Unit} (h : (dev.getN b n).run s = .err e t)
      (rest : Reads dev t u) : Reads dev s u

theorem Reads.trans {s t u : σ} (h : Reads dev s t) (h' : Reads dev t u) : Reads dev s u := by
  induction h with
  | refl => exact h'
  | ok h1 _ ih => exact .ok h1 (ih h')
  | err h1 _ ih => exact .err h1 (ih h')

variable [Addr ι]

/-! ## Arrays -/

/-- The `n` cells of an array from `b` on. -/
def load (a : ι → β) (b : ι) (n : Nat) : List β := (List.range n).map fun k => a (nth b k)

theorem length_load (a : ι → β) (b : ι) (n : Nat) : (load a b n).length = n := by simp [load]

theorem load_congr {a a' : ι → β} {b : ι} {n : Nat} (h : ∀ k, k < n → a (nth b k) = a' (nth b k)) :
    load a b n = load a' b n :=
  List.map_congr_left fun k hk => h k (List.mem_range.mp hk)

variable [DecidableEq ι]

/-- The array with `ds` stored in the cells from the `k`-th after `b` on. -/
def store (a : ι → β) (b : ι) (k : Nat) : List β → ι → β
  | [] => a
  | d :: ds => store (Function.update a (nth b k) d) b (k + 1) ds

/-- What a write of `ds` from the `k`-th cell after `b` on leaves in cell `x`. -/
def written (b : ι) (x : ι) (k : Nat) : List β → Option β
  | [] => none
  | d :: ds => (written b x (k + 1) ds).or (if x = nth b k then some d else none)

/-- What the last of the writes that covers `x` leaves there. -/
def lastWritten (x : ι) : List (ι × List β) → Option β
  | [] => none
  | w :: ws => (lastWritten x ws).or (written w.1 x 0 w.2)

theorem store_eq (a : ι → β) (b : ι) (k : Nat) (ds : List β) (x : ι) :
    store a b k ds x = (written b x k ds).getD (a x) := by
  induction ds generalizing a k with
  | nil => rfl
  | cons d ds ih =>
    simp only [store, written, ih]
    cases written b x (k + 1) ds with
    | some d' => rfl
    | none =>
      by_cases hx : x = nth b k
      · subst hx; simp
      · simp [hx]

theorem written_none {b x : ι} {k : Nat} {ds : List β}
    (h : ∀ j, k ≤ j → j < k + ds.length → x ≠ nth b j) : written b x k ds = none := by
  induction ds generalizing k with
  | nil => rfl
  | cons d ds ih =>
    rw [List.length_cons] at h
    rw [written, ih fun j hj hlt => h j (by omega) (by omega), if_neg (h k (by omega) (by omega))]
    rfl

theorem store_of_not {a : ι → β} {b x : ι} {k : Nat} {ds : List β}
    (h : ∀ j, k ≤ j → j < k + ds.length → x ≠ nth b j) : store a b k ds x = a x := by
  rw [store_eq, written_none h]
  rfl

theorem store_append (a : ι → β) (b : ι) (k : Nat) (ds es : List β) :
    store a b k (ds ++ es) = store (store a b k ds) b (k + ds.length) es := by
  induction ds generalizing a k with
  | nil => rfl
  | cons d ds ih =>
    simp only [List.cons_append, store, ih, List.length_cons]
    congr 1; omega

theorem lastWritten_append (x : ι) (vs ws : List (ι × List β)) :
    lastWritten x (vs ++ ws) = (lastWritten x ws).or (lastWritten x vs) := by
  induction vs with
  | nil => simp [lastWritten]
  | cons v vs ih => simp [lastWritten, ih, Option.or_assoc]

/-! ## Devices as arrays -/

/-- The array that a device of this state is. A call that fails may have changed the
cells it was to write, and no other. -/
structure Honest (dev : Device ι σ β) (content : σ → ι → β) : Prop where
  getN_ok : ∀ {s t b n ds}, (dev.getN b n).run s = .ok ds t →
    ds = load (content s) b n ∧ content t = content s
  getN_err : ∀ {s t b n e}, (dev.getN b n).run s = .err e t → content t = content s
  putN_ok : ∀ {s t b ds u}, (dev.putN b ds).run s = .ok u t → content t = store (content s) b 0 ds
  putN_err : ∀ {s t b ds e}, (dev.putN b ds).run s = .err e t →
    ∀ x, (∀ k, k < ds.length → x ≠ nth b k) → content t x = content s x

/-- Besides, every call returns. -/
structure Lawful (dev : Device ι σ β) (content : σ → ι → β) : Prop extends Honest dev content where
  getN_returns : ∀ s b n, (dev.getN b n).run s ≠ .stuck
  putN_returns : ∀ s b ds, (dev.putN b ds).run s ≠ .stuck

/-- Reading `n` cells from the `k`-th on one by one. -/
def getEach (dev : Device ι σ β) (b : ι) : Nat → Nat → Prog σ Unit (List β)
  | _, 0 => pure []
  | k, n + 1 => do
    let d ← dev.getN (nth b k) 1
    let ds ← getEach dev b (k + 1) n
    pure (d ++ ds)

/-- Writing cells one by one. -/
def putEach (dev : Device ι σ β) (b : ι) : Nat → List β → Prog σ Unit Unit
  | _, [] => pure ()
  | k, d :: ds => do
    dev.putN (nth b k) [d]
    putEach dev b (k + 1) ds

variable {content : σ → ι → β}

/-- A call stores what it writes. -/
def Stores (dev : Device ι σ β) (other : γ → Prog σ Unit Unit) (content : σ → ι → β)
    (s : σ) (c : Call ι β γ) : Prop :=
  ∀ ds t, (call dev other c).run s = .ok ds t →
    ∀ x, content t x = (lastWritten x (writes [c])).getD (content s x)

/-- After a sequence of successful calls that store what they write each cell holds
what was last written there. -/
theorem session_ok {cs : List (Call ι β γ)} {s t : σ} {u : Unit}
    (hg : Guarded dev other (Stores dev other content) cs s)
    (hc : (session dev other cs).run s = .ok u t) (x : ι) :
    content t x = (lastWritten x (writes cs)).getD (content s x) := by
  induction cs generalizing s with
  | nil => cases hc; rfl
  | cons c cs ih =>
    obtain ⟨ds, s', hc1, hc2⟩ := Prog.bind_eq_ok.mp hc
    rw [ih (hg.2 ds s' hc1) hc2, hg.1 ds s' hc1, writes_cons c cs, lastWritten_append]
    cases lastWritten x (writes cs) <;> rfl

/-- The calls of an honest device store what they write. -/
theorem Honest.stores (h : Honest dev content)
    (ho : ∀ {c s t u}, (other c).run s = .ok u t → content t = content s)
    (s : σ) (c : Call ι β γ) : Stores dev other content s c := by
  intro ds t hc x
  cases c with
  | getN b n => rw [(h.getN_ok hc).2]; rfl
  | putN b ds =>
    obtain ⟨u, t', hp, he⟩ := Prog.bind_eq_ok.mp hc
    cases he
    rw [h.putN_ok hp, store_eq]
    rfl
  | other c =>
    obtain ⟨u, t', hp, he⟩ := Prog.bind_eq_ok.mp hc
    cases he
    rw [ho hp]
    rfl

theorem Honest.reads (h : Honest dev content) {s t : σ} (hr : Reads dev s t) :
    content t = content s := by
  induction hr with
  | refl => rfl
  | ok h1 _ ih => exact ih.trans (h.getN_ok h1).2
  | err h1 _ ih => exact ih.trans (h.getN_err h1)

/-- A read of an honest device delivers what was last written. -/
theorem Honest.reads_last_written (h : Honest dev content)
    (ho : ∀ {c s t u}, (other c).run s = .ok u t → content t = content s)
    {cs : List (Call ι β γ)} {s t t' : σ} {u : Unit} {b : ι} {n : Nat} {ds : List β}
    (hc : (session dev other cs).run s = .ok u t) (hg : (dev.getN b n).run t = .ok ds t') :
    ds = (List.range n).map fun k =>
      (lastWritten (nth b k) (writes cs)).getD (content s (nth b k)) := by
  have hst : Guarded dev other (Stores dev other content) cs s :=
    guarded_of_forall (fun s c => h.stores (fun hr => ho hr) s c) cs s
  rw [(h.getN_ok hg).1]
  exact List.map_congr_left fun k _ => session_ok hst hc _

end LsvmTools.Lib.Sectors
