import LsvmTools.Lib.ByteString

/-! # Programs with an error exit and undefined behaviour

`Out` is what a function that only reads its state delivers; `Prog` is a
function that also changes it. A C function that leaves through its error
exit keeps the changes it has made so far, so the error result carries the
state too. `stuck` covers everything the C text gives no result for: an access
outside an object, and a loop that does not end. -/
namespace LsvmTools.Lib.Program

inductive Out (ε α : Type) where
  | ok (a : α)
  | err (e : ε)
  | stuck
deriving DecidableEq

inductive Res (σ ε α : Type) where
  | ok (a : α) (s : σ)
  | err (e : ε) (s : σ)
  | stuck

structure Prog (σ ε α : Type) where
  exec : σ → Res σ ε α

variable {σ ε α β γ : Type}

/-- Not the projection itself: the kernel would unfold a whole program to compare
two runs. -/
def Prog.run (m : Prog σ ε α) (s : σ) : Res σ ε α := m.exec s

/-! ## Reading -/

namespace Out

def bind (x : Out ε α) (k : α → Out ε β) : Out ε β :=
  match x with
  | .ok a => k a
  | .err e => .err e
  | .stuck => .stuck

instance : Monad (Out ε) where
  pure := .ok
  bind := bind

@[simp] theorem pure_eq (a : α) : (pure a : Out ε α) = .ok a := rfl
@[simp] theorem ok_bind (a : α) (k : α → Out ε β) : (Out.ok a >>= k) = k a := rfl
@[simp] theorem err_bind (e : ε) (k : α → Out ε β) : (Out.err e >>= k) = .err e := rfl
@[simp] theorem stuck_bind (k : α → Out ε β) : ((Out.stuck : Out ε α) >>= k) = .stuck := rfl

theorem bind_eq_ok {x : Out ε α} {k : α → Out ε β} {b : β} :
    (x >>= k) = .ok b ↔ ∃ a, x = .ok a ∧ k a = .ok b := by
  cases x <;> simp

/-- An `Option` whose `none` is the given error. -/
def ofOption (e : ε) : Option α → Out ε α
  | some a => .ok a
  | none => .err e

/-- Whether the result is a value that passes the test. -/
def passes (p : α → Bool) : Out ε α → Bool
  | .ok a => p a
  | _ => false

theorem of_passes {p : α → Bool} {x : Out ε α} (h : x.passes p = true) :
    ∃ a, x = .ok a ∧ p a = true := by
  cases x with
  | ok a => exact ⟨a, rfl, h⟩
  | err e => cases h
  | stuck => cases h

/-- The same result with another error code. -/
def mapErr (f : ε → γ) : Out ε α → Out γ α
  | .ok a => .ok a
  | .err e => .err (f e)
  | .stuck => .stuck

/-- An array access: an index out of range has no result. -/
def index (xs : List α) (i : Nat) : Out ε α :=
  match xs[i]? with
  | some a => .ok a
  | none => .stuck

/-- Concatenate what `f` delivers for each element, left to right. -/
def gather (f : α → Out ε (List β)) : List α → Out ε (List β)
  | [] => .ok []
  | a :: as => do
    let xs ← f a
    let ys ← gather f as
    pure (xs ++ ys)

@[simp] theorem gather_nil (f : α → Out ε (List β)) : gather f [] = .ok [] := rfl

theorem gather_cons_ok {f : α → Out ε (List β)} {a : α} {as : List α} {zs : List β} :
    gather f (a :: as) = .ok zs ↔
      ∃ xs ys, f a = .ok xs ∧ gather f as = .ok ys ∧ zs = xs ++ ys := by
  simp only [gather, bind_eq_ok, pure_eq, Out.ok.injEq]
  constructor
  · rintro ⟨xs, hx, ys, hy, rfl⟩; exact ⟨xs, ys, hx, hy, rfl⟩
  · rintro ⟨xs, ys, hx, hy, rfl⟩; exact ⟨xs, hx, ys, hy, rfl⟩

theorem gather_append (f : α → Out ε (List β)) {as bs : List α} {xs ys : List β}
    (ha : gather f as = .ok xs) (hb : gather f bs = .ok ys) :
    gather f (as ++ bs) = .ok (xs ++ ys) := by
  induction as generalizing xs with
  | nil => simp only [gather_nil, Out.ok.injEq] at ha; subst ha; simpa using hb
  | cons a as ih =>
    obtain ⟨x, x', hx, hx', rfl⟩ := gather_cons_ok.mp ha
    rw [List.cons_append, List.append_assoc]
    exact gather_cons_ok.mpr ⟨x, x' ++ ys, hx, ih hx', rfl⟩

theorem gather_congr {f g : α → Out ε (List β)} {as : List α}
    (h : ∀ a ∈ as, f a = g a) : gather f as = gather g as := by
  induction as with
  | nil => rfl
  | cons a as ih =>
    simp only [gather, h a (by simp), ih fun x hx => h x (by simp [hx])]

theorem gather_ok {f : α → Out ε (List β)} {g : α → List β} {as : List α}
    (h : ∀ a ∈ as, f a = .ok (g a)) : gather f as = .ok (as.flatMap g) := by
  induction as with
  | nil => rfl
  | cons a as ih =>
    exact gather_cons_ok.mpr ⟨_, _, h a (by simp), ih fun x hx => h x (by simp [hx]), by simp⟩

theorem gather_ok_of_mem {f : α → Out ε (List β)} {as : List α} {zs : List β}
    (h : gather f as = .ok zs) {a : α} (ha : a ∈ as) :
    ∃ xs, f a = .ok xs ∧ ∀ x ∈ xs, x ∈ zs := by
  induction as generalizing zs with
  | nil => cases ha
  | cons b bs ih =>
    obtain ⟨xs, ys, hx, hy, rfl⟩ := gather_cons_ok.mp h
    rcases List.mem_cons.mp ha with rfl | hm
    · exact ⟨xs, hx, fun x hx => by simp [hx]⟩
    · obtain ⟨zs, hz, hm⟩ := ih hy hm
      exact ⟨zs, hz, fun x hx => by simp [hm x hx]⟩

end Out

/-! ## Changing the state -/

namespace Res

/-- Whether the run ends normally, with a result and a state that pass the test. -/
def passes (p : α → σ → Bool) : Res σ ε α → Bool
  | .ok a s => p a s
  | _ => false

theorem of_passes {p : α → σ → Bool} {x : Res σ ε α} (h : x.passes p = true) :
    ∃ a s, x = .ok a s ∧ p a s = true := by
  cases x with
  | ok a s => exact ⟨a, s, rfl, h⟩
  | err e s => cases h
  | stuck => cases h

end Res

namespace Prog

def bind (m : Prog σ ε α) (k : α → Prog σ ε β) : Prog σ ε β where
  exec s := match m.run s with
    | .ok a t => (k a).run t
    | .err e t => .err e t
    | .stuck => .stuck

instance : Monad (Prog σ ε) where
  pure a := ⟨fun s => .ok a s⟩
  bind := bind

def get : Prog σ ε σ := ⟨fun s => .ok s s⟩
def set (s : σ) : Prog σ ε Unit := ⟨fun _ => .ok () s⟩
def modify (f : σ → σ) : Prog σ ε Unit := ⟨fun s => .ok () (f s)⟩
def throw (e : ε) : Prog σ ε α := ⟨fun s => .err e s⟩
def stuck : Prog σ ε α := ⟨fun _ => .stuck⟩

/-- Run a function that only reads. -/
def read (f : σ → Out ε α) : Prog σ ε α where
  exec s := match f s with
    | .ok a => .ok a s
    | .err e => .err e s
    | .stuck => .stuck

/-- Run `m`; an error of `m` is no error. -/
def attempt (m : Prog σ ε α) : Prog σ ε (Option α) where
  exec s := match m.run s with
    | .ok a t => .ok (some a) t
    | .err _ t => .ok none t
    | .stuck => .stuck

/-- Run `m` and, whichever way it ends, change the state by `f`. -/
def after (m : Prog σ ε α) (f : σ → σ) : Prog σ ε α where
  exec s := match m.run s with
    | .ok a t => .ok a (f t)
    | .err e t => .err e (f t)
    | .stuck => .stuck

/-- Run `m` and, where it fails, change the state by `f`. -/
def onErr (m : Prog σ ε α) (f : σ → σ) : Prog σ ε α where
  exec s := match m.run s with
    | .ok a t => .ok a t
    | .err e t => .err e (f t)
    | .stuck => .stuck

/-- The same program with another error code. -/
def mapErr (f : ε → γ) (m : Prog σ ε α) : Prog σ γ α where
  exec s := match m.run s with
    | .ok a t => .ok a t
    | .err e t => .err (f e) t
    | .stuck => .stuck

theorem run_attempt (m : Prog σ ε α) (s : σ) : m.attempt.run s = match m.run s with
    | .ok a t => .ok (some a) t
    | .err _ t => .ok none t
    | .stuck => .stuck := rfl

theorem run_after (m : Prog σ ε α) (f : σ → σ) (s : σ) : (m.after f).run s = match m.run s with
    | .ok a t => .ok a (f t)
    | .err e t => .err e (f t)
    | .stuck => .stuck := rfl

theorem run_onErr (m : Prog σ ε α) (f : σ → σ) (s : σ) : (m.onErr f).run s = match m.run s with
    | .ok a t => .ok a t
    | .err e t => .err e (f t)
    | .stuck => .stuck := rfl

theorem run_mapErr (f : ε → γ) (m : Prog σ ε α) (s : σ) : (m.mapErr f).run s = match m.run s with
    | .ok a t => .ok a t
    | .err e t => .err (f e) t
    | .stuck => .stuck := rfl

theorem run_bind (m : Prog σ ε α) (k : α → Prog σ ε β) (s : σ) :
    (m >>= k).run s = match m.run s with
      | .ok a t => (k a).run t
      | .err e t => .err e t
      | .stuck => .stuck := rfl

@[simp] theorem run_pure (a : α) (s : σ) : (pure a : Prog σ ε α).run s = .ok a s := rfl
@[simp] theorem run_get (s : σ) : (get : Prog σ ε σ).run s = .ok s s := rfl
@[simp] theorem run_set (s t : σ) : (set t : Prog σ ε Unit).run s = .ok () t := rfl
@[simp] theorem run_modify (f : σ → σ) (s : σ) :
    (modify f : Prog σ ε Unit).run s = .ok () (f s) := rfl
@[simp] theorem run_throw (e : ε) (s : σ) : (throw e : Prog σ ε α).run s = .err e s := rfl
@[simp] theorem run_stuck (s : σ) : (stuck : Prog σ ε α).run s = .stuck := rfl

theorem bind_ok {m : Prog σ ε α} {s t : σ} {a : α} (h : m.run s = .ok a t)
    (k : α → Prog σ ε β) : (m >>= k).run s = (k a).run t := by rw [run_bind, h]

theorem bind_err {m : Prog σ ε α} {s t : σ} {e : ε} (h : m.run s = .err e t)
    (k : α → Prog σ ε β) : (m >>= k).run s = .err e t := by rw [run_bind, h]

theorem bind_stuck {m : Prog σ ε α} {s : σ} (h : m.run s = .stuck)
    (k : α → Prog σ ε β) : (m >>= k).run s = .stuck := by rw [run_bind, h]

@[simp] theorem pure_bind (a : α) (k : α → Prog σ ε β) (s : σ) :
    ((pure a : Prog σ ε α) >>= k).run s = (k a).run s := rfl
@[simp] theorem get_bind (k : σ → Prog σ ε β) (s : σ) :
    ((get : Prog σ ε σ) >>= k).run s = (k s).run s := rfl
@[simp] theorem set_bind (t : σ) (k : Unit → Prog σ ε β) (s : σ) :
    ((set t : Prog σ ε Unit) >>= k).run s = (k ()).run t := rfl
@[simp] theorem modify_bind (f : σ → σ) (k : Unit → Prog σ ε β) (s : σ) :
    ((modify f : Prog σ ε Unit) >>= k).run s = (k ()).run (f s) := rfl
@[simp] theorem throw_bind (e : ε) (k : α → Prog σ ε β) (s : σ) :
    ((throw e : Prog σ ε α) >>= k).run s = .err e s := rfl
@[simp] theorem stuck_bind (k : α → Prog σ ε β) (s : σ) :
    ((stuck : Prog σ ε α) >>= k).run s = .stuck := rfl

theorem read_ok {f : σ → Out ε α} {s : σ} {a : α} (h : f s = .ok a) :
    (read f).run s = .ok a s := by simp [run, read, h]

theorem read_err {f : σ → Out ε α} {s : σ} {e : ε} (h : f s = .err e) :
    (read f).run s = .err e s := by simp [run, read, h]

theorem read_stuck {f : σ → Out ε α} {s : σ} (h : f s = .stuck) :
    (read f).run s = .stuck := by simp [run, read, h]

theorem bind_eq_ok {m : Prog σ ε α} {k : α → Prog σ ε β} {s u : σ} {b : β} :
    (m >>= k).run s = .ok b u ↔ ∃ a t, m.run s = .ok a t ∧ (k a).run t = .ok b u := by
  rw [run_bind]
  cases m.run s <;> simp

theorem read_eq_ok {f : σ → Out ε α} {s t : σ} {a : α} :
    (read f).run s = .ok a t ↔ f s = .ok a ∧ t = s := by
  cases hf : f s with
  | ok b => rw [read_ok hf]; simp [eq_comm]
  | err e => rw [read_err hf]; simp
  | stuck => rw [read_stuck hf]; simp

theorem bind_eq_err {m : Prog σ ε α} {k : α → Prog σ ε β} {s u : σ} {e : ε} :
    (m >>= k).run s = .err e u ↔
      m.run s = .err e u ∨ ∃ a t, m.run s = .ok a t ∧ (k a).run t = .err e u := by
  rw [run_bind]
  cases m.run s <;> simp

theorem read_eq_err {f : σ → Out ε α} {s t : σ} {e : ε} :
    (read f).run s = .err e t ↔ f s = .err e ∧ t = s := by
  cases hf : f s with
  | ok b => rw [read_ok hf]; simp
  | err e => rw [read_err hf]; simp [eq_comm]
  | stuck => rw [read_stuck hf]; simp

theorem read_bind_eq_ok {f : σ → Out ε α} {k : α → Prog σ ε β} {s u : σ} {b : β} :
    (read f >>= k).run s = .ok b u ↔ ∃ a, f s = .ok a ∧ (k a).run s = .ok b u := by
  rw [bind_eq_ok]
  constructor
  · rintro ⟨a, t, h, hk⟩
    obtain ⟨hf, rfl⟩ := read_eq_ok.mp h
    exact ⟨a, hf, hk⟩
  · rintro ⟨a, h, hk⟩
    exact ⟨a, s, read_ok h, hk⟩

/-! ## Runs to completion

`Runs m s Q`: started in `s`, `m` ends normally, with a result and a state
that satisfy `Q`. -/

def Runs (m : Prog σ ε α) (s : σ) (Q : α → σ → Prop) : Prop := ∃ a t, m.run s = .ok a t ∧ Q a t

theorem Runs.pure {s : σ} {a : α} {Q : α → σ → Prop} (h : Q a s) :
    Runs (Pure.pure a : Prog σ ε α) s Q := ⟨a, s, rfl, h⟩

theorem Runs.bind {m : Prog σ ε α} {k : α → Prog σ ε β} {s : σ} {Q : α → σ → Prop}
    {R : β → σ → Prop} (hm : Runs m s Q) (hk : ∀ a t, Q a t → Runs (k a) t R) :
    Runs (m >>= k) s R := by
  obtain ⟨a, t, h, hq⟩ := hm
  obtain ⟨b, u, h', hr⟩ := hk a t hq
  exact ⟨b, u, by rw [bind_ok h, h'], hr⟩

theorem Runs.mono {m : Prog σ ε α} {s : σ} {Q R : α → σ → Prop} (h : Runs m s Q)
    (hi : ∀ a t, Q a t → R a t) : Runs m s R := by
  obtain ⟨a, t, h, hq⟩ := h
  exact ⟨a, t, h, hi a t hq⟩

theorem Runs.read {f : σ → Out ε α} {k : α → Prog σ ε β} {s : σ} {a : α} {R : β → σ → Prop}
    (h : f s = .ok a) (hk : Runs (k a) s R) : Runs (Prog.read f >>= k) s R := by
  obtain ⟨b, u, h', hr⟩ := hk
  exact ⟨b, u, by rw [bind_ok (read_ok h), h'], hr⟩

theorem Runs.ok {m : Prog σ ε α} {k : α → Prog σ ε β} {s t : σ} {a : α} {R : β → σ → Prop}
    (h : m.run s = .ok a t) (hk : Runs (k a) t R) : Runs (m >>= k) s R := by
  obtain ⟨b, u, h', hr⟩ := hk
  exact ⟨b, u, by rw [bind_ok h, h'], hr⟩

theorem Runs.get {k : σ → Prog σ ε β} {s : σ} {R : β → σ → Prop} (hk : Runs (k s) s R) :
    Runs (Prog.get >>= k) s R := hk

theorem Runs.modify {f : σ → σ} {k : Unit → Prog σ ε β} {s : σ} {R : β → σ → Prop}
    (hk : Runs (k ()) (f s) R) : Runs (Prog.modify f >>= k) s R := hk

/-- What a completed run satisfies holds of the result actually returned. -/
theorem Runs.of_ok {m : Prog σ ε α} {s t : σ} {a : α} {Q : α → σ → Prop}
    (h : Runs m s Q) (hm : m.run s = .ok a t) : Q a t := by
  obtain ⟨b, u, h', hq⟩ := h
  rw [hm] at h'
  cases h'
  exact hq

/-! ## Both exits

`Ends m s Q E`: `m`, started in `s`, ends; if it ends normally then `Q` holds, and if
it ends with an error then `E` holds of the state. -/

def Ends (m : Prog σ ε α) (s : σ) (Q : α → σ → Prop) (E : σ → Prop) : Prop :=
  match m.run s with
  | .ok a t => Q a t
  | .err _ t => E t
  | .stuck => False

section Ends

variable {m : Prog σ ε α} {k : α → Prog σ ε β} {s t : σ} {Q : α → σ → Prop} {R : β → σ → Prop}
  {E F : σ → Prop}

theorem Ends.ok {a : α} (h : Ends m s Q E) (hr : m.run s = .ok a t) : Q a t := by
  unfold Ends at h
  rwa [hr] at h

theorem Ends.err {e : ε} (h : Ends m s Q E) (hr : m.run s = .err e t) : E t := by
  unfold Ends at h
  rwa [hr] at h

theorem Ends.returns (h : Ends m s Q E) : m.run s ≠ .stuck := by
  intro hr
  unfold Ends at h
  rwa [hr] at h

theorem Ends.intro (hq : ∀ a t, m.run s = .ok a t → Q a t) (he : ∀ e t, m.run s = .err e t → E t)
    (hs : m.run s ≠ .stuck) : Ends m s Q E := by
  unfold Ends
  split
  · rename_i h; exact hq _ _ h
  · rename_i h; exact he _ _ h
  · rename_i h; exact hs h

theorem Ends.pure {a : α} (h : Q a s) : Ends (Pure.pure a : Prog σ ε α) s Q E := h

theorem Ends.throw {e : ε} (h : E s) : Ends (Prog.throw e : Prog σ ε α) s Q E := h

theorem Ends.bind (hm : Ends m s Q E) (hk : ∀ a t, Q a t → Ends (k a) t R E) :
    Ends (m >>= k) s R E := by
  unfold Ends at hm
  rw [Ends, run_bind]
  cases h : m.run s with
  | ok a t => rw [h] at hm; exact hk a t hm
  | err e t => rw [h] at hm; exact hm
  | stuck => rw [h] at hm; exact hm

theorem Ends.mono {Q' : α → σ → Prop} (h : Ends m s Q E) (hq : ∀ a t, Q a t → Q' a t)
    (he : ∀ t, E t → F t) : Ends m s Q' F :=
  .intro (fun a t hr => hq a t (h.ok hr)) (fun _ t hr => he t (h.err hr)) h.returns

theorem Ends.get {k : σ → Prog σ ε β} (hk : Ends (k s) s R E) : Ends (Prog.get >>= k) s R E := hk

theorem Ends.modify {f : σ → σ} {k : Unit → Prog σ ε β} (hk : Ends (k ()) (f s) R E) :
    Ends (Prog.modify f >>= k) s R E := hk

theorem Ends.read {f : σ → Out ε α} (hf : f s ≠ .stuck) (hq : ∀ a, f s = .ok a → Q a s)
    (he : E s) : Ends (Prog.read f) s Q E := by
  unfold Ends
  cases h : f s with
  | ok a => rw [read_ok h]; exact hq a h
  | err e => rw [read_err h]; exact he
  | stuck => exact absurd h hf

end Ends

end Prog

end LsvmTools.Lib.Program
