import Mathlib.Data.List.Basic

/-! # Programs that call on others

A program calls for things and goes on with whatever it is answered. What it may call for is said
by a predicate on what has happened before; a program is guarded where it never calls for anything
else, whatever the answers are. -/
namespace LsvmTools.Lib.Calls

/-! ## Scripts -/

inductive Script (Op : Type) (Res : Op → Type) (α : Type) : Type where
  | ret (a : α)
  | call (op : Op) (k : Res op → Script Op Res α)

/-- A call with its answer. -/
structure Event (Op : Type) (Res : Op → Type) where
  op : Op
  res : Res op

abbrev History (Op : Type) (Res : Op → Type) : Type := List (Event Op Res)

variable {Op : Type} {Res : Op → Type} {α β σ ε ε' : Type}

namespace Script

def bind : Script Op Res α → (α → Script Op Res β) → Script Op Res β
  | ret a, f => f a
  | call op k, f => call op fun r => (k r).bind f

/-- After these calls the program makes that one. -/
inductive Issues : Script Op Res α → History Op Res → Op → Prop
  | here {op : Op} {k : Res op → Script Op Res α} : Issues (call op k) [] op
  | next {op op' : Op} {k : Res op → Script Op Res α} {r : Res op} {h : History Op Res}
      (rest : Issues (k r) h op') : Issues (call op k) (⟨op, r⟩ :: h) op'

variable {allowed : History Op Res → Op → Prop} {Q R : History Op Res → α → Prop}
  {past past' h : History Op Res}

/-- What has happened after `n` calls that are answered by a function, and the call that is next. -/
def walk (answer : History Op Res → (op : Op) → Res op) :
    Nat → History Op Res → Script Op Res α → Option (History Op Res × Op)
  | _, _, ret _ => none
  | 0, past, call op _ => some (past, op)
  | n + 1, past, call op k =>
    walk answer n (past ++ [⟨op, answer past op⟩]) (k (answer past op))

theorem issues_of_walk {answer : History Op Res → (op : Op) → Res op} {n : Nat} {op : Op}
    {m : Script Op Res α} (hw : walk answer n past m = some (past', op)) :
    ∃ h, past' = past ++ h ∧ Issues m h op := by
  induction n generalizing past m with
  | zero =>
    cases m with
    | ret a => cases hw
    | call op' k =>
      cases hw
      exact ⟨[], (List.append_nil _).symm, .here⟩
  | succ n ih =>
    cases m with
    | ret a => cases hw
    | call op' k =>
      obtain ⟨h, rfl, hi⟩ := ih hw
      exact ⟨⟨op', answer past op'⟩ :: h, (List.append_cons ..).symm, .next hi⟩

/-- Every call is allowed after what has happened, and `Q` holds in the end. -/
def Guarded (allowed : History Op Res → Op → Prop) (Q : History Op Res → α → Prop) :
    History Op Res → Script Op Res α → Prop
  | past, ret a => Q past a
  | past, call op k => allowed past op ∧ ∀ r, Guarded allowed Q (past ++ [⟨op, r⟩]) (k r)

theorem Guarded.issues {m : Script Op Res α} {op : Op} (hm : Guarded allowed Q past m)
    (hi : Issues m h op) : allowed (past ++ h) op := by
  induction hi generalizing past with
  | here => rw [List.append_nil]; exact hm.1
  | next _ ih =>
    rw [List.append_cons]
    exact ih (hm.2 _)

/-- What has happened is not forgotten. -/
theorem Guarded.mono {m : Script Op Res α} (hm : Guarded allowed Q past m)
    (hqr : ∀ past' a, past <+: past' → Q past' a → R past' a) : Guarded allowed R past m := by
  induction m generalizing past with
  | ret a => exact hqr past a (List.prefix_refl _) hm
  | call op k ih =>
    refine ⟨hm.1, fun r => ih r (hm.2 r) fun past' a hp => hqr past' a ?_⟩
    exact (List.prefix_append _ _).trans hp

theorem Guarded.bind {m : Script Op Res α} {f : α → Script Op Res β}
    {S : History Op Res → β → Prop} (hm : Guarded allowed Q past m)
    (hf : ∀ past' a, past <+: past' → Q past' a → Guarded allowed S past' (f a)) :
    Guarded allowed S past (m.bind f) := by
  induction m generalizing past with
  | ret a => exact hf past a (List.prefix_refl _) hm
  | call op k ih =>
    refine ⟨hm.1, fun r => ih r (hm.2 r) fun past' a hp => hf past' a ?_⟩
    exact (List.prefix_append _ _).trans hp

end Script

/-! ## Functions with a state and an error exit -/

structure Dialog (σ ε Op : Type) (Res : Op → Type) (α : Type) where
  script : σ → Script Op Res (Except ε α × σ)

namespace Dialog

def bind (m : Dialog σ ε Op Res α) (k : α → Dialog σ ε Op Res β) : Dialog σ ε Op Res β where
  script s := (m.script s).bind fun (x, t) => match x with
    | .ok a => (k a).script t
    | .error e => .ret (.error e, t)

instance : Monad (Dialog σ ε Op Res) where
  pure a := ⟨fun s => .ret (.ok a, s)⟩
  bind := bind

def ask (op : Op) : Dialog σ ε Op Res (Res op) := ⟨fun s => .call op fun r => .ret (.ok r, s)⟩

def get : Dialog σ ε Op Res σ := ⟨fun s => .ret (.ok s, s)⟩

def modify (f : σ → σ) : Dialog σ ε Op Res Unit := ⟨fun s => .ret (.ok (), f s)⟩

def throw (e : ε) : Dialog σ ε Op Res α := ⟨fun s => .ret (.error e, s)⟩

/-- Run `m`; an error of `m` is no error. -/
def attempt (m : Dialog σ ε Op Res α) : Dialog σ ε' Op Res (Option α) where
  script s := (m.script s).bind fun (x, t) => match x with
    | .ok a => .ret (.ok (some a), t)
    | .error _ => .ret (.ok none, t)

def ensure (e : ε) (b : Bool) : Dialog σ ε Op Res Unit := if b then pure () else throw e

def orFail (e : ε) : Option α → Dialog σ ε Op Res α
  | some a => pure a
  | none => throw e

def when (b : Bool) (m : Dialog σ ε Op Res Unit) : Dialog σ ε Op Res Unit :=
  if b then m else pure ()

/-! ## What holds in the end -/

variable {allowed : History Op Res → Op → Prop} {m : Dialog σ ε Op Res α}
  {k : α → Dialog σ ε Op Res β} {past : History Op Res} {s : σ}
  {Q Q' : α → History Op Res → σ → Prop} {R : β → History Op Res → σ → Prop}
  {E E' : History Op Res → σ → Prop}

/-- After what has happened `m` only makes calls that are allowed; `Q` holds where it succeeds and
`E` where it fails. -/
def Ends (allowed : History Op Res → Op → Prop) (m : Dialog σ ε Op Res α) (past : History Op Res)
    (s : σ) (Q : α → History Op Res → σ → Prop) (E : History Op Res → σ → Prop) : Prop :=
  (m.script s).Guarded allowed (fun past' x => match x.1 with
    | .ok a => Q a past' x.2
    | .error _ => E past' x.2) past

theorem Ends.pure {a : α} (h : Q a past s) :
    Ends allowed (Pure.pure a : Dialog σ ε Op Res α) past s Q E := h

theorem Ends.throw {e : ε} (h : E past s) :
    Ends allowed (Dialog.throw e : Dialog σ ε Op Res α) past s Q E := h

theorem Ends.ask {op : Op} {Q : Res op → History Op Res → σ → Prop} (ho : allowed past op)
    (hq : ∀ r, Q r (past ++ [⟨op, r⟩]) s) :
    Ends allowed (Dialog.ask op : Dialog σ ε Op Res (Res op)) past s Q E := ⟨ho, hq⟩

theorem Ends.modify {f : σ → σ} {Q : Unit → History Op Res → σ → Prop} (h : Q () past (f s)) :
    Ends allowed (Dialog.modify f : Dialog σ ε Op Res Unit) past s Q E := h

theorem Ends.mono (h : Ends allowed m past s Q E)
    (hq : ∀ a past' t, past <+: past' → Q a past' t → Q' a past' t)
    (he : ∀ past' t, past <+: past' → E past' t → E' past' t) : Ends allowed m past s Q' E' := by
  refine Script.Guarded.mono h ?_
  rintro past' ⟨a | e, t⟩ hp hx
  · exact he past' t hp hx
  · exact hq _ past' t hp hx

theorem Ends.bind (h : Ends allowed m past s Q E) (hk : ∀ a past' t, past <+: past' →
    Q a past' t → Ends allowed (k a) past' t R E') (he : ∀ past' t, past <+: past' →
    E past' t → E' past' t) : Ends allowed (m >>= k) past s R E' := by
  refine Script.Guarded.bind h ?_
  rintro past' ⟨a | e, t⟩ hp hx
  · exact he past' t hp hx
  · exact hk _ past' t hp hx

theorem Ends.attempt (h : Ends allowed m past s Q E) :
    Ends allowed (m.attempt : Dialog σ ε' Op Res (Option α)) past s
      (fun o past' t => o.elim (E past' t) fun a => Q a past' t) E' := by
  refine Script.Guarded.bind h ?_
  rintro past' ⟨a | e, t⟩ - hx
  · exact hx
  · exact hx

theorem Ends.get_bind {k : σ → Dialog σ ε Op Res β} (h : Ends allowed (k s) past s R E) :
    Ends allowed (Dialog.get >>= k) past s R E := h

theorem Ends.modify_bind {f : σ → σ} {k : Unit → Dialog σ ε Op Res β}
    (h : Ends allowed (k ()) past (f s) R E) : Ends allowed (Dialog.modify f >>= k) past s R E := h

theorem Ends.ask_bind {op : Op} {k : Res op → Dialog σ ε Op Res β} (ho : allowed past op)
    (hk : ∀ r, Ends allowed (k r) (past ++ [⟨op, r⟩]) s R E) :
    Ends allowed (Dialog.ask op >>= k) past s R E := ⟨ho, hk⟩

theorem Ends.ensure {e : ε} {b : Bool} {Q : Unit → History Op Res → σ → Prop}
    (hq : b = true → Q () past s) (he : b = false → E past s) :
    Ends allowed (Dialog.ensure e b : Dialog σ ε Op Res Unit) past s Q E := by
  cases b with
  | true => exact hq rfl
  | false => exact he rfl

theorem Ends.ensure_bind {e : ε} {b : Bool} {k : Unit → Dialog σ ε Op Res β}
    (hk : b = true → Ends allowed (k ()) past s R E) (he : b = false → E past s) :
    Ends allowed (Dialog.ensure e b >>= k) past s R E := by
  cases b with
  | true => exact hk rfl
  | false => exact he rfl

theorem Ends.orFail_bind {e : ε} {o : Option α} {k : α → Dialog σ ε Op Res β}
    (hk : ∀ a, o = some a → Ends allowed (k a) past s R E) (he : o = none → E past s) :
    Ends allowed (Dialog.orFail e o >>= k) past s R E := by
  cases o with
  | some a => exact hk a rfl
  | none => exact he rfl

theorem Ends.when {b : Bool} {m : Dialog σ ε Op Res Unit} {Q : Unit → History Op Res → σ → Prop}
    (hm : b = true → Ends allowed m past s Q E) (hq : b = false → Q () past s) :
    Ends allowed (Dialog.when b m) past s Q E := by
  cases b with
  | true => exact hm rfl
  | false => exact hq rfl

end Dialog

end LsvmTools.Lib.Calls
