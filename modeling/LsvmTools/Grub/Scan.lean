import LsvmTools.Grub.Config

/-! # Where a text can end

An automaton over the characters says at each place whether it lies between two words, in a
comment, in a word or in a quotation, and whether words are waiting for the end of their
command. `_GetToken` stays inside the text unless the automaton ends behind a backslash. -/
namespace LsvmTools.Grub.Scan
open Lib.ByteString Lib.Program Strings Config

/-! ## The automaton -/

inductive Mode where
  | between
  | comment
  | word
  | quoted (c : UInt8)
  | escaped (c : UInt8)
deriving DecidableEq

structure State where
  mode : Mode
  pending : Bool
deriving DecidableEq

/-- The character ends a command. -/
def isEnd (c : UInt8) : Bool := c = newline || c = semicolon

/-- A character of a word outside a quotation. -/
def enter (c : UInt8) : Mode := if isQuote c then .quoted c else .word

def step (s : State) (c : UInt8) : State :=
  match s.mode with
  | .between =>
    if isEnd c then ⟨.between, false⟩
    else if isspace c then s
    else if c = hash then ⟨.comment, s.pending⟩
    else ⟨enter c, true⟩
  | .comment => if c = newline then ⟨.between, false⟩ else s
  | .word =>
    if isEnd c then ⟨.between, false⟩
    else if isspace c then ⟨.between, s.pending⟩
    else ⟨enter c, s.pending⟩
  | .quoted q =>
    if c = q then ⟨.word, s.pending⟩
    else if c = backslash then ⟨.escaped q, s.pending⟩
    else s
  | .escaped q => ⟨.quoted q, s.pending⟩

/-- The state at the end of the text. -/
def scan (text : Bytes) (s : State) : State := text.foldl step s

/-- The state at the end of a text that begins between two words. -/
def final (text : Bytes) : State := scan text ⟨.between, false⟩

/-- In a quotation. -/
def Mode.inQuote : Mode → Bool
  | .quoted _ | .escaped _ => true
  | .between | .comment | .word => false

/-- Behind a backslash in a quotation. -/
def Mode.atEscape : Mode → Bool
  | .escaped _ => true
  | .between | .comment | .word | .quoted _ => false

/-- The place where the loops of `argument` are. -/
def modeOf : Option UInt8 → Mode
  | none => .word
  | some c => .quoted c

/-! ## What is claimed of the tokenizer -/

/-- Repeated calls come to the end of the text, each but the last one has taken at least one
character, and none has left the text. -/
inductive Reaches : Bytes → Prop
  | done {text} : getToken text = .ok (.eof, []) → Reaches text
  | next {text tok rest} : getToken text = .ok (tok, rest) → tok ≠ .eof → rest <:+ text →
      rest.length < text.length → Reaches rest → Reaches text

/-! ## One token -/

variable {text rest : Bytes} {tok : Bytes} {pending : Bool} {c : UInt8}

theorem scan_cons (c : UInt8) (text : Bytes) (s : State) :
    scan (c :: text) s = scan text (step s c) := rfl

/-- The character ends a word. -/
def isStop (c : UInt8) : Bool := isspace c || c = semicolon

theorem step_stop (h : isStop c = true) (pending : Bool) :
    step ⟨.word, pending⟩ c = step ⟨.between, pending⟩ c := by
  rw [step, step]
  dsimp only
  by_cases hend : isEnd c = true
  · rw [if_pos hend, if_pos hend]
  · have hspace : isspace c = true := by
      rw [isStop, Bool.or_eq_true] at h
      refine h.resolve_right fun hs => hend ?_
      rw [isEnd, hs, Bool.or_true]
    rw [if_neg hend, if_neg hend, if_pos hspace, if_pos hspace]

theorem not_stop (h : isStop c = false) : isEnd c = false ∧ isspace c = false := by
  rw [isStop, Bool.or_eq_false_iff] at h
  refine ⟨?_, h.1⟩
  rw [isEnd, h.2, Bool.or_false, decide_eq_false_iff_not]
  intro hc
  rw [hc] at h
  exact absurd h.1 (by decide)

theorem step_word (h : isStop c = false) (pending : Bool) :
    step ⟨.word, pending⟩ c = ⟨enter c, pending⟩ := by
  obtain ⟨hend, hspace⟩ := not_stop h
  rw [step]
  dsimp only
  rw [hend, hspace, if_neg Bool.false_ne_true, if_neg Bool.false_ne_true]

theorem step_quoted {q : UInt8} (hq : c ≠ q) (hb : c ≠ backslash) (pending : Bool) :
    step ⟨.quoted q, pending⟩ c = ⟨.quoted q, pending⟩ := by
  rw [step]
  dsimp only
  rw [if_neg hq, if_neg hb]

theorem step_close (q : UInt8) (pending : Bool) : step ⟨.quoted q, pending⟩ q = ⟨.word, pending⟩ :=
  if_pos rfl

theorem step_escape {q : UInt8} (hq : backslash ≠ q) (pending : Bool) :
    step ⟨.quoted q, pending⟩ backslash = ⟨.escaped q, pending⟩ := by
  rw [step]
  dsimp only
  rw [if_neg hq, if_pos rfl]

/-- How the loops of `argument` end. -/
structure Ends (q : Option UInt8) (text rest : Bytes) (pending : Bool) : Prop where
  suffix : rest <:+ text
  last : rest = [] → (scan text ⟨modeOf q, pending⟩).mode.atEscape = false ∧
    (scan text ⟨modeOf q, pending⟩).pending = pending
  stop : ∀ c r, rest = c :: r → isStop c = true ∧
    scan text ⟨modeOf q, pending⟩ = scan rest ⟨.between, pending⟩

/-- Characters in front of which the automaton leads to the next round. -/
theorem Ends.before {q q' : Option UInt8} {text' : Bytes} (h : Ends q' text' rest pending)
    (hs : text' <:+ text)
    (he : scan text ⟨modeOf q, pending⟩ = scan text' ⟨modeOf q', pending⟩) :
    Ends q text rest pending :=
  ⟨h.suffix.trans hs, fun hr => he ▸ h.last hr, fun c r hr => he ▸ h.stop c r hr⟩

theorem prepend_ok {r : Out Unit (Bytes × Bytes)} (h : prepend c r = .ok (tok, rest)) :
    ∃ tok', r = .ok (tok', rest) ∧ tok = c :: tok' := by
  obtain ⟨⟨tok', rest'⟩, hr, h⟩ := Out.bind_eq_ok.mp h
  injection h with h
  injection h with h1 h2
  exact ⟨tok', by rw [hr, h2], h1.symm⟩

theorem argument_ok {q : Option UInt8} (h : argument q text = .ok (tok, rest)) (pending : Bool) :
    Ends q text rest pending := by
  fun_induction argument q text generalizing tok with
  | case1 q =>
    injection h with h
    injection h with _ hr
    subst hr
    refine ⟨List.suffix_refl _, fun _ => ?_, fun c r hr => (by cases hr)⟩
    cases q with
    | none => exact ⟨rfl, rfl⟩
    | some c => exact ⟨rfl, rfl⟩
  | case2 p text hs =>
    injection h with h
    injection h with _ hr
    subst hr
    refine ⟨List.suffix_refl _, fun hr => (by cases hr), fun c r hr => ?_⟩
    injection hr with hc _
    refine ⟨hc ▸ hs, ?_⟩
    rw [scan_cons, scan_cons, modeOf, step_stop hs]
  | case3 p text hs hq ih =>
    rw [Bool.not_eq_true] at hs
    refine (ih h).before (List.suffix_cons p text) ?_
    rw [scan_cons, modeOf, step_word hs, enter, if_pos hq]
    rfl
  | case4 p text hs hq ih =>
    rw [Bool.not_eq_true] at hs
    obtain ⟨tok', h, -⟩ := prepend_ok h
    refine (ih h).before (List.suffix_cons p text) ?_
    rw [scan_cons, modeOf, step_word hs, enter, if_neg hq]
  | case5 p text ih =>
    exact (ih h).before (List.suffix_cons p text) (congrArg (scan text) (step_close p pending))
  | case6 => cases h
  | case7 c p text hc ih =>
    obtain ⟨tok', h, -⟩ := prepend_ok h
    refine (ih h).before ((List.suffix_cons p text).trans (List.suffix_cons backslash _)) ?_
    rw [scan_cons, scan_cons, modeOf, step_escape hc]
    rfl
  | case8 c p text hc hb ih =>
    obtain ⟨tok', h, -⟩ := prepend_ok h
    refine (ih h).before (List.suffix_cons p text) ?_
    rw [scan_cons, modeOf, step_quoted hc hb]

theorem prepend_stuck {r : Out Unit (Bytes × Bytes)} (h : prepend c r = .stuck) : r = .stuck := by
  cases r with
  | ok a => cases h
  | err e => cases h
  | stuck => rfl

theorem argument_stuck {q : Option UInt8} (h : argument q text = .stuck) (pending : Bool) :
    (scan text ⟨modeOf q, pending⟩).mode.atEscape = true := by
  fun_induction argument q text with
  | case1 q => cases h
  | case2 p text hs => cases h
  | case3 p text hs hq ih =>
    rw [Bool.not_eq_true] at hs
    rw [scan_cons, modeOf, step_word hs, enter, if_pos hq]
    exact ih h
  | case4 p text hs hq ih =>
    rw [Bool.not_eq_true] at hs
    rw [scan_cons, modeOf, step_word hs, enter, if_neg hq]
    exact ih (prepend_stuck h)
  | case5 p text ih =>
    rw [scan_cons, modeOf, step_close]
    exact ih h
  | case6 c hc =>
    rw [scan_cons, modeOf, step_escape hc]
    rfl
  | case7 c p text hc ih =>
    rw [scan_cons, scan_cons, modeOf, step_escape hc]
    exact ih (prepend_stuck h)
  | case8 c p text hc hb ih =>
    rw [scan_cons, modeOf, step_quoted hc hb]
    exact ih (prepend_stuck h)

theorem argument_ne_err {q : Option UInt8} : argument q text ≠ .err () := by
  have hprep : ∀ (c : UInt8) (r : Out Unit (Bytes × Bytes)), r ≠ .err () →
      prepend c r ≠ .err () := by
    intro c r hr
    cases r with
    | ok a => exact fun h => by cases h
    | err e => exact absurd rfl hr
    | stuck => exact fun h => by cases h
  fun_induction argument q text with
  | case1 q => exact fun h => by cases h
  | case2 p text hs => exact fun h => by cases h
  | case3 p text hs hq ih => exact ih
  | case4 p text hs hq ih => exact hprep _ _ ih
  | case5 p text ih => exact ih
  | case6 c hc => exact fun h => by cases h
  | case7 c p text hc ih => exact hprep _ _ ih
  | case8 c p text hc hb ih => exact hprep _ _ ih

/-! ## Blanks and comments -/

theorem step_blank (h : (isspace c && c ≠ newline) = true) (pending : Bool) :
    step ⟨.between, pending⟩ c = ⟨.between, pending⟩ := by
  rw [Bool.and_eq_true, decide_eq_true_iff] at h
  have hend : ¬ isEnd c = true := by
    intro he
    rw [isEnd, Bool.or_eq_true, decide_eq_true_iff, decide_eq_true_iff] at he
    refine he.elim h.2 fun hc => ?_
    rw [hc] at h
    exact absurd h.1 (by decide)
  rw [step]
  dsimp only
  rw [if_neg hend, if_pos h.1]

theorem scan_dropWhile (p : UInt8 → Bool) (s : State) (hp : ∀ c, p c = true → step s c = s)
    (text : Bytes) : scan text s = scan (text.dropWhile p) s := by
  induction text with
  | nil => rfl
  | cons c text ih =>
    rw [List.dropWhile_cons]
    split
    · rename_i hc
      rw [scan_cons, hp c hc, ih]
    · rfl

theorem step_comment (h : c ≠ newline) (pending : Bool) :
    step ⟨.comment, pending⟩ c = ⟨.comment, pending⟩ := if_neg h

/-- What is in front of a token does not matter, but that there may be nothing behind it. -/
structure Blank (text : Bytes) (pending : Bool) : Prop where
  suffix : skipBlank text <:+ text
  last : skipBlank text = [] → (scan text ⟨.between, pending⟩).mode.inQuote = false ∧
    (scan text ⟨.between, pending⟩).mode.atEscape = false ∧
    (scan text ⟨.between, pending⟩).pending = pending
  next : ∀ c rest, skipBlank text = c :: rest →
    scan text ⟨.between, pending⟩ = scan (skipBlank text) ⟨.between, pending⟩ ∧
    (isEnd c = true ∨ isStop c = false ∧ c ≠ hash)

theorem skipBlank_blank (text : Bytes) (pending : Bool) : Blank text pending := by
  have hscan := scan_dropWhile (fun c => isspace c && c ≠ newline) ⟨.between, pending⟩
    (fun c hc => step_blank hc pending) text
  have hsuf := List.dropWhile_suffix (l := text) fun c => isspace c && c ≠ newline
  have hhead := List.head?_dropWhile_not (fun c => isspace c && c ≠ newline) text
  cases hp : text.dropWhile fun c => isspace c && c ≠ newline with
  | nil =>
    have hskip : skipBlank text = [] := by
      rw [skipBlank, hp]
      rfl
    rw [hp] at hscan
    refine ⟨hskip ▸ List.nil_suffix, fun _ => hscan ▸ ⟨rfl, rfl, rfl⟩, fun c rest h => ?_⟩
    rw [hskip] at h
    cases h
  | cons x r =>
    rw [hp] at hscan hsuf hhead
    by_cases hx : x = hash
    · subst hx
      have hskip : skipBlank text = r.dropWhile (· ≠ newline) := by
        rw [skipBlank, hp, List.head?_cons, if_pos rfl, List.dropWhile_cons, if_pos (by decide)]
      have hcomment : scan text ⟨.between, pending⟩ = scan (skipBlank text) ⟨.comment, pending⟩ := by
        rw [hscan, scan_cons, hskip, ← scan_dropWhile (· ≠ newline) ⟨.comment, pending⟩
          (fun c hc => step_comment (of_decide_eq_true hc) pending)]
        rfl
      have hdrop : skipBlank text <:+ text := by
        rw [hskip]
        exact ((List.dropWhile_suffix _).trans (List.suffix_cons hash r)).trans hsuf
      have hnl := List.head?_dropWhile_not (fun c : UInt8 => decide (c ≠ newline)) r
      rw [← hskip] at hnl
      refine ⟨hdrop, fun h => ?_, fun c rest h => ?_⟩
      · rw [hcomment, h]
        exact ⟨rfl, rfl, rfl⟩
      · rw [h, List.head?_cons] at hnl
        have hc : c = newline := by simpa using hnl
        rw [hcomment, h, scan_cons, scan_cons, hc]
        exact ⟨rfl, .inl rfl⟩
    · have hskip : skipBlank text = x :: r := by
        rw [skipBlank, hp]
        exact if_neg fun h => hx (Option.some.inj h)
      refine ⟨hskip ▸ hsuf, fun h => ?_, fun c rest h => ?_⟩
      · rw [hskip] at h
        cases h
      · rw [hskip] at h ⊢
        injection h with hc _
        refine ⟨hscan, ?_⟩
        rw [← hc]
        rw [List.head?_cons] at hhead
        by_cases hend : isEnd x = true
        · exact .inl hend
        · refine .inr ⟨?_, hx⟩
          rw [isEnd, Bool.or_eq_true, decide_eq_true_iff, decide_eq_true_iff, not_or] at hend
          rw [isStop, Bool.or_eq_false_iff, decide_eq_false_iff_not]
          exact ⟨by simpa [hend.1] using hhead, hend.2⟩

/-! ## The calls -/

/-- What a call does with the first character that is no blank. -/
inductive Call (text : Bytes) : Prop
  | eof : skipBlank text = [] → getToken text = .ok (.eof, []) → Call text
  | newline {rest : Bytes} : skipBlank text = Config.newline :: rest →
      getToken text = .ok (.newline, rest) → Call text
  | semicolon {rest : Bytes} : skipBlank text = Config.semicolon :: rest →
      getToken text = .ok (.semicolon, rest) → Call text
  | word {c : UInt8} {rest : Bytes} : skipBlank text = c :: rest → isStop c = false → c ≠ hash →
      getToken text = (do
        let (tok, rest) ← argument none (c :: rest)
        pure (.word tok, rest)) → Call text

theorem getToken_call (text : Bytes) : Call text := by
  have hb := skipBlank_blank text false
  cases hskip : skipBlank text with
  | nil => exact .eof hskip (by rw [getToken, hskip]; rfl)
  | cons c rest =>
    by_cases hn : c = newline
    · rw [hn] at hskip
      exact .newline hskip (by rw [getToken, hskip]; rfl)
    by_cases hs : c = semicolon
    · rw [hs] at hskip
      exact .semicolon hskip (by rw [getToken, hskip]; rfl)
    have hend : isEnd c ≠ true := by
      rw [isEnd, ne_eq, Bool.or_eq_true, decide_eq_true_iff, decide_eq_true_iff, not_or]
      exact ⟨hn, hs⟩
    obtain ⟨hstop, hhash⟩ := (hb.next c rest hskip).2.resolve_left hend
    refine .word hskip hstop hhash ?_
    rw [getToken, hskip]
    dsimp only
    rw [if_neg hn, if_neg hs]

/-- A word begins. -/
theorem scan_enter (h : isStop c = false) (hc : c ≠ hash) (rest : Bytes) (pending : Bool) :
    scan (c :: rest) ⟨.between, pending⟩ = scan (c :: rest) ⟨.word, true⟩ := by
  obtain ⟨hend, hspace⟩ := not_stop h
  rw [scan_cons, scan_cons, step_word h, step]
  dsimp only
  rw [hend, hspace, if_neg Bool.false_ne_true, if_neg Bool.false_ne_true, if_neg hc]

/-- Where a call leaves the text, it ends behind a backslash. -/
theorem getToken_stuck (h : getToken text = .stuck) (pending : Bool) :
    (scan text ⟨.between, pending⟩).mode.atEscape = true := by
  cases getToken_call text with
  | eof _ hcall | newline _ hcall | semicolon _ hcall =>
    rw [hcall] at h
    cases h
  | @word c rest hskip hstop hhash hcall =>
    rw [hcall] at h
    have hstuck : argument none (c :: rest) = .stuck := by
      cases ha : argument none (c :: rest) with
      | ok r =>
        rw [ha] at h
        cases h
      | err e => exact absurd ha argument_ne_err
      | stuck => rfl
    rw [((skipBlank_blank text pending).next c rest hskip).1, hskip, scan_enter hstop hhash]
    exact argument_stuck hstuck true

theorem getToken_ne_err (text : Bytes) : getToken text ≠ .err () := by
  intro h
  cases getToken_call text with
  | eof _ hcall | newline _ hcall | semicolon _ hcall =>
    rw [hcall] at h
    cases h
  | @word c rest hskip hstop hhash hcall =>
    rw [hcall] at h
    cases ha : argument none (c :: rest) with
    | ok r =>
      rw [ha] at h
      cases h
    | err e => exact absurd ha argument_ne_err
    | stuck =>
      rw [ha] at h
      cases h

/-- Whether words are waiting behind the token. -/
def pendingAfter (pending : Bool) : Token → Bool
  | .eof => pending
  | .newline | .semicolon => false
  | .word _ => true

/-- What a call leaves: what is scanned from there on ends alike. -/
structure Taken (text : Bytes) (tok : Token) (rest : Bytes) (pending : Bool) : Prop where
  suffix : rest <:+ text
  eof : tok = .eof → rest = []
  shorter : tok ≠ .eof → rest.length < text.length
  escape : (scan text ⟨.between, pending⟩).mode.atEscape =
    (scan rest ⟨.between, pendingAfter pending tok⟩).mode.atEscape
  waits : (scan text ⟨.between, pending⟩).pending =
    (scan rest ⟨.between, pendingAfter pending tok⟩).pending
  closed : (scan text ⟨.between, pending⟩).mode.inQuote = false →
    (scan rest ⟨.between, pendingAfter pending tok⟩).mode.inQuote = false

theorem suffix_cons_lt {c : UInt8} (h : c :: rest <:+ text) : rest.length < text.length := by
  have := h.length_le
  rw [List.length_cons] at this
  omega

theorem getToken_taken {tok : Token} (h : getToken text = .ok (tok, rest)) (pending : Bool) :
    Taken text tok rest pending := by
  have hb := skipBlank_blank text pending
  cases getToken_call text with
  | eof hskip hcall =>
    rw [hcall] at h
    injection h with h
    injection h with ht hr
    subst ht
    subst hr
    obtain ⟨hq, he, hp⟩ := hb.last hskip
    exact ⟨List.nil_suffix, fun _ => rfl, fun hne => absurd rfl hne, he, hp, fun _ => rfl⟩
  | @newline r hskip hcall =>
    rw [hcall] at h
    injection h with h
    injection h with ht hr
    subst ht
    subst hr
    have hsuf : Config.newline :: r <:+ text := hskip ▸ hb.suffix
    have hscan : scan text ⟨.between, pending⟩ = scan r ⟨.between, false⟩ := by
      rw [(hb.next _ _ hskip).1, hskip]
      rfl
    exact ⟨(List.suffix_cons _ _).trans hsuf, fun he => (by cases he), fun _ => suffix_cons_lt hsuf,
      by rw [hscan]; rfl, by rw [hscan]; rfl, fun hq => hscan ▸ hq⟩
  | @semicolon r hskip hcall =>
    rw [hcall] at h
    injection h with h
    injection h with ht hr
    subst ht
    subst hr
    have hsuf : Config.semicolon :: r <:+ text := hskip ▸ hb.suffix
    have hscan : scan text ⟨.between, pending⟩ = scan r ⟨.between, false⟩ := by
      rw [(hb.next _ _ hskip).1, hskip]
      rfl
    exact ⟨(List.suffix_cons _ _).trans hsuf, fun he => (by cases he), fun _ => suffix_cons_lt hsuf,
      by rw [hscan]; rfl, by rw [hscan]; rfl, fun hq => hscan ▸ hq⟩
  | @word c r hskip hstop hhash hcall =>
    rw [hcall] at h
    obtain ⟨⟨w, r'⟩, ha, h⟩ := Out.bind_eq_ok.mp h
    injection h with h
    injection h with ht hr
    subst ht
    subst hr
    have hsuf : c :: r <:+ text := hskip ▸ hb.suffix
    have hscan : scan text ⟨.between, pending⟩ = scan (c :: r) ⟨.word, true⟩ := by
      rw [(hb.next _ _ hskip).1, hskip, scan_enter hstop hhash]
    have hends := argument_ok ha true
    have hshort : r'.length < text.length := by
      have hle := hends.suffix.length_le
      have hlt := suffix_cons_lt hsuf
      rw [List.length_cons] at hle
      rcases Nat.lt_or_ge r'.length (r.length + 1) with h1 | h1
      · omega
      · -- a word takes its first character
        have heq := hends.suffix.eq_of_length (by rw [List.length_cons]; omega)
        rw [(hends.stop c r heq).1] at hstop
        cases hstop
    refine ⟨hends.suffix.trans hsuf, fun he => (by cases he), fun _ => hshort, ?_, ?_, fun hq => ?_⟩
    all_goals rw [hscan] at *
    · cases r' with
      | nil => exact (hends.last rfl).1
      | cons x xs => exact congrArg (fun s => s.mode.atEscape) (hends.stop x xs rfl).2
    · cases r' with
      | nil => exact (hends.last rfl).2
      | cons x xs => exact congrArg State.pending (hends.stop x xs rfl).2
    · cases r' with
      | nil => rfl
      | cons x xs => exact (congrArg (fun s => s.mode.inQuote) (hends.stop x xs rfl).2) ▸ hq

/-! ## All calls -/

theorem reaches_of_scan (text : Bytes) (pending : Bool)
    (h : (scan text ⟨.between, pending⟩).mode.atEscape = false) : Reaches text := by
  induction hn : text.length using Nat.strongRecOn generalizing text pending with
  | ind n ih =>
    cases hcall : getToken text with
    | err e => exact absurd hcall (getToken_ne_err text)
    | stuck =>
      rw [getToken_stuck hcall pending] at h
      cases h
    | ok r =>
      obtain ⟨tok, rest⟩ := r
      have ht := getToken_taken hcall pending
      by_cases heof : tok = .eof
      · subst heof
        rw [ht.eof rfl] at hcall
        exact .done hcall
      · have hlt := ht.shorter heof
        rw [ht.escape] at h
        exact .next hcall heof ht.suffix hlt (ih rest.length (hn ▸ hlt) rest _ h rfl)

theorem scan_of_reaches (h : Reaches text) (pending : Bool) :
    (scan text ⟨.between, pending⟩).mode.atEscape = false := by
  induction h generalizing pending with
  | done hcall => exact (getToken_taken hcall pending).escape
  | next hcall _ _ _ _ ih => exact (getToken_taken hcall pending).escape.trans (ih _)

end LsvmTools.Grub.Scan
