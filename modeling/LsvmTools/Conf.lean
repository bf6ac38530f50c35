import LsvmTools.Grub.Config
import LsvmTools.Lib.Lines
import LsvmTools.Lib.Trim

/-! # Configuration files

`ParseConf` hands each line `NAME = VALUE` to a callback. The names it takes are not those of
its comment: an underscore is taken nowhere in them. -/
namespace LsvmTools.Conf
open Lib.ByteString Lib.Lines Lib.Trim Strings
open Grub.Config (isspace newline hash)

def underscore : UInt8 := 95
def equals : UInt8 := 61

/-- `Isalpha`. -/
def isalpha (c : UInt8) : Bool := (65 ≤ c && c ≤ 90) || (97 ≤ c && c ≤ 122)

/-- `Isalnum`. -/
def isalnum (c : UInt8) : Bool := isalpha c || (48 ≤ c && c ≤ 57)

/-- `Strndup`: what the callback sees of the string. -/
def strndup (str : Bytes) : Bytes := cstr str

/-- `_SkipIdentifier`. -/
def skipIdentifier : Bytes → Bytes
  | [] => []
  | c :: rest => if !isalpha c || c = underscore then c :: rest else rest.dropWhile isalnum

/-- A call of the callback: the name and the value. -/
abbrev Call := Bytes × Bytes

/-- What `ParseConf` makes of a line. -/
inductive Parsed where
  | skip
  | bad
  | call (name value : Bytes)
deriving DecidableEq

/-- The part of `ParseConf` behind the name. -/
def parseValue (name p : Bytes) : Parsed :=
  match p.dropWhile isspace with
  | [] => .bad
  | c :: p => if c = equals then .call name (p.dropWhile isspace) else .bad

/-- The body of the loop of `ParseConf` up to the callback. -/
def parseLine (line : Bytes) : Parsed :=
  let p := line.dropWhile isspace
  if p = [] ∨ p.head? = some hash then .skip
  else
    let start := p.rdropWhile isspace
    let p := skipIdentifier start
    if p.length = start.length then .bad
    else parseValue (start.take (start.length - p.length)) p

/-- What is left when `ParseConf` returns: the calls made, and the error line if it fails. -/
structure Outcome where
  calls : List Call
  errorLine : Option Nat
deriving DecidableEq

/-- The callback: whether it returns 0 for the name and the value, after the calls before. -/
abbrev Callback := List Call → Bytes → Bytes → Bool

variable (callback : Callback)

/-- The loop of `ParseConf`; `lineNum` is an `unsigned int`. -/
def parseLines : Nat → List Bytes → List Call → Outcome
  | _, [], calls => ⟨calls, none⟩
  | lineNum, line :: rest, calls =>
    let lineNum := u32 (lineNum + 1)
    match parseLine line with
    | .skip => parseLines lineNum rest calls
    | .bad => ⟨calls, some lineNum⟩
    | .call name value =>
      let name := strndup name
      let value := strndup value
      let made := calls ++ [(name, value)]
      if callback calls name value then parseLines lineNum rest made else ⟨made, some lineNum⟩

/-- `ParseConf`. -/
def parseConf (text : Bytes) : Outcome :=
  if text = [] then ⟨[], some 0⟩ else parseLines callback 0 (lines newline text) []

/-! ## The grammar -/

/-- A character of a name. -/
def isWord (c : UInt8) : Bool := isalnum c || c = underscore

/-- `[A-Za-z_][A-Za-z_0-9]*`. -/
structure IsName (name : Bytes) : Prop where
  head : ∃ c, name.head? = some c ∧ (isalpha c = true ∨ c = underscore)
  word : ∀ c ∈ name, isWord c = true

/-- A line of the form `NAME = VALUE`. -/
def Assigns (line name value : Bytes) : Prop :=
  ∃ b₁ b₂ rest, line = b₁ ++ (name ++ (b₂ ++ equals :: rest)) ∧ (∀ c ∈ b₁, isspace c = true) ∧
    (∀ c ∈ b₂, isspace c = true) ∧ IsName name ∧ value = trim isspace rest

/-- A line that is blank or a comment. -/
def Skipped (line : Bytes) : Prop :=
  line.dropWhile isspace = [] ∨ (line.dropWhile isspace).head? = some hash

/-- The outcome for the lines from number `n` on, after the given calls: one call for each
assignment, in order, up to the first line that is none or whose call fails. -/
inductive Conforms : Nat → List Bytes → List Call → Outcome → Prop where
  | done {n calls} : Conforms n [] calls ⟨calls, none⟩
  | skip {n line rest calls o} (h : Skipped line) (hrest : Conforms (n + 1) rest calls o) :
      Conforms n (line :: rest) calls o
  | call {n line rest calls o name value} (h : Assigns line name value)
      (hcall : callback calls name value = true)
      (hrest : Conforms (n + 1) rest (calls ++ [(name, value)]) o) :
      Conforms n (line :: rest) calls o
  | refused {n line rest calls name value} (h : Assigns line name value)
      (hcall : callback calls name value = false) :
      Conforms n (line :: rest) calls ⟨calls ++ [(name, value)], some n⟩
  | bad {n line rest calls} (hskip : ¬ Skipped line) (h : ∀ name value, ¬ Assigns line name value) :
      Conforms n (line :: rest) calls ⟨calls, some n⟩

/-! ## Lines -/

section Lines

variable {c : UInt8} {line name value rest b p : Bytes}

theorem word_cases (h : isWord c = true) : isspace c = false ∧ c ≠ equals ∧ c ≠ hash := by
  simp only [isWord, isalnum, isalpha, underscore, Bool.or_eq_true, Bool.and_eq_true,
    decide_eq_true_eq, UInt8.le_iff_toNat_le, ← UInt8.toNat_inj, UInt8.reduceToNat] at h
  simp only [isspace, equals, Grub.Config.hash, Bool.or_eq_false_iff, Bool.and_eq_false_iff,
    decide_eq_false_iff_not, UInt8.le_iff_toNat_le, ne_eq, ← UInt8.toNat_inj, UInt8.reduceToNat]
  omega

theorem alnum_iff (c : UInt8) : isalnum c = true ↔ isWord c = true ∧ c ≠ underscore := by
  have hu : isalnum underscore = false := by decide
  by_cases hc : c = underscore
  · simp [hc, hu]
  · simp [isWord, hc]

theorem alpha_cases (h : isalpha c = true) : isalnum c = true ∧ c ≠ underscore := by
  have hn : isalnum c = true := by simp [isalnum, h]
  exact ⟨hn, ((alnum_iff c).mp hn).2⟩

theorem not_word_space (h : isspace c = true) : isWord c = false := by
  cases hw : isWord c with
  | false => rfl
  | true => rw [(word_cases hw).1] at h; cases h

theorem not_alnum_of_not_word (h : isWord c = false) : isalnum c = false := by
  cases hn : isalnum c with
  | false => rfl
  | true => rw [((alnum_iff c).mp hn).1] at h; cases h

theorem isspace_equals : isspace equals = false := by decide

theorem isWord_equals : isWord equals = false := by decide

theorem dropWhile_all {q : UInt8 → Bool} (h : ∀ c ∈ b, q c = true) (rest : Bytes) :
    (b ++ rest).dropWhile q = rest.dropWhile q := List.dropWhile_append_of_pos h

theorem takeWhile_all {q : UInt8 → Bool} (h : ∀ c ∈ b, q c = true) (rest : Bytes) :
    (b ++ rest).takeWhile q = b ++ rest.takeWhile q := List.takeWhile_append_of_pos h

/-- Blanks and an equal sign end a name. -/
theorem dropWhile_word {q : UInt8 → Bool} (hq : ∀ c, q c = true → isWord c = true)
    (h : ∀ c ∈ b, isspace c = true) (rest : Bytes) :
    (b ++ equals :: rest).dropWhile q = b ++ equals :: rest := by
  have hneg : ∀ c, isWord c = false → ¬ q c = true := fun c hc h => by rw [hq c h] at hc; cases hc
  cases b with
  | nil => rw [List.nil_append, List.dropWhile_cons_of_neg (hneg _ isWord_equals)]
  | cons c b =>
    rw [List.cons_append, List.dropWhile_cons_of_neg]
    exact hneg c (not_word_space (h c (List.mem_cons_self ..)))

/-- A name with its first character. -/
theorem IsName.cons (h : IsName name) : ∃ c rest, name = c :: rest ∧
    (isalpha c = true ∨ c = underscore) ∧ isWord c = true ∧ ∀ d ∈ rest, isWord d = true := by
  obtain ⟨⟨c, hc, hcase⟩, hword⟩ := h
  obtain ⟨rest, rfl⟩ := List.head?_eq_some_iff.mp hc
  exact ⟨c, rest, rfl, hcase, hword c (List.mem_cons_self ..),
    fun d hd => hword d (List.mem_cons_of_mem _ hd)⟩

/-- The blanks before a name are skipped, and nothing else. -/
theorem dropWhile_line (h₁ : ∀ c ∈ b, isspace c = true) (hn : IsName name) (rest : Bytes) :
    (b ++ (name ++ rest)).dropWhile isspace = name ++ rest := by
  obtain ⟨c, tail, rfl, -, hw, -⟩ := hn.cons
  rw [dropWhile_all h₁, List.cons_append, List.dropWhile_cons_of_neg]
  simp [(word_cases hw).1]

theorem Assigns.not_skipped (h : Assigns line name value) : ¬ Skipped line := by
  obtain ⟨b₁, b₂, rest, rfl, h₁, h₂, hn, -⟩ := h
  obtain ⟨c, tail, rfl, -, hw, -⟩ := hn.cons
  unfold Skipped
  rw [dropWhile_line h₁ hn]
  rintro (h | h)
  · cases h
  · exact (word_cases hw).2.2 (Option.some.inj h)

/-- A line is an assignment in one way at most. -/
theorem Assigns.unique {name' value' : Bytes} (h : Assigns line name value)
    (h' : Assigns line name' value') : name = name' ∧ value = value' := by
  have hform : ∀ name value, Assigns line name value →
      name = (line.dropWhile isspace).takeWhile isWord ∧
        value = trim isspace
          (((line.dropWhile isspace).dropWhile isWord).dropWhile isspace).tail := by
    rintro name value ⟨b₁, b₂, rest, rfl, h₁, h₂, hn, rfl⟩
    have hsplit := List.takeWhile_append_dropWhile (p := isWord) (l := b₂ ++ equals :: rest)
    rw [dropWhile_word (fun _ h => h) h₂] at hsplit
    have htake : (b₂ ++ equals :: rest).takeWhile isWord = [] := List.append_left_eq_self.mp hsplit
    rw [dropWhile_line h₁ hn, takeWhile_all hn.word, dropWhile_all hn.word,
      dropWhile_word (fun _ h => h) h₂, dropWhile_all h₂,
      List.dropWhile_cons_of_neg (by simp [isspace_equals]), htake, List.append_nil]
    exact ⟨rfl, rfl⟩
  obtain ⟨rfl, rfl⟩ := hform name value h
  obtain ⟨rfl, rfl⟩ := hform name' value' h'
  exact ⟨rfl, rfl⟩

/-- The line without its newline and blanks, where the name begins. -/
def start (line : Bytes) : Bytes := (line.dropWhile isspace).rdropWhile isspace

theorem start_assign (h₁ : ∀ c ∈ b, isspace c = true) (hn : IsName name) (b₂ rest : Bytes) :
    start (b ++ (name ++ (b₂ ++ equals :: rest))) =
      name ++ (b₂ ++ equals :: rest.rdropWhile isspace) := by
  have h := rdropWhile_append_cons isspace_equals (name ++ b₂) rest
  rw [start, dropWhile_line h₁ hn]
  simpa using h

theorem parseLine_skipped (h : Skipped line) : parseLine line = .skip := by
  unfold parseLine
  exact if_pos h

theorem parseLine_not_skipped (h : ¬ Skipped line) :
    parseLine line = if (skipIdentifier (start line)).length = (start line).length then .bad
      else parseValue ((start line).take ((start line).length -
        (skipIdentifier (start line)).length)) (skipIdentifier (start line)) := by
  unfold parseLine
  exact if_neg h

theorem parseLine_named (hs : ¬ Skipped line) (hstart : start line = name ++ p)
    (hskip : skipIdentifier (name ++ p) = p) (hne : name ≠ []) :
    parseLine line = parseValue name p := by
  have hpos : 0 < name.length := List.length_pos_iff.mpr hne
  rw [parseLine_not_skipped hs, hstart, hskip, List.length_append, if_neg (by omega),
    Nat.add_sub_cancel, List.take_left]

/-- An assignment is taken where there is no underscore in the name. -/
theorem parseLine_plain (h : Assigns line name value) (hu : underscore ∉ name) :
    parseLine line = .call name value := by
  have hs := h.not_skipped
  obtain ⟨b₁, b₂, rest, rfl, h₁, h₂, hn, rfl⟩ := h
  have hstart := start_assign h₁ hn b₂ rest
  obtain ⟨c, tail, rfl, hcase, hw, htail⟩ := hn.cons
  have hc : isalpha c = true := by
    rcases hcase with hc | rfl
    · exact hc
    · exact absurd (List.mem_cons_self ..) hu
  have hskip : skipIdentifier ((c :: tail) ++ (b₂ ++ equals :: rest.rdropWhile isspace)) =
      b₂ ++ equals :: rest.rdropWhile isspace := by
    have halnum : ∀ d ∈ tail, isalnum d = true := fun d hd =>
      (alnum_iff d).mpr ⟨htail d hd, fun h => hu (List.mem_cons_of_mem _ (h ▸ hd))⟩
    rw [List.cons_append, skipIdentifier, if_neg (by simp [hc, (alpha_cases hc).2]),
      dropWhile_all halnum, dropWhile_word (fun d hd => ((alnum_iff d).mp hd).1) h₂]
  rw [parseLine_named hs hstart hskip (List.cons_ne_nil _ _), parseValue, dropWhile_all h₂,
    List.dropWhile_cons_of_neg (by simp [isspace_equals])]
  simp [dropWhile_rdropWhile]

/-- An assignment is not taken where there is an underscore in the name. -/
theorem parseLine_underscore (h : Assigns line name value) (hu : underscore ∈ name) :
    parseLine line = .bad := by
  have hs := h.not_skipped
  obtain ⟨b₁, b₂, rest, rfl, h₁, h₂, hn, rfl⟩ := h
  have hstart := start_assign h₁ hn b₂ rest
  obtain ⟨c, tail, rfl, hcase, hw, htail⟩ := hn.cons
  rcases hcase with hc | rfl
  · have hmem : underscore ∈ tail := by
      rcases List.mem_cons.mp hu with h | h
      · exact absurd h.symm (alpha_cases hc).2
      · exact h
    obtain ⟨front, back, rfl, hfront⟩ := List.eq_append_cons_of_mem hmem
    have halnum : ∀ d ∈ front, isalnum d = true := fun d hd =>
      (alnum_iff d).mpr ⟨htail d (List.mem_append_left _ hd), fun h => hfront (h ▸ hd)⟩
    have hfields : start (b₁ ++ ((c :: (front ++ underscore :: back)) ++ (b₂ ++ equals :: rest))) =
        (c :: front) ++ underscore :: (back ++ (b₂ ++ equals :: rest.rdropWhile isspace)) := by
      rw [hstart]
      simp
    have hskip : skipIdentifier ((c :: front) ++
        underscore :: (back ++ (b₂ ++ equals :: rest.rdropWhile isspace))) =
          underscore :: (back ++ (b₂ ++ equals :: rest.rdropWhile isspace)) := by
      rw [List.cons_append, skipIdentifier, if_neg (by simp [hc, (alpha_cases hc).2]),
        dropWhile_all halnum, List.dropWhile_cons_of_neg (by decide)]
    rw [parseLine_named hs hfields hskip (List.cons_ne_nil _ _), parseValue,
      List.dropWhile_cons_of_neg (by decide)]
    exact if_neg (by decide)
  · rw [parseLine_not_skipped hs, hstart, List.cons_append, skipIdentifier, if_pos (by simp)]

theorem skipIdentifier_cases (p : Bytes) : skipIdentifier p = p ∨
    ∃ name, p = name ++ skipIdentifier p ∧ IsName name ∧ underscore ∉ name := by
  cases p with
  | nil => exact .inl rfl
  | cons c rest =>
    rw [skipIdentifier]
    by_cases h : (!isalpha c || decide (c = underscore)) = true
    · rw [if_pos h]
      exact .inl rfl
    · rw [if_neg h]
      obtain ⟨hc, -⟩ : isalpha c = true ∧ c ≠ underscore := by simpa using h
      have hall : ∀ d ∈ c :: rest.takeWhile isalnum, isalnum d = true := by
        intro d hd
        rcases List.mem_cons.mp hd with rfl | hd
        · exact (alpha_cases hc).1
        · exact List.mem_takeWhile_imp hd
      refine .inr ⟨c :: rest.takeWhile isalnum, ?_, ⟨⟨c, rfl, .inl hc⟩, fun d hd =>
        ((alnum_iff d).mp (hall d hd)).1⟩, fun hu => ((alnum_iff _).mp (hall _ hu)).2 rfl⟩
      rw [List.cons_append, List.takeWhile_append_dropWhile]

theorem parseValue_call {v : Bytes} (h : parseValue name p = .call rest v) : rest = name ∧
    ∃ b r, p = b ++ equals :: r ∧ (∀ c ∈ b, isspace c = true) ∧ v = r.dropWhile isspace := by
  have hsplit := List.takeWhile_append_dropWhile (p := isspace) (l := p)
  unfold parseValue at h
  split at h
  · cases h
  · next c r hdrop =>
    split at h
    · next hc =>
      cases h
      subst hc
      rw [hdrop] at hsplit
      exact ⟨rfl, _, r, hsplit.symm, fun d hd => List.mem_takeWhile_imp hd, rfl⟩
    · cases h

/-- What is taken is an assignment, without an underscore in the name. -/
theorem assigns_of_call (h : parseLine line = .call name value) :
    Assigns line name value ∧ underscore ∉ name := by
  have hs : ¬ Skipped line := fun hs => by rw [parseLine_skipped hs] at h; cases h
  have hfront := List.takeWhile_append_dropWhile (p := isspace) (l := line)
  obtain ⟨t, ht⟩ := List.rdropWhile_prefix isspace (line.dropWhile isspace)
  rw [parseLine_not_skipped hs] at h
  split at h
  · cases h
  · next hlen =>
    rcases skipIdentifier_cases (start line) with heq | ⟨n, hn, hname, hu⟩
    · exact absurd (congrArg List.length heq) hlen
    · have htake : (start line).take n.length = n := by
        rw [hn]
        exact List.take_left
      have hlength := congrArg List.length hn
      rw [List.length_append] at hlength
      rw [hlength, Nat.add_sub_cancel, htake] at h
      obtain ⟨rfl, b₂, r, hr, hb₂, rfl⟩ := parseValue_call h
      rw [hr] at hn
      have hdrop : line.dropWhile isspace = name ++ (b₂ ++ equals :: (r ++ t)) := by
        rw [← ht]
        change start line ++ t = _
        rw [hn]
        simp
      have hend : (r ++ t).rdropWhile isspace = r := by
        have hrd := rdropWhile_append_cons isspace_equals (name ++ b₂) (r ++ t)
        have hst : start line = (name ++ b₂ ++ equals :: (r ++ t)).rdropWhile isspace := by
          rw [start, hdrop, List.append_assoc]
        rw [← hst, hn, List.append_assoc] at hrd
        simpa using hrd.symm
      refine ⟨⟨line.takeWhile isspace, b₂, r ++ t, ?_, fun c hc => List.mem_takeWhile_imp hc, hb₂,
        hname, ?_⟩, hu⟩
      · rw [← hdrop, hfront]
      · rw [← dropWhile_rdropWhile, hend]

/-- What is neither skipped nor taken is no assignment, unless there is an underscore in it. -/
theorem parseLine_bad (h : parseLine line = .bad) :
    ¬ Skipped line ∧ ∀ name value, Assigns line name value → underscore ∈ name := by
  refine ⟨fun hs => ?_, fun name value ha => ?_⟩
  · rw [parseLine_skipped hs] at h
    cases h
  · by_contra hu
    rw [parseLine_plain ha hu] at h
    cases h

theorem parseLine_skip (h : parseLine line = .skip) : Skipped line := by
  by_contra hs
  rw [parseLine_not_skipped hs] at h
  split at h
  · cases h
  · unfold parseValue at h
    split at h
    · cases h
    · split at h <;> cases h

end Lines

/-! ## Files -/

/-- What the lines from number `n` on must be like, as far as they are come to: no name with an
underscore, no value with a zero byte, and no line that is reported with a number of more than
32 bits. -/
def Careful : Nat → List Bytes → List Call → Prop
  | _, [], _ => True
  | n, line :: rest, calls =>
    (Skipped line → Careful (n + 1) rest calls) ∧
    (∀ name value, Assigns line name value → underscore ∉ name ∧ (0 : UInt8) ∉ value ∧
      (callback calls name value = true → Careful (n + 1) rest (calls ++ [(name, value)])) ∧
      (callback calls name value = false → n < 2 ^ 32)) ∧
    (¬ Skipped line → (∀ name value, ¬ Assigns line name value) → n < 2 ^ 32)

section Files

variable {callback} {line name value : Bytes} {rest : List Bytes} {calls : List Call}
  {n : Nat} {o : Outcome}

theorem strndup_name (h : IsName name) : strndup name = name := by
  refine List.takeWhile_eq_self_iff.mpr fun c hc => ?_
  have hw := h.word c hc
  simpa using fun h0 : c = 0 => absurd (h0 ▸ hw) (by decide)

theorem strndup_eq_iff (b : Bytes) : strndup b = b ↔ (0 : UInt8) ∉ b := by
  constructor
  · intro h hz
    have hmem : (0 : UInt8) ∈ strndup b := h.symm ▸ hz
    simpa using List.mem_takeWhile_imp hmem
  · intro h
    refine List.takeWhile_eq_self_iff.mpr fun c hc => ?_
    simpa using fun h0 : c = 0 => h (h0 ▸ hc)

theorem u32_succ (n : Nat) : u32 (u32 n + 1) = u32 (n + 1) := by
  simp only [u32]
  omega

theorem u32_eq_iff : u32 n = n ↔ n < 2 ^ 32 := by
  constructor
  · intro h
    rw [← h]
    exact u32_lt n
  · exact u32_of_lt

/-- The calls that were made stay made. -/
theorem prefix_calls (m : Nat) (rest : List Bytes) (calls : List Call) :
    calls <+: (parseLines callback m rest calls).calls := by
  induction rest generalizing m calls with
  | nil => exact List.prefix_refl _
  | cons line rest ih =>
    rw [parseLines]
    dsimp only
    split
    · exact ih _ _
    · exact List.prefix_refl _
    · split
      · exact (List.prefix_append calls _).trans (ih _ _)
      · exact List.prefix_append calls _

theorem Conforms.prefix_calls (h : Conforms callback n rest calls o) : calls <+: o.calls := by
  induction h with
  | done => exact List.prefix_refl _
  | skip _ _ ih => exact ih
  | call _ _ _ ih => exact (List.prefix_append _ _).trans ih
  | refused _ _ => exact List.prefix_append _ _
  | bad _ _ => exact List.prefix_refl _

theorem prefix_unique {xs ys : List Call} {x y : Call} (h : xs ++ [x] <+: ys)
    (h' : xs ++ [y] <+: ys) : x = y := by
  have heq := (List.prefix_of_prefix_length_le h h' (by simp)).eq_of_length (by simp)
  simpa using heq

theorem conforms_skip (hs : Skipped line) : Conforms callback n (line :: rest) calls o ↔
    Conforms callback (n + 1) rest calls o := by
  constructor
  · intro h
    cases h with
    | skip _ h => exact h
    | call ha _ _ => exact absurd hs ha.not_skipped
    | refused ha _ => exact absurd hs ha.not_skipped
    | bad hn _ => exact absurd hs hn
  · exact .skip hs

theorem conforms_call (ha : Assigns line name value) (hc : callback calls name value = true) :
    Conforms callback n (line :: rest) calls o ↔
      Conforms callback (n + 1) rest (calls ++ [(name, value)]) o := by
  constructor
  · intro h
    cases h with
    | skip hs _ => exact absurd hs ha.not_skipped
    | call ha' _ h =>
      obtain ⟨rfl, rfl⟩ := ha.unique ha'
      exact h
    | refused ha' hc' =>
      obtain ⟨rfl, rfl⟩ := ha.unique ha'
      rw [hc] at hc'
      cases hc'
    | bad _ hn => exact absurd ha (hn _ _)
  · exact .call ha hc

theorem conforms_refused (ha : Assigns line name value) (hc : callback calls name value = false) :
    Conforms callback n (line :: rest) calls o ↔ o = ⟨calls ++ [(name, value)], some n⟩ := by
  constructor
  · intro h
    cases h with
    | skip hs _ => exact absurd hs ha.not_skipped
    | call ha' hc' _ =>
      obtain ⟨rfl, rfl⟩ := ha.unique ha'
      rw [hc] at hc'
      cases hc'
    | refused ha' _ =>
      obtain ⟨rfl, rfl⟩ := ha.unique ha'
      rfl
    | bad _ hn => exact absurd ha (hn _ _)
  · rintro rfl
    exact .refused ha hc

theorem conforms_bad (hs : ¬ Skipped line) (hn : ∀ name value, ¬ Assigns line name value) :
    Conforms callback n (line :: rest) calls o ↔ o = ⟨calls, some n⟩ := by
  constructor
  · intro h
    cases h with
    | skip hs' _ => exact absurd hs' hs
    | call ha _ _ => exact absurd ha (hn _ _)
    | refused ha _ => exact absurd ha (hn _ _)
    | bad _ _ => rfl
  · rintro rfl
    exact .bad hs hn

/-- An assignment has its call made in what conforms. -/
theorem Conforms.made (h : Conforms callback n (line :: rest) calls o)
    (ha : Assigns line name value) : calls ++ [(name, value)] <+: o.calls := by
  cases hc : callback calls name value with
  | true => exact ((conforms_call ha hc).mp h).prefix_calls
  | false =>
    rw [(conforms_refused ha hc).mp h]

/-- The loop conforms from a line on if and only if the lines from it on are careful. -/
theorem parseLines_conforms (n : Nat) (rest : List Bytes) (calls : List Call) :
    Conforms callback (n + 1) rest calls (parseLines callback (u32 n) rest calls) ↔
      Careful callback (n + 1) rest calls := by
  induction rest generalizing n calls with
  | nil => exact iff_of_true .done trivial
  | cons line rest ih =>
    rw [parseLines, Careful]
    dsimp only
    rw [u32_succ]
    split
    · next hp =>
      have hs := parseLine_skip hp
      rw [conforms_skip hs, ih]
      constructor
      · intro h
        exact ⟨fun _ => h, fun _ _ ha => absurd hs ha.not_skipped, fun hn => absurd hs hn⟩
      · rintro ⟨h, -, -⟩
        exact h hs
    · next hp =>
      obtain ⟨hs, hu⟩ := parseLine_bad hp
      by_cases hn : ∀ name value, ¬ Assigns line name value
      · rw [conforms_bad hs hn]
        simp only [Outcome.mk.injEq, Option.some.injEq, true_and, u32_eq_iff]
        constructor
        · intro h
          exact ⟨fun h' => absurd h' hs, fun _ _ ha => absurd ha (hn _ _), fun _ _ => h⟩
        · rintro ⟨-, -, h⟩
          exact h hs hn
      · -- An assignment with an underscore is taken for an error.
        simp only [not_forall, not_not] at hn
        obtain ⟨name, value, ha⟩ := hn
        refine iff_of_false (fun h => ?_) fun ⟨_, h, _⟩ => (h name value ha).1 (hu name value ha)
        have hlen := (h.made ha).length_le
        simp at hlen
    · next name value hp =>
      obtain ⟨ha, hu⟩ := assigns_of_call hp
      obtain ⟨_, _, _, _, _, _, hname, _⟩ := id ha
      rw [strndup_name hname]
      by_cases hz : (0 : UInt8) ∈ value
      · -- The callback sees less of the value than there is.
        refine iff_of_false (fun h => ?_) fun ⟨_, h, _⟩ => (h name value ha).2.1 hz
        have hmade := h.made ha
        have hseen : calls ++ [(name, strndup value)] <+: Outcome.calls
            (if callback calls name (strndup value) then
              parseLines callback (u32 (n + 1)) rest (calls ++ [(name, strndup value)])
            else ⟨calls ++ [(name, strndup value)], some (u32 (n + 1))⟩) := by
          split
          · exact prefix_calls _ _ _
          · exact List.prefix_refl _
        have heq := prefix_unique hmade hseen
        exact (strndup_eq_iff value).mp (congrArg Prod.snd heq).symm hz
      · rw [(strndup_eq_iff value).mpr hz]
        have huniq : ∀ name' value', Assigns line name' value' → name' = name ∧ value' = value :=
          fun _ _ ha' => ha'.unique ha
        cases hc : callback calls name value with
        | true =>
          rw [if_pos rfl, conforms_call ha hc, ih]
          constructor
          · intro h
            refine ⟨fun hs => absurd hs ha.not_skipped, fun name' value' ha' => ?_,
              fun _ hn => absurd ha (hn _ _)⟩
            obtain ⟨rfl, rfl⟩ := huniq name' value' ha'
            exact ⟨hu, hz, fun _ => h, fun hc' => absurd hc' (by simp [hc])⟩
          · rintro ⟨-, h, -⟩
            exact (h name value ha).2.2.1 hc
        | false =>
          rw [if_neg Bool.false_ne_true, conforms_refused ha hc]
          simp only [Outcome.mk.injEq, Option.some.injEq, true_and, u32_eq_iff]
          constructor
          · intro h
            refine ⟨fun hs => absurd hs ha.not_skipped, fun name' value' ha' => ?_,
              fun _ hn => absurd ha (hn _ _)⟩
            obtain ⟨rfl, rfl⟩ := huniq name' value' ha'
            exact ⟨hu, hz, fun hc' => absurd hc' (by simp [hc]), fun _ => h⟩
          · rintro ⟨-, h, -⟩
            exact (h name value ha).2.2.2 hc

end Files

/-- The line `A_B = 1`. -/
def underscoreLine : Bytes := text "A_B = 1\n"

theorem underscoreLine_assigns : Assigns underscoreLine (text "A_B") (text "1") :=
  ⟨[], text " ", text " 1\n", by decide, fun _ h => absurd h List.not_mem_nil,
    by decide +kernel,
    ⟨⟨65, by decide +kernel, by decide⟩, by decide +kernel⟩, by decide +kernel⟩

end LsvmTools.Conf
