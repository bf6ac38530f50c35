import LsvmTools.Lib.Inclusion
import LsvmTools.PolicyFile

/-! # What is read of policy files

The files with their includes are `Sources`, once with the lines as they are and once with the
pieces that `fgets` delivers. `_ReadFile` splices the pieces, with directives in between. It
ends unless a file that it comes to includes itself in a roundabout way. -/
namespace LsvmTools.PolicyReading
open Relation
open Lib.ByteString Lib.Program Lib.Loop Lib.Lines Lib.Inclusion Strings MeasurePolicy PolicyFile
open Grub.Config (newline hash)

/-! ## Lines and pieces -/

/-- The lines of a file, with their newlines. -/
def textLines (is : Bytes) : List Bytes := lines newline is

/-- What a line stands for when the files are read. -/
def target (buf : Bytes) : Target Bytes :=
  if startsWith (cstr buf) "#include" then
    match parseIncludeDirective (cstr buf) with
    | none => .bad
    | some filename => .file filename
  else .plain

def lineSources (files : Files) : Sources Bytes Bytes where
  contents p := (fopen files p).map textLines
  target := target

def pieceSources (files : Files) : Sources Bytes Bytes where
  contents p := (fopen files p).map fgetsAll
  target := target

/-- No line of the file, with its newline, is too long for the array of `fgets`. -/
def ShortLines (is : Bytes) : Prop := ∀ l ∈ textLines is, l.length < maxLine

theorem fgetsAll_eq {is : Bytes} (h : ShortLines is) : fgetsAll is = textLines is :=
  chop_eq (by decide) fun l hl => Nat.le_of_lt_succ (h l hl)

/-! ## Reading the files -/

/-- The directives that say where a file goes on, from line `line` of it. -/
def resumes (path : Bytes) : Nat → List Bytes → List Bytes
  | _, [] => []
  | line, buf :: rest =>
    if startsWith (cstr buf) "#include" then
      lineDirective (line + 1) path :: resumes path (line + 1) rest
    else resumes path (line + 1) rest

/-- The directives that are put in for a file. -/
def marks (path is : Bytes) : List Bytes :=
  lineDirective 1 path :: resumes path 1 (fgetsAll is)

def Marked (files : Files) (path d : Bytes) : Prop :=
  ∃ is, fopen files path = some is ∧ d ∈ marks path is

/-- A string that `LoadPolicy` makes an entry of. -/
def entryLine (l : Bytes) : Bool := l.head? ≠ some hash

section Read

variable {files : Files} {call : Bytes → Exec Unit (List Bytes)} {path filename buf is : Bytes}
  {line : Nat} {rest out strs : List Bytes}

theorem target_plain (h : target buf = .plain) : startsWith (cstr buf) "#include" = false := by
  unfold target at h
  split at h
  · split at h <;> cases h
  · exact Bool.eq_false_of_not_eq_true ‹_›

theorem target_file (h : target buf = .file filename) :
    startsWith (cstr buf) "#include" = true ∧
      parseIncludeDirective (cstr buf) = some filename := by
  unfold target at h
  split at h
  · refine ⟨‹_›, ?_⟩
    split at h
    · cases h
    · cases h
      assumption
  · cases h

theorem target_bad (h : target buf = .bad) :
    startsWith (cstr buf) "#include" = true ∧ parseIncludeDirective (cstr buf) = none := by
  unfold target at h
  split at h
  · refine ⟨‹_›, ?_⟩
    split at h
    · assumption
    · cases h
  · cases h

theorem readLines_plain (h : target buf = .plain) :
    readLines call path line (buf :: rest) = (do
      let more ← readLines call path (line + 1) rest
      pure (cstr buf :: more)) := by
  rw [readLines, target_plain h]
  rfl

theorem readLines_file (h : target buf = .file filename) :
    readLines call path line (buf :: rest) = (do
      let strs ← call filename
      let more ← readLines call path (line + 1) rest
      pure (strs ++ lineDirective (line + 1) path :: more)) := by
  obtain ⟨hs, hp⟩ := target_file h
  rw [readLines, hs, hp]
  rfl

theorem readLines_bad (h : target buf = .bad) :
    readLines call path line (buf :: rest) = Exec.throw () := by
  obtain ⟨hs, hp⟩ := target_bad h
  rw [readLines, hs, hp]
  rfl

theorem readFileBody_some (h : fopen files path = some is) :
    readFileBody call path files = (do
      let strs ← readLines call path 1 (fgetsAll is)
      pure (lineDirective 1 path :: strs)) := by
  rw [readFileBody, h]

theorem resumes_plain (h : target buf = .plain) :
    resumes path line (buf :: rest) = resumes path (line + 1) rest := by
  rw [resumes, target_plain h]
  rfl

theorem resumes_file (h : target buf = .file filename) :
    resumes path line (buf :: rest) =
      lineDirective (line + 1) path :: resumes path (line + 1) rest := by
  rw [resumes, (target_file h).1]
  rfl

theorem startsWith_head {l : Bytes} (h : startsWith l "#line" = true) : l.head? = some hash := by
  obtain ⟨rest, rfl⟩ := List.isPrefixOf_iff_prefix.mp h
  rfl

theorem lineDirective_line : startsWith (lineDirective line path) "#line" = true := by
  unfold startsWith lineDirective
  rfl

theorem lineDirective_not_entry : entryLine (lineDirective line path) = false := by
  simp [entryLine, startsWith_head lineDirective_line]

theorem cstr_head (l : Bytes) : (cstr l).head? = some hash ↔ l.head? = some hash := by
  cases l with
  | nil => rfl
  | cons c l =>
    unfold cstr
    by_cases hc : c = 0
    · subst hc
      simp [Grub.Config.hash]
    · simp [hc]

theorem entryLine_cstr (l : Bytes) : entryLine (cstr l) = entryLine l := by
  unfold entryLine
  rw [decide_eq_decide]
  exact not_congr (cstr_head l)

/-- The strings are the lines of the result and directives, and the lines keep their order. -/
structure Gathers (own : Bytes → Prop) (out strs : List Bytes) : Prop where
  entries : strs.filter entryLine = (out.map cstr).filter entryLine
  mem : ∀ d, d ∈ strs ↔ d ∈ out.map cstr ∨ own d

/-- The directives for a file and for the files it includes. -/
def FileMarks (files : Files) (path d : Bytes) : Prop :=
  ∃ q, (pieceSources files).Reaches path q ∧ Marked files q d

/-- The directives for lines of a file and for the files they include. -/
def LineMarks (files : Files) (path : Bytes) (line : Nat) (bufs : List Bytes) (d : Bytes) : Prop :=
  d ∈ resumes path line bufs ∨ ∃ buf ∈ bufs, ∃ q, target buf = .file q ∧ FileMarks files q d

theorem lineMarks_plain {d : Bytes} (h : target buf = .plain) :
    LineMarks files path line (buf :: rest) d ↔ LineMarks files path (line + 1) rest d := by
  simp only [LineMarks, resumes_plain h, List.mem_cons, exists_eq_or_imp, h, reduceCtorEq,
    false_and, exists_false, false_or]

theorem lineMarks_file {d : Bytes} (h : target buf = .file filename) :
    LineMarks files path line (buf :: rest) d ↔
      d = lineDirective (line + 1) path ∨ FileMarks files filename d ∨
        LineMarks files path (line + 1) rest d := by
  simp only [LineMarks, resumes_file h, List.mem_cons, exists_eq_or_imp, h, Target.file.injEq,
    exists_eq_left']
  tauto

theorem contents_eq (h : fopen files path = some is) :
    (pieceSources files).contents path = some (fgetsAll is) := by
  simp [pieceSources, h]

theorem fileMarks_iff {d : Bytes} (h : fopen files path = some is) :
    FileMarks files path d ↔
      d = lineDirective 1 path ∨ LineMarks files path 1 (fgetsAll is) d := by
  constructor
  · rintro ⟨q, hr, is', hq, hd⟩
    rcases hr.cases_head with rfl | ⟨r, ⟨ls, hp, buf, hm, ht⟩, hr⟩
    · rw [h] at hq
      cases hq
      rcases List.mem_cons.mp hd with rfl | hd
      · exact .inl rfl
      · exact .inr (.inl hd)
    · rw [contents_eq h] at hp
      cases hp
      exact .inr (.inr ⟨buf, hm, r, ht, q, hr, is', hq, hd⟩)
  · rintro (rfl | hd | ⟨buf, hm, r, ht, q, hr, hd⟩)
    · exact ⟨path, .refl, is, h, List.mem_cons_self ..⟩
    · exact ⟨path, .refl, is, h, List.mem_cons_of_mem _ hd⟩
    · exact ⟨q, .head ⟨_, contents_eq h, buf, hm, ht⟩ hr, hd⟩

theorem Gathers.plain (h : Gathers (LineMarks files path (line + 1) rest) out strs)
    (ht : target buf = .plain) :
    Gathers (LineMarks files path line (buf :: rest)) (buf :: out) (cstr buf :: strs) where
  entries := by
    rw [List.map_cons, List.filter_cons, List.filter_cons, h.entries]
  mem d := by
    rw [List.mem_cons, h.mem d, List.map_cons, List.mem_cons, lineMarks_plain ht]
    tauto

theorem Gathers.file {inner innerStrs : List Bytes} (ht : target buf = .file filename)
    (hin : Gathers (FileMarks files filename) inner innerStrs)
    (h : Gathers (LineMarks files path (line + 1) rest) out strs) :
    Gathers (LineMarks files path line (buf :: rest)) (inner ++ out)
      (innerStrs ++ lineDirective (line + 1) path :: strs) where
  entries := by
    rw [List.filter_append, List.filter_cons_of_neg (by simp [lineDirective_not_entry]),
      hin.entries, h.entries, ← List.filter_append, List.map_append]
  mem d := by
    rw [List.mem_append, List.mem_cons, hin.mem d, h.mem d, List.map_append, List.mem_append,
      lineMarks_file ht]
    tauto

theorem Gathers.whole (hf : fopen files path = some is)
    (h : Gathers (LineMarks files path 1 (fgetsAll is)) out strs) :
    Gathers (FileMarks files path) out (lineDirective 1 path :: strs) where
  entries := by
    rw [List.filter_cons_of_neg (by simp [lineDirective_not_entry]), h.entries]
  mem d := by
    rw [List.mem_cons, h.mem d, fileMarks_iff hf]
    tauto

theorem fopen_of_contents {ls : List Bytes} (h : (pieceSources files).contents path = some ls) :
    ∃ is, fopen files path = some is ∧ fgetsAll is = ls :=
  Option.map_eq_some_iff.mp h

/-- Reading a file is reading its lines. -/
theorem readFile_ends {r : Out Unit (List Bytes)} :
    (readFile files path).Ends r ↔ (readFileBody (readFile files) path files).Ends r :=
  Exec.ends_recursion

theorem readFile_ok {inner : List Bytes} (hf : fopen files path = some is)
    (h : (readLines (readFile files) path 1 (fgetsAll is)).Ends (.ok inner)) :
    (readFile files path).Ends (.ok (lineDirective 1 path :: inner)) := by
  rw [readFile_ends, readFileBody_some hf]
  exact h.bind (Exec.ends_pure.mpr rfl)

/-- Lines that can be spliced are read, and the strings are those of the result. -/
theorem readLines_of_spliced {ls : List Bytes} (h : (pieceSources files).Spliced ls out)
    (path : Bytes) (line : Nat) :
    ∃ strs, (readLines (readFile files) path line ls).Ends (.ok strs) ∧
      Gathers (LineMarks files path line ls) out strs := by
  induction h generalizing path line with
  | nil =>
    refine ⟨[], Exec.ends_pure.mpr rfl, rfl, fun d => ?_⟩
    simp [LineMarks, resumes]
  | plain ht _ ih =>
    obtain ⟨strs, hr, hg⟩ := ih path (line + 1)
    refine ⟨_, ?_, hg.plain ht⟩
    rw [readLines_plain ht]
    exact hr.bind (Exec.ends_pure.mpr rfl)
  | @file buf filename ls _ _ _ ht hq _ _ ihin ih =>
    obtain ⟨is, hf, rfl⟩ := fopen_of_contents hq
    obtain ⟨inner, hin, hgin⟩ := ihin filename 1
    obtain ⟨strs, hr, hg⟩ := ih path (line + 1)
    refine ⟨_, ?_, Gathers.file ht (hgin.whole hf) hg⟩
    rw [readLines_file ht]
    exact (readFile_ok hf hin).bind (hr.bind (Exec.ends_pure.mpr rfl))

theorem readFile_of_spliced (h : (pieceSources files).SplicedFile path out) :
    ∃ strs, (readFile files path).Ends (.ok strs) ∧ Gathers (FileMarks files path) out strs := by
  obtain ⟨ls, hp, hs⟩ := h
  obtain ⟨is, hf, rfl⟩ := fopen_of_contents hp
  obtain ⟨strs, hr, hg⟩ := readLines_of_spliced hs path 1
  exact ⟨_, readFile_ok hf hr, hg.whole hf⟩

/-- What is read can be spliced, where that is so of the files that are called for. -/
theorem spliced_of_readLines
    (hcall : ∀ q strs, (call q).Ends (.ok strs) → ∃ out, (pieceSources files).SplicedFile q out)
    (h : (readLines call path line rest).Ends (.ok strs)) :
    ∃ out, (pieceSources files).Spliced rest out := by
  induction rest generalizing line strs with
  | nil => exact ⟨[], .nil⟩
  | cons buf rest ih =>
    cases ht : target buf with
    | plain =>
      rw [readLines_plain ht] at h
      obtain ⟨more, hmore, -⟩ := Exec.ends_bind_ok.mp h
      obtain ⟨out, hout⟩ := ih hmore
      exact ⟨_, .plain ht hout⟩
    | bad =>
      rw [readLines_bad ht] at h
      cases Exec.ends_of.mp h
    | file filename =>
      rw [readLines_file ht] at h
      obtain ⟨inner, hin, h⟩ := Exec.ends_bind_ok.mp h
      obtain ⟨more, hmore, -⟩ := Exec.ends_bind_ok.mp h
      obtain ⟨out, ls, hq, hs⟩ := hcall filename inner hin
      obtain ⟨out', hout'⟩ := ih hmore
      exact ⟨_, .file ht hq hs hout'⟩

theorem spliced_of_body
    (hcall : ∀ q strs, (call q).Ends (.ok strs) → ∃ out, (pieceSources files).SplicedFile q out)
    (h : (readFileBody call path files).Ends (.ok strs)) :
    ∃ out, (pieceSources files).SplicedFile path out := by
  cases hf : fopen files path with
  | none =>
    rw [readFileBody, hf] at h
    cases Exec.ends_of.mp h
  | some is =>
    rw [readFileBody_some hf] at h
    obtain ⟨inner, hin, -⟩ := Exec.ends_bind_ok.mp h
    obtain ⟨out, hout⟩ := spliced_of_readLines hcall hin
    exact ⟨out, _, contents_eq hf, hout⟩

theorem spliced_of_readFile (h : (readFile files path).Ends (.ok strs)) :
    ∃ out, (pieceSources files).SplicedFile path out := by
  let P (q : Bytes) (r : Out Unit (List Bytes)) : Prop :=
    ∀ strs, r = .ok strs → ∃ out, (pieceSources files).SplicedFile q out
  have hP : P path (.ok strs) := by
    refine Exec.recursion_induct (fun call hcall q r hr strs hstrs => ?_) h
    subst hstrs
    exact spliced_of_body (fun q' strs' hq => (hcall q' _ hq).2 strs' rfl) hr
  exact hP strs rfl

/-- The strings of a file that is read are those of the spliced file. -/
theorem readFile_gathers (h : (readFile files path).Ends (.ok strs)) :
    ∃ out, (pieceSources files).SplicedFile path out ∧ Gathers (FileMarks files path) out strs := by
  obtain ⟨out, hout⟩ := spliced_of_readFile h
  obtain ⟨strs', hr, hg⟩ := readFile_of_spliced hout
  cases Exec.Ends.unique hr h
  exact ⟨out, hout, hg⟩

/-! ## Coming to an end -/

theorem ends_of_bind {α β : Type} {m : Exec Unit α} {k : α → Exec Unit β} {r : Out Unit β}
    (h : (m >>= k).Ends r) : ∃ r', m.Ends r' := by
  rcases Exec.ends_bind.mp h with ⟨a, ha, -⟩ | ⟨e, he, -⟩ | ⟨hs, -⟩
  · exact ⟨_, ha⟩
  · exact ⟨_, he⟩
  · exact ⟨_, hs⟩

/-- What comes behind lines that can be spliced is come to. -/
theorem readLines_comes_to {front : List Bytes} {r : Out Unit (List Bytes)}
    (hcall : ∀ q r, (call q).Ends r → (readFile files q).Ends r)
    (hs : (pieceSources files).Spliced front out) (ht : target buf = .file filename)
    (h : (readLines call path line (front ++ buf :: rest)).Ends r) :
    ∃ r', (call filename).Ends r' := by
  generalize hfront : front = ls at hs
  subst hfront
  induction hs generalizing line r with
  | nil =>
    rw [List.nil_append, readLines_file ht] at h
    exact ends_of_bind h
  | plain hp _ ih =>
    rw [List.cons_append, readLines_plain hp] at h
    obtain ⟨r', h⟩ := ends_of_bind h
    exact ih h
  | file hq hc hin _ _ ih =>
    rw [List.cons_append, readLines_file hq] at h
    obtain ⟨strs, hstrs, -⟩ := readFile_of_spliced ⟨_, hc, hin⟩
    rcases Exec.ends_bind.mp h with ⟨a, -, h⟩ | ⟨e, he, -⟩ | ⟨he, -⟩
    · obtain ⟨r', h⟩ := ends_of_bind h
      exact ih h
    · cases (hcall _ _ he).unique hstrs
    · cases (hcall _ _ he).unique hstrs

theorem acc_of_ends {r : Out Unit (List Bytes)} (h : (readFile files path).Ends r) :
    Acc (flip (pieceSources files).Visits) path := by
  refine Exec.recursion_induct (P := fun q _ => Acc (flip (pieceSources files).Visits) q)
    (fun call hcall q r hr => ⟨_, fun q' hv => ?_⟩) h
  obtain ⟨front, buf, rest, out, hc, ht, hs⟩ := hv
  obtain ⟨is, hf, his⟩ := fopen_of_contents hc
  rw [readFileBody_some hf, his] at hr
  obtain ⟨r', hr⟩ := ends_of_bind hr
  obtain ⟨r'', hq⟩ := readLines_comes_to (fun q r h => (hcall q r h).1) hs ht hr
  exact (hcall q' r'' hq).2

/-- Reading lines ends where reading each file that is come to does. -/
theorem readLines_terminates {ls : List Bytes}
    (h : ∀ front buf rest out q, ls = front ++ buf :: rest → target buf = .file q →
      (pieceSources files).Spliced front out → (readFile files q).Terminates) :
    (readLines (readFile files) path line ls).Terminates := by
  induction ls generalizing line with
  | nil => exact Exec.terminates_of _
  | cons buf rest ih =>
    cases ht : target buf with
    | plain =>
      rw [readLines_plain ht]
      refine Exec.Terminates.bind (ih fun front b rest' out q hls hq hs => ?_) fun more _ =>
        Exec.terminates_of _
      exact h (buf :: front) b rest' (buf :: out) q (by rw [hls]; rfl) hq (.plain ht hs)
    | bad =>
      rw [readLines_bad ht]
      exact Exec.terminates_of _
    | file filename =>
      rw [readLines_file ht]
      refine Exec.Terminates.bind (h [] buf rest [] filename rfl ht .nil) fun strs hstrs => ?_
      obtain ⟨inner, ls', hc, hin⟩ := spliced_of_readFile hstrs
      refine Exec.Terminates.bind (ih fun front b rest' out q hls hq hs => ?_) fun more _ =>
        Exec.terminates_of _
      exact h (buf :: front) b rest' (inner ++ out) q (by rw [hls]; rfl) hq (.file ht hc hin hs)

theorem terminates_of_acc (h : Acc (flip (pieceSources files).Visits) path) :
    (readFile files path).Terminates := by
  induction h with
  | intro path _ ih =>
    have hbody : (readFileBody (readFile files) path files).Terminates := by
      cases hf : fopen files path with
      | none =>
        rw [readFileBody, hf]
        exact Exec.terminates_of _
      | some is =>
        rw [readFileBody_some hf]
        refine Exec.Terminates.bind ?_ fun strs _ => Exec.terminates_of _
        refine readLines_terminates fun front buf rest out q hls ht hs => ih q ?_
        exact ⟨front, buf, rest, out, by rw [contents_eq hf, hls], ht, hs⟩
    obtain ⟨r, hr⟩ := hbody
    exact ⟨r, readFile_ends.mpr hr⟩

theorem finite_files (files : Files) : {p | (pieceSources files).contents p ≠ none}.Finite := by
  refine (List.finite_toSet (files.map Prod.fst)).subset fun p hp => ?_
  by_contra hm
  refine hp ?_
  have : files.lookup p = none := List.lookup_eq_none_iff.mpr fun x hx => by
    simp only [bne_iff_ne, ne_eq]
    rintro rfl
    exact hm (List.mem_map_of_mem hx)
  simp [pieceSources, fopen, this]

/-- Reading ends where no file that is come to comes back to itself. -/
theorem readFile_terminates_iff : (readFile files path).Terminates ↔
    ∀ q, ReflTransGen (pieceSources files).Visits path q →
      ¬ TransGen (pieceSources files).Visits q q := by
  rw [← acc_iff_no_cycle (Sources.finite_visits (finite_files files))]
  constructor
  · rintro ⟨r, h⟩
    exact acc_of_ends h
  · intro h
    exact terminates_of_acc h

end Read

end LsvmTools.PolicyReading
