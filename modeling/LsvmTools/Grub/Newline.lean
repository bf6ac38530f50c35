import LsvmTools.Grub.Scan

/-! # The last line

`_Parse` puts out a command when it comes to a newline or a semicolon, not at the end of the
text. The commands of a text and of the text with a newline behind it are compared. -/
namespace LsvmTools.Grub.Newline
open Lib.ByteString Lib.Program Strings Config Scan

/-- The newline does not matter. -/
structure Insensitive (text : Bytes) : Prop where
  commands : parse text = parse (text ++ [newline])
  initrd : ∀ pathMax, grubCfgFindInitrd pathMax text = grubCfgFindInitrd pathMax (text ++ [newline])

/-! ## One token -/

variable {text rest tok : Bytes}

theorem isspace_newline : (isspace newline || newline = semicolon) = true := by decide

theorem argument_append {q : Option UInt8} (h : argument q text = .ok (tok, rest))
    (hq : (scan text ⟨modeOf q, true⟩).mode.inQuote = false) :
    argument q (text ++ [newline]) = .ok (tok, rest ++ [newline]) := by
  fun_induction argument q text generalizing tok with
  | case1 q =>
    injection h with h
    injection h with ht hr
    subst ht
    subst hr
    cases q with
    | none =>
      rw [List.nil_append, argument, if_pos isspace_newline]
      rfl
    | some c => cases hq
  | case2 p text hs =>
    injection h with h
    injection h with ht hr
    subst ht
    subst hr
    rw [List.cons_append, argument, if_pos hs]
    rfl
  | case3 p text hs hq' ih =>
    rw [List.cons_append, argument, if_neg hs, if_pos hq']
    refine ih h ?_
    rw [Bool.not_eq_true] at hs
    rw [scan_cons, modeOf, step_word hs, enter, if_pos hq'] at hq
    exact hq
  | case4 p text hs hq' ih =>
    obtain ⟨tok', h', rfl⟩ := prepend_ok h
    rw [List.cons_append, argument, if_neg hs, if_neg hq', ih h' ?_]
    · rfl
    · rw [Bool.not_eq_true] at hs
      rw [scan_cons, modeOf, step_word hs, enter, if_neg hq'] at hq
      exact hq
  | case5 p text ih =>
    rw [List.cons_append, argument.eq_def]
    dsimp only
    rw [if_pos rfl]
    refine ih h ?_
    rw [scan_cons, modeOf, step_close] at hq
    exact hq
  | case6 => cases h
  | case7 c p text hc ih =>
    obtain ⟨tok', h', rfl⟩ := prepend_ok h
    rw [List.cons_append, List.cons_append, argument.eq_def]
    dsimp only
    rw [if_neg hc, if_pos rfl, ih h' ?_]
    · rfl
    · rw [scan_cons, scan_cons, modeOf, step_escape hc] at hq
      exact hq
  | case8 c p text hc hb ih =>
    obtain ⟨tok', h', rfl⟩ := prepend_ok h
    rw [List.cons_append, argument.eq_def]
    dsimp only
    rw [if_neg hc, if_neg hb, ih h' ?_]
    · rfl
    · rw [scan_cons, modeOf, step_quoted hc hb] at hq
      exact hq

theorem dropWhile_append_newline (p : UInt8 → Bool) (hp : p newline = false) (text : Bytes) :
    (text ++ [newline]).dropWhile p = text.dropWhile p ++ [newline] := by
  induction text with
  | nil => rw [List.nil_append, List.dropWhile_cons, hp]; rfl
  | cons c text ih =>
    rw [List.cons_append, List.dropWhile_cons, List.dropWhile_cons]
    split
    · exact ih
    · rfl

theorem skipBlank_append (text : Bytes) :
    skipBlank (text ++ [newline]) = skipBlank text ++ [newline] := by
  rw [skipBlank, skipBlank, dropWhile_append_newline _ (by decide)]
  cases text.dropWhile fun c => isspace c && c ≠ newline with
  | nil => rfl
  | cons c rest =>
    rw [List.cons_append, List.head?_cons, List.head?_cons]
    split
    · rw [← List.cons_append]
      exact dropWhile_append_newline _ (by decide) _
    · rfl

/-- A token of the text is a token of the longer text. -/
theorem getToken_append {tok : Token} (h : getToken text = .ok (tok, rest)) (hne : tok ≠ .eof)
    {pending : Bool} (hq : (scan text ⟨.between, pending⟩).mode.inQuote = false) :
    getToken (text ++ [newline]) = .ok (tok, rest ++ [newline]) := by
  have hskip' := skipBlank_append text
  cases getToken_call text with
  | eof _ hcall =>
    rw [hcall] at h
    injection h with h
    injection h with ht _
    exact absurd ht.symm hne
  | newline hskip hcall | semicolon hskip hcall =>
    rw [hcall] at h
    injection h with h
    injection h with ht hr
    rw [hskip, List.cons_append] at hskip'
    rw [getToken, hskip', ← ht, ← hr]
    rfl
  | @word c r hskip hstop hhash hcall =>
    rw [hcall] at h
    obtain ⟨⟨w, r'⟩, ha, h⟩ := Out.bind_eq_ok.mp h
    injection h with h
    injection h with ht hr
    rw [((skipBlank_blank text pending).next c r hskip).1, hskip, scan_enter hstop hhash] at hq
    obtain ⟨hend, -⟩ := not_stop hstop
    rw [isEnd, Bool.or_eq_false_iff, decide_eq_false_iff_not, decide_eq_false_iff_not] at hend
    rw [hskip, List.cons_append] at hskip'
    rw [getToken, hskip']
    dsimp only
    rw [if_neg hend.1, if_neg hend.2, ← List.cons_append, argument_append ha hq, Out.ok_bind, ← ht,
      ← hr]
    rfl

/-- At the end of the text the newline is found. -/
theorem getToken_last (h : getToken text = .ok (.eof, rest)) :
    getToken (text ++ [newline]) = .ok (.newline, []) := by
  cases getToken_call text with
  | eof hskip hcall =>
    rw [getToken, skipBlank_append, hskip]
    rfl
  | newline _ hcall | semicolon _ hcall =>
    rw [hcall] at h
    cases h
  | word _ _ _ hcall =>
    rw [hcall] at h
    obtain ⟨r, -, h⟩ := Out.bind_eq_ok.mp h
    cases h

/-! ## All commands -/

theorem command_eq_nil {lineno : Nat} {line : List Bytes} : command lineno line = [] ↔ line = [] := by
  rw [command]
  split
  · rename_i h
    exact ⟨fun _ => h, fun _ => rfl⟩
  · rename_i h
    exact ⟨fun he => (by cases he), fun he => absurd he h⟩

/-- With a newline behind it the text has the same commands, and one more where words are
waiting. -/
theorem parseFrom_append {fuel : Nat} {line : List Bytes} {lineno : Nat}
    (hf : text.length < fuel) {pending : Bool}
    (hq : (scan text ⟨.between, pending⟩).mode.inQuote = false)
    (hline : line = [] ↔ pending = false) :
    ∃ commands last, parseFrom fuel text line lineno = .ok commands ∧
      parseFrom (fuel + 1) (text ++ [newline]) line lineno = .ok (commands ++ last) ∧
      (last = [] ↔ (scan text ⟨.between, pending⟩).pending = false) := by
  induction fuel generalizing text line lineno pending with
  | zero => omega
  | succ fuel ih =>
    cases hcall : getToken text with
    | err e => exact absurd hcall (getToken_ne_err text)
    | stuck =>
      have he := getToken_stuck hcall pending
      cases hm : (scan text ⟨.between, pending⟩).mode with
      | escaped c =>
        rw [hm] at hq
        cases hq
      | between | comment | word | quoted =>
        rw [hm] at he
        cases he
    | ok r =>
      obtain ⟨tok, rest⟩ := r
      have ht := getToken_taken hcall pending
      have hclosed := ht.closed hq
      rw [ht.waits]
      rw [parseFrom, parseFrom, hcall, Out.ok_bind]
      cases tok with
      | eof =>
        refine ⟨[], command lineno line, rfl, ?_, ?_⟩
        · have hend : parseFrom (fuel + 1) [] [] (lineno + 1) = .ok [] := rfl
          rw [getToken_last hcall, Out.ok_bind]
          dsimp only
          rw [hend, Out.ok_bind, List.append_nil]
          rfl
        · rw [ht.eof rfl]
          exact command_eq_nil.trans hline
      | newline =>
        have hlt := ht.shorter (by decide)
        obtain ⟨commands, last, h1, h2, h3⟩ := ih
          (by omega) hclosed (iff_of_true rfl rfl)
        refine ⟨command lineno line ++ commands, last, ?_, ?_, h3⟩
        · dsimp only
          rw [h1]
          rfl
        · rw [getToken_append hcall (by decide) hq, Out.ok_bind]
          dsimp only
          rw [h2, List.append_assoc]
          rfl
      | semicolon =>
        have hlt := ht.shorter (by decide)
        obtain ⟨commands, last, h1, h2, h3⟩ := ih
          (by omega) hclosed (iff_of_true rfl rfl)
        refine ⟨command lineno line ++ commands, last, ?_, ?_, h3⟩
        · dsimp only
          rw [h1]
          rfl
        · rw [getToken_append hcall (by decide) hq, Out.ok_bind]
          dsimp only
          rw [h2, List.append_assoc]
          rfl
      | word w =>
        have hlt := ht.shorter (fun he => by cases he)
        have hline' : line ++ [w] = [] ↔ pendingAfter pending (.word w) = false :=
          iff_of_false (by simp) (by simp [pendingAfter])
        obtain ⟨commands, last, h1, h2, h3⟩ := ih (by omega) hclosed hline'
        refine ⟨commands, last, h1, ?_, h3⟩
        rw [getToken_append hcall (fun he => by cases he) hq, Out.ok_bind]
        exact h2

/-- What `_Parse` delivers for the text and for the text with a newline behind it. -/
theorem parse_append (hq : (final text).mode.inQuote = false) :
    ∃ commands last, parse text = .ok commands ∧
      parse (text ++ [newline]) = .ok (commands ++ last) ∧
      (last = [] ↔ (final text).pending = false) := by
  have h := @parseFrom_append text (text.length + 1) [] 1 (Nat.lt_succ_self _) false hq
    (iff_of_true rfl rfl)
  rw [parse, parse, List.length_append]
  exact h

/-- Words that wait for the end of their command are lost at the end of the text. -/
theorem Insensitive.settled (h : Insensitive text) (hq : (final text).mode.inQuote = false) :
    (final text).pending = false := by
  obtain ⟨commands, last, h1, h2, h3⟩ := parse_append hq
  have hsame := h.commands
  rw [h1, h2] at hsame
  injection hsame with hsame
  exact h3.mp (List.self_eq_append_right.mp hsame)

/-- A menu whose last line is complete. -/
def menu : CStr :=
  ⟨Strings.text "menuentry a \x7b\x0a initrd /b\x0a\x7d\x0a# end", by decide +kernel⟩

end LsvmTools.Grub.Newline
