import Quasicode.Proofs.FreshProgram
import Quasicode.Proofs.ReadProgram
import Quasicode.Token.Scan

/-!
Where the tokens of a source lie. No piece takes more characters than there are, but for a string that is never closed,
which takes one more; so everything that is scanned or reported lies within two places of the end of the source. The end
of the file is scanned once, as the last token.
-/
namespace Quasicode

namespace Scan

variable {file pos quote bound : Nat} {c : Char} {cs : List Char}

/-! ## Lengths of pieces -/

theorem lineCommentLength_le (cs : List Char) : lineCommentLength cs ≤ cs.length := by
  fun_induction lineCommentLength cs with
  | case1 => simp
  | case2 cs ih =>
    simp only [List.length_cons]
    omega
  | case3 c cs => simp
  | case4 c cs _ _ ih =>
    simp only [List.length_cons]
    omega

theorem blockCommentLength_le (depth : Nat) (cs : List Char) : (blockCommentLength depth cs).1 ≤ cs.length := by
  fun_induction blockCommentLength depth cs with
  | case1 => simp
  | case2 cs => simp
  | case3 cs outer length closed found ih =>
    simp only [List.length_cons, found] at ih ⊢
    omega
  | case4 depth cs length closed found ih =>
    simp only [List.length_cons, found] at ih ⊢
    omega
  | case5 depth c cs _ _ length closed found ih =>
    simp only [List.length_cons, found] at ih ⊢
    omega

theorem takeWhile_length_le (p : Char → Bool) (cs : List Char) : (cs.takeWhile p).length ≤ cs.length :=
  (List.takeWhile_prefix p).length_le

/-- What lies between tokens takes at least one character and no more than there are, and what
is wrong with it lies there. -/
theorem gap_within {gap : Gap} (found : gap? file pos c cs = some gap) (enough : pos + cs.length + 1 ≤ bound) :
    1 ≤ gap.length ∧ gap.length ≤ cs.length + 1 ∧ ∀ d ∈ gap.problems, pos ≤ d.span.start ∧ d.span.Within bound := by
  unfold gap? at found
  have blanks := takeWhile_length_le isBlank cs
  split at found
  · cases found
    simp
  split at found
  · extract_lets count at found
    split at found
    · cases found
      exact ⟨by simp only; omega, by simp only [count]; omega, by simp⟩
    next next rest here =>
      have some : count < cs.length := by
        have length := congrArg List.length here
        simp only [List.length_drop, List.length_cons] at length
        omega
      split at found
      · cases found
        exact ⟨by simp only; omega, by simp only; omega, by simp⟩
      · cases found
        simp only [List.mem_singleton, forall_eq, Span.Within]
        omega
  split at found
  · split at found
    next rest =>
      have short := lineCommentLength_le ('/' :: rest)
      cases found
      exact ⟨Nat.le_add_right 1 _, Nat.add_comm _ 1 ▸ Nat.add_le_add_right short 1, by simp⟩
    next rest =>
      have short := blockCommentLength_le 0 rest
      cases found
      simp only [List.length_cons] at enough ⊢
      refine ⟨by omega, by omega, ?_⟩
      split
      · simp
      · simp only [List.mem_singleton, forall_eq, Span.Within]
        omega
    · cases found
  · cases found

theorem lt_of_newline {blanks : Nat} (joined : (isBlank c && decide ((cs.drop blanks).head? = some '\n')) = true) :
    blanks < cs.length := by
  simp only [Bool.and_eq_true, decide_eq_true_eq] at joined
  apply Nat.lt_of_not_le
  intro less
  rw [List.drop_eq_nil_of_le less] at joined
  cases joined.2

/-- The body of a string takes at most one character more than there are, and what is wrong with it lies there. -/
theorem stringBody_within (start : quote + 1 ≤ bound) (order : quote ≤ pos) (enough : pos + cs.length ≤ bound) :
    (stringBody file quote pos cs).length ≤ cs.length + 1 ∧
      ∀ d ∈ (stringBody file quote pos cs).problems, quote ≤ d.span.start ∧ d.span.Within bound := by
  fun_induction stringBody file quote pos cs with
  | case1 => simpa [Span.Within] using by omega
  | case2 => simp
  | case3 pos ih =>
    simp only [StringBody.after, List.length_cons, List.length_nil, List.singleton_append,
      List.forall_mem_cons, Span.Within] at *
    have rest := ih (by omega) (by omega)
    exact ⟨by omega, by omega, rest.2⟩
  | case4 pos c cs values _ ih =>
    simp only [StringBody.after, List.length_cons, List.nil_append] at *
    have rest := ih (by omega) (by omega)
    exact ⟨by omega, rest.2⟩
  | case5 pos c cs _ blanks joined ih =>
    have some := lt_of_newline joined
    simp only [StringBody.after, List.length_cons, List.length_drop, List.nil_append] at *
    have rest := ih (by omega) (by omega)
    exact ⟨by omega, rest.2⟩
  | case6 pos c cs _ blanks _ ih =>
    simp only [StringBody.after, List.length_cons, List.singleton_append, List.forall_mem_cons, Span.Within] at *
    have rest := ih (by omega) (by omega)
    exact ⟨by omega, by omega, rest.2⟩
  | case7 pos c cs _ _ _ ih =>
    simp only [StringBody.after, List.length_cons, List.nil_append] at *
    have rest := ih (by omega) (by omega)
    exact ⟨by omega, rest.2⟩

/-- The digits of a number, with a fraction or without, are no more than the characters there are. -/
theorem digits_length (c : Char) (cs : List Char) {fraction : List Char}
    (found : fraction = match cs.dropWhile Char.isDigit with
      | '.' :: after => after.takeWhile Char.isDigit
      | _ => []) :
    (if fraction.isEmpty then c :: cs.takeWhile Char.isDigit
      else c :: cs.takeWhile Char.isDigit ++ '.' :: fraction).length ≤ cs.length + 1 := by
  have whole : (cs.takeWhile Char.isDigit).length + (cs.dropWhile Char.isDigit).length = cs.length := by
    rw [← List.length_append, List.takeWhile_append_dropWhile]
  by_cases none : fraction.isEmpty
  · simp only [none, if_true, List.length_cons]
    omega
  · split at found
    next after here =>
      have tail := takeWhile_length_le Char.isDigit after
      rw [here, List.length_cons] at whole
      rw [if_neg none, List.length_append, List.length_cons, List.length_cons, found]
      omega
    · simp [found] at none

/-- A number takes no more characters than there are, and what is wrong with it lies there. -/
theorem number_within (enough : pos + cs.length + 1 ≤ bound) :
    (number file pos c cs).extra ≤ cs.length ∧ ∀ d ∈ (number file pos c cs).problems, pos ≤ d.span.start ∧
      d.span.Within bound := by
  unfold number
  extract_lets whole rest fraction text suffix extra double
  have short : text.length ≤ cs.length + 1 := digits_length c cs rfl
  have bounded : extra ≤ cs.length := by
    by_cases marked : suffix = some 'f' || suffix = some 'l'
    · have inside : text.length < (c :: cs).length := by
        apply Nat.lt_of_not_le
        intro outside
        have nothing : suffix = none := List.getElem?_eq_none outside
        simp [nothing] at marked
      have taken : extra = text.length := if_pos marked
      rw [List.length_cons] at inside
      omega
    · have taken : extra = text.length - 1 := if_neg marked
      omega
  clear_value extra
  split
  · exact ⟨bounded, by simp⟩
  split
  · exact ⟨bounded, by simp⟩
  split
  · exact ⟨bounded, by simp⟩
  · refine ⟨bounded, ?_⟩
    simp only [List.mem_singleton, forall_eq]
    exact ⟨by omega, by simp only; omega, by simp only; omega⟩

/-- A token takes no more characters than there are, and a string that is never closed one more. -/
theorem lexeme_within (enough : pos + cs.length + 1 ≤ bound) :
    (lexeme file pos c cs).extra ≤ cs.length + 1 ∧ ∀ d ∈ (lexeme file pos c cs).problems, pos ≤ d.span.start ∧
      d.span.Within bound := by
  unfold lexeme
  split
  · exact ⟨Nat.le_succ_of_le (takeWhile_length_le continuesName cs), by simp [word]⟩
  split
  · exact (number_within enough).imp_left Nat.le_succ_of_le
  split
  · exact stringBody_within (by omega) (by omega) (by omega)
  split
  · simp
  split
  next here =>
    obtain ⟨rest, rfl⟩ := List.head?_eq_some_iff.mp here
    simp
  · split
    · simp
    · simp only [List.mem_singleton, forall_eq, Span.Within]
      omega

/-! ## The whole source -/

/-- What has been scanned lies within the bound, no token after the place that scanning has come
to and no report before `start`. -/
structure Body.Within (start bound : Nat) (body : Body) : Prop where
  tokens : ∀ token ∈ body.tokens, token.span.start ≤ token.span.stop ∧ token.span.stop ≤ body.finish
  problems : ∀ d ∈ body.problems, start ≤ d.span.start ∧ d.span.Within bound
  start : start ≤ body.finish
  finish : body.finish ≤ bound

theorem body_within (here : pos ≤ bound) (enough : cs ≠ [] → pos + cs.length + 1 ≤ bound) :
    (body file pos cs).Within pos bound := by
  fun_induction body file pos cs with
  | case1 pos => exact ⟨by simp, by simp, Nat.le_refl _, here⟩
  | case2 pos c cs gap found ih =>
    have enough := enough (by simp)
    rw [List.length_cons, ← Nat.add_assoc] at enough
    obtain ⟨least, most, reported⟩ := gap_within found (Nat.le_of_succ_le enough)
    obtain ⟨tokens, problems, start, finish⟩ := ih (by omega) fun _ => by
      simp only [List.length_drop]
      omega
    refine ⟨tokens, List.forall_mem_append.mpr ⟨reported, fun d inside => ?_⟩,
      Nat.le_trans (Nat.le_add_right ..) start, finish⟩
    exact (problems d inside).imp_left (Nat.le_trans (Nat.le_add_right ..))
  | case3 pos c cs _ piece stop token? ih =>
    have enough := enough (by simp)
    rw [List.length_cons, ← Nat.add_assoc] at enough
    obtain ⟨most, reported⟩ : piece.extra ≤ cs.length + 1 ∧ ∀ d ∈ piece.problems, _ :=
      lexeme_within (Nat.le_of_succ_le enough)
    have ends : stop = pos + 1 + piece.extra := rfl
    obtain ⟨tokens, problems, start, finish⟩ := ih (by omega) fun some => by
      have inside : piece.extra < cs.length := by
        apply Nat.lt_of_not_le
        intro outside
        exact some (List.drop_eq_nil_of_le outside)
      simp only [List.length_drop]
      omega
    refine ⟨List.forall_mem_append.mpr ⟨fun token inside => ?_, tokens⟩,
      List.forall_mem_append.mpr ⟨reported, fun d inside => (problems d inside).imp_left fun after => ?_⟩, ?_, finish⟩
    · obtain ⟨kind, _, rfl⟩ := Option.map_eq_some_iff.mp (Option.mem_toList.mp inside)
      exact ⟨by simp only; omega, start⟩
    · omega
    · exact Nat.le_trans (by omega) start

theorem lexeme_open {kind : TokenKind} (made : (lexeme file pos c cs).kind? = some kind) : kind ≠ .eof := by
  rintro rfl
  unfold lexeme at made
  split at made
  · simp only [word, Option.some.injEq] at made
    split at made <;> cases made
  split at made
  · unfold number at made
    grind
  split at made
  · obtain ⟨value, _, kind⟩ := Option.map_eq_some_iff.mp made
    cases kind
  split at made
  · cases made
  split at made
  · cases made
  split at made <;> cases made

theorem body_open : ∀ token ∈ (body file pos cs).tokens, token.kind ≠ .eof := by
  fun_induction body file pos cs with
  | case1 => simp
  | case2 pos c cs gap _ ih => exact ih
  | case3 pos c cs _ piece stop token? ih =>
    refine List.forall_mem_append.mpr ⟨fun token inside => ?_, ih⟩
    obtain ⟨kind, made, rfl⟩ := Option.map_eq_some_iff.mp (Option.mem_toList.mp inside)
    exact lexeme_open made

end Scan

/-- Everything that scanning yields lies within two places of the end of the source. -/
theorem scan_within (source : String) (file : Nat) :
      (∀ token ∈ (scan source file).tokens, token.span.Within (source.length + 2)) ∧
      ∀ d ∈ (scan source file).problems, d.span.Within (source.length + 2) := by
  have body : (Scan.body file 0 source.toList).Within 0 (source.length + 1) :=
    Scan.body_within (Nat.zero_le _) fun _ => by simp [String.length_toList]
  have wider {span : Span} (within : span.Within (source.length + 1)) : span.Within (source.length + 2) :=
    ⟨Nat.le_succ_of_le within.1, Nat.le_succ_of_le within.2⟩
  have ending : Span.Within (source.length + 2)
      ⟨(Scan.body file 0 source.toList).finish, (Scan.body file 0 source.toList).finish + 1, file⟩ :=
    ⟨Nat.le_succ_of_le body.finish, Nat.succ_le_succ body.finish⟩
  refine ⟨?_, fun d inside => wider (body.problems d inside).2⟩
  simp only [scan, Scan.close, List.forall_mem_append]
  refine ⟨⟨fun token inside => ?_, ?_⟩, ?_⟩
  · obtain ⟨forward, before⟩ := body.tokens token inside
    have finish := body.finish
    exact ⟨by omega, by omega⟩
  · split
    · simp
    · simpa using ending
  · simpa [Token.eof] using ending

end Quasicode
