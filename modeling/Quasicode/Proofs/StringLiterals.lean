import Quasicode.Proofs.ScanTiling

/-!
String literals. A literal is written as a sequence of segments between two quotes, and its value is put together from
theirs. Every value can be written, with an escape for each character that has one.
-/
namespace Quasicode

namespace Scan

variable {file pos quote : Nat}

/-- What may follow a backslash, with the character that both together stand for. -/
def escapes : List (Char × Char) := [('\\', '\\'), ('t', '\t'), ('r', '\r'), ('n', '\n'), ('"', '"')]

/-- A part of a string literal. -/
inductive Segment where
  | plain (c : Char) (unquoted : c ≠ '"') (unescaped : c ≠ '\\')
  | escape (c value : Char) (stands : (c, value) ∈ escapes)
  | joined (blanks : List Char) (blank : ∀ c ∈ blanks, c = ' ' ∨ c = '\t' ∨ c = '\r')

namespace Segment

def text : Segment → List Char
  | plain c _ _ => [c]
  | escape c _ _ => ['\\', c]
  | joined blanks _ => '\\' :: (blanks ++ ['\n'])

def value : Segment → List Char
  | plain c _ _ => [c]
  | escape _ value _ => [value]
  | joined _ _ => []

/-- The segment that writes a character. -/
def ofChar (c : Char) : Segment :=
  if slash : c = '\\' then escape '\\' '\\' (by decide)
  else if c = '\t' then escape 't' '\t' (by decide)
  else if c = '\r' then escape 'r' '\r' (by decide)
  else if c = '\n' then escape 'n' '\n' (by decide)
  else if quote : c = '"' then escape '"' '"' (by decide)
  else plain c quote slash

theorem ofChar_value (c : Char) : (ofChar c).value = [c] := by
  unfold ofChar
  repeat' split
  all_goals simp [value, *]

/-- The literal that is made of the segments. -/
def literal (segments : List Segment) : List Char := '"' :: (segments.flatMap text ++ ['"'])

/-- A segment adds its value to that of the literal, and no problem. -/
theorem stringBody_text (segment : Segment) (cs : List Char) : stringBody file quote pos (segment.text ++ cs) =
    (stringBody file quote (pos + segment.text.length) cs).after segment.text.length segment.value [] := by
  cases segment with
  | plain c unquoted unescaped => rw [text, List.singleton_append, stringBody] <;> simp [unquoted, unescaped, value]
  | escape c value stands =>
    have known : escaped? c = some [value] := by
      revert stands
      simp only [escapes, List.mem_cons, List.not_mem_nil, or_false, Prod.mk.injEq]
      rintro (⟨rfl, rfl⟩ | ⟨rfl, rfl⟩ | ⟨rfl, rfl⟩ | ⟨rfl, rfl⟩ | ⟨rfl, rfl⟩) <;> rfl
    simp [text, Segment.value, stringBody, known]
  | joined blanks blank =>
    cases blanks with
    | nil => simp [text, value, stringBody, escaped?]
    | cons c blanks =>
      rw [List.forall_mem_cons] at blank
      have isBlank : isBlank c := by simpa [Scan.isBlank, or_assoc] using blank.1
      have unknown : escaped? c = none := by rcases blank.1 with rfl | rfl | rfl <;> rfl
      have all : blanks.all Scan.isBlank := List.all_eq_true.mpr fun c inside => by
        simpa [Scan.isBlank, or_assoc] using blank.2 c inside
      have length : (joined (c :: blanks) (by simpa using blank)).text.length = 3 + blanks.length := by
        simp [text]
        omega
      rw [length, ← Nat.add_assoc]
      simpa [text, value] using stringBody_joined isBlank unknown all

theorem stringBody_segments (segments : List Segment) (suffix : List Char) :
    stringBody file quote pos (segments.flatMap text ++ '"' :: suffix) =
      ⟨some (segments.flatMap value), (segments.flatMap text).length + 1, []⟩ := by
  induction segments generalizing pos with
  | nil => simp [stringBody]
  | cons segment segments ih =>
    rw [List.flatMap_cons, List.append_assoc, stringBody_text, ih]
    simp [StringBody.after, Nat.add_assoc]

/-- The literal that writes a string. -/
def quoted (v : String) : List Char := literal (v.toList.map ofChar)

theorem quoted_value (v : String) : String.ofList ((v.toList.map ofChar).flatMap value) = v := by
  have each : (v.toList.map ofChar).flatMap value = v.toList := by
    rw [List.flatMap_map, funext ofChar_value, List.flatMap_singleton']
  rw [each, String.ofList_toList]

/-- The token of a literal that opens a source. -/
def token (file : Nat) (segments : List Segment) : Token where
  kind := .stringLit (String.ofList (segments.flatMap value))
  lexeme := String.ofList (literal segments)
  span := ⟨0, (literal segments).length, file⟩

theorem body_literal (file : Nat) (segments : List Segment) (suffix : List Char) :
    body file 0 (literal segments ++ suffix) =
    (body file (literal segments).length suffix).cons? (some (token file segments)) := by
  obtain ⟨inner, made⟩ : ∃ inner, segments.flatMap text ++ ['"'] = inner := ⟨_, rfl⟩
  have written : literal segments = '"' :: inner := congrArg _ made
  have piece : lexeme file 0 '"' (inner ++ suffix) = ⟨some (token file segments).kind, inner.length, []⟩ := by
    simp [lexeme, startsName, ← made, token, stringBody_segments]
  have between : gap? file 0 '"' (inner ++ suffix) = none := by simp [gap?, isBlank]
  have stop : 0 + 1 + inner.length = (literal segments).length := by
    rw [written, List.length_cons, Nat.zero_add, Nat.add_comm]
  rw [written, List.cons_append, body, between]
  simp only [piece, List.take_left, List.drop_left, stop, ← written]
  rfl

end Segment

end Scan

open Scan Segment

/-- **String literals decode as written.** The first token of a source that begins with a literal is the string of its
value, over all characters of the literal, and nothing is reported within them. A literal with an escape for each
character that has one gives back the string that it was made for. -/
theorem literals_decode (file : Nat) :
    (∀ segments suffix, (scan (String.ofList (literal segments ++ suffix)) file).tokens.head? = some
      (token file segments) ∧ ∀ d ∈ (scan (String.ofList (literal segments ++ suffix)) file).problems,
      (literal segments).length ≤ d.span.start) ∧
    ∀ v suffix, (scan (String.ofList (quoted v ++ suffix)) file).tokens.head?.map (·.kind) = some (.stringLit v) := by
  have opens (segments : List Segment) (suffix : List Char) :
      (scan (String.ofList (literal segments ++ suffix)) file).tokens.head? = some (token file segments) := by
    simp [scan, close, String.toList_ofList, body_literal, Body.cons?]
  refine ⟨fun segments suffix => ⟨opens segments suffix, fun d inside => ?_⟩, fun v suffix => ?_⟩
  · rw [scan, close, String.toList_ofList, body_literal] at inside
    exact ((body_within (Nat.le_add_right _ (suffix.length + 1)) fun _ => Nat.le_refl _).problems d inside).1
  · rw [quoted, opens, Option.map_some, token, quoted_value]

end Quasicode
