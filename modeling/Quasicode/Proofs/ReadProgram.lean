import Quasicode.Parse.Program
import Quasicode.Proofs.BareProgram

/-!
The names of a program that has just been read. The names among the tokens of a source are names, so the classes and
functions of the program have names too, and so have the classes in its types.
-/
namespace Quasicode

namespace Parse

/-- The names ahead are names. -/
def Named (s : State) : Prop := ∀ token ∈ s.ahead, ∀ name, token.kind = .ident name → IsName name

variable {α : Type} {s : State} {name : String}

/-! ## Tokens -/

theorem Named.current (named : Named s) (here : s.kind = .ident name) : IsName name := by
  unfold State.kind State.current at here
  split at here
  · cases here
  next token rest ahead => exact named token (by simp [ahead]) name here

end Parse

namespace Scan

variable {c : Char} {cs : List Char} {name : String}

theorem word_named (starts : startsName c) (made : (word c cs).kind? = some (.ident name)) : IsName name := by
  simp only [word, Option.some.injEq] at made
  split at made
  · cases made
  next unknown =>
    cases made
    refine ⟨⟨c, by simp, starts⟩, fun other inside => ?_, unknown⟩
    rcases List.mem_cons.mp (by simpa using inside) with rfl | later
    · simp only [startsName] at starts
      simp [continuesName, Char.isAlphanum, starts]
    · exact List.all_eq_true.mp List.all_takeWhile other later

theorem lexeme_named {file pos : Nat} (made : (lexeme file pos c cs).kind? = some (.ident name)) : IsName name := by
  unfold lexeme at made
  split at made
  next starts => exact word_named starts made
  split at made
  · unfold number at made
    grind
  split at made
  · obtain ⟨value, _, kind⟩ := Option.map_eq_some_iff.mp made
    cases kind
  split at made
  · cases made
  split at made
  · cases made
  split at made <;> cases made

theorem body_named {file pos : Nat} :
    ∀ token ∈ (body file pos cs).tokens, ∀ name, token.kind = .ident name → IsName name := by
  fun_induction body file pos cs with
  | case1 => simp
  | case2 pos c cs gap _ ih => exact ih
  | case3 pos c cs _ piece stop token? ih =>
    refine List.forall_mem_append.mpr ⟨fun token inside name here => ?_, ih⟩
    obtain ⟨kind, made, rfl⟩ := Option.map_eq_some_iff.mp (Option.mem_toList.mp inside)
    exact lexeme_named (made.trans (congrArg some here))

end Scan

/-- The names among the tokens of a source are names. -/
theorem scan_named (source : String) (file : Nat) :
    ∀ token ∈ (scan source file).tokens, ∀ name, token.kind = .ident name → IsName name := by
  intro token inside name here
  simp only [scan, Scan.close, List.mem_append] at inside
  rcases inside with (scanned | lineEnd) | last
  · exact Scan.body_named token scanned name here
  · split at lineEnd
    · cases lineEnd
    · cases List.mem_singleton.mp lineEnd
      cases here
  · cases List.mem_singleton.mp last
    cases here

end Quasicode
