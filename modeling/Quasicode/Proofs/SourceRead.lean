import Quasicode.Proofs.ReadItems
import Quasicode.Proofs.ScanTiling

/-!
Reading a source. Its tokens stand one after the other, so what is read from them has the places of the tokens it was
read from: every expression covers more than each of its parts, and no two expressions of a program have the same place.
-/
namespace Quasicode

namespace Scan

variable {source : List Char}

theorem Laid.spread {quiet : Prop} {tokens ending : List Token} {last : Span} {finish : Nat} (file : Nat)
    (laid : Laid quiet source last.stop tokens)
    (order : last.start ≤ last.stop) (before : last.stop ≤ finish ∧ ∀ token ∈ tokens, token.span.stop ≤ finish)
    (closes : ending = [] ∨ ending = [⟨.eol, "", ⟨finish, finish + 1, file⟩⟩]) :
    Parse.Spread source.length last (tokens ++ ending) := by
  induction tokens generalizing last with
  | nil =>
    rcases closes with rfl | rfl
    · trivial
    · have := before.1
      exact ⟨⟨by simp only; omega, by simp only; omega⟩, fun inLine => absurd rfl inLine, trivial⟩
  | cons token tokens ih =>
    obtain ⟨after, wide, inside, _, _, rest⟩ := laid
    obtain ⟨stop, later⟩ := List.forall_mem_cons.mp before.2
    exact ⟨⟨by omega, by omega⟩, fun _ => ⟨after, wide, inside⟩, ih rest (by omega) ⟨stop, later⟩⟩

end Scan

theorem scan_spread (source : String) (file : Nat) :
    ∃ front last, (scan source file).tokens = front ++ [last] ∧ last.kind = .eof ∧
    Parse.Spread source.length ⟨0, 0, 0⟩ front := by
  have laid : Scan.Laid False source.toList 0 (Scan.body file 0 source.toList).tokens := Scan.body_laid rfl (by simp)
  rw [← String.length_toList]
  have places : (Scan.body file 0 source.toList).Within 0 (source.toList.length + 1) :=
    Scan.body_within (Nat.zero_le _) fun _ => by simp
  refine ⟨_, _, rfl, rfl, laid.spread file (Nat.le_refl _) ⟨places.start,
    fun token inside => (places.tokens token inside).2⟩ ?_⟩
  split
  · exact .inl rfl
  · exact .inr rfl

/-- **A source is read**, and what is read lies near it. -/
theorem source_within {bound : Nat} (source : String) (classNames : List String) (near : source.length + 2 ≤ bound) :
    ∃ parsed, parse (scan source).tokens classNames = .ok parsed ∧ (∀ item ∈ parsed.program.items, item.Fresh bound) ∧
      ∀ d ∈ (scan source).problems ++ parsed.problems, d.span.Within bound := by
  have within {span : Span} (within : span.Within (source.length + 2)) : span.Within bound :=
    ⟨Nat.le_trans within.1 near, Nat.le_trans within.2 near⟩
  obtain ⟨tokens, problems⟩ := scan_within source 0
  obtain ⟨parsed, read, fresh, _, problems'⟩ := parse_fresh classNames (scan_named source 0)
    (fun token inside => within (tokens token inside)) (scan_spread source 0)
  exact ⟨parsed, read, fun item inside => (fresh item inside).1,
    List.forall_mem_append.mpr ⟨fun d inside => within (problems d inside), problems'⟩⟩

theorem source_read (source : String) (classNames : List String) :
      ∃ parsed, parse (scan source).tokens classNames = .ok parsed ∧
      (∀ item ∈ parsed.program.items, item.Fresh (source.length + 2)) ∧ ∀ d ∈ parsed.problems,
      d.span.Within (source.length + 2) := by
  obtain ⟨parsed, read, fresh, within⟩ := source_within source classNames (Nat.le_refl _)
  exact ⟨parsed, read, fresh, (List.forall_mem_append.mp within).2⟩

/-- **Places tell expressions apart.** Every expression of a program that is read from a source
covers some of it, and more than each of the expressions right inside it, which stand one after
the other; no two expressions of the program have the same place. -/
theorem expression_places (source : String) (file : Nat) (classNames : List String) :
    ∃ parsed, parse (scan source file).tokens classNames = .ok parsed ∧
      (∀ e ∈ parsed.program.nodes, e.span.start < e.span.stop ∧ e.span.stop ≤ source.length ∧
        (∀ p ∈ e.parts, p.span.Inside e.span) ∧ e.parts.Pairwise fun a b => a.span.stop ≤ b.span.start) ∧
      (parsed.program.nodes.map Expr.span).Nodup := by
  obtain ⟨parsed, read, _, ⟨stop, spreads⟩, _⟩ := parse_fresh classNames (scan_named source file)
    (scan_within source file).1 (scan_spread source file)
  refine ⟨parsed, read, fun e inside => ?_, spreads.nodup_nodes⟩
  obtain ⟨whole, among, inside⟩ := List.mem_flatMap.mp inside
  have tidy := (spreads.each whole among).all.nodes inside
  exact ⟨tidy.forward, tidy.within, tidy.inside, tidy.inOrder⟩

end Quasicode
