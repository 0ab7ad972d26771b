import Mathlib.Data.List.Forall2
import Quasicode.Proofs.AnalysisInvariants

/-!
What a step of an analysis comes to. Where `Keeps` speaks of the runs that go through, `Goes` says that a run does: from
a given table the step ends with an answer, a table and some new diagnostics. It has two postconditions, one that always
holds and one that holds if there are no new diagnostics. A step that leaves the table as it is answers a question about
it, and `Answers` says just that. Where the step is watched, it also runs alike from tables that differ from the given
one in what it has no business to ask for.
-/
namespace Quasicode.Analysis

/-- What is known of the right of a pair holds of the whole right list. -/
theorem forall_right {α β : Type} {R : α → β → Prop} {P : β → Prop} {xs : List α} {ys : List β}
    (all : List.Forall₂ R xs ys) (implies : ∀ x y, R x y → P y) : ∀ y ∈ ys, P y := by
  induction all with
  | nil => simp
  | cons here _ ih => exact List.forall_mem_cons.mpr ⟨implies _ _ here, ih⟩

/-- What a step is watched for: what its diagnostics are like, and the tables beside its own
from which it has to run alike. -/
structure Watch where
  fine : Diagnostic → Prop
  beside : Table → Table → Prop

/-- The step is watched for its diagnostics only. -/
abbrev Watch.only (fine : Diagnostic → Prop) : Watch := ⟨fine, fun _ _ => False⟩

instance : Coe (Diagnostic → Prop) Watch := ⟨Watch.only⟩

variable {α β γ : Type} {W : Watch} {F : Diagnostic → Prop} {t t' : Table} {x : Analysis α}
variable {f : α → Analysis β} {id : SymbolId}

/-- From the table `t` the step `x` goes through. All its diagnostics are fine; its answer and the table it ends in have
`A`, and if there are no diagnostics they have `B` too. From a table beside `t` it goes through with the same answer and
the same diagnostics, to a table beside the one it ends in. -/
structure Goes (W : Watch) (t : Table) (x : Analysis α) (A : α → Table → Prop)
    (B : α → Table → Prop := fun _ _ => True) : Prop where
  run : ∀ problems, ∃ a t' found, x.run ⟨t, problems⟩ = .ok (a, ⟨t', problems ++ found⟩) ∧ (∀ d ∈ found, W.fine d) ∧
    A a t' ∧ (found = [] → B a t')
  alike : ∀ {problems a s u}, x.run ⟨t, problems⟩ = .ok (a, s) → W.beside t u →
    ∃ u', x.run ⟨u, problems⟩ = .ok (a, ⟨u', s.problems⟩) ∧ W.beside s.table u'

/-- The step `x` goes through and leaves the table as it is. -/
abbrev Answers (W : Watch) (t : Table) (x : Analysis α) (A : α → Prop) (B : α → Prop := fun _ => True) : Prop :=
  Goes W t x (fun a t' => t = t' ∧ A a) fun a _ => B a

namespace Goes

variable {A₁ B₁ A₂ B₂ : α → Table → Prop} {A B : β → Table → Prop}
variable {cause : Cause} {span : Span} {sym : Symbol}

theorem pure {a : α} (holds : A₁ a t) (quiet : B₁ a t) : Goes W t (Pure.pure a) A₁ B₁ := by
  refine ⟨fun problems => ⟨a, t, [], ?_, by simp, holds, fun _ => quiet⟩, fun ran beside => ?_⟩
  · rw [List.append_nil]
    rfl
  · cases ran
    exact ⟨_, rfl, beside⟩

/-- An answer of which nothing is asked. -/
theorem done {a : α} : Answers W t (Pure.pure a) (fun _ => True) := .pure ⟨rfl, trivial⟩ trivial

theorem give {a : α} {A : α → Prop} (holds : A a) : Answers W t (Pure.pure a) A := .pure ⟨rfl, holds⟩ trivial

/-- What a run that has gone through came to. -/
theorem ran (goes : Goes W t x A₁ B₁) {problems : List Diagnostic} {a : α} {s : AnalysisState}
    (ran : x.run ⟨t, problems⟩ = .ok (a, s)) :
    ∃ found, s.problems = problems ++ found ∧ A₁ a s.table ∧ (found = [] → B₁ a s.table) := by
  obtain ⟨_, _, found, ran', _, holds, quiet⟩ := goes.run problems
  cases ran.symm.trans ran'
  exact ⟨found, rfl, holds, quiet⟩

/-- What the first step comes to on a quiet run is known on a quiet run of the rest. -/
theorem bind (first : Goes W t x A₁ B₁)
    (rest : ∀ a t', A₁ a t' → Goes W t' (f a) A fun b t'' => B₁ a t' → B b t'') : Goes W t (x >>= f) A B := by
  refine ⟨fun problems => ?_, fun ran beside => ?_⟩
  · obtain ⟨a, mid, found, ran, fine, holds, quiet⟩ := first.run problems
    obtain ⟨b, last, found', ran', fine', holds', quiet'⟩ := (rest a mid holds).run (problems ++ found)
    refine ⟨b, last, found ++ found', ?_, List.forall_mem_append.mpr ⟨fine, fine'⟩, holds', fun silent => ?_⟩
    · rw [run_seq ran, ran', List.append_assoc]
    · obtain ⟨silent, silent'⟩ := List.append_eq_nil_iff.mp silent
      exact quiet' silent' (quiet silent)
  · obtain ⟨a, mid, ran₁, ran₂⟩ := run_bind_ok.mp ran
    obtain ⟨_, _, holds, _⟩ := first.ran ran₁
    obtain ⟨u₁, alike₁, beside₁⟩ := first.alike ran₁ beside
    obtain ⟨u₂, alike₂, beside₂⟩ := (rest a mid.table holds).alike ran₂ beside₁
    exact ⟨u₂, by rw [run_seq alike₁, alike₂], beside₂⟩

theorem mono (goes : Goes W t x A₁ B₁) (implies : ∀ a t', A₁ a t' → A₂ a t')
    (quiet : ∀ a t', A₁ a t' → B₁ a t' → B₂ a t') : Goes W t x A₂ B₂ := by
  refine ⟨fun problems => ?_, goes.alike⟩
  obtain ⟨a, t', found, ran, fine, holds, holds'⟩ := goes.run problems
  exact ⟨a, t', found, ran, fine, implies a t' holds, fun silent => quiet a t' holds (holds' silent)⟩

/-- Of the diagnostics less is asked. -/
theorem weaken {G : Diagnostic → Prop} (goes : Goes F t x A₁ B₁) (implies : ∀ d, F d → G d) : Goes G t x A₁ B₁ := by
  refine ⟨fun problems => ?_, fun _ => False.elim⟩
  obtain ⟨a, t', found, ran, fine, rest⟩ := goes.run problems
  exact ⟨a, t', found, ran, fun d inside => implies d (fine d inside), rest⟩

theorem imp (goes : Goes W t x A₁ B₁) (implies : ∀ a t', A₁ a t' → A₂ a t') : Goes W t x A₂ :=
  goes.mono implies fun _ _ _ _ => trivial

/-- A first step of which it does not matter whether it is quiet. -/
theorem seq (first : Goes W t x A₁ B₁) (rest : ∀ a t', A₁ a t' → Goes W t' (f a) A B) : Goes W t (x >>= f) A B :=
  first.bind fun a t' holds => (rest a t' holds).mono (fun _ _ holds => holds) fun _ _ _ holds _ => holds

theorem map {g : α → β} (goes : Goes W t x (fun a => A (g a)) fun a => B (g a)) : Goes W t (g <$> x) A B := by
  rw [map_eq_pure_bind]
  exact goes.bind fun a t' holds => .pure holds fun quiet => quiet

/-! ## Single steps before a rest -/

theorem report {A B : Unit → Table → Prop} (fine : W.fine ⟨cause, span⟩) (holds : A () t) :
    Goes W t (Analysis.report cause span) A B := by
  refine ⟨fun problems => ⟨(), t, [⟨cause, span⟩], rfl, by simpa using fine, holds, by simp⟩, fun ran beside => ?_⟩
  cases ran
  exact ⟨_, rfl, beside⟩

theorem reports {f : Unit → Analysis β} (fine : W.fine ⟨cause, span⟩)
    (rest : Goes W t (f ()) A) : Goes W t (Analysis.report cause span >>= f) A B := by
  have first : Goes W t (Analysis.report cause span) (fun _ t' => t = t') fun _ _ => False := .report fine rfl
  refine first.bind fun _ _ same => ?_
  subst same
  exact rest.mono (fun _ _ holds => holds) fun _ _ _ _ => False.elim

/-- A first step whose run is known. The rest comes to the same after its run from a table beside. -/
theorem after {a : α} (ran : ∀ {problems}, x.run ⟨t, problems⟩ = .ok (a, ⟨t, problems⟩))
    (alike : ∀ {u}, W.beside t u → ∃ b, f b = f a ∧ ∀ {problems}, x.run ⟨u, problems⟩ = .ok (b, ⟨u, problems⟩))
    (rest : Goes W t (f a) A B) : Goes W t (x >>= f) A B := by
  refine ⟨fun problems => ?_, fun ran' beside => ?_⟩
  · rw [run_seq ran]
    exact rest.run problems
  · obtain ⟨b, same, ranB⟩ := alike beside
    rw [run_seq ran] at ran'
    rw [run_seq ranB, same]
    exact rest.alike ran' beside

theorem ite {c : Bool} {y : Analysis α} (whenTrue : c → Goes W t x A₁ B₁) (whenFalse : c = false → Goes W t y A₁ B₁) :
    Goes W t (if c then x else y) A₁ B₁ := by
  cases c with
  | true => exact whenTrue rfl
  | false => exact whenFalse rfl

/-! ## Steps that are watched for their diagnostics only -/

theorem of (run : ∀ problems, ∃ a t' found, x.run ⟨t, problems⟩ = .ok (a, ⟨t', problems ++ found⟩) ∧
    (∀ d ∈ found, F d) ∧ A₁ a t' ∧ (found = [] → B₁ a t')) : Goes F t x A₁ B₁ := ⟨run, fun _ => False.elim⟩

theorem ask {g : Table → Except Fault α} {a : α} (answer : g t = .ok a) (rest : Goes F t (f a) A B) :
    Goes F t (Analysis.query g >>= f) A B :=
  after (run_query answer) False.elim rest

theorem askSymbol {f : Symbol → Analysis β} (held : t.symbol? id = some sym) (rest : Goes F t (f sym) A B) :
    Goes F t (Analysis.symbol id >>= f) A B :=
  ask (Table.get_symbol held) rest

theorem askTable {f : Table → Analysis β} (rest : Goes F t (f t) A B) : Goes F t (Analysis.table >>= f) A B :=
  ask (g := Except.ok) rfl rest

theorem askRoot {name : String} {f : Option SymbolId → Analysis β} (rest : Goes F t (f (t.lookupRoot name)) A B) :
    Goes F t (Analysis.lookupRoot name >>= f) A B :=
  ask (g := fun t => .ok (t.lookupRoot name)) rfl rest

theorem lift {e : Except Fault α} {a : α} (answer : e = .ok a) (rest : Goes F t (f a) A B) :
    Goes F t (liftM e >>= f) A B :=
  ask (g := fun _ => e) answer rest

theorem update {g : Table → Except Fault (α × Table)} {a : α} (answer : g t = .ok (a, t')) (holds : A₁ a t')
    (quiet : B₁ a t') : Goes F t (Analysis.update g) A₁ B₁ := by
  refine .of fun problems => ⟨a, t', [], ?_, by simp, holds, fun _ => quiet⟩
  rw [List.append_nil]
  exact run_update answer

theorem does {g : Table → Except Fault (α × Table)} {a : α} (answer : g t = .ok (a, t')) (rest : Goes F t' (f a) A B) :
    Goes F t (Analysis.update g >>= f) A B := by
  have first : Goes F t (Analysis.update g) (fun b t'' => a = b ∧ t' = t'') := .update answer ⟨rfl, rfl⟩ trivial
  apply first.seq
  rintro _ _ ⟨rfl, rfl⟩
  exact rest

theorem modify {change : SymbolKind → SymbolKind} {A B : Unit → Table → Prop}
    (held : t.symbol? id = some sym) (holds : A () (t.edit id change)) (quiet : B () (t.edit id change)) :
    Goes F t (Analysis.modifySymbol id change) A B := by
  apply update
  · rw [Table.modify_edit held]
    rfl
  · exact holds
  · exact quiet

/-! ## Loops -/

section Lists

variable {xs : List α} {g : α → Analysis β} {I K : Table → Prop} {L : Table → Table → Prop}
  {A B : α → β → Table → Prop}

/-- What the steps of a loop come to. Each of them keeps the invariant `I` and moves the table along `L`, and what is
known of its answer stays known along `L`; on quiet runs the invariant `K` is kept too, and more is known. -/
theorem mapM (refl : ∀ t, L t t) (trans : ∀ {t t' t''}, L t t' → L t' t'' → L t t'')
    (stable : ∀ {x y t t'}, L t t' → A x y t → A x y t') (stableQuiet : ∀ {x y t t'}, L t t' → B x y t → B x y t')
    (each : ∀ x ∈ xs, ∀ {t}, I t →
      Goes W t (g x) (fun y t' => I t' ∧ L t t' ∧ A x y t') fun y t' => K t → K t' ∧ B x y t') (start : I t) :
    Goes W t (xs.mapM g) (fun ys t' => I t' ∧ L t t' ∧ List.Forall₂ (A · · t') xs ys)
      fun ys t' => K t → K t' ∧ List.Forall₂ (B · · t') xs ys := by
  induction xs generalizing t with
  | nil => exact .pure ⟨start, refl t, .nil⟩ fun good => ⟨good, .nil⟩
  | cons x xs ih =>
    rw [List.mapM_cons]
    apply (each x List.mem_cons_self start).bind
    rintro y t₁ ⟨inv, later, here⟩
    apply (ih (fun z inside => each z (List.mem_cons_of_mem _ inside)) inv).bind
    rintro ys t₂ ⟨inv₂, later₂, rest⟩
    refine .pure ⟨inv₂, trans later later₂, .cons (stable later₂ here) rest⟩ fun restQuiet hereQuiet good => ?_
    obtain ⟨good₁, here⟩ := hereQuiet good
    obtain ⟨good₂, rest⟩ := restQuiet good₁
    exact ⟨good₂, .cons (stableQuiet later₂ here) rest⟩

theorem forM {g : α → Analysis Unit} (refl : ∀ t, L t t) (trans : ∀ {t t' t''}, L t t' → L t' t'' → L t t'')
    (each : ∀ x ∈ xs, ∀ {t}, I t → Goes W t (g x) (fun _ t' => I t' ∧ L t t') fun _ t' => K t → K t') (start : I t) :
    Goes W t (xs.forM g) (fun _ t' => I t' ∧ L t t') fun _ t' => K t → K t' := by
  induction xs generalizing t with
  | nil => exact .pure ⟨start, refl t⟩ fun good => good
  | cons x xs ih =>
    rw [List.forM]
    apply (each x List.mem_cons_self start).bind
    rintro _ t₁ ⟨inv, later⟩
    apply (ih (fun z inside => each z (List.mem_cons_of_mem _ inside)) inv).mono
    · rintro _ t₂ ⟨inv₂, later₂⟩
      exact ⟨inv₂, trans later later₂⟩
    · intro _ t₂ _ rest here good
      exact rest (here good)

end Lists

end Goes

namespace Answers

variable {A₁ B₁ A₂ B₂ : α → Prop} {A B : β → Prop}

theorem pure {a : α} (holds : A₁ a) (quiet : B₁ a) : Answers W t (Pure.pure a) A₁ B₁ := Goes.pure ⟨rfl, holds⟩ quiet

/-- A question before a step that may change the table. -/
theorem «then» {A B : β → Table → Prop} (first : Answers W t x A₁ B₁)
    (rest : ∀ a, A₁ a → Goes W t (f a) A fun b t' => B₁ a → B b t') : Goes W t (x >>= f) A B := by
  apply Goes.bind first
  rintro a _ ⟨rfl, holds⟩
  exact rest a holds

theorem bind (first : Answers W t x A₁ B₁) (rest : ∀ a, A₁ a → Answers W t (f a) A fun b => B₁ a → B b) :
    Answers W t (x >>= f) A B :=
  first.then rest

/-- A question of which it does not matter whether it is quiet. -/
theorem seq {A B : β → Table → Prop} (first : Answers W t x A₁ B₁) (rest : ∀ a, A₁ a → Goes W t (f a) A B) :
    Goes W t (x >>= f) A B := by
  apply Goes.seq first
  rintro a _ ⟨rfl, holds⟩
  exact rest a holds

theorem mono (answers : Answers W t x A₁ B₁) (implies : ∀ a, A₁ a → A₂ a) (quiet : ∀ a, A₁ a → B₁ a → B₂ a) :
    Answers W t x A₂ B₂ :=
  Goes.mono answers (fun a _ ⟨same, holds⟩ => ⟨same, implies a holds⟩) fun a _ ⟨_, holds⟩ => quiet a holds

theorem map {g : α → β} (answers : Answers W t x (fun a => A (g a)) fun a => B (g a)) : Answers W t (g <$> x) A B :=
  Goes.map answers

theorem report {cause : Cause} {span : Span} {A B : Unit → Prop} (fine : W.fine ⟨cause, span⟩) (holds : A ()) :
    Answers W t (Analysis.report cause span) A B :=
  Goes.report fine ⟨rfl, holds⟩

/-! ## Loops -/

section Lists

variable {xs : List α} {g : α → Analysis β} {A B : α → β → Prop}

/-- The steps of a loop that only asks. -/
theorem mapM (each : ∀ x ∈ xs, Answers W t (g x) (A x) (B x)) :
    Answers W t (xs.mapM g) (List.Forall₂ A xs) (List.Forall₂ B xs) := by
  induction xs with
  | nil => exact .pure .nil .nil
  | cons x xs ih =>
    rw [List.mapM_cons]
    apply (each x List.mem_cons_self).bind
    intro y here
    apply (ih fun z inside => each z (List.mem_cons_of_mem _ inside)).bind
    intro ys rest
    exact .pure (.cons here rest) fun restQuiet hereQuiet => .cons hereQuiet restQuiet

theorem forM {g : α → Analysis Unit} (each : ∀ x ∈ xs, Answers W t (g x) (fun _ => True)) :
    Answers W t (xs.forM g) (fun _ => True) := by
  induction xs with
  | nil => exact .pure trivial trivial
  | cons x xs ih =>
    rw [List.forM]
    exact (each x List.mem_cons_self).seq fun _ _ => ih fun z inside => each z (List.mem_cons_of_mem _ inside)

theorem foldlM {S : β → Prop} {g : β → α → Analysis β} {b : β}
    (each : ∀ b, S b → ∀ x ∈ xs, Answers W t (g b x) S) (start : S b) :
    Answers W t (xs.foldlM g b) S := by
  induction xs generalizing b with
  | nil => exact .pure start trivial
  | cons x xs ih =>
    rw [List.foldlM_cons]
    exact (each b start x List.mem_cons_self).seq fun b' next =>
      ih (fun b holds z inside => each b holds z (List.mem_cons_of_mem _ inside)) next

/-- A filter of which every question has one answer. -/
theorem filterM {p : α → Analysis Bool} {k : α → Bool} (each : ∀ x ∈ xs, Answers W t (p x) (· = k x)) :
    Answers W t (xs.filterM p) (· = xs.filter k) := by
  have loop : ∀ found, Answers W t (xs.filterAuxM p found) (· = (xs.filter k).reverse ++ found) := by
    induction xs with
    | nil => exact fun found => .pure rfl trivial
    | cons x xs ih =>
      intro found
      rw [List.filterAuxM]
      apply (each x List.mem_cons_self).seq
      rintro _ rfl
      apply (ih (fun z inside => each z (List.mem_cons_of_mem _ inside)) _).mono
      · rintro ys rfl
        cases kept : k x <;> simp [kept]
      · intro _ _ _
        trivial
  rw [List.filterM]
  apply (loop []).seq
  rintro ys rfl
  exact .pure (by simp) trivial

theorem anyM {p : α → Analysis Bool} (each : ∀ x ∈ xs, Answers W t (p x) (fun _ => True)) :
    Answers W t (xs.anyM p) (fun _ => True) := by
  induction xs with
  | nil => exact .pure trivial trivial
  | cons x xs ih =>
    rw [List.anyM]
    apply (each x List.mem_cons_self).seq
    intro found _
    cases found with
    | true => exact Answers.pure trivial trivial
    | false => exact ih fun z inside => each z (List.mem_cons_of_mem _ inside)

/-- The first answer that is found satisfies what every answer does. -/
theorem findSomeM {g : α → Analysis (Option β)} {S : β → Prop}
    (each : ∀ x ∈ xs, Answers W t (g x) (fun found => ∀ y, found = some y → S y)) :
    Answers W t (xs.findSomeM? g) (fun found => ∀ y, found = some y → S y) := by
  induction xs with
  | nil => exact .pure (by simp) trivial
  | cons x xs ih =>
    rw [List.findSomeM?]
    apply (each x List.mem_cons_self).seq
    intro found holds
    cases found with
    | some y => exact Answers.pure (by simpa using holds) trivial
    | none => exact ih fun z inside => each z (List.mem_cons_of_mem _ inside)

end Lists

end Answers

end Quasicode.Analysis
