import Quasicode.Proofs.PartitionSets

/-!
A partition after any calls. Its sets are the classes of the least equivalence that holds of the
pairs which were merged, so every answer can be told from the calls alone, and only a merge of
two sets changes which number stands for one.
-/
namespace Quasicode.Partition

open Relation

variable {p q : Partition} {n a b k l r s x y : Nat} {calls : List Call}

inductive Call where
  | find (x : Nat)
  | unite (a b : Nat)
  | same (a b : Nat)
deriving DecidableEq, Repr

namespace Call

/-- The numbers of a call lie below the bound. -/
def Within (n : Nat) : Call → Prop
  | find x => x < n
  | unite a b | same a b => a < n ∧ b < n

def run (p : Partition) : Call → Except Fault Partition
  | find x => do return (← p.find x).2
  | unite a b => do return (← p.unite a b).2
  | same a b => do return (← p.same a b).2

/-- Makes the calls one after the other, beginning with every number in a set of its own. -/
def runAll (n : Nat) (calls : List Call) : Except Fault Partition := calls.foldlM run (discrete n)

/-- The least equivalence that holds of all pairs that the calls merge. -/
def Joins (calls : List Call) : Nat → Nat → Prop := EqvGen fun a b => .unite a b ∈ calls

end Call

/-! ## Loops that end -/

/-- A way of fewer steps does not come past a number, so it stays when that number is redirected. -/
theorem leads_before (way : p.Leads k y r) (other : p.Leads l x s) (shorter : k < l) :
    Leads ⟨p.parent.setIfInBounds x a⟩ k y r := by
  induction way with
  | @stands r self =>
    have apart : x ≠ r := by
      rintro rfl
      have := (leads_unique other (.stands self)).1
      omega
    exact .stands (by simpa [Array.getElem?_setIfInBounds, apart] using self)
  | @step k y z r up moved rest ih =>
    have apart : x ≠ y := by
      rintro rfl
      have := (leads_unique other (.step up moved rest)).1
      omega
    exact .step (by simpa [Array.getElem?_setIfInBounds, apart] using up) moved (ih (by omega))

/-- Shortening a way comes to its end within as many steps as the way has. -/
theorem compress_ends (limit : Nat) (way : p.Leads k x r) (enough : k ≤ limit) :
    compressWithin r limit x p = compressWithin r k x p := by
  induction k generalizing p x limit with
  | zero =>
    cases way with
    | stands self => cases limit <;> simp [compressWithin, self]
  | succ k ih =>
    obtain ⟨limit, rfl⟩ := Nat.exists_eq_add_of_lt enough
    cases way with
    | step up moved rest =>
      simp only [compressWithin, up]
      split
      · rfl
      · exact ih _ (leads_before rest (.step up moved rest) (Nat.lt_succ_self k)) (Nat.le_add_right k limit)

/-! ## Sets and calls -/

/-- After the calls, two numbers below `n` are in one set exactly if the calls join them. -/
structure Stands (n : Nat) (calls : List Call) (p : Partition) : Prop where
  within : ∀ c ∈ calls, c.Within n
  size : p.parent.size = n
  sound : p.Sound
  together : ∀ {a b}, a < n → b < n → (p.Together a b ↔ Call.Joins calls a b)

/-- Numbers that are joined are together wherever all merged pairs are. -/
theorem Call.Joins.together (joins : Call.Joins calls a b) (sound : p.Sound) (bound : a < p.parent.size)
    (pairs : ∀ a b, .unite a b ∈ calls → p.Together a b) : p.Together a b := by
  have equivalence : Equivalence fun x y => x = y ∨ p.Together x y := by
    refine ⟨fun x => .inl rfl, fun {x y} related => ?_, fun {x y z} first second => ?_⟩
    · exact related.imp Eq.symm together_symm
    · rcases first with rfl | first
      · exact second
      · rcases second with rfl | second
        · exact .inr first
        · exact .inr (together_trans first second)
  rcases equivalence.eqvGen_iff.mp (joins.mono fun a b inside => .inr (pairs a b inside)) with rfl | together
  · exact together_refl sound bound
  · exact together

namespace Stands

theorem start (n : Nat) : Stands n [] (discrete n) := by
  refine ⟨by simp, by simp [discrete], discrete_sound n, fun {a b} boundA boundB => ?_⟩
  rw [discrete_together boundA boundB]
  constructor
  · rintro rfl
    exact .refl a
  · intro joins
    exact (eq_equivalence.eqvGen_iff).mp (joins.mono fun _ _ inside => by simp at inside)

variable (stands : Stands n calls p)
include stands

/-- One more call, if it keeps numbers together, brings together what it merges, and nothing else. -/
theorem call {c : Call} (within : c.Within n) (size : q.parent.size = n) (sound : q.Sound)
    (kept : ∀ {x y}, p.Together x y → q.Together x y) (merged : ∀ a b, c = .unite a b → q.Together a b)
    (only : ∀ {x y}, x < n → y < n → q.Together x y → Call.Joins (calls ++ [c]) x y) : Stands n (calls ++ [c]) q := by
  refine ⟨?_, size, sound, fun {x y} boundX boundY => ⟨only boundX boundY, fun joins => ?_⟩⟩
  · simpa [or_imp, forall_and] using And.intro stands.within within
  · refine joins.together sound (size ▸ boundX) fun a b inside => ?_
    rcases List.mem_append.mp inside with before | last
    · obtain ⟨boundA, boundB⟩ := stands.within _ before
      exact kept ((stands.together boundA boundB).mpr (.rel a b before))
    · exact merged a b (List.mem_singleton.mp last).symm

theorem joins_more (c : Call) (boundX : x < n) (boundY : y < n) (together : p.Together x y) :
    Call.Joins (calls ++ [c]) x y :=
  ((stands.together boundX boundY).mp together).mono fun _ _ inside => List.mem_append_left _ inside

/-- A call after which the sets are the same. -/
theorem same_sets {c : Call} (within : c.Within n) (same : SameSets p q)
    (merged : ∀ a b, c = .unite a b → p.Together a b) :
    Stands n (calls ++ [c]) q := by
  have kept {x y : Nat} (together : p.Together x y) : q.Together x y := by
    obtain ⟨r, repX, repY⟩ := together
    exact ⟨r, same.keeps repX, same.keeps repY⟩
  refine stands.call within (same.size.trans stands.size) (same.sound stands.sound) kept
    (fun a b merge => kept (merged a b merge)) ?_
  intro x y boundX boundY together
  have size := stands.size
  exact stands.joins_more c boundX boundY
    ((together_same stands.sound same (size ▸ boundX) (size ▸ boundY)).mp together)

theorem merge (boundA : a < n) (boundB : b < n) (merges : Merges p q a b) : Stands n (calls ++ [.unite a b]) q := by
  have size := stands.size
  have sound := stands.sound
  rw [← size] at boundA boundB
  refine stands.call ⟨size ▸ boundA, size ▸ boundB⟩ (merges.1.trans size) (merges.sound sound boundA boundB)
    (together_kept sound merges boundA boundB) ?_ fun {x y} boundX boundY together => ?_
  · rintro _ _ ⟨⟩
    exact together_joined sound merges boundA boundB
  · have pair : Call.Joins (calls ++ [.unite a b]) a b := .rel a b (by simp)
    rcases together_cases sound merges boundA boundB (size ▸ boundX) (size ▸ boundY) together with before |
      ⟨toA, fromB⟩ | ⟨toB, fromA⟩
    · exact stands.joins_more _ boundX boundY before
    · exact .trans _ _ _ (stands.joins_more _ boundX (size ▸ boundA) toA)
        (.trans _ _ _ pair (stands.joins_more _ (size ▸ boundB) boundY fromB))
    · exact .trans _ _ _ (stands.joins_more _ boundX (size ▸ boundB) toB)
        (.trans _ _ _ (.symm _ _ pair) (stands.joins_more _ (size ▸ boundA) boundY fromA))

end Stands

/-! ## Answers -/

/-- The same numbers stand for the sets of the numbers below `n`. -/
def SameRoots (n : Nat) (p q : Partition) : Prop := ∀ x, x < n → q.root x = p.root x

/-- What every further call answers on a partition that holds exactly what `R` relates together,
and what it leaves behind. -/
structure Refines (n : Nat) (R : Nat → Nat → Prop) (p : Partition) : Prop where
  finds : ∀ a b, a < n → b < n → ∃ r s q q', p.find a = .ok (r, q) ∧ q.find b = .ok (s, q') ∧ (r = s ↔ R a b)
  find : ∀ a, a < n → ∃ r q, p.find a = .ok (r, q) ∧ p.root a = .ok r ∧ SameRoots n p q ∧
    ∀ limit, n ≤ limit → compressWithin r limit a p = q
  same : ∀ a b, a < n → b < n → ∃ answer q, p.same a b = .ok (answer, q) ∧ (answer ↔ R a b) ∧ SameRoots n p q
  unite : ∀ a b, a < n → b < n → ∃ answer q, p.unite a b = .ok (answer, q) ∧ (answer = false ↔ R a b) ∧
    (answer = false → SameRoots n p q) ∧ (answer → ∀ x, x < n → R x a ∨ R x b → q.root x = p.root a)

theorem SameSets.roots (same : SameSets p q) (sound : p.Sound) : SameRoots p.parent.size p q := by
  intro x bound
  obtain ⟨r, rep⟩ := sound x bound
  rw [root_represents rep, root_represents (same.keeps rep)]

theorem same_spec (repA : p.Represents r a) (repB : p.Represents s b) :
    ∃ q, p.same a b = .ok (r == s, q) ∧ SameSets p q := by
  obtain ⟨q, foundA, sameA⟩ := find_spec repA
  obtain ⟨o, foundB, sameB⟩ := find_spec (sameA.keeps repB)
  refine ⟨o, ?_, sameA.trans sameB⟩
  simp [same, foundA, foundB, bind, Except.bind, pure, Except.pure]

namespace Stands

variable (stands : Stands n calls p)
include stands

theorem represented (bound : a < n) : ∃ r, p.Represents r a := stands.sound a (stands.size ▸ bound)

/-- A call goes through, and the calls up to it tell what is together afterwards. -/
theorem run {c : Call} (within : c.Within n) : ∃ q, c.run p = .ok q ∧ Stands n (calls ++ [c]) q := by
  cases c with
  | find x =>
    obtain ⟨r, rep⟩ := stands.represented within
    obtain ⟨q, found, same⟩ := find_spec rep
    exact ⟨q, by simp [Call.run, found, bind, Except.bind, pure, Except.pure], stands.same_sets within same (by simp)⟩
  | same a b =>
    obtain ⟨r, repA⟩ := stands.represented within.1
    obtain ⟨s, repB⟩ := stands.represented within.2
    obtain ⟨q, asked, same⟩ := same_spec repA repB
    exact ⟨q, by simp [Call.run, asked, bind, Except.bind, pure, Except.pure], stands.same_sets within same (by simp)⟩
  | unite a b =>
    have size := stands.size
    rcases unite_spec stands.sound (size ▸ within.1) (size ▸ within.2) with ⟨together, q, ran,
      same⟩ | ⟨_, q, ran, merges⟩
    · refine ⟨q, by simp [Call.run, ran, bind, Except.bind, pure, Except.pure], stands.same_sets within same ?_⟩
      rintro _ _ ⟨⟩
      exact together
    · exact ⟨q, by simp [Call.run, ran, bind, Except.bind, pure, Except.pure], stands.merge within.1 within.2 merges⟩

theorem runs {more : List Call} (within : ∀ c ∈ more, c.Within n) :
    ∃ q, more.foldlM Call.run p = .ok q ∧ Stands n (calls ++ more) q := by
  induction more generalizing calls p with
  | nil => exact ⟨p, rfl, by simpa using stands⟩
  | cons c more ih =>
    obtain ⟨here, rest⟩ := List.forall_mem_cons.mp within
    obtain ⟨q, ran, next⟩ := stands.run here
    obtain ⟨o, ran', last⟩ := ih next rest
    refine ⟨o, ?_, by simpa using last⟩
    rw [List.foldlM_cons, ran]
    exact ran'

theorem refines : Refines n (Call.Joins calls) p := by
  have roots {q : Partition} (same : SameSets p q) : SameRoots n p q := stands.size ▸ same.roots stands.sound
  refine ⟨fun a b boundA boundB => ?_, fun a bound => ?_, fun a b boundA boundB => ?_, fun a b boundA boundB => ?_⟩
  · obtain ⟨r, repA⟩ := stands.represented boundA
    obtain ⟨s, repB⟩ := stands.represented boundB
    obtain ⟨q, foundA, same⟩ := find_spec repA
    obtain ⟨q', foundB, _⟩ := find_spec (same.keeps repB)
    exact ⟨r, s, q, q', foundA, foundB, by rw [← stands.together boundA boundB, together_iff repA repB]⟩
  · obtain ⟨r, k, way⟩ := stands.represented bound
    obtain ⟨q, found, same⟩ := find_spec ⟨k, way⟩
    have root := root_represents ⟨k, way⟩
    refine ⟨r, q, found, root, roots same, fun limit enough => ?_⟩
    have size := stands.size
    have short := leads_short way
    have compressed : compressWithin r p.parent.size a p = q := by
      simpa [Partition.find, root, bind, Except.bind, pure, Except.pure] using found
    rw [← compressed, compress_ends limit way (by omega), compress_ends _ way short.le]
  · obtain ⟨r, repA⟩ := stands.represented boundA
    obtain ⟨s, repB⟩ := stands.represented boundB
    obtain ⟨q, asked, same⟩ := same_spec repA repB
    exact ⟨_, q, asked, by rw [← stands.together boundA boundB, together_iff repA repB, beq_iff_eq], roots same⟩
  · have size := stands.size
    rcases unite_spec stands.sound (size ▸ boundA) (size ▸ boundB) with ⟨together, q, ran,
      same⟩ | ⟨apart, q, ran, merges⟩
    · exact ⟨false, q, ran, by simpa [← stands.together boundA boundB] using together, fun _ => roots same, by simp⟩
    · refine ⟨true, q, ran, by simpa [← stands.together boundA boundB] using apart, by simp,
        fun _ x bound related => ?_⟩
      rw [← stands.together bound boundA, ← stands.together bound boundB] at related
      obtain ⟨r, repA⟩ := stands.represented boundA
      obtain ⟨s, repB⟩ := stands.represented boundB
      obtain ⟨o, rep⟩ := stands.represented bound
      rw [together_iff rep repA, together_iff rep repB] at related
      rw [root_represents repA, root_represents (merges.2 repA repB rep)]
      rcases related with rfl | rfl <;> simp

end Stands

/-- **A partition refines an equivalence.** After any calls on the numbers below `n`, every further call answers as the
least equivalence tells that holds of the merged pairs. -/
theorem calls_refine (n : Nat) (calls : List Call) (within : ∀ c ∈ calls, c.Within n) :
    ∃ p, Call.runAll n calls = .ok p ∧ Refines n (Call.Joins calls) p := by
  obtain ⟨p, ran, stands⟩ := (Stands.start n).runs within
  exact ⟨p, ran, stands.refines⟩

/-- Two merges, a question between them, and a merge of the merged sets. -/
theorem calls_refine_chain :
    let calls : List Call := [.unite 1 2, .unite 3 4, .same 2 3, .unite 2 4, .find 3, .unite 4 1]
    (∀ c ∈ calls, c.Within 6) ∧ ∃ p, Call.runAll 6 calls = .ok p ∧ Refines 6 (Call.Joins calls) p ∧
    p.root 3 = .ok 1 ∧ p.root 5 = .ok 5 := by
  intro calls
  have within : ∀ c ∈ calls, c.Within 6 := by simp [calls, Call.Within]
  obtain ⟨p, ran, refines⟩ := calls_refine 6 calls within
  refine ⟨within, p, ran, refines, ?_⟩
  cases ran
  exact ⟨rfl, rfl⟩

end Quasicode.Partition
