import Mathlib.Data.Fintype.EquivFin
import Mathlib.Logic.Relation
import Mathlib.Order.WellFounded
import Quasicode.Partition

/-!
The sets of a partition. Pointers lead from every number to the one that stands for its set; which number that
is tells two sets apart. Looking a number up shortens the way and changes no set, and a merge redirects exactly
the numbers of one set.
-/
namespace Quasicode

/-- Levels that are each taken by a number below a bound, no number on two of them, are no more than the bound. -/
theorem levels_bound {P : Nat → Nat → Prop} {levels bound : Nat} (taken : ∀ i < levels, ∃ x < bound, P i x)
    (oneLevel : ∀ {i j x}, P i x → P j x → i = j) : levels ≤ bound := by
  choose at_ below holds using fun i : Fin levels => taken i i.isLt
  have distinct : Function.Injective at_ := by
    intro i j same
    exact Fin.ext (oneLevel (holds i) (same ▸ holds j))
  have card := Finset.card_le_card_of_injOn at_ (s := Finset.univ) (t := Finset.range bound)
    (fun i _ => Finset.mem_coe.mpr (Finset.mem_range.mpr (below i))) distinct.injOn
  simpa using card

/-- Where nothing leads back to itself, going on comes to an end among finitely many. -/
theorem acyclic_wellFounded {α : Type} {R : α → α → Prop} {n : Nat} (at_ : Fin n → α)
    (acyclic : ∀ x, ¬ Relation.TransGen R x x) :
    WellFounded fun a b : Fin n => Relation.TransGen R (at_ b) (at_ a) := by
  have : IsTrans (Fin n) fun a b => Relation.TransGen R (at_ b) (at_ a) :=
    ⟨fun _ _ _ first second => second.trans first⟩
  have : Std.Irrefl fun a b : Fin n => Relation.TransGen R (at_ b) (at_ a) := ⟨fun a => acyclic (at_ a)⟩
  exact Finite.wellFounded_of_trans_of_irrefl _

end Quasicode

namespace Quasicode.Partition

/-- `Leads p k x r`: `k` pointers lead from `x` to `r`, which points to itself. -/
inductive Leads (p : Partition) : Nat → Nat → Nat → Prop where
  | stands {r : Nat} : p.parent[r]? = some r → Leads p 0 r r
  | step {k x y r : Nat} : p.parent[x]? = some y → y ≠ x → Leads p k y r → Leads p (k + 1) x r

/-- `r` stands for the set of `x`. -/
def Represents (p : Partition) (r x : Nat) : Prop := ∃ k, p.Leads k x r

/-- Every number below the bound belongs to a set. -/
def Sound (p : Partition) : Prop := ∀ x < p.parent.size, ∃ r, p.Represents r x

/-- The numbers `x` and `y` are in one set. -/
def Together (p : Partition) (x y : Nat) : Prop := ∃ r, p.Represents r x ∧ p.Represents r y

variable {p q : Partition} {a b k l r s x y : Nat}

/-! ## Ways -/

theorem leads_bound (way : p.Leads k x r) : x < p.parent.size := by
  cases way with
  | stands self => exact (Array.getElem?_eq_some_iff.mp self).1
  | step up _ _ => exact (Array.getElem?_eq_some_iff.mp up).1

theorem leads_end (way : p.Leads k x r) : p.parent[r]? = some r := by
  induction way with
  | stands self => exact self
  | step _ _ _ ih => exact ih

/-- The way from a number is determined, its length included. -/
theorem leads_unique (first : p.Leads k x r) (second : p.Leads l x s) : k = l ∧ r = s := by
  induction first generalizing l s with
  | stands self =>
    cases second with
    | stands _ => exact ⟨rfl, rfl⟩
    | step up moved _ =>
      rw [self] at up
      cases up
      exact absurd rfl moved
  | step up moved _ ih =>
    cases second with
    | stands self =>
      rw [self] at up
      cases up
      exact absurd rfl moved
    | step up' _ rest =>
      rw [up] at up'
      cases up'
      obtain ⟨rfl, rfl⟩ := ih rest
      exact ⟨rfl, rfl⟩

/-- Every shorter length occurs on the way. -/
theorem leads_shorter (way : p.Leads k x r) : ∀ i ≤ k, ∃ y, p.Leads i y r := by
  induction way with
  | stands self =>
    intro i le
    obtain rfl := Nat.le_zero.mp le
    exact ⟨_, .stands self⟩
  | @step k x y r up moved rest ih =>
    intro i le
    rcases Nat.lt_or_eq_of_le le with lt | rfl
    · exact ih i (Nat.le_of_lt_succ lt)
    · exact ⟨x, .step up moved rest⟩

/-- A way has fewer steps than there are numbers, since no number comes twice on it. -/
theorem leads_short (way : p.Leads k x r) : k < p.parent.size := by
  refine levels_bound (P := fun i y => p.Leads i y r) (fun i lt => ?_) fun first second =>
    (leads_unique first second).1
  obtain ⟨y, shorter⟩ := leads_shorter way i (Nat.le_of_lt_succ lt)
  exact ⟨y, leads_bound shorter, shorter⟩

theorem represents_unique (first : p.Represents r x) (second : p.Represents s x) : r = s := by
  obtain ⟨_, way⟩ := first
  obtain ⟨_, way'⟩ := second
  exact (leads_unique way way').2

theorem represents_self (rep : p.Represents r x) : p.Represents r r :=
  ⟨0, .stands (leads_end rep.choose_spec)⟩

theorem represents_bound (rep : p.Represents r x) : x < p.parent.size :=
  leads_bound rep.choose_spec

/-- Numbers of one set are those with one representative. -/
theorem together_iff (first : p.Represents r x) (second : p.Represents s y) :
    p.Together x y ↔ r = s := by
  constructor
  · rintro ⟨t, repX, repY⟩
    rw [represents_unique first repX, represents_unique second repY]
  · rintro rfl
    exact ⟨r, first, second⟩

theorem together_refl (sound : p.Sound) (bound : x < p.parent.size) : p.Together x x := by
  obtain ⟨r, rep⟩ := sound x bound
  exact ⟨r, rep, rep⟩

theorem together_symm (together : p.Together x y) : p.Together y x := by
  obtain ⟨r, repX, repY⟩ := together
  exact ⟨r, repY, repX⟩

theorem together_trans {z : Nat} (first : p.Together x y) (second : p.Together y z) : p.Together x z := by
  obtain ⟨r, repX, repY⟩ := first
  obtain ⟨r', repY', repZ⟩ := second
  obtain rfl := represents_unique repY repY'
  exact ⟨r, repX, repZ⟩

theorem rootWithin_leads (limit : Nat) (way : p.Leads k x r) (enough : k < limit) :
    p.rootWithin limit x = .ok r := by
  induction way generalizing limit with
  | stands self =>
    obtain ⟨limit, rfl⟩ := Nat.exists_eq_add_of_lt enough
    simp [rootWithin, self]
  | step up moved _ ih =>
    cases limit with
    | zero => omega
    | succ limit => simp [rootWithin, up, moved, ih limit (by omega)]

theorem root_represents (rep : p.Represents r x) : p.root x = .ok r := by
  obtain ⟨k, way⟩ := rep
  exact rootWithin_leads _ way (Nat.lt_succ_of_lt (leads_short way))

/-! ## Shortened ways -/

/-- `q` has the sets of `p`, and the same numbers stand for them. -/
structure SameSets (p q : Partition) : Prop where
  size : q.parent.size = p.parent.size
  keeps : ∀ {r x}, p.Represents r x → q.Represents r x

theorem SameSets.refl (p : Partition) : SameSets p p := ⟨rfl, id⟩

theorem SameSets.trans {o : Partition} (first : SameSets o p) (second : SameSets p q) : SameSets o q :=
  ⟨second.size.trans first.size, fun rep => second.keeps (first.keeps rep)⟩

theorem SameSets.sound (same : SameSets p q) (sound : p.Sound) : q.Sound := by
  intro x bound
  obtain ⟨r, rep⟩ := sound x (same.size ▸ bound)
  exact ⟨r, same.keeps rep⟩

/-- Pointing `b` at `a`, which stands for a set, leaves the way from a number as it was or, if it came through
`b`, leads it to `a`. -/
theorem leads_redirected (stands : p.parent[a]? = some a) (different : a ≠ b) (way : p.Leads k x r) :
    Represents ⟨p.parent.setIfInBounds b a⟩ r x ∨
      Represents ⟨p.parent.setIfInBounds b a⟩ a x ∧ p.Represents r b := by
  have stays : Leads ⟨p.parent.setIfInBounds b a⟩ 0 a a :=
    .stands (by simpa [Array.getElem?_setIfInBounds, different.symm] using stands)
  have direct (bound : b < p.parent.size) : Represents ⟨p.parent.setIfInBounds b a⟩ a b :=
    ⟨1, .step (by simp [bound]) different stays⟩
  induction way with
  | @stands r self =>
    by_cases here : r = b
    · subst here
      exact .inr ⟨direct (leads_bound (.stands self)), 0, .stands self⟩
    · exact .inl ⟨0, .stands (by simpa [Array.getElem?_setIfInBounds, Ne.symm here] using self)⟩
  | @step k x y r up moved rest ih =>
    by_cases here : x = b
    · subst here
      have way := Leads.step up moved rest
      exact .inr ⟨direct (leads_bound way), _, way⟩
    · have up' : (Partition.mk (p.parent.setIfInBounds b a)).parent[x]? = some y := by
        simpa [Array.getElem?_setIfInBounds, Ne.symm here] using up
      rcases ih with ⟨_, way⟩ | ⟨⟨_, way⟩, through⟩
      · exact .inl ⟨_, .step up' moved way⟩
      · exact .inr ⟨⟨_, .step up' moved way⟩, through⟩

/-- Pointing a number straight at the one that stands for its set changes no set. -/
theorem shortcut_same (rep : p.Represents a b) (different : a ≠ b) :
    SameSets p ⟨p.parent.setIfInBounds b a⟩ := by
  refine ⟨by simp, fun {r x} repX => ?_⟩
  obtain ⟨_, way⟩ := repX
  rcases leads_redirected (leads_end rep.choose_spec) different way with kept | ⟨moved, through⟩
  · exact kept
  · exact represents_unique through rep ▸ moved

/-- Shortening the way from a number changes no set. -/
theorem compress_same (limit : Nat) (rep : p.Represents r x) :
    SameSets p (compressWithin r limit x p) := by
  induction limit generalizing p x with
  | zero => exact SameSets.refl p
  | succ limit ih =>
    simp only [compressWithin]
    split
    · exact SameSets.refl p
    · rename_i up next
      split
      · exact SameSets.refl p
      · rename_i notDone
        obtain ⟨_, way⟩ := rep
        cases way with
        | stands self =>
          rw [self] at next
          cases next
          exact absurd rfl notDone
        | step up' moved rest =>
          rw [next] at up'
          cases up'
          have elsewhere : r ≠ x := by
            rintro rfl
            have length := (leads_unique (.step next moved rest) (.stands (leads_end rest))).1
            exact Nat.succ_ne_zero _ length
          have short := shortcut_same ⟨_, .step next moved rest⟩ elsewhere
          exact short.trans (ih (short.keeps ⟨_, rest⟩))

/-- Looking a number up yields the one that stands for its set. -/
theorem find_spec (rep : p.Represents r x) : ∃ q, p.find x = .ok (r, q) ∧ SameSets p q := by
  refine ⟨compressWithin r p.parent.size x p, ?_, compress_same _ rep⟩
  simp [find, root_represents rep, bind, Except.bind, pure, Except.pure]

/-! ## Merged sets -/

/-- The sets of `a` and `b` become one, for which the number that stood for the set of `a` stands. -/
def Merges (p q : Partition) (a b : Nat) : Prop :=
  q.parent.size = p.parent.size ∧
    ∀ {rootA rootB r x}, p.Represents rootA a → p.Represents rootB b → p.Represents r x →
      q.Represents (if r = rootB then rootA else r) x

/-- Two numbers of one set stay as they are. -/
theorem unite_same (repA : p.Represents r a) (repB : p.Represents r b) :
    ∃ q, p.unite a b = .ok (false, q) ∧ SameSets p q := by
  obtain ⟨q, foundA, sameA⟩ := find_spec repA
  obtain ⟨o, foundB, sameB⟩ := find_spec (sameA.keeps repB)
  refine ⟨o, ?_, sameA.trans sameB⟩
  simp [unite, foundA, foundB, bind, Except.bind, pure, Except.pure]

/-- Numbers of two sets are brought into one. -/
theorem unite_apart (repA : p.Represents r a) (repB : p.Represents s b) (different : r ≠ s) :
    ∃ q, p.unite a b = .ok (true, q) ∧ Merges p q a b := by
  obtain ⟨q, foundA, sameA⟩ := find_spec repA
  obtain ⟨o, foundB, sameB⟩ := find_spec (sameA.keeps repB)
  have same := sameA.trans sameB
  refine ⟨⟨o.parent.setIfInBounds s r⟩, ?_, by simp [same.size], ?_⟩
  · simp [unite, foundA, foundB, different, bind, Except.bind, pure, Except.pure]
  · intro rootA rootB t x repA' repB' repX
    obtain rfl := represents_unique repA repA'
    obtain rfl := represents_unique repB repB'
    have stands := leads_end (same.keeps repA).choose_spec
    have merged : o.Represents s s := represents_self (same.keeps repB)
    rcases leads_redirected stands different (same.keeps repX).choose_spec with kept | ⟨moved, through⟩
    · have outside : t ≠ s := by
        rintro rfl
        have bound := represents_bound merged
        have self := leads_end kept.choose_spec
        simp only [Array.getElem?_setIfInBounds, bound, if_true, Option.some.injEq] at self
        exact different self
      simpa [outside] using kept
    · have inside : t = s := represents_unique through merged
      simpa [inside] using moved

/-- A merge answers whether there were two sets, and if so they are one afterwards. -/
theorem unite_spec (sound : p.Sound) (boundA : a < p.parent.size) (boundB : b < p.parent.size) :
    (p.Together a b ∧ ∃ q, p.unite a b = .ok (false, q) ∧ SameSets p q) ∨
      (¬ p.Together a b ∧ ∃ q, p.unite a b = .ok (true, q) ∧ Merges p q a b) := by
  obtain ⟨r, repA⟩ := sound a boundA
  obtain ⟨s, repB⟩ := sound b boundB
  rw [together_iff repA repB]
  by_cases same : r = s
  · subst same
    exact .inl ⟨rfl, unite_same repA repB⟩
  · exact .inr ⟨same, unite_apart repA repB same⟩

theorem Merges.sound (merges : Merges p q a b) (sound : p.Sound) (boundA : a < p.parent.size)
    (boundB : b < p.parent.size) : q.Sound := by
  intro x bound
  obtain ⟨rootA, repA⟩ := sound a boundA
  obtain ⟨rootB, repB⟩ := sound b boundB
  obtain ⟨r, rep⟩ := sound x (merges.1 ▸ bound)
  exact ⟨_, merges.2 repA repB rep⟩

section Together

variable (sound : p.Sound) (merges : Merges p q a b) (boundA : a < p.parent.size) (boundB : b < p.parent.size)
include sound merges boundA boundB

/-- Numbers of one set stay in one set. -/
theorem together_kept (together : p.Together x y) : q.Together x y := by
  obtain ⟨r, repX, repY⟩ := together
  obtain ⟨rootA, repA⟩ := sound a boundA
  obtain ⟨rootB, repB⟩ := sound b boundB
  exact ⟨_, merges.2 repA repB repX, merges.2 repA repB repY⟩

theorem together_joined : q.Together a b := by
  obtain ⟨rootA, repA⟩ := sound a boundA
  obtain ⟨rootB, repB⟩ := sound b boundB
  have first := merges.2 repA repB repA
  have second := merges.2 repA repB repB
  rw [if_pos rfl] at second
  by_cases same : rootA = rootB
  · rw [if_pos same] at first
    exact ⟨rootA, first, second⟩
  · rw [if_neg same] at first
    exact ⟨rootA, first, second⟩

/-- Two numbers come into one set only by way of the merged sets. -/
theorem together_cases (boundX : x < p.parent.size) (boundY : y < p.parent.size) (together : q.Together x y) :
    p.Together x y ∨ p.Together x a ∧ p.Together b y ∨ p.Together x b ∧ p.Together a y := by
  obtain ⟨rootA, repA⟩ := sound a boundA
  obtain ⟨rootB, repB⟩ := sound b boundB
  obtain ⟨rootX, repX⟩ := sound x boundX
  obtain ⟨rootY, repY⟩ := sound y boundY
  have same := (together_iff (merges.2 repA repB repX) (merges.2 repA repB repY)).mp together
  rw [together_iff repX repY, together_iff repX repA, together_iff repB repY,
    together_iff repX repB, together_iff repA repY]
  split at same <;> split at same <;> grind

end Together

theorem together_same (sound : p.Sound) (same : SameSets p q) (boundX : x < p.parent.size)
    (boundY : y < p.parent.size) : q.Together x y ↔ p.Together x y := by
  obtain ⟨r, repX⟩ := sound x boundX
  obtain ⟨s, repY⟩ := sound y boundY
  rw [together_iff repX repY, together_iff (same.keeps repX) (same.keeps repY)]

/-- In the discrete partition every number stands for its own set. -/
theorem discrete_represents {size : Nat} (bound : x < size) : (discrete size).Represents x x :=
  ⟨0, .stands (by simp [discrete, bound])⟩

theorem discrete_together {size : Nat} (boundX : x < size) (boundY : y < size) : (discrete size).Together x y ↔ x = y :=
  together_iff (discrete_represents boundX) (discrete_represents boundY)

theorem discrete_sound (size : Nat) : (discrete size).Sound := by
  intro x bound
  exact ⟨x, discrete_represents (by simpa [discrete] using bound)⟩

end Quasicode.Partition
