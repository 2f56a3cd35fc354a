import Mathlib
import BlsBn254.Scheme.Signing

/-!
# Sums and what they stand for

What is added up need not form a group, as points of any curve and coordinates of points
do not. But the values *stand for* elements of a commutative group, and the operations that
add up two values, or a list of them, are a *summation* if they keep to what is stood for
(`IsSummation`).

A list can then be added up in many ways: two at a time, group by group, in any order. Such
a way is a `Grouping`, a tree whose leaves are the summands and whose nodes are sums of two
or aggregates of lists, some of which may be empty. Its sum stands for the sum of what its
leaves stand for (`IsSummation.eval`), so it depends on the leaves alone, and not on their
order (`IsSummation.eval_perm`, `IsSummation.eval_eq_sum`).
-/

namespace BlsBn254

/-! ## What sums stand for -/

/-- The operations on two values and on a list of values add up what the values stand
    for, according to the relation `R`. -/
structure IsSummation {α A : Type} [AddCommMonoid A] (R : α → A → Prop) (add : α → α → α)
    (sum : List α → α) : Prop where
  /-- The sum of two values stands for the sum. -/
  add : ∀ {a b x y}, R a x → R b y → R (add a b) (x + y)
  /-- The sum of a list stands for the sum. -/
  sum : ∀ {as xs}, List.Forall₂ R as xs → R (sum as) xs.sum

section Summation

variable {α A : Type} [AddCommMonoid A] {R : α → A → Prop} {add : α → α → α} {sum : List α → α}
  {φ : α → A}

/-- Adding up a list from left to right is a summation if adding two values is. -/
theorem isSummation_foldl {zero : α} (hzero : R zero 0)
    (hadd : ∀ {a b x y}, R a x → R b y → R (add a b) (x + y)) :
    IsSummation R add fun as => as.foldl add zero := by
  refine ⟨hadd, fun {as xs} h => ?_⟩
  -- The sum may start from any value.
  have hfold : ∀ {b y}, R b y → R (as.foldl add b) (y + xs.sum) := by
    induction h with
    | nil =>
      intro b y hb
      rwa [List.foldl_nil, List.sum_nil, add_zero]
    | cons ha _ ih =>
      intro b y hb
      rw [List.foldl_cons, List.sum_cons, ← add_assoc]
      exact ih (hadd hb ha)
  rw [← zero_add xs.sum]
  exact hfold hzero

/-- The sum of a list stands for the sum of what its members stand for. -/
theorem IsSummation.sum_map (h : IsSummation R add sum) {as : List α} (hφ : ∀ a ∈ as, R a (φ a)) :
    R (sum as) (as.map φ).sum :=
  h.sum (List.forall₂_map_right_iff.2 (List.forall₂_same.2 hφ))

end Summation

/-! ## Sums by groups -/

/-- A way to add up elements. -/
inductive Grouping (α : Type)
  /-- An element by itself. -/
  | single (a : α)
  /-- The sum of two. -/
  | pair (g h : Grouping α)
  /-- The aggregate of a list. -/
  | group (gs : List (Grouping α))

namespace Grouping

variable {α : Type}

mutual

/-- The elements that are added up, from left to right. -/
def leaves : Grouping α → List α
  | single a => [a]
  | pair g h => g.leaves ++ h.leaves
  | group gs => allLeaves gs

/-- The elements that are added up in any of several groups. -/
def allLeaves : List (Grouping α) → List α
  | [] => []
  | g :: gs => g.leaves ++ allLeaves gs

end

mutual

/-- The sum, by an operation on two elements and one on a list. -/
def eval (add : α → α → α) (sum : List α → α) : Grouping α → α
  | single a => a
  | pair g h => add (g.eval add sum) (h.eval add sum)
  | group gs => sum (evalAll add sum gs)

/-- The sums of several groups. -/
def evalAll (add : α → α → α) (sum : List α → α) : List (Grouping α) → List α
  | [] => []
  | g :: gs => g.eval add sum :: evalAll add sum gs

end

end Grouping

namespace IsSummation

variable {α A : Type} [AddCommMonoid A] {R : α → A → Prop} {add : α → α → α} {sum : List α → α}
  {φ : α → A}

mutual

/-- The sum of a grouping stands for the sum of what its leaves stand for. -/
theorem eval (h : IsSummation R add sum) : (g : Grouping α) → (∀ a ∈ g.leaves, R a (φ a)) →
    R (g.eval add sum) (g.leaves.map φ).sum
  | .single a, hφ => by
    rw [Grouping.leaves, List.map_singleton, List.sum_singleton, Grouping.eval]
    exact hφ a (by rw [Grouping.leaves]; exact List.mem_singleton_self a)
  | .pair g k, hφ => by
    rw [Grouping.leaves] at hφ
    rw [Grouping.leaves, List.map_append, List.sum_append, Grouping.eval]
    exact h.add (h.eval g fun a ha => hφ a (List.mem_append_left _ ha))
      (h.eval k fun a ha => hφ a (List.mem_append_right _ ha))
  | .group gs, hφ => by
    rw [Grouping.leaves] at hφ
    obtain ⟨xs, hxs, hsum⟩ := h.evalAll gs hφ
    rw [Grouping.leaves, Grouping.eval, ← hsum]
    exact h.sum hxs

/-- The sums of several groupings stand for elements with the same sum as what all their
    leaves stand for. -/
theorem evalAll (h : IsSummation R add sum) : (gs : List (Grouping α)) →
    (∀ a ∈ Grouping.allLeaves gs, R a (φ a)) →
      ∃ xs, List.Forall₂ R (Grouping.evalAll add sum gs) xs ∧
        xs.sum = ((Grouping.allLeaves gs).map φ).sum
  | [], _ => ⟨[], .nil, rfl⟩
  | g :: gs, hφ => by
    rw [Grouping.allLeaves] at hφ
    obtain ⟨xs, hxs, hsum⟩ := h.evalAll gs fun a ha => hφ a (List.mem_append_right _ ha)
    refine ⟨(g.leaves.map φ).sum :: xs, ?_, ?_⟩
    · exact .cons (h.eval g fun a ha => hφ a (List.mem_append_left _ ha)) hxs
    · rw [Grouping.allLeaves, List.map_append, List.sum_append, List.sum_cons, hsum]

end

/-- A grouping stands for the same as a list of its leaves in any order. -/
theorem eval_perm (h : IsSummation R add sum) {as : List α} (hφ : ∀ a ∈ as, R a (φ a))
    {g : Grouping α} (hperm : g.leaves.Perm as) : R (g.eval add sum) (as.map φ).sum := by
  rw [← (hperm.map φ).sum_eq]
  exact h.eval g fun a ha => hφ a (hperm.subset ha)

/-- If a value can be told from what it stands for, then a grouping has the sum of a list of
    its leaves in any order. -/
theorem eval_eq_sum {f : A → α} (h : IsSummation (fun a x => a = f x) add sum) {as : List α}
    (has : ∀ a ∈ as, ∃ x, a = f x) {g : Grouping α} (hperm : g.leaves.Perm as) :
    g.eval add sum = sum as := by
  choose! φ hφ using has
  exact (h.eval_perm hφ hperm).trans (h.sum_map hφ).symm

end IsSummation

end BlsBn254
