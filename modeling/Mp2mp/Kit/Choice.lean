import Mathlib

/-!
# Choosing the best element

A loop keeps the better of what it has and what it sees.  With a comparison that is
transitive and tells the candidates apart, what it ends with is the least candidate, so the
order in which they come does not matter.

* `Least.unique`: there is one least element.
* `foldl_keep_least`: the loop finds it.
* `foldl_keep_congr`: lists with the same elements have the same best one.
-/

namespace Mp2mp.Kit

open Std

section

variable {α : Type*} {cmp : α → α → Ordering} {S : α → Prop}

/-- Keep what there is unless `x` is less. -/
def keep (cmp : α → α → Ordering) : Option α → α → Option α
  | none, x => some x
  | some a, x => if cmp x a = .lt then some x else some a

theorem mem_keep {a : Option α} {x y : α} (h : y ∈ keep cmp a x) : y ∈ a ∨ y = x := by
  cases a with
  | none => exact .inr (Option.some.inj h).symm
  | some a =>
    rw [keep] at h
    split at h
    · exact .inr (Option.some.inj h).symm
    · exact .inl h

/-- `m` is among the candidates and less than every other one. -/
def Least (cmp : α → α → Ordering) (S : α → Prop) (m : α) : Prop :=
  S m ∧ ∀ x, S x → x ≠ m → cmp m x = .lt

theorem not_lt_both [OrientedCmp cmp] {x y : α} (h : cmp x y = .lt) : cmp y x ≠ .lt := by
  rw [OrientedCmp.gt_iff_lt.mpr h]
  decide

theorem Least.unique [OrientedCmp cmp] {m m' : α} (h : Least cmp S m)
    (h' : Least cmp S m') : m = m' := by
  by_contra differ
  exact not_lt_both (h.2 m' h'.1 (Ne.symm differ)) (h'.2 m h.1 differ)

theorem Least.eq_iff [OrientedCmp cmp] {m x : α} (h : Least cmp S m) (hx : S x) :
    x = m ↔ ∀ y, S y → y ≠ x → cmp x y = .lt := by
  constructor
  · rintro rfl
    exact h.2
  · intro least
    exact Least.unique ⟨hx, least⟩ h

theorem Least.congr {S' : α → Prop} {m : α} (same : ∀ x, S x ↔ S' x) (h : Least cmp S m) :
    Least cmp S' m :=
  ⟨(same m).mp h.1, fun x hx => h.2 x ((same x).mpr hx)⟩

/-- One more candidate: the least one so far, or the new one. -/
theorem Least.step [TransCmp cmp] {m x : α} (h : Least cmp S m) (apart : x ≠ m → cmp x m ≠ .eq) :
    Least cmp (fun y => S y ∨ y = x) (if cmp x m = .lt then x else m) := by
  split
  · next less =>
      refine ⟨.inr rfl, fun y hy differ => ?_⟩
      rcases hy with hy | same
      · by_cases first : y = m
        · rwa [first]
        · exact TransCmp.lt_trans less (h.2 y hy first)
      · exact absurd same differ
  · next notLess =>
      refine ⟨.inl h.1, fun y hy differ => ?_⟩
      rcases hy with hy | rfl
      · exact h.2 y hy differ
      · have greater : cmp y m = .gt := by
          cases order : cmp y m with
          | lt => exact absurd order notLess
          | eq => exact absurd order (apart differ)
          | gt => rfl
        exact OrientedCmp.gt_iff_lt.mp greater

/-- The loop from a least candidate ends with the least candidate. -/
theorem Least.foldl_keep [TransCmp cmp] {a : α} {l : List α} (h : Least cmp S a)
    (apart : ∀ x y, S x ∨ x ∈ l → S y ∨ y ∈ l → x ≠ y → cmp x y ≠ .eq) :
    ∃ m, l.foldl (keep cmp) (some a) = some m ∧ Least cmp (fun y => S y ∨ y ∈ l) m := by
  induction l generalizing S a with
  | nil => exact ⟨a, rfl, h.congr (by simp)⟩
  | cons x l ih =>
    have next := h.step (apart x a (by simp) (.inl h.1))
    obtain ⟨m, run, least⟩ := ih next fun y z hy hz =>
      apart y z (by simpa [or_assoc] using hy) (by simpa [or_assoc] using hz)
    refine ⟨m, ?_, least.congr (by simp [or_assoc])⟩
    rw [List.foldl_cons, ← run, keep]
    split <;> rfl

theorem foldl_keep_least [TransCmp cmp] {l : List α}
    (apart : ∀ x ∈ l, ∀ y ∈ l, x ≠ y → cmp x y ≠ .eq) {m : α} :
    l.foldl (keep cmp) none = some m ↔ Least cmp (· ∈ l) m := by
  cases l with
  | nil => simp [Least]
  | cons a l =>
    have alone : Least cmp (· = a) a := ⟨rfl, fun x same differ => absurd same differ⟩
    obtain ⟨m', run, least⟩ := alone.foldl_keep (l := l) fun x y hx hy =>
      apart x (by simpa using hx) y (by simpa using hy)
    have least : Least cmp (· ∈ a :: l) m' := least.congr (by simp)
    rw [List.foldl_cons, keep, run, Option.some.injEq]
    constructor
    · rintro rfl
      exact least
    · exact fun h => least.unique h

/-- The best element does not depend on the order of the list. -/
theorem foldl_keep_congr [TransCmp cmp] {l l' : List α} (same : ∀ x, x ∈ l ↔ x ∈ l')
    (apart : ∀ x ∈ l, ∀ y ∈ l, x ≠ y → cmp x y ≠ .eq) :
    l.foldl (keep cmp) none = l'.foldl (keep cmp) none := by
  have apart' : ∀ x ∈ l', ∀ y ∈ l', x ≠ y → cmp x y ≠ .eq :=
    fun x hx y hy => apart x ((same x).mpr hx) y ((same y).mpr hy)
  ext m
  rw [foldl_keep_least apart, foldl_keep_least apart']
  exact ⟨Least.congr same, Least.congr fun x => (same x).symm⟩

end

end Mp2mp.Kit
