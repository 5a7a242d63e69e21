import Mathlib.Data.List.Pairwise

/-!
# Tables with distinct keys

A hash table is observed through the lookup of a key, and its entries may also be known by
the address they were allocated at.  The table is a list in which no two entries share a key
or an address.

* `find?_of_mem`: every entry is found under its key.
* `replace`: the entry at an address is rewritten or removed; `find?_replace` says what is
  found afterwards.
-/

namespace Mp2mp.Kit.Keyed

open List

variable {α κ ι : Type} [DecidableEq κ] [DecidableEq ι] {key : α → κ} {addr : α → ι} {x : α}

/-- Rewrite the entry at an address, or remove it. -/
def replace (addr : α → ι) (i : ι) (r : Option α) (t : List α) : List α :=
  t.filterMap fun y => if addr y = i then r else some y

variable {t : List α}

theorem find?_of_mem (hd : t.Pairwise fun a b => key a ≠ key b)
    (hx : x ∈ t) : t.find? (fun y => key y == key x) = some x := by
  induction t with
  | nil => cases hx
  | cons y ys ih =>
    obtain ⟨hy, hys⟩ := pairwise_cons.mp hd
    rcases mem_cons.mp hx with rfl | hx
    · simp
    · rw [find?_cons_of_neg (by simpa using hy x hx)]
      exact ih hys hx

/-- What is found once the entries of a key are gone. -/
theorem find?_filter_ne (t : List α) (k k' : κ) :
    (t.filter fun y => key y ≠ k).find? (fun y => key y == k') =
      if k' = k then none else t.find? fun y => key y == k' := by
  rw [find?_filter]
  by_cases hk : k' = k
  · rw [if_pos hk, find?_eq_none]
    simp [hk]
  · rw [if_neg hk]
    congr
    funext y
    by_cases hy : key y = k' <;> simp [hy, hk]

variable {r : Option α}

theorem replace_of_forall_ne {i : ι} (h : ∀ y ∈ t, addr y ≠ i) : replace addr i r t = t := by
  induction t with
  | nil => rfl
  | cons y ys ih =>
    have hrest := ih fun z hz => h z (mem_cons_of_mem _ hz)
    unfold replace at hrest ⊢
    rw [filterMap_cons, if_neg (h y mem_cons_self), hrest]

theorem mem_replace {i : ι} {y : α} :
    y ∈ replace addr i r t ↔ (y ∈ t ∧ addr y ≠ i) ∨ (r = some y ∧ ∃ x ∈ t, addr x = i) := by
  unfold replace
  rw [mem_filterMap]
  constructor
  · rintro ⟨x, hx, hy⟩
    split at hy
    · exact .inr ⟨hy, x, hx, ‹_›⟩
    · cases hy
      exact .inl ⟨hx, ‹_›⟩
  · rintro (⟨hy, hne⟩ | ⟨hr, x, hx, hi⟩)
    · exact ⟨y, hy, if_neg hne⟩
    · exact ⟨x, hx, by rw [if_pos hi, hr]⟩

/-- What is found once the entry `x` has become `r`. -/
theorem find?_replace (hd : t.Pairwise fun a b => key a ≠ key b ∧ addr a ≠ addr b) (hx : x ∈ t)
    (hr : ∀ y, r = some y → key y = key x) (k : κ) :
    (replace addr (addr x) r t).find? (fun y => key y == k) =
      if k = key x then r else t.find? fun y => key y == k := by
  induction t with
  | nil => cases hx
  | cons y ys ih =>
    obtain ⟨hy, hys⟩ := pairwise_cons.mp hd
    rcases mem_cons.mp hx with rfl | hx
    · have hrest : replace addr (addr x) r ys = ys :=
        replace_of_forall_ne fun z hz => (hy z hz).2.symm
      unfold replace at hrest ⊢
      rw [filterMap_cons, if_pos rfl, hrest]
      cases hr' : r with
      | none =>
        by_cases hk : k = key x
        · subst hk
          rw [if_pos rfl, find?_eq_none]
          intro z hz
          simpa using (hy z hz).1.symm
        · rw [if_neg hk, find?_cons_of_neg (by simpa using Ne.symm hk)]
      | some z =>
        have hz := hr z hr'
        by_cases hk : k = key x
        · rw [if_pos hk, find?_cons_of_pos (by simp [hz, hk])]
        · rw [if_neg hk, find?_cons_of_neg (by simpa [hz] using Ne.symm hk),
            find?_cons_of_neg (by simpa using Ne.symm hk)]
    · have hne := hy x hx
      have hrest := ih hys hx
      unfold replace at hrest ⊢
      rw [filterMap_cons, if_neg hne.2]
      by_cases hyk : key y = k
      · rw [find?_cons_of_pos (by simpa using hyk), find?_cons_of_pos (by simpa using hyk),
          if_neg (hyk ▸ hne.1)]
      · rw [find?_cons_of_neg (by simpa using hyk), hrest, find?_cons_of_neg (by simpa using hyk)]

omit [DecidableEq κ] in
theorem pairwise_replace (hd : t.Pairwise fun a b => key a ≠ key b ∧ addr a ≠ addr b) (hx : x ∈ t)
    (hr : ∀ y, r = some y → key y = key x ∧ addr y = addr x) :
    (replace addr (addr x) r t).Pairwise fun a b => key a ≠ key b ∧ addr a ≠ addr b := by
  have hsame : ∀ a ∈ t, addr a = addr x → a = x := by
    intro a ha haddr
    have hfind := find?_of_mem (hd.imp And.right) hx
    rw [← haddr, find?_of_mem (hd.imp And.right) ha] at hfind
    exact Option.some.inj hfind
  refine pairwise_filterMap.mpr (hd.imp_of_mem fun {a b} ha hb hab c hc d hd => ?_)
  split at hc <;> split at hd
  · exact absurd (Eq.trans ‹addr a = _› ‹addr b = _›.symm) hab.2
  · cases hd
    rwa [(hr c hc).1, (hr c hc).2, ← hsame a ha ‹_›]
  · cases hc
    rwa [(hr d hd).1, (hr d hd).2, ← hsame b hb ‹_›]
  · cases hc
    cases hd
    exact hab

end Mp2mp.Kit.Keyed
