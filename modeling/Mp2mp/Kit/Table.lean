import Mathlib

/-!
# Ordered tables

A search tree whose nodes carry their own key is observed only through lookup,
insertion, removal and the in-order walk.  `Table` is that observable part: a
list in key order, with the comparison function the tree was generated with.

Insertion refuses a key that is already present, as an intrusive tree does, and
the in-order walk is the list itself.  For a comparison that is a strict total
order the list is exactly the tree's walk; nothing here depends on balance.
-/

namespace Mp2mp.Kit.Table

open List

variable {α κ : Type} (cmp : κ → κ → Ordering) (key : α → κ)

/-- The node whose key compares equal to `k`. -/
def find (k : κ) (t : List α) : Option α := t.find? fun x => cmp k (key x) == .eq

/-- Insert `a` in key order; a table that already has its key is left alone. -/
def insert (a : α) : List α → List α
  | [] => [a]
  | x :: xs =>
    match cmp (key a) (key x) with
    | .lt => a :: x :: xs
    | .eq => x :: xs
    | .gt => x :: insert a xs

/-- Remove the node whose key compares equal to `k`. -/
def remove (k : κ) (t : List α) : List α := t.filter fun x => cmp k (key x) != .eq

/-- Rewrite in place the node whose key compares equal to `k`. -/
def modify (k : κ) (f : α → α) : List α → List α
  | [] => []
  | x :: xs => if cmp k (key x) = .eq then f x :: xs else x :: modify k f xs

/-- Keys strictly increase along the walk. -/
def Sorted (t : List α) : Prop := t.Pairwise fun x y => cmp (key x) (key y) = .lt

variable {cmp key}

variable {t : List α} {x : α} {k : κ}

theorem mem_of_find (h : find cmp key k t = some x) : x ∈ t ∧ cmp k (key x) = .eq := by
  refine ⟨mem_of_find?_eq_some h, ?_⟩
  simpa using find?_some h

theorem find_eq_none : find cmp key k t = none ↔ ∀ x ∈ t, cmp k (key x) ≠ .eq := by
  simp [find]

theorem find_isSome : (find cmp key k t).isSome ↔ ∃ x ∈ t, cmp k (key x) = .eq := by
  simp [find]

theorem subset_insert (a : α) (t : List α) : ∀ x ∈ t, x ∈ insert cmp key a t := by
  induction t with
  | nil => intro x hx; cases hx
  | cons y ys ih =>
    intro x hx
    simp only [insert]
    cases cmp (key a) (key y) with
    | lt => exact mem_cons_of_mem _ hx
    | eq => exact hx
    | gt =>
      rcases mem_cons.mp hx with rfl | hx
      · exact mem_cons_self
      · exact mem_cons_of_mem _ (ih x hx)

variable {a : α}

theorem mem_of_mem_insert (h : x ∈ insert cmp key a t) : x = a ∨ x ∈ t := by
  induction t with
  | nil => exact .inl (by simpa [insert] using h)
  | cons y ys ih =>
    simp only [insert] at h
    cases hc : cmp (key a) (key y) with
    | lt => rw [hc] at h; exact mem_cons.mp h
    | eq => rw [hc] at h; exact .inr h
    | gt =>
      rw [hc] at h
      rcases mem_cons.mp h with rfl | h
      · exact .inr mem_cons_self
      · exact (ih h).imp_right (mem_cons_of_mem _)

section

variable (h : find cmp key (key a) t = none)

include h

/-- A key that is absent is really inserted. -/
theorem insert_perm : (insert cmp key a t).Perm (a :: t) := by
  induction t with
  | nil => exact List.Perm.refl _
  | cons y ys ih =>
    rw [find_eq_none] at h
    simp only [insert]
    cases hc : cmp (key a) (key y) with
    | lt => exact List.Perm.refl _
    | eq => exact absurd hc (h y mem_cons_self)
    | gt =>
      refine ((ih ?_).cons y).trans (List.Perm.swap a y ys)
      rw [find_eq_none]
      exact fun x hx => h x (mem_cons_of_mem _ hx)

theorem mem_insert : x ∈ insert cmp key a t ↔ x = a ∨ x ∈ t := by
  rw [(insert_perm h).mem_iff, mem_cons]

theorem mem_insert_self : a ∈ insert cmp key a t :=
  (mem_insert h).mpr (.inl rfl)

end

theorem find_insert [Std.ReflCmp cmp] (a : α) (t : List α) :
    (find cmp key (key a) (insert cmp key a t)).isSome := by
  rw [find_isSome]
  cases h : find cmp key (key a) t with
  | none => exact ⟨a, mem_insert_self h, Std.ReflCmp.compare_self⟩
  | some x =>
    obtain ⟨hmem, heq⟩ := mem_of_find h
    exact ⟨x, subset_insert a t x hmem, heq⟩

/-- The first node with a property of its key, once a key with that property is inserted. -/
theorem Sorted.find?_insert [Std.TransCmp cmp] (h : Sorted cmp key t)
    {p : κ → Bool} (hp : ∀ k k', cmp k k' = .eq → p k = p k') (ha : p (key a)) :
    (insert cmp key a t).find? (fun x => p (key x)) =
      match t.find? fun x => p (key x) with
      | some x => if cmp (key a) (key x) = .lt then some a else some x
      | none => some a := by
  induction t with
  | nil => simp only [Table.insert, find?_cons, ha, find?_nil]
  | cons y ys ih =>
    obtain ⟨hy, hys⟩ := pairwise_cons.mp h
    simp only [Table.insert, find?_cons]
    cases hc : cmp (key a) (key y) with
    | lt =>
      simp only [find?_cons, ha]
      split
      · rename_i x hx
        rw [if_pos]
        split at hx
        · cases hx
          exact hc
        · exact Std.TransCmp.lt_trans hc (hy x (mem_of_find?_eq_some hx))
      · rfl
    | eq => simp [← hp _ _ hc, ha, hc]
    | gt =>
      simp only [find?_cons, ih hys]
      cases p (key y) with
      | true => simp [hc]
      | false => rfl

theorem Sorted.insert [Std.TransCmp cmp] (h : Sorted cmp key t) :
    Sorted cmp key (insert cmp key a t) := by
  induction t with
  | nil => exact pairwise_singleton _ _
  | cons y ys ih =>
    obtain ⟨hy, hys⟩ := pairwise_cons.mp h
    simp only [Table.insert]
    cases hc : cmp (key a) (key y) with
    | lt =>
      refine pairwise_cons.mpr ⟨fun x hx => ?_, h⟩
      rcases mem_cons.mp hx with rfl | hx
      · exact hc
      · exact Std.TransCmp.lt_trans hc (hy x hx)
    | eq => exact h
    | gt =>
      refine pairwise_cons.mpr ⟨fun x hx => ?_, ih hys⟩
      rcases mem_of_mem_insert hx with rfl | hx
      · exact Std.OrientedCmp.lt_of_gt hc
      · exact hy x hx

theorem Sorted.filter (p : α → Bool) (h : Sorted cmp key t) : Sorted cmp key (t.filter p) :=
  List.Pairwise.filter p h

theorem find_cons (k : κ) (x : α) (xs : List α) :
    find cmp key k (x :: xs) = if cmp k (key x) = .eq then some x else find cmp key k xs := by
  by_cases h : cmp k (key x) = .eq <;> simp [find, h]

variable {f : α → α}

theorem map_modify {β : Type} {v : α → β} (hf : ∀ x, find cmp key k t = some x → v (f x) = v x) :
    (modify cmp key k f t).map v = t.map v := by
  induction t with
  | nil => rfl
  | cons x xs ih =>
    rw [modify]
    simp only [find_cons] at hf
    split
    · rename_i h
      simp only [map_cons, hf x (if_pos h)]
    · rename_i h
      simp only [if_neg h] at hf
      simp only [map_cons, ih hf]

theorem mem_modify_find
    (h : x ∈ modify cmp key k f t) : x ∈ t ∨ ∃ y, find cmp key k t = some y ∧ f y = x := by
  induction t with
  | nil => cases h
  | cons y ys ih =>
    rw [modify] at h
    rw [find_cons]
    split at h
    · rename_i heq
      rcases mem_cons.mp h with rfl | h
      · exact .inr ⟨y, by rw [if_pos heq], rfl⟩
      · exact .inl (mem_cons_of_mem y h)
    · rename_i hne
      rcases mem_cons.mp h with rfl | h
      · exact .inl mem_cons_self
      · rcases ih h with h | ⟨z, hz, rfl⟩
        · exact .inl (mem_cons_of_mem y h)
        · exact .inr ⟨z, by rw [if_neg hne]; exact hz, rfl⟩

theorem mem_of_mem_modify (h : x ∈ modify cmp key k f t) : x ∈ t ∨ ∃ y ∈ t, f y = x :=
  (mem_modify_find h).imp_right fun ⟨y, hy, heq⟩ => ⟨y, mem_of_find?_eq_some hy, heq⟩

theorem find_modify (hf : ∀ x, key (f x) = key x) (k : κ) (t : List α) :
    find cmp key k (modify cmp key k f t) = (find cmp key k t).map f := by
  induction t with
  | nil => rfl
  | cons x xs ih =>
    rw [modify, find_cons]
    split
    · rename_i h
      rw [find_cons, if_pos (by rw [hf, h]), Option.map_some]
    · rename_i h
      rw [find_cons, if_neg h, ih]

theorem find_modify_of_ne (hf : ∀ x, key (f x) = key x) {k' : κ}
    (hk : ∀ x, cmp k (key x) = .eq → cmp k' (key x) ≠ .eq) (t : List α) :
    find cmp key k' (modify cmp key k f t) = find cmp key k' t := by
  induction t with
  | nil => rfl
  | cons x xs ih =>
    rw [modify, find_cons]
    split
    · rename_i h
      rw [find_cons, if_neg (by rw [hf]; exact hk x h), if_neg (hk x h)]
    · rw [find_cons, ih]

theorem modify_modify {g : α → α} (hf : ∀ x, key (f x) = key x) (k : κ) (t : List α) :
    modify cmp key k g (modify cmp key k f t) = modify cmp key k (fun x => g (f x)) t := by
  induction t with
  | nil => rfl
  | cons x xs ih =>
    rw [modify, modify]
    split
    · rename_i h
      rw [modify, if_pos (by rw [hf, h])]
    · rename_i h
      rw [modify, if_neg h, ih]

theorem Sorted.eq_of_cmp [Std.OrientedCmp cmp] (h : Sorted cmp key t) {y : α}
    (hx : x ∈ t) (hy : y ∈ t) (hk : cmp (key x) (key y) = .eq) : x = y := by
  induction t with
  | nil => cases hx
  | cons z zs ih =>
    obtain ⟨hz, hzs⟩ := pairwise_cons.mp h
    rcases mem_cons.mp hx with rfl | hx'
    · rcases mem_cons.mp hy with rfl | hy'
      · rfl
      · cases hk.symm.trans (hz y hy')
    · rcases mem_cons.mp hy with rfl | hy'
      · cases (Std.OrientedCmp.eq_symm hk).symm.trans (hz x hx')
      · exact ih hzs hx' hy'

theorem Sorted.insert_of_find [Std.TransCmp cmp] (h : Sorted cmp key t)
    (hfind : (find cmp key (key a) t).isSome) : Table.insert cmp key a t = t := by
  induction t with
  | nil => cases hfind
  | cons y ys ih =>
    obtain ⟨hy, hys⟩ := pairwise_cons.mp h
    obtain ⟨x, hx, heq⟩ := find_isSome.mp hfind
    simp only [Table.insert]
    cases hc : cmp (key a) (key y) with
    | eq => rfl
    | lt =>
      rcases mem_cons.mp hx with rfl | hx
      · cases heq.symm.trans hc
      · cases heq.symm.trans (Std.TransCmp.lt_trans hc (hy x hx))
    | gt =>
      rw [find_cons, if_neg (by rw [hc]; nofun)] at hfind
      rw [ih hys hfind]

theorem find_insert_of_ne (h : cmp k (key a) ≠ .eq) (t : List α) :
    find cmp key k (insert cmp key a t) = find cmp key k t := by
  induction t with
  | nil => rw [insert, find_cons, if_neg h]
  | cons y ys ih =>
    rw [insert]
    cases cmp (key a) (key y) with
    | lt => dsimp only; rw [find_cons, if_neg h]
    | eq => rfl
    | gt => dsimp only; rw [find_cons, find_cons, ih]

theorem find_insert_self [Std.ReflCmp cmp]
    (h : find cmp key (key a) t = none) : find cmp key (key a) (insert cmp key a t) = some a := by
  have hsome : (find cmp key (key a) (insert cmp key a t)).isSome := find_insert a t
  obtain ⟨x, hx⟩ := Option.isSome_iff_exists.mp hsome
  obtain ⟨hmem, heq⟩ := mem_of_find hx
  rcases mem_of_mem_insert hmem with rfl | hmem
  · exact hx
  · exact absurd heq (find_eq_none.mp h x hmem)

theorem find_remove_self (k : κ) (t : List α) : find cmp key k (remove cmp key k t) = none := by
  rw [find_eq_none]
  intro x hx
  simpa using (mem_filter.mp hx).2

theorem find_remove_of_ne {k' : κ} (hk : ∀ x, cmp k (key x) = .eq → cmp k' (key x) ≠ .eq)
    (t : List α) : find cmp key k' (remove cmp key k t) = find cmp key k' t := by
  induction t with
  | nil => rfl
  | cons x xs ih =>
    unfold remove at ih ⊢
    rw [filter_cons]
    split
    · rw [find_cons, find_cons, ih]
    · rename_i h
      rw [find_cons, if_neg (hk x (by simpa using h)), ih]

theorem Sorted.find_eq_some [Std.TransCmp cmp] (h : Sorted cmp key t)
    (hx : x ∈ t) : find cmp key (key x) t = some x := by
  have hself : cmp (key x) (key x) = .eq := Std.ReflCmp.compare_self
  obtain ⟨y, hy⟩ := Option.isSome_iff_exists.mp (find_isSome.mpr ⟨x, hx, hself⟩)
  obtain ⟨hmem, heq⟩ := mem_of_find hy
  rw [hy, h.eq_of_cmp hx hmem heq]

theorem Sorted.find_filter [Std.TransCmp cmp] (h : Sorted cmp key t) (p : α → Bool)
    (k : κ) : find cmp key k (t.filter p) = (find cmp key k t).filter p := by
  induction t with
  | nil => rfl
  | cons y ys ih =>
    obtain ⟨hlt, hys⟩ := pairwise_cons.mp h
    rw [find_cons]
    split
    · rename_i hk
      cases hp : p y with
      | true => rw [filter_cons_of_pos hp, find_cons, if_pos hk, Option.filter_some_pos hp]
      | false =>
        rw [filter_cons_of_neg (by simp [hp]), Option.filter_some_neg (by simp [hp]), find_eq_none]
        intro x hx
        rw [Std.TransCmp.congr_left hk, hlt x (mem_of_mem_filter hx)]
        exact nofun
    · rename_i hk
      rw [← ih hys]
      cases hp : p y with
      | true => rw [filter_cons_of_pos hp, find_cons, if_neg hk]
      | false => rw [filter_cons_of_neg (by simp [hp])]

theorem Sorted.remove_eq [Std.TransCmp cmp] [DecidableEq α] (h : Sorted cmp key t)
    {m : α} (hm : m ∈ t) : remove cmp key (key m) t = t.filter fun x => x ≠ m := by
  refine filter_congr fun x hx => ?_
  rw [Bool.eq_iff_iff, bne_iff_ne, decide_eq_true_iff]
  refine not_congr ⟨fun hc => (h.eq_of_cmp hm hx hc).symm, ?_⟩
  rintro rfl
  exact Std.ReflCmp.compare_self

end Mp2mp.Kit.Table

namespace Mp2mp.Kit

/-! ## Entries in two containers -/

/-- The entry of `k` for `i` is on the list of `i` if and only if `k` holds it, and is there once. -/
structure Linked {κ ι : Type} (entry : κ → ι → Prop) (list : ι → List κ) : Prop where
  mem : ∀ k i, k ∈ list i ↔ entry k i
  nodup : ∀ i, (list i).Nodup

namespace Linked

variable {κ ι : Type} {entry entry' : κ → ι → Prop} {list list' : ι → List κ} {k : κ} {i : ι}

/-- A new entry goes to the front of its list. -/
theorem add [DecidableEq ι] (h : Linked entry list) (hnew : ¬entry k i)
    (hentry : ∀ k' i', entry' k' i' ↔ (k' = k ∧ i' = i) ∨ entry k' i')
    (hlist : ∀ i', list' i' = if i' = i then k :: list i' else list i') : Linked entry' list' := by
  refine ⟨fun k' i' => ?_, fun i' => ?_⟩
  · rw [hlist, hentry]
    split
    · rename_i hi
      rw [List.mem_cons, h.mem, hi]
      simp
    · rename_i hi
      rw [h.mem]
      simp [hi]
  · rw [hlist]
    split
    · rename_i hi
      rw [hi]
      exact List.nodup_cons.mpr ⟨fun hmem => hnew ((h.mem k i).mp hmem), h.nodup i⟩
    · exact h.nodup i'

/-- An entry is taken out of both containers. -/
theorem del [DecidableEq κ] [DecidableEq ι] (h : Linked entry list)
    (hentry : ∀ k' i', entry' k' i' ↔ ¬(k' = k ∧ i' = i) ∧ entry k' i')
    (hlist : ∀ i', list' i' = if i' = i then (list i').erase k else list i') :
    Linked entry' list' := by
  refine ⟨fun k' i' => ?_, fun i' => ?_⟩
  · rw [hlist, hentry]
    split
    · rename_i hi
      rw [(h.nodup i').mem_erase_iff, h.mem, hi]
      simp
    · rename_i hi
      rw [h.mem]
      simp [hi]
  · rw [hlist]
    split
    · exact (h.nodup i').erase k
    · exact h.nodup i'

theorem congr (h : Linked entry list) (hentry : ∀ k i, entry' k i ↔ entry k i)
    (hlist : ∀ i, list' i = list i) : Linked entry' list' :=
  ⟨fun k i => by rw [hlist, hentry]; exact h.mem k i, fun i => by rw [hlist]; exact h.nodup i⟩

end Linked

end Mp2mp.Kit
