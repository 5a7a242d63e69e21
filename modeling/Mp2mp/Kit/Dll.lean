import Mathlib

/-!
# Doubly linked lists

Cells at addresses, each with a `next` and a `prev` pointer.  A list is given by its head;
`Chain` relates the pointers to the list of addresses they make up.

* `Chain.nodup`: no cell occurs twice.
* `Chain.push`, `Chain.unlink`: a cell is put in front or taken out.
* `Chain.push_frame`, `Chain.unlink_frame`: lists without a cell in common are left alone.
* `Lists`: a family of lists that share their cells holds each cell where `place` puts it;
  `Lists.push`, `Lists.unlink` and `Lists.detach` say where the cells are afterwards.
-/

namespace Mp2mp.Kit

open List Function Option

/-- The pointers of all cells. -/
structure Links (α : Type*) where
  next : α → Option α
  prev : α → Option α

namespace Links

section Operations

variable {α : Type*} [DecidableEq α]

def setNext (k : Links α) (a : α) (b : Option α) : Links α :=
  { k with next := update k.next a b }

def setPrev (k : Links α) (a : α) (b : Option α) : Links α :=
  { k with prev := update k.prev a b }

/-- Put `a` in front of the list at `head`. -/
def push (k : Links α) (head : Option α) (a : α) : Links α :=
  let k := (k.setPrev a none).setNext a head
  match head with
  | some h => k.setPrev h (some a)
  | none => k

/-- Take `a` out of the list at `head`, which may have another head then. -/
def unlink (k : Links α) (head : Option α) (a : α) : Links α × Option α :=
  let k := match k.next a with
    | some n => k.setPrev n (k.prev a)
    | none => k
  match k.prev a with
  | some p => (k.setNext p (k.next a), head)
  | none => (k, k.next a)

theorem push_next {k : Links α} {head : Option α} (a b : α) :
    (k.push head a).next b = if b = a then head else k.next b := by
  cases head <;> simp [push, setNext, setPrev, update_apply]

theorem push_prev {k : Links α} {head : Option α} (a b : α) : (k.push head a).prev b =
      if head = some b then some a else if b = a then none else k.prev b := by
  cases head with
  | none => simp [push, setNext, setPrev, update_apply]
  | some h => simp [push, setNext, setPrev, update_apply, eq_comm]

section Unlink

variable {k : Links α} {a : α} (acyclic : k.next a ≠ some a)

include acyclic

theorem unlink_eq (head : Option α) : k.unlink head a =
      let k' := match k.next a with
        | some n => k.setPrev n (k.prev a)
        | none => k
      match k.prev a with
      | some p => (k'.setNext p (k.next a), head)
      | none => (k', k.next a) := by
  unfold unlink
  cases next : k.next a with
  | none => simp [next]
  | some n =>
    have differ : a ≠ n := fun same => acyclic (by rw [next, same])
    simp only [setPrev, update_of_ne differ, next]

theorem unlink_next (head : Option α) (b : α) :
    (k.unlink head a).1.next b = if k.prev a = some b then k.next a else k.next b := by
  rw [unlink_eq acyclic]
  cases next : k.next a <;> cases prev : k.prev a <;>
    simp [setNext, setPrev, update_apply, eq_comm]

theorem unlink_prev (head : Option α) (b : α) :
    (k.unlink head a).1.prev b = if k.next a = some b then k.prev a else k.prev b := by
  rw [unlink_eq acyclic]
  cases next : k.next a <;> cases prev : k.prev a <;>
    simp [setNext, setPrev, update_apply, eq_comm]

theorem unlink_head (head : Option α) :
    (k.unlink head a).2 = if k.prev a = none then k.next a else head := by
  rw [unlink_eq acyclic]
  cases k.prev a <;> rfl

end Unlink

end Operations

/-! ## Chains -/

section Chains

variable {α : Type*} {k k' : Links α} {p cur head : Option α} {a : α} {l l' : List α}

/-- From `cur` on the cells `l` are linked both ways, the first one back to `p`. -/
def Chain (k : Links α) : Option α → Option α → List α → Prop
  | _, cur, [] => cur = none
  | p, cur, a :: l => cur = some a ∧ k.prev a = p ∧ k.Chain (some a) (k.next a) l

/-- From `cur` on the `next` pointers lead along `l`. -/
def Walk (k : Links α) : Option α → List α → Prop
  | cur, [] => cur = none
  | cur, a :: l => cur = some a ∧ k.Walk (k.next a) l

theorem Chain.walk (h : k.Chain p cur l) : k.Walk cur l := by
  induction l generalizing p cur with
  | nil => exact h
  | cons a l ih => exact ⟨h.1, ih h.2.2⟩

theorem Walk.congr (h : k.Walk cur l) (same : ∀ a ∈ l, k'.next a = k.next a) : k'.Walk cur l := by
  induction l generalizing cur with
  | nil => exact h
  | cons a l ih =>
    refine ⟨h.1, ?_⟩
    rw [same a (by simp)]
    exact ih h.2 fun b hb => same b (by simp [hb])

theorem Walk.unique (h : k.Walk cur l) (h' : k.Walk cur l') : l = l' := by
  induction l generalizing cur l' with
  | nil =>
    cases l' with
    | nil => rfl
    | cons b l' => exact absurd (h'.1.symm.trans h) (by simp)
  | cons a l ih =>
    cases l' with
    | nil => exact absurd (h.1.symm.trans h') (by simp)
    | cons b l' =>
      cases h.1.symm.trans h'.1
      rw [ih h.2 h'.2]

theorem Walk.of_append {l₁ l₂ : List α} (h : k.Walk cur (l₁ ++ a :: l₂)) :
    k.Walk (some a) (a :: l₂) := by
  induction l₁ generalizing cur with
  | nil => exact ⟨rfl, h.2⟩
  | cons b l₁ ih => exact ih h.2

/-- A list that ends does not come back to a cell. -/
theorem Walk.nodup (h : k.Walk cur l) : l.Nodup := by
  induction l generalizing cur with
  | nil => exact nodup_nil
  | cons a l ih =>
    refine nodup_cons.mpr ⟨fun again => ?_, ih h.2⟩
    obtain ⟨l₁, l₂, rfl⟩ := append_of_mem again
    have same := Walk.unique (h.1 ▸ h) (Walk.of_append h.2)
    have := congrArg List.length same
    simp only [length_cons, length_append] at this
    omega

section

variable (h : k.Chain p cur l)

include h

theorem Chain.nodup : l.Nodup := h.walk.nodup

theorem Chain.congr
    (same : ∀ a ∈ l, k'.next a = k.next a ∧ k'.prev a = k.prev a) : k'.Chain p cur l := by
  induction l generalizing p cur with
  | nil => exact h
  | cons a l ih =>
    obtain ⟨next, prev⟩ := same a (by simp)
    refine ⟨h.1, prev.trans h.2.1, ?_⟩
    rw [next]
    exact ih h.2.2 fun b hb => same b (by simp [hb])

/-- The pointers of a cell lead to cells of the list, and not back to itself. -/
theorem Chain.neighbors (mem : a ∈ l) :
    (∀ b, k.next a = some b → b ∈ l) ∧ (∀ b, k.prev a = some b → p = some b ∨ b ∈ l) := by
  induction l generalizing p cur with
  | nil => exact absurd mem (by simp)
  | cons x l ih =>
    rcases mem_cons.mp mem with rfl | mem
    · refine ⟨fun b next => ?_, fun b prev => .inl (h.2.1.symm.trans prev)⟩
      cases l with
      | nil => exact absurd (next.symm.trans h.2.2) (by simp)
      | cons y l =>
        cases next.symm.trans h.2.2.1
        simp
    · obtain ⟨next, prev⟩ := ih h.2.2 mem
      refine ⟨fun b hb => mem_cons_of_mem _ (next b hb), fun b hb => .inr ?_⟩
      rcases prev b hb with first | hb
      · rw [some.inj first]
        exact mem_cons_self
      · exact mem_cons_of_mem _ hb

theorem Chain.head_mem (first : cur = some a) : a ∈ l := by
  cases l with
  | nil => exact absurd (first.symm.trans h) (by simp)
  | cons x l =>
    cases first.symm.trans h.1
    exact mem_cons_self

end

theorem Chain.prev_ne_none {b : α} (h : k.Chain (some b) cur l) (mem : a ∈ l) :
    k.prev a ≠ none := by
  induction l generalizing b cur with
  | nil => exact absurd mem (by simp)
  | cons x l ih =>
    rcases mem_cons.mp mem with rfl | mem
    · rw [h.2.1]
      simp
    · exact ih h.2.2 mem

theorem Chain.acyclic (h : k.Chain p cur l) (mem : a ∈ l) : k.next a ≠ some a := by
  obtain ⟨l₁, l₂, rfl⟩ := append_of_mem mem
  intro loop
  have here := h.walk.of_append
  cases l₂ with
  | nil => exact absurd (loop.symm.trans here.2) (by simp)
  | cons b l₂ =>
    cases loop.symm.trans here.2.1
    exact absurd here.nodup (by simp)

variable [DecidableEq α]

theorem Chain.push (h : k.Chain none head l) (fresh : a ∉ l) :
    (k.push head a).Chain none (some a) (a :: l) := by
  have apart : head ≠ some a := by
    cases l with
    | nil => rw [show head = none from h]; simp
    | cons b l =>
      rw [h.1]
      intro same
      exact fresh (by simp [some.inj same])
  refine ⟨rfl, ?_, ?_⟩
  · rw [push_prev, if_neg apart, if_pos rfl]
  · rw [push_next, if_pos rfl]
    cases l with
    | nil => exact h
    | cons b l =>
      have nodup := nodup_cons.mp h.nodup
      have differ : ∀ x ∈ b :: l, x ≠ a := fun x hx same => fresh (same ▸ hx)
      refine ⟨h.1, by rw [push_prev, if_pos h.1], ?_⟩
      rw [push_next, if_neg (differ b (by simp))]
      apply h.2.2.congr
      intro x hx
      have notFirst : head ≠ some x := by
        rw [h.1]
        intro same
        exact nodup.1 (by rwa [some.inj same])
      rw [push_next, push_prev, if_neg (differ x (by simp [hx])), if_neg notFirst,
        if_neg (differ x (by simp [hx]))]
      exact ⟨rfl, rfl⟩

theorem Chain.push_frame (h : k.Chain p cur l) (fresh : a ∉ l) (apart : ∀ b ∈ head, b ∉ l) :
    (k.push head a).Chain p cur l := by
  apply h.congr
  intro x hx
  have differ : x ≠ a := fun same => fresh (same ▸ hx)
  have notFirst : head ≠ some x := fun same => apart x same hx
  rw [push_next, push_prev, if_neg differ, if_neg notFirst, if_neg differ]
  exact ⟨rfl, rfl⟩

theorem Walk.push (h : k.Walk cur l) (fresh : a ∉ l) : (k.push head a).Walk cur l :=
  h.congr fun x hx => by rw [push_next, if_neg (ne_of_mem_of_not_mem hx fresh)]

/-- What is left when a cell is taken out, with `l₁` before and `l₂` after it. -/
theorem Chain.unlink_append {l₁ l₂ : List α} (h : k.Chain p cur (l₁ ++ a :: l₂))
    (before : ∀ b ∈ p, b ∉ l₁ ++ a :: l₂) (head : Option α) :
    (k.unlink head a).1.Chain p (if l₁ = [] then k.next a else cur) (l₁ ++ l₂) := by
  have acyclic : k.next a ≠ some a := h.acyclic (by simp)
  induction l₁ generalizing p cur with
  | nil =>
    rw [if_pos rfl]
    obtain ⟨-, prev, rest⟩ := h
    cases l₂ with
    | nil => exact rest
    | cons b l₂ =>
      have nodup := nodup_cons.mp rest.nodup
      obtain ⟨next, -, rest⟩ := rest
      have untouched : ∀ x ∈ b :: l₂, k.prev a ≠ some x := by
        intro x hx same
        exact before x (prev ▸ same) (mem_cons_of_mem _ hx)
      refine ⟨next, by rw [unlink_prev acyclic, if_pos next, prev], ?_⟩
      rw [unlink_next acyclic, if_neg (untouched b (by simp))]
      apply rest.congr
      intro x hx
      have later : k.next a ≠ some x := by
        rw [next]
        intro same
        exact nodup.1 (by rwa [some.inj same])
      rw [unlink_next acyclic, unlink_prev acyclic, if_neg (untouched x (by simp [hx])),
        if_neg later]
      exact ⟨rfl, rfl⟩
  | cons x l₁ ih =>
    have nodup := nodup_cons.mp h.nodup
    obtain ⟨first, prev, rest⟩ := h
    have inner := ih rest (fun b hb => by rw [← some.inj hb]; exact nodup.1)
    have notNext : k.next a ≠ some x := by
      intro same
      exact nodup.1 ((rest.neighbors (show a ∈ l₁ ++ a :: l₂ by simp)).1 x same)
    rw [if_neg (by simp), cons_append]
    refine ⟨first, by rw [unlink_prev acyclic, if_neg notNext, prev], ?_⟩
    rw [unlink_next acyclic]
    cases l₁ with
    | nil =>
      rw [if_pos rest.2.1]
      rwa [if_pos rfl] at inner
    | cons y l₁ =>
      rw [if_neg (by simp)] at inner
      rw [if_neg]
      · exact inner
      · intro same
        -- the cell before `a` is in `y :: l₁`
        rcases (rest.2.2.neighbors (show a ∈ l₁ ++ a :: l₂ by simp)).2 x same with here | mem
        · exact nodup.1 (by simp [some.inj here])
        · exact nodup.1 (mem_cons_of_mem _ mem)

theorem Chain.unlink (h : k.Chain none head l) (mem : a ∈ l) :
    (k.unlink head a).1.Chain none (k.unlink head a).2 (l.erase a) := by
  have acyclic := h.acyclic mem
  have nodup := h.nodup
  obtain ⟨l₁, l₂, rfl⟩ := append_of_mem mem
  have left := h.unlink_append (by simp) head
  have fresh : a ∉ l₁ := fun again => (nodup_append.mp nodup).2.2 a again a (by simp) rfl
  rw [erase_append_right _ fresh, erase_cons_head, unlink_head acyclic]
  cases l₁ with
  | nil =>
    rw [if_pos rfl] at left
    rwa [if_pos h.2.1]
  | cons x l₁ =>
    rw [if_neg (by simp)] at left
    rwa [if_neg (h.2.2.prev_ne_none (by simp))]

theorem Chain.unlink_frame (h : k.Chain none head l) (mem : a ∈ l) {head' : Option α}
    (other : k.Chain p cur l') (apart : ∀ b ∈ l, b ∉ l') :
    (k.unlink head' a).1.Chain p cur l' := by
  obtain ⟨next, prev⟩ := h.neighbors mem
  have acyclic := h.acyclic mem
  apply other.congr
  intro x hx
  have notNext : k.next a ≠ some x := fun same => apart x (next x same) hx
  have notPrev : k.prev a ≠ some x := by
    intro same
    rcases prev x same with none | mem
    · exact absurd none (by simp)
    · exact apart x mem hx
  rw [unlink_next acyclic, unlink_prev acyclic, if_neg notPrev, if_neg notNext]
  exact ⟨rfl, rfl⟩

end Chains

/-! ## Families of lists -/

section Families

variable {α κ : Type*} {k : Links α} {head : κ → Option α} {place place' : α → Option κ} {a : α}
  {i : κ}

/-- The list at each head is well formed and holds the cells that `place` puts there. -/
def Lists (k : Links α) (head : κ → Option α) (place : α → Option κ) : Prop :=
  ∃ cells : κ → List α, (∀ i, k.Chain none (head i) (cells i)) ∧
    ∀ a i, a ∈ cells i ↔ place a = some i

theorem Lists.congr (h : k.Lists head place) (same : ∀ a, place' a = place a) :
    k.Lists head place' := by
  obtain rfl : place' = place := funext same
  exact h

theorem Lists.empty (k : Links α) : k.Lists (fun _ : κ => none) fun _ => none :=
  ⟨fun _ => [], fun _ => rfl, by simp⟩

variable [DecidableEq α] [DecidableEq κ]

theorem Lists.push (h : k.Lists head place) (free : place a = none) (i : κ) :
    (k.push (head i) a).Lists (update head i (some a))
      (update place a (some i)) := by
  obtain ⟨cells, chains, placed⟩ := h
  have fresh : ∀ j, a ∉ cells j := by
    intro j mem
    simp [(placed a j).mp mem] at free
  refine ⟨update cells i (a :: cells i), fun j => ?_, fun b j => ?_⟩
  · by_cases same : j = i
    · subst same
      rw [update_self, update_self]
      exact (chains j).push (fresh j)
    · rw [update_of_ne same, update_of_ne same]
      apply (chains j).push_frame (fresh j)
      intro b first mem
      -- the first cell of the list at `i` is in that list only
      have here : b ∈ cells i := (chains i).head_mem first
      rw [placed] at here mem
      exact same (some.inj (mem.symm.trans here))
  · by_cases same : j = i
    · subst same
      rw [update_self, mem_cons, placed, update_apply]
      split
      · simp [*]
      · simp [*]
    · rw [update_of_ne same, placed, update_apply]
      split
      · simp [*, Ne.symm same]
      · rfl

theorem Lists.unlink (h : k.Lists head place) (here : place a = some i) :
    (k.unlink (head i) a).1.Lists (update head i (k.unlink (head i) a).2)
      (update place a none) := by
  obtain ⟨cells, chains, placed⟩ := h
  have mem : a ∈ cells i := (placed a i).mpr here
  refine ⟨update cells i ((cells i).erase a), fun j => ?_, fun b j => ?_⟩
  · by_cases same : j = i
    · subst same
      rw [update_self, update_self]
      exact (chains j).unlink mem
    · rw [update_of_ne same, update_of_ne same]
      apply (chains i).unlink_frame mem (chains j)
      intro b first second
      rw [placed] at first second
      exact same (some.inj (second.symm.trans first))
  · by_cases same : j = i
    · subst same
      rw [update_self, (chains j).nodup.mem_erase_iff, placed, update_apply]
      split <;> simp [*]
    · rw [update_of_ne same, placed, update_apply]
      split
      · simp [*, Ne.symm same]
      · rfl

/-- A list whose head is forgotten can still be walked. -/
theorem Lists.detach (h : k.Lists head place) (i : κ) :
    ∃ l, k.Walk (head i) l ∧ (∀ a, a ∈ l ↔ place a = some i) ∧
      k.Lists (update head i none) fun a => if a ∈ l then none else place a := by
  obtain ⟨cells, chains, placed⟩ := h
  refine ⟨cells i, (chains i).walk, fun a => placed a i, update cells i [],
    fun j => ?_, fun b j => ?_⟩
  · by_cases same : j = i
    · subst same
      rw [update_self, update_self]
      rfl
    · rw [update_of_ne same, update_of_ne same]
      exact chains j
  · by_cases same : j = i
    · subst same
      simp [placed]
    · rw [update_of_ne same, placed]
      dsimp only
      split
      · next mem =>
          rw [(placed b i).mp mem]
          simp [Ne.symm same]
      · rfl

end Families

end Links

end Mp2mp.Kit
