import Mathlib.Data.List.Nodup

/-!
# Pools of shared objects

Objects that are compared by value and shared: a table holds one object of each value, with the
number of references to it.  Objects that are not in the table have no references.

* `Pool.Balanced`: the counters are right, the table holds the objects that are referenced, and
  no two of them are the same by value.
* `intern_spec`, `internCopy_spec`, `take_spec`, `unintern_spec`: what the operations do to the
  references.
-/

namespace Mp2mp.Kit

open Function Option List

/-- Objects by address, each with a value and a counter, and the addresses in the table. -/
structure Pool (κ : Type*) where
  obj : Nat → Option (κ × Nat)
  table : List Nat
  fresh : Nat

namespace Pool

variable {κ : Type*} (cmp : κ → κ → Bool) {y x n : Nat} {table : List Nat}

def empty : Pool κ := ⟨fun _ => none, [], 0⟩

/-- The object in the table with a value. -/
def lookup (p : Pool κ) (v : κ) : Option Nat :=
  p.table.find? fun y => (p.obj y).any fun o => cmp o.1 v

def alloc (p : Pool κ) (v : κ) : Pool κ :=
  { p with obj := update p.obj p.fresh (some (v, 0)), fresh := p.fresh + 1 }

def take (p : Pool κ) (y : Nat) : Option (Pool κ) :=
  (p.obj y).map fun o => { p with obj := update p.obj y (some (o.1, o.2 + 1)) }

def free (p : Pool κ) (x : Nat) : Pool κ := { p with obj := update p.obj x none }

/-- Intern an object: the one in the table with its value takes its place. -/
def intern (p : Pool κ) (x : Nat) : Option (Nat × Pool κ) := do
  let o ← p.obj x
  match p.lookup cmp o.1 with
  | some y => ((if y ≠ x then p.free x else p).take y).map (y, ·)
  | none => ({ p with table := x :: p.table }.take x).map (x, ·)

def internCopy (p : Pool κ) (v : κ) : Option (Nat × Pool κ) :=
  match p.lookup cmp v with
  | some y => (p.take y).map (y, ·)
  | none => ({ p.alloc v with table := p.fresh :: p.table }.take p.fresh).map (p.fresh, ·)

/-- Give up a reference; the object goes with the last one.  With `asserts` it must be in the
table then. -/
def unintern (asserts : Bool) (p : Pool κ) (y : Nat) : Option (Pool κ) := do
  let o ← p.obj y
  if o.2 - 1 = 0 then
    match p.lookup cmp o.1 with
    | some z => some { p.free y with table := p.table.erase z }
    | none => if asserts then none else some (p.free y)
  else some { p with obj := update p.obj y (some (o.1, o.2 - 1)) }

def value (p : Pool κ) (y : Nat) : Option κ := (p.obj y).map Prod.fst

/-- The counters are right, and the table holds one object of each value that is referenced. -/
structure Balanced (p : Pool κ) (refs : Nat → Nat) : Prop where
  count : ∀ y v n, p.obj y = some (v, n) → n = refs y
  live : ∀ y, 0 < refs y → (p.obj y).isSome
  mem_table : ∀ y, y ∈ p.table ↔ 0 < refs y
  nodup : p.table.Nodup
  distinct : ∀ y z v w m n, p.obj y = some (v, m + 1) → p.obj z = some (w, n + 1) →
    cmp v w = true → y = z
  bound : ∀ y, (p.obj y).isSome → y < p.fresh

def addRef (refs : Nat → Nat) (y : Nat) : Nat → Nat := update refs y (refs y + 1)

def dropRef (refs : Nat → Nat) (y : Nat) : Nat → Nat := update refs y (refs y - 1)

theorem dropRef_addRef (refs : Nat → Nat) (y : Nat) : dropRef (addRef refs y) y = refs := by
  rw [dropRef, addRef, update_self, update_idem, Nat.add_sub_cancel, update_eq_self]

/-- References that are listed. -/
theorem count_cons_eq (i : Nat) (l : List Nat) :
    (fun j => (i :: l).count j) = addRef (fun j => l.count j) i := by
  funext j
  rw [addRef, update_apply]
  split
  · next same => rw [same, count_cons_self]
  · next differ => rw [count_cons_of_ne (Ne.symm differ)]

theorem count_erase_eq (i : Nat) (l : List Nat) :
    (fun j => (l.erase i).count j) = dropRef (fun j => l.count j) i := by
  funext j
  rw [dropRef, update_apply]
  split
  · next same => rw [same, count_erase_self]
  · next differ => rw [count_erase_of_ne differ]

variable {cmp} {p : Pool κ} {refs : Nat → Nat}

theorem obj_free (p : Pool κ) (x y : Nat) : (p.free x).obj y = if y = x then none else p.obj y :=
  update_apply ..

theorem obj_alloc (p : Pool κ) (v : κ) (y : Nat) :
    (p.alloc v).obj y = if y = p.fresh then some (v, 0) else p.obj y :=
  update_apply ..

theorem Balanced.empty : (Pool.empty : Pool κ).Balanced cmp fun _ => 0 where
  count := fun y v n found => by cases found
  live := fun y pos => absurd pos (Nat.lt_irrefl 0)
  mem_table := by simp [Pool.empty]
  nodup := nodup_nil
  distinct := fun y z v w m n found => by cases found
  bound := fun y found => by cases found

theorem Balanced.set (h : p.Balanced cmp refs) {c fresh : Nat} {o : Option (κ × Nat)}
    (count : ∀ v n, o = some (v, n) → n = c) (live : 0 < c → o.isSome)
    (mem_table : ∀ z, z ∈ table ↔ 0 < update refs y c z) (nodup : table.Nodup)
    (apart : ∀ v m z w n, o = some (v, m + 1) → p.obj z = some (w, n + 1) →
      cmp v w = true ∨ cmp w v = true → z = y)
    (bound : o.isSome → y < fresh) (later : p.fresh ≤ fresh) :
    (⟨update p.obj y o, table, fresh⟩ : Pool κ).Balanced cmp (update refs y c) := by
  refine ⟨fun z w k => ?_, fun z => ?_, mem_table, nodup, fun z z' w w' k k' => ?_, fun z => ?_⟩
  · simp only [update_apply]
    split
    · exact count w k
    · exact h.count z w k
  · simp only [update_apply]
    split
    · exact live
    · exact h.live z
  · simp only [update_apply]
    split
    · next same =>
        split
        · next same' => exact fun _ _ _ => same.trans same'.symm
        · exact fun found other alike => same.trans (apart w k z' w' k' found other (.inl alike)).symm
    · split
      · next same' =>
          exact fun other found alike => (apart w' k' z w k found other (.inr alike)).trans same'.symm
      · exact h.distinct z z' w w' k k'
  · simp only [update_apply]
    split
    · next same => exact same ▸ bound
    · exact fun found => Nat.lt_of_lt_of_le (h.bound z found) later

theorem Balanced.alloc (h : p.Balanced cmp refs) (v : κ) : (p.alloc v).Balanced cmp refs := by
  have unused : refs p.fresh = 0 := by
    by_contra used
    exact Nat.lt_irrefl _ (h.bound _ (h.live _ (Nat.pos_of_ne_zero used)))
  have same : update refs p.fresh 0 = refs := by rw [← unused, update_eq_self]
  have added : (p.alloc v).Balanced cmp (update refs p.fresh 0) :=
    h.set (fun w n found => by cases found; rfl) nofun (by rw [same]; exact h.mem_table) h.nodup
      nofun (fun _ => Nat.lt_succ_self _) (Nat.le_succ _)
  rwa [same] at added

variable {v : κ}

theorem Balanced.recount (h : p.Balanced cmp refs) (here : p.obj y = some (v, n + 1)) (m : Nat) :
    ({ p with obj := update p.obj y (some (v, m + 1)) } : Pool κ).Balanced cmp
      (update refs y (m + 1)) := by
  have count := h.count y v (n + 1) here
  apply h.set
  · intro w k found
    exact (Prod.mk.inj (some.inj found)).2.symm
  · exact fun _ => rfl
  · intro z
    rw [h.mem_table, update_apply]
    split
    · next same => simp [same, ← count]
    · rfl
  · exact h.nodup
  · rintro w k z w' k' found other (alike | alike)
    · cases found
      exact (h.distinct y z _ _ _ _ here other alike).symm
    · cases found
      exact h.distinct z y _ _ _ _ other here alike
  · exact fun _ => h.bound y (by rw [here]; rfl)
  · exact Nat.le_refl _

theorem value_recount {m : Nat} (here : p.obj y = some (v, n)) (z : Nat) :
    ({ p with obj := update p.obj y (some (v, m)) } : Pool κ).value z = p.value z := by
  simp only [value, update_apply]
  split
  · next same =>
      rw [same, here]
      rfl
  · rfl

section

variable (h : p.Balanced cmp refs)

include h

theorem take_spec (here : p.obj y = some (v, n + 1)) :
    ∃ p', p.take y = some p' ∧ p'.Balanced cmp (addRef refs y) ∧ p'.value = p.value := by
  refine ⟨{ p with obj := update p.obj y (some (v, n + 2)) }, by rw [take, here]; rfl, ?_,
    funext fun z => value_recount here z⟩
  rw [addRef, ← h.count y v (n + 1) here]
  exact h.recount here (n + 1)

theorem lookup_some (found : p.lookup cmp v = some y) :
    ∃ w n, p.obj y = some (w, n + 1) ∧ cmp w v = true := by
  have mem : y ∈ p.table := mem_of_find?_eq_some found
  have alike := find?_some found
  cases here : p.obj y with
  | none =>
    rw [here] at alike
    cases alike
  | some o =>
    obtain ⟨w, n⟩ := o
    rw [here] at alike
    have count := h.count y w n here
    rw [h.mem_table, ← count] at mem
    refine ⟨w, n - 1, ?_, alike⟩
    rw [Nat.sub_add_cancel mem]

theorem lookup_none (missing : p.lookup cmp v = none)
    {w : κ} (found : p.obj y = some (w, n + 1)) : cmp w v = false := by
  have mem : y ∈ p.table := by
    rw [h.mem_table, ← h.count y w _ found]
    omega
  have := find?_eq_none.mp missing y mem
  rw [found] at this
  simpa using this

theorem Balanced.distinct_value {z : Nat} {w : κ}
    (hy : p.value y = some v) (hz : p.value z = some w) (ty : y ∈ p.table) (tz : z ∈ p.table)
    (same : cmp v w = true) : y = z := by
  rw [h.mem_table] at ty tz
  obtain ⟨⟨v', m⟩, y', rfl⟩ := map_eq_some_iff.mp hy
  obtain ⟨⟨w', n⟩, z', rfl⟩ := map_eq_some_iff.mp hz
  rw [← h.count y v' m y'] at ty
  rw [← h.count z w' n z'] at tz
  obtain ⟨m, rfl⟩ := Nat.exists_eq_add_one_of_ne_zero (Nat.pos_iff_ne_zero.mp ty)
  obtain ⟨n, rfl⟩ := Nat.exists_eq_add_one_of_ne_zero (Nat.pos_iff_ne_zero.mp tz)
  exact h.distinct y z v' w' m n y' z' same

theorem Balanced.freed (mem_table : ∀ z, z ∈ table ↔ 0 < update refs x 0 z) (nodup : table.Nodup) :
    ({ p.free x with table := table } : Pool κ).Balanced cmp (update refs x 0) :=
  h.set nofun nofun mem_table nodup nofun nofun (Nat.le_refl _)

end

theorem value_free (differ : y ≠ x) : (p.free x).value y = p.value y := by
  rw [value, obj_free, if_neg differ, value]

variable (equiv : Equivalence fun a b => cmp a b = true)

include equiv

theorem register_spec (h : p.Balanced cmp refs) (here : p.obj x = some (v, 0))
    (new : p.lookup cmp v = none) :
    ∃ p', { p with table := x :: p.table }.take x = some p' ∧ p'.Balanced cmp (addRef refs x) ∧
      p'.value = p.value := by
  have unused : 0 = refs x := h.count x v 0 here
  refine ⟨{ p with table := x :: p.table, obj := update p.obj x (some (v, 1)) },
    by rw [take, here]; rfl, ?_, funext fun z => value_recount here z⟩
  rw [addRef, ← unused]
  apply h.set
  · intro w k found
    exact (Prod.mk.inj (some.inj found)).2.symm
  · exact fun _ => rfl
  · intro z
    rw [mem_cons, h.mem_table, update_apply]
    split
    · simp [*]
    · simp [*]
  · refine nodup_cons.mpr ⟨?_, h.nodup⟩
    rw [h.mem_table]
    omega
  · intro w k z w' k' found other alike
    cases found
    have unlike := lookup_none h new other
    rw [alike.elim equiv.symm id] at unlike
    cases unlike
  · exact fun _ => h.bound x (by rw [here]; rfl)
  · exact Nat.le_refl _

theorem intern_spec (h : p.Balanced cmp refs) (here : p.obj x = some (v, 0)) :
    ∃ y p', p.intern cmp x = some (y, p') ∧ p'.Balanced cmp (addRef refs y) ∧
      ∀ z, 0 < refs z → p'.value z = p.value z := by
  have unused : 0 = refs x := h.count x v 0 here
  rw [intern, here, bind_eq_bind, bind_some]
  dsimp only
  cases found : p.lookup cmp v with
  | none =>
    obtain ⟨p', taken, balanced, values⟩ := register_spec equiv h here found
    exact ⟨x, p', by rw [taken]; rfl, balanced, fun z _ => by rw [values]⟩
  | some y =>
    obtain ⟨w, n, there, -⟩ := lookup_some h found
    have differ : y ≠ x := by
      rintro rfl
      rw [there] at here
      cases here
    have there' : (p.free x).obj y = some (w, n + 1) := by
      rw [obj_free, if_neg differ, there]
    have same : update refs x 0 = refs := by rw [unused, update_eq_self]
    have freed : (p.free x).Balanced cmp (update refs x 0) :=
      h.freed (by rw [same]; exact h.mem_table) h.nodup
    rw [same] at freed
    obtain ⟨p', taken, balanced, values⟩ := take_spec freed there'
    refine ⟨y, p', ?_, balanced, fun z pos => ?_⟩
    · dsimp only
      rw [if_pos differ, taken]
      rfl
    · rw [values, value_free]
      rintro rfl
      omega

theorem internCopy_spec (h : p.Balanced cmp refs) (v : κ) :
    ∃ y p', p.internCopy cmp v = some (y, p') ∧ p'.Balanced cmp (addRef refs y) ∧
      (∃ w, p'.value y = some w ∧ cmp w v = true) ∧ ∀ z, 0 < refs z → p'.value z = p.value z := by
  rw [internCopy]
  cases found : p.lookup cmp v with
  | none =>
    have here : (p.alloc v).obj p.fresh = some (v, 0) := update_self ..
    have missing : (p.alloc v).lookup cmp v = none := by
      rw [lookup, find?_eq_none] at found ⊢
      intro y mem
      have differ : y ≠ p.fresh := by
        rintro rfl
        exact Nat.lt_irrefl _ (h.bound _ (h.live _ ((h.mem_table _).mp mem)))
      rw [obj_alloc, if_neg differ]
      exact found y mem
    obtain ⟨p', taken, balanced, values⟩ := register_spec equiv (h.alloc v) here missing
    have taken' : { p.alloc v with table := p.fresh :: p.table }.take p.fresh = some p' := taken
    refine ⟨p.fresh, p', by dsimp only; rw [taken']; rfl, balanced, ⟨v, ?_, equiv.refl v⟩, ?_⟩
    · rw [values, value, here]
      rfl
    · intro z pos
      have differ : z ≠ p.fresh := by
        rintro rfl
        exact Nat.lt_irrefl _ (h.bound _ (h.live _ pos))
      rw [values, value, obj_alloc, if_neg differ, value]
  | some y =>
    obtain ⟨w, n, there, alike⟩ := lookup_some h found
    obtain ⟨p', taken, balanced, values⟩ := take_spec h there
    refine ⟨y, p', by dsimp only; rw [taken]; rfl, balanced, ⟨w, ?_, alike⟩, fun z _ => by rw [values]⟩
    rw [values, value, there]
    rfl

theorem unintern_spec (asserts : Bool) (h : p.Balanced cmp refs) (held : 0 < refs y) :
    ∃ p', p.unintern cmp asserts y = some p' ∧ p'.Balanced cmp (dropRef refs y) ∧
      ∀ z, 0 < dropRef refs y z → p'.value z = p.value z := by
  obtain ⟨⟨v, n⟩, here⟩ := isSome_iff_exists.mp (h.live y held)
  obtain rfl := h.count y v n here
  rw [unintern, here, bind_eq_bind, bind_some]
  dsimp only
  by_cases last : refs y - 1 = 0
  · -- the object with the value in the table is this one
    have one : refs y = 0 + 1 := by omega
    have found : p.lookup cmp v = some y := by
      rw [one] at here
      cases found : p.lookup cmp v with
      | none =>
        have unlike := lookup_none h found here
        rw [equiv.refl v] at unlike
        cases unlike
      | some z =>
        obtain ⟨w, m, there, alike⟩ := lookup_some h found
        rw [h.distinct z y w v m 0 there here alike]
    rw [if_pos last, found]
    have left : dropRef refs y = update refs y 0 := by rw [dropRef, last]
    rw [left]
    refine ⟨_, rfl, h.freed (fun z => ?_) (h.nodup.erase y), fun z pos => value_free ?_⟩
    · rw [h.nodup.mem_erase_iff, h.mem_table, update_apply]
      split
      · simp [*]
      · simp [*]
    · rintro rfl
      rw [update_self] at pos
      omega
  · rw [if_neg last]
    obtain ⟨m, two⟩ : ∃ m, refs y = m + 2 := ⟨refs y - 2, by omega⟩
    rw [two] at here
    refine ⟨_, rfl, ?_, fun z _ => value_recount here z⟩
    rw [dropRef, two]
    exact h.recount here m

end Pool

end Mp2mp.Kit
