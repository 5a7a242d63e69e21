import Mp2mp.Kit.Bytes
import Mp2mp.Kit.Table

/-!
# Extended communities

`ecommunity_add_val`, `ecommunity_uniq_sort` and `ecommunity_match` of `bgp_ecommunity.c`.

`ecommunity_match` adds the index of a value to a pointer to bytes, so that it compares the
eight bytes at the offsets 0, 1, 2, … where the values are at the offsets 0, 8, 16, …

* `ecommunityMatch_iff`: it tells whether one list has the values of the other where the other
  is its beginning, is longer, or has a first value that is not seen and is not contained.
-/

namespace Mp2mp.Bgpd

open Kit List

def ecommunitySize : Nat := 8

structure EcommunityVal where
  val : List UInt8
  length_val : val.length = ecommunitySize
deriving DecidableEq, Repr

def ecommunityAddVal (eval : EcommunityVal) (ecom : List EcommunityVal) : List EcommunityVal :=
  Table.insert compare EcommunityVal.val eval ecom

def ecommunityUniqSort (ecom : List EcommunityVal) : List EcommunityVal :=
  ecom.foldl (fun new eval => ecommunityAddVal eval new) []

/-- The memory at `ecom->val`. -/
def ecomVal (ecom : List EcommunityVal) : Mem := .ofList (ecom.flatMap EcommunityVal.val)

/-- The loop of `ecommunity_match`, which ends when `n` is zero: the value of `j` after it. -/
def matchLoop (val1 val2 : Mem) (size2 : Nat) : Nat → Nat → Nat → Nat
  | 0, _, j => j
  | n + 1, i, j =>
    if j < size2 then
      matchLoop val1 val2 size2 n (i + 1)
        (if slice val1 i ecommunitySize = slice val2 j ecommunitySize then j + 1 else j)
    else j

/-- `ecommunity_match`; `none` is a null pointer. -/
def ecommunityMatch : Option (List EcommunityVal) → Option (List EcommunityVal) → Bool
  | none, none => true
  | some ecom1, some ecom2 =>
    if ecom1.length < ecom2.length then false
    else matchLoop (ecomVal ecom1) (ecomVal ecom2) ecom2.length ecom1.length 0 0 = ecom2.length
  | _, _ => false

/-! ## What is compared -/

/-- The eight bytes at each of `n` offsets. -/
def windows (val : Mem) (i n : Nat) : List (List UInt8) :=
  (range' i n).map fun off => slice val off ecommunitySize

theorem matchLoop_eq_iff (val1 val2 : Mem) (n i : Nat) {size2 j : Nat} (hj : j ≤ size2) :
    matchLoop val1 val2 size2 n i j = size2 ↔
      (windows val2 j (size2 - j)).Sublist (windows val1 i n) := by
  induction n generalizing i j with
  | zero =>
    rw [matchLoop, windows, windows, range'_zero, map_nil, sublist_nil, map_eq_nil_iff,
      range'_eq_nil_iff]
    omega
  | succ n ih =>
    rw [matchLoop]
    split
    · rename_i hlt
      have hmore : size2 - j = size2 - (j + 1) + 1 := by omega
      have hstep : windows val2 j (size2 - j) =
          slice val2 j ecommunitySize :: windows val2 (j + 1) (size2 - (j + 1)) := by
        rw [hmore, windows, range'_succ, map_cons, windows]
      rw [windows.eq_1 val1, range'_succ, map_cons, ← windows]
      split
      · rename_i heq
        rw [ih (i + 1) (by omega), hstep, heq, cons_sublist_cons]
      · rename_i hne
        rw [ih (i + 1) hj, hstep, cons_sublist_cons', or_iff_left]
        exact fun h => hne h.1.symm
    · have hend : j = size2 := by omega
      simp [hend, windows]

theorem ecommunityMatch_eq_true (ecom1 ecom2 : List EcommunityVal) :
    ecommunityMatch (some ecom1) (some ecom2) = true ↔
      (windows (ecomVal ecom2) 0 ecom2.length).Sublist
        (windows (ecomVal ecom1) 0 ecom1.length) := by
  have hloop := matchLoop_eq_iff (ecomVal ecom1) (ecomVal ecom2) ecom1.length 0
    (Nat.zero_le ecom2.length)
  rw [Nat.sub_zero] at hloop
  rw [ecommunityMatch, ← hloop]
  split
  · -- fewer windows cannot hold more
    rename_i hfew
    have hnot : ¬matchLoop (ecomVal ecom1) (ecomVal ecom2) ecom2.length ecom1.length 0 0 =
        ecom2.length := by
      intro h
      have hle := (hloop.mp h).length_le
      simp only [windows, length_map, length_range'] at hle
      omega
    simp [hnot]
  · rw [decide_eq_true_eq]

theorem length_flatMap_val (ecom : List EcommunityVal) :
    (ecom.flatMap EcommunityVal.val).length = ecommunitySize * ecom.length := by
  induction ecom with
  | nil => rfl
  | cons v ecom ih => simp [ih, v.length_val, Nat.mul_succ, Nat.add_comm]

/-- The last offset is far before the last value, so that nothing behind the values is read. -/
theorem windows_append (front rest : List EcommunityVal) :
    windows (ecomVal (front ++ rest)) 0 front.length = windows (ecomVal front) 0 front.length := by
  refine map_congr_left fun off hoff => map_congr_left fun i hi => ?_
  rw [mem_range'_1] at hoff
  rw [mem_range, ecommunitySize] at hi
  have hin : off + i < (front.flatMap EcommunityVal.val).length := by
    rw [length_flatMap_val, ecommunitySize]
    omega
  rw [ecomVal, flatMap_append, Mem.ofList, getD_append _ _ _ _ hin]
  rfl

theorem uniqSort_nodup (ecom : List EcommunityVal) : (ecommunityUniqSort ecom).Nodup :=
  have hsorted : Table.Sorted compare EcommunityVal.val (ecommunityUniqSort ecom) :=
    foldlRecOn ecom _ Pairwise.nil fun new hnew eval _ => hnew.insert
  hsorted.imp fun hlt heq => absurd hlt (by simp [heq])

/-- The first value of `ecom2` is at none of the offsets of `ecom1` that are compared. -/
def Unseen (ecom1 ecom2 : List EcommunityVal) : Prop :=
  ∃ v ∈ ecom2.head?, ∀ i < ecom1.length, slice (ecomVal ecom1) i ecommunitySize ≠ v.val

theorem Unseen.not_match {ecom1 ecom2 : List EcommunityVal} (h : Unseen ecom1 ecom2) :
    ¬ecommunityMatch (some ecom1) (some ecom2) = true := by
  obtain ⟨v, hv, hunseen⟩ := h
  obtain ⟨rest, rfl⟩ := head?_eq_some_iff.mp hv
  rw [ecommunityMatch_eq_true]
  intro hsub
  have hfirst : v.val ∈ windows (ecomVal (v :: rest)) 0 (v :: rest).length := by
    have hval := slice_append (slice_ofList (v.val ++ rest.flatMap EcommunityVal.val))
    rw [v.length_val] at hval
    exact mem_map.mpr ⟨0, by simp, hval.1⟩
  obtain ⟨i, hi, heq⟩ := mem_map.mp (hsub.subset hfirst)
  exact hunseen i (by simpa using hi) heq

/-- The list begins with the values looked for, or is too short for them, or lacks one and does
not show the first. -/
def MatchTells (ecom1 ecom2 : List EcommunityVal) : Prop :=
  ecom2 <+: ecom1 ∨ ecom1.length < ecom2.length ∨ ¬ecom2 ⊆ ecom1 ∧ Unseen ecom1 ecom2

/-- One list matches another exactly if it has all its values, under a condition that cannot be
spared where the first value is not seen. -/
theorem ecommunityMatch_iff (xs ys : List EcommunityVal) :
    (MatchTells (ecommunityUniqSort xs) (ecommunityUniqSort ys) →
      (ecommunityMatch (some (ecommunityUniqSort xs)) (some (ecommunityUniqSort ys)) = true ↔
        ∀ v ∈ ecommunityUniqSort ys, v ∈ ecommunityUniqSort xs)) ∧
    (Unseen (ecommunityUniqSort xs) (ecommunityUniqSort ys) →
      (ecommunityMatch (some (ecommunityUniqSort xs)) (some (ecommunityUniqSort ys)) = true ↔
        ∀ v ∈ ecommunityUniqSort ys, v ∈ ecommunityUniqSort xs) →
      MatchTells (ecommunityUniqSort xs) (ecommunityUniqSort ys)) := by
  refine ⟨fun htells => ?_, fun hunseen h => .inr (.inr ⟨mt h.mpr hunseen.not_match, hunseen⟩)⟩
  rcases htells with ⟨rest, heq⟩ | hshort | ⟨hlacks, hunseen⟩
  · rw [← heq, ecommunityMatch_eq_true, length_append]
    refine iff_of_true ?_ fun v hv => mem_append_left _ hv
    rw [← windows_append _ rest, windows, windows]
    exact (range'_sublist_right.mpr (Nat.le_add_right ..)).map _
  · have hnot : ¬ecommunityUniqSort ys ⊆ ecommunityUniqSort xs := fun h =>
      absurd ((uniqSort_nodup ys).subperm h).length_le (Nat.not_le.mpr hshort)
    exact iff_of_false (by rw [ecommunityMatch, if_pos hshort]; exact Bool.false_ne_true) hnot
  · exact iff_of_false hunseen.not_match hlacks

/-- The route target 65000:`n`. -/
def routeTarget (n : UInt8) : EcommunityVal := ⟨[0, 2, 0xfd, 0xe8, 0, 0, 0, n], rfl⟩

theorem first_value_matched :
    ecommunityMatch (some (ecommunityUniqSort [routeTarget 1, routeTarget 2]))
      (some (ecommunityUniqSort [routeTarget 1])) = true :=
  ((ecommunityMatch_iff _ _).1 (.inl (by decide))).mpr (by decide)

/-- The second of two route targets is not found. -/
theorem second_value_unmatched :
    ¬(ecommunityMatch (some (ecommunityUniqSort [routeTarget 1, routeTarget 2]))
        (some (ecommunityUniqSort [routeTarget 2])) = true ↔
      ∀ v ∈ ecommunityUniqSort [routeTarget 2],
        v ∈ ecommunityUniqSort [routeTarget 1, routeTarget 2]) := by
  decide

end Mp2mp.Bgpd
