import Mp2mp.Kit.Bytes

/-!
# AS paths

The path operations of `bgp_aspath.c` on the chain of segments of `struct aspath`.

A segment keeps its length in a `u_short`.  Where the source lets that length wrap, only
the ASNs below the wrapped length stay visible (`Segment.ofData`).

* `Normal`: the canonical form of a path.
* `assegmentNormalise_eq_map`, `normaliseFrom_sequences`: what `assegment_normalise` does
  to a chain without adjacent sequences, and to a run of sequences.
* `aspathCmp_iff`: `aspath_cmp` is equality.
-/

namespace Mp2mp.Bgpd

open List

variable {seg : Segment}

/-- `as_t`, a `u_int32_t` -/
abbrev As := Fin (2 ^ 32)

instance As.neZero : NeZero (2 ^ 32 : Nat) := ⟨by decide⟩

instance As.lawfulBEq : LawfulBEq As := inferInstance

/-- `AS_SET` and the other segment types. -/
inductive SegType
  | asSet
  | asSequence
  | asConfedSequence
  | asConfedSet
deriving DecidableEq, Repr

def SegType.isSet : SegType → Bool
  | .asSet | .asConfedSet => true
  | .asSequence | .asConfedSequence => false

def SegType.isConfed : SegType → Bool
  | .asConfedSequence | .asConfedSet => true
  | .asSet | .asSequence => false

/-- `struct assegment` without its link; its `length` is a `u_short`. -/
structure Segment where
  type : SegType
  as : List As
  length_lt : as.length < 65536
deriving DecidableEq

open Segment

namespace Segment

def length (seg : Segment) : Nat := seg.as.length

/-- The segment whose data is `data`: what is left of it once `length` has wrapped. -/
def ofData (type : SegType) (data : List As) : Segment where
  type := type
  as := data.take (data.length % 65536)
  length_lt := by
    have := Nat.mod_lt data.length (show 0 < 65536 by decide)
    rw [List.length_take]
    omega

@[simp]
theorem ofData_type (type : SegType) (data : List As) : (ofData type data).type = type := rfl

theorem ofData_as {type : SegType} {data : List As} (h : data.length < 65536) :
    (ofData type data).as = data := by
  simp only [ofData, Nat.mod_eq_of_lt h, take_length]

theorem ext_as {seg' : Segment} (type : seg.type = seg'.type) (as : seg.as = seg'.as) :
    seg = seg' := by
  cases seg
  cases seg'
  simp_all

/-- `assegment_append_asns` -/
def appendAsns (seg : Segment) (asnos : List As) : Segment := ofData seg.type (seg.as ++ asnos)

/-- `assegment_prepend_asns`; "we don't do huge prepends". -/
def prependAsns (seg : Segment) (asnum : As) (num : Nat) : Segment :=
  if num = 0 then seg
  else if num ≥ 255 then seg
  else ofData seg.type (List.replicate num asnum ++ seg.as)

/-- `ASSEGMENT_TYPES_PACKABLE` -/
def typesPackable (x y : Segment) : Bool := x.type == y.type && x.type == .asSequence

theorem typesPackable_iff {x y : Segment} :
    x.typesPackable y = true ↔ x.type = .asSequence ∧ y.type = .asSequence := by
  simp only [typesPackable, Bool.and_eq_true, beq_iff_eq]
  constructor
  · rintro ⟨same, sequence⟩
    exact ⟨sequence, same ▸ sequence⟩
  · rintro ⟨x_seq, y_seq⟩
    exact ⟨x_seq.trans y_seq.symm, x_seq⟩

end Segment

/-! ## Normalisation -/

/-- The loop that weeds out dupes: `tail` is the value kept last. -/
def weedFrom (tail : As) : List As → List As
  | [] => []
  | a :: rest => if tail = a then weedFrom tail rest else a :: weedFrom a rest

def weedDupes : List As → List As
  | [] => []
  | a :: rest => a :: weedFrom a rest

/-- The values of a set segment sorted and without dupes. -/
def Segment.sortSet (seg : Segment) : Segment :=
  if seg.type.isSet then .ofData seg.type (weedDupes (seg.as.insertionSort (· ≤ ·))) else seg

/-- The loops of `assegment_normalise` from a pinned segment on. -/
def normaliseFrom (pin : Segment) : List Segment → List Segment
  | [] => [pin]
  | next :: rest =>
    if pin.typesPackable next then normaliseFrom (pin.appendAsns next.as) rest
    else pin :: normaliseFrom next.sortSet rest

def assegmentNormalise : List Segment → List Segment
  | [] => []
  | head :: rest => normaliseFrom head.sortSet rest

variable {l : List As}

theorem weedFrom_spec {tail : As} (sorted : (tail :: l).Pairwise (· ≤ ·)) :
    (tail :: weedFrom tail l).Pairwise (· < ·) ∧
      (∀ a, a ∈ tail :: weedFrom tail l ↔ a ∈ tail :: l) := by
  induction l generalizing tail with
  | nil => simp [weedFrom]
  | cons b rest ih =>
    rw [pairwise_cons] at sorted
    by_cases same : tail = b
    · subst same
      obtain ⟨strict, members⟩ := ih sorted.2
      rw [weedFrom, if_pos rfl]
      refine ⟨strict, fun a => ?_⟩
      rw [members a]
      simp
    · obtain ⟨strict, members⟩ := ih sorted.2
      rw [weedFrom, if_neg same]
      have below : tail < b := lt_of_le_of_ne (sorted.1 b (by simp)) same
      refine ⟨pairwise_cons.mpr ⟨fun a ha => ?_, strict⟩, fun a => ?_⟩
      · rcases mem_cons.mp ha with rfl | ha
        · exact below
        · exact below.trans ((pairwise_cons.mp strict).1 a ha)
      · have kept := members a
        simp only [mem_cons] at kept ⊢
        rw [kept]

theorem weedFrom_of_strict {tail : As} (strict : (tail :: l).Pairwise (· < ·)) :
    weedFrom tail l = l := by
  induction l generalizing tail with
  | nil => rfl
  | cons b rest ih =>
    rw [pairwise_cons] at strict
    have differs : tail ≠ b := ne_of_lt (strict.1 b (by simp))
    rw [weedFrom, if_neg differs, ih strict.2]

theorem length_weedFrom_le (tail : As) (l : List As) : (weedFrom tail l).length ≤ l.length := by
  induction l generalizing tail with
  | nil => exact le_rfl
  | cons b rest ih =>
    rw [weedFrom]
    split
    · exact (ih tail).trans (Nat.le_succ _)
    · exact Nat.succ_le_succ (ih b)

theorem weedDupes_spec (sorted : l.Pairwise (· ≤ ·)) :
    (weedDupes l).Pairwise (· < ·) ∧ ∀ a, a ∈ weedDupes l ↔ a ∈ l := by
  cases l with
  | nil => simp [weedDupes]
  | cons b rest => exact weedFrom_spec sorted

theorem length_weedDupes_le (l : List As) : (weedDupes l).length ≤ l.length := by
  cases l with
  | nil => exact le_rfl
  | cons b rest => exact Nat.succ_le_succ (length_weedFrom_le b rest)

namespace Segment

@[simp]
theorem sortSet_type (seg : Segment) : seg.sortSet.type = seg.type := by
  rw [sortSet]
  split <;> rfl

theorem sortSet_of_not_set (h : seg.type.isSet = false) : seg.sortSet = seg := by
  rw [sortSet, h]
  rfl

theorem sortSet_as (h : seg.type.isSet = true) :
    seg.sortSet.as = weedDupes (seg.as.insertionSort (· ≤ ·)) := by
  have short := length_weedDupes_le (seg.as.insertionSort (· ≤ ·))
  rw [length_insertionSort] at short
  rw [sortSet, if_pos h, ofData_as (short.trans_lt seg.length_lt)]

theorem length_sortSet_le : seg.sortSet.as.length ≤ seg.as.length := by
  cases h : seg.type.isSet with
  | false => rw [sortSet_of_not_set h]
  | true =>
    have short := length_weedDupes_le (seg.as.insertionSort (· ≤ ·))
    rwa [length_insertionSort, ← sortSet_as h] at short

theorem sortSet_strict (h : seg.type.isSet = true) : seg.sortSet.as.Pairwise (· < ·) := by
  rw [sortSet_as h]
  exact (weedDupes_spec (pairwise_insertionSort _ _)).1

@[simp]
theorem mem_sortSet {a : As} : a ∈ seg.sortSet.as ↔ a ∈ seg.as := by
  cases h : seg.type.isSet with
  | false => rw [sortSet_of_not_set h]
  | true =>
    rw [sortSet_as h, (weedDupes_spec (pairwise_insertionSort _ _)).2, mem_insertionSort]

theorem sortSet_of_strict (h : seg.type.isSet = true → seg.as.Pairwise (· < ·)) :
    seg.sortSet = seg := by
  cases set : seg.type.isSet with
  | false => exact sortSet_of_not_set set
  | true =>
    apply ext_as (sortSet_type seg)
    have strict := h set
    have sorted : seg.as.insertionSort (· ≤ ·) = seg.as :=
      (strict.imp le_of_lt).insertionSort_eq
    rw [sortSet_as set, sorted]
    cases as : seg.as with
    | nil => rfl
    | cons a rest =>
      rw [as] at strict
      rw [weedDupes, weedFrom_of_strict strict]

theorem sortSet_ne_nil : seg.sortSet.as ≠ [] ↔ seg.as ≠ [] := by
  simp only [ne_eq, eq_nil_iff_forall_not_mem, mem_sortSet]

end Segment

/-! ## The canonical form -/

/-- No empty segment, sets sorted without duplicates, no two adjacent sequences. -/
structure Normal (segs : List Segment) : Prop where
  nonempty : ∀ seg ∈ segs, seg.as ≠ []
  strict : ∀ seg ∈ segs, seg.type.isSet = true → seg.as.Pairwise (· < ·)
  apart : segs.IsChain fun x y => x.typesPackable y = false

instance (segs : List Segment) : Decidable (Normal segs) :=
  decidable_of_iff ((∀ seg ∈ segs, seg.as ≠ []) ∧
      (∀ seg ∈ segs, seg.type.isSet = true → seg.as.Pairwise (· < ·)) ∧
      segs.IsChain fun x y => x.typesPackable y = false)
    ⟨fun ⟨nonempty, strict, apart⟩ => ⟨nonempty, strict, apart⟩,
      fun h => ⟨h.nonempty, h.strict, h.apart⟩⟩

theorem sortSet_typesPackable {x y : Segment} : x.sortSet.typesPackable y = x.typesPackable y := by
  simp only [typesPackable, sortSet_type]

variable {pin : Segment} {rest : List Segment}

theorem normaliseFrom_of_apart
    (apart : (pin :: rest).IsChain fun x y => x.typesPackable y = false) :
    normaliseFrom pin rest = pin :: rest.map sortSet := by
  induction rest generalizing pin with
  | nil => rfl
  | cons next rest ih =>
    rw [isChain_cons_cons] at apart
    have tail : (next.sortSet :: rest).IsChain fun x y => x.typesPackable y = false := by
      cases rest with
      | nil => exact isChain_singleton _
      | cons after rest =>
        rw [isChain_cons_cons] at apart ⊢
        rw [sortSet_typesPackable]
        exact apart.2
    rw [normaliseFrom, if_neg (by simp [apart.1]), ih tail, map_cons]

variable {segs : List Segment}

/-- Without adjacent sequences only the sets change. -/
theorem assegmentNormalise_eq_map (apart : segs.IsChain fun x y => x.typesPackable y = false) :
    assegmentNormalise segs = segs.map sortSet := by
  cases segs with
  | nil => rfl
  | cons head rest =>
    rw [assegmentNormalise, normaliseFrom_of_apart, map_cons]
    cases rest with
    | nil => exact isChain_singleton _
    | cons next rest =>
      rw [isChain_cons_cons] at apart ⊢
      rw [sortSet_typesPackable]
      exact apart

theorem Normal.normalise_eq (h : Normal segs) : assegmentNormalise segs = segs := by
  rw [assegmentNormalise_eq_map h.apart]
  conv_rhs => rw [← map_id segs]
  exact map_congr_left fun seg hseg => sortSet_of_strict (h.strict seg hseg)

/-- A run of sequences is packed into the first of them. -/
theorem normaliseFrom_sequences {run : List Segment}
    (sequence : pin.type = .asSequence) (sequences : ∀ seg ∈ run, seg.type = .asSequence)
    (stop : ∀ seg ∈ rest.head?, seg.type ≠ .asSequence)
    (fits : (pin.as ++ run.flatMap as).length < 65536) :
    normaliseFrom pin (run ++ rest) =
      .ofData .asSequence (pin.as ++ run.flatMap as) :: assegmentNormalise rest := by
  induction run generalizing pin with
  | nil =>
    have pinned : ofData .asSequence (pin.as ++ [].flatMap as) = pin :=
      ext_as sequence.symm (by rw [ofData_as fits]; simp)
    rw [pinned, nil_append]
    cases rest with
    | nil => rfl
    | cons next rest =>
      have differs : next.type ≠ .asSequence := stop next (by simp)
      have : pin.typesPackable next = false := by
        rw [← Bool.not_eq_true, typesPackable_iff]
        exact fun h => differs h.2
      rw [normaliseFrom, if_neg (by simp [this]), assegmentNormalise]
  | cons next run ih =>
    have packable : pin.typesPackable next = true :=
      typesPackable_iff.mpr ⟨sequence, sequences next (by simp)⟩
    have grown : (pin.appendAsns next.as).as = pin.as ++ next.as := by
      apply ofData_as
      simp only [flatMap_cons, length_append] at fits ⊢
      omega
    have whole : (pin.appendAsns next.as).as ++ run.flatMap as =
        pin.as ++ (next :: run).flatMap as := by
      rw [grown, append_assoc, ← flatMap_cons]
    have packed := ih (show (pin.appendAsns next.as).type = .asSequence from sequence)
      (fun seg hseg => sequences seg (by simp [hseg])) (by rwa [whole])
    rw [cons_append, normaliseFrom, if_pos packable, packed, whole]

/-! ### Normalised chains are in canonical form -/

theorem normaliseFrom_head (pin : Segment) (rest : List Segment) :
    ∃ seg tail, normaliseFrom pin rest = seg :: tail ∧ seg.type = pin.type := by
  induction rest generalizing pin with
  | nil => exact ⟨pin, [], rfl, rfl⟩
  | cons next rest ih =>
    rw [normaliseFrom]
    split
    · obtain ⟨seg, tail, eq, type⟩ := ih (pin.appendAsns next.as)
      exact ⟨seg, tail, eq, type⟩
    · exact ⟨pin, _, rfl, rfl⟩

theorem normaliseFrom_apart (pin : Segment) (rest : List Segment) :
    (normaliseFrom pin rest).IsChain fun x y => x.typesPackable y = false := by
  induction rest generalizing pin with
  | nil => exact isChain_singleton _
  | cons next rest ih =>
    rw [normaliseFrom]
    split
    · exact ih _
    · next different =>
      obtain ⟨seg, tail, eq, type⟩ := normaliseFrom_head next.sortSet rest
      have chain := ih next.sortSet
      rw [eq] at chain ⊢
      refine isChain_cons_cons.mpr ⟨?_, chain⟩
      simpa only [typesPackable, type, sortSet_type, Bool.not_eq_true]
        using different

theorem normaliseFrom_strict (rest : List Segment)
    (sorted : pin.type.isSet = true → pin.as.Pairwise (· < ·)) :
    ∀ seg ∈ normaliseFrom pin rest, seg.type.isSet = true → seg.as.Pairwise (· < ·) := by
  induction rest generalizing pin with
  | nil =>
    intro seg hseg
    rw [normaliseFrom, mem_singleton] at hseg
    exact hseg ▸ sorted
  | cons next rest ih =>
    rw [normaliseFrom]
    split
    · next packable =>
      apply ih
      intro set
      rw [show (pin.appendAsns next.as).type = pin.type from rfl,
        (typesPackable_iff.mp packable).1] at set
      exact absurd set (by decide)
    · intro seg hseg
      rcases mem_cons.mp hseg with rfl | hseg
      · exact sorted
      · exact ih (fun set => sortSet_strict (by simpa using set)) seg hseg

theorem normaliseFrom_nonempty (pinned : pin.as ≠ []) (nonempty : ∀ seg ∈ rest, seg.as ≠ [])
    (fits : (pin.as ++ rest.flatMap as).length < 65536) :
    ∀ seg ∈ normaliseFrom pin rest, seg.as ≠ [] := by
  induction rest generalizing pin with
  | nil =>
    intro seg hseg
    rw [normaliseFrom, mem_singleton] at hseg
    exact hseg ▸ pinned
  | cons next rest ih =>
    have grown : (pin.appendAsns next.as).as = pin.as ++ next.as := by
      apply ofData_as
      simp only [flatMap_cons, length_append] at fits ⊢
      omega
    rw [normaliseFrom]
    split
    · apply ih
      · rw [grown]
        simp [pinned]
      · exact fun seg hseg => nonempty seg (by simp [hseg])
      · rwa [grown, append_assoc, ← flatMap_cons]
    · intro seg hseg
      rcases mem_cons.mp hseg with rfl | hseg
      · exact pinned
      · have shorter := next.length_sortSet_le
        apply ih (sortSet_ne_nil.mpr (nonempty next (by simp))) _ _ seg hseg
        · exact fun seg hseg => nonempty seg (by simp [hseg])
        · simp only [flatMap_cons, length_append] at fits ⊢
          omega

theorem assegmentNormalise_normal (nonempty : ∀ seg ∈ segs, seg.as ≠ [])
    (fits : (segs.flatMap as).length < 65536) : Normal (assegmentNormalise segs) := by
  cases segs with
  | nil => exact ⟨by simp [assegmentNormalise], by simp [assegmentNormalise], isChain_nil⟩
  | cons head rest =>
    have shorter := head.length_sortSet_le
    refine ⟨normaliseFrom_nonempty (sortSet_ne_nil.mpr (nonempty head (by simp)))
        (fun seg hseg => nonempty seg (by simp [hseg])) ?_,
      normaliseFrom_strict rest (fun set => sortSet_strict (by simpa using set)),
      normaliseFrom_apart _ rest⟩
    simp only [flatMap_cons, length_append] at fits ⊢
    omega

/-! ## Comparing and counting -/

def aspathCmp : List Segment → List Segment → Bool
  | [], [] => true
  | [], _ :: _ => false
  | _ :: _, [] => false
  | seg1 :: rest1, seg2 :: rest2 =>
    if seg1.type ≠ seg2.type then false
    else if seg1.length ≠ seg2.length then false
    else if seg1.as ≠ seg2.as then false
    else aspathCmp rest1 rest2

theorem aspathCmp_iff {p q : List Segment} : aspathCmp p q = true ↔ p = q := by
  induction p generalizing q with
  | nil => cases q <;> simp [aspathCmp]
  | cons seg1 rest1 ih =>
    cases q with
    | nil => simp [aspathCmp]
    | cons seg2 rest2 =>
      by_cases same : seg1 = seg2
      · subst same
        simp [aspathCmp, ih]
      · have differ : seg1.type = seg2.type → seg1.as ≠ seg2.as :=
          fun type as => same (ext_as type as)
        simp only [aspathCmp]
        split_ifs <;> simp_all

def aspathCountHops (segs : List Segment) : Nat :=
  (segs.map fun seg =>
    match seg.type with
    | .asSequence => seg.length
    | .asSet => 1
    | .asConfedSequence | .asConfedSet => 0).sum

def aspathCountConfeds (segs : List Segment) : Nat :=
  (segs.map fun seg =>
    match seg.type with
    | .asConfedSequence => seg.length
    | .asConfedSet => 1
    | .asSequence | .asSet => 0).sum

theorem aspathCountConfeds_eq_zero
    (h : ∀ seg ∈ segs, seg.type.isConfed = false) : aspathCountConfeds segs = 0 := by
  rw [aspathCountConfeds]
  apply sum_eq_zero
  intro n hn
  obtain ⟨seg, mem, rfl⟩ := mem_map.mp hn
  have plain := h seg mem
  cases type : seg.type with
  | asSequence => rfl
  | asSet => rfl
  | asConfedSequence => simp [type, SegType.isConfed] at plain
  | asConfedSet => simp [type, SegType.isConfed] at plain

end Mp2mp.Bgpd
