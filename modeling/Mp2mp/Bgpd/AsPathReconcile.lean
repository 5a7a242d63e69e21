import Mp2mp.Bgpd.AsPathWire

/-!
# Four-octet AS numbers through two-octet speakers

`aspath_reconcile_as4` of `bgp_aspath.c` puts the hops that old speakers prepended in front
of the path that travelled in `AS4_PATH`.

* `backHops_eq`: both widths of a path are read back with the same number of hops.
* `transitRestores_iff`: when the path prepended by old speakers is restored.
-/

namespace Mp2mp.Bgpd

open Kit Lib Segment List

variable {q : List As} {f : Segment → List Segment} {segs : List Segment} {seg : Segment}

/-! ## The function -/

/-- `aspath_merge`; an empty first path is a null dereference. -/
def aspathMerge (as1 as2 : List Segment) : Option (List Segment) :=
  match as1 with
  | [] => none
  | _ => some (as1 ++ as2)

/-- The loop of `aspath_reconcile_as4`.  A sequence with more ASNs than hops left takes
`hops` below zero in the source and ends the loop, as zero does. -/
def takeHops : Nat → List Segment → List Segment
  | _, [] => []
  | hops, seg :: rest =>
    if hops = 0 then []
    else
      match seg.type with
      | .asSet | .asConfedSet =>
        .ofData seg.type (seg.as.take seg.length) :: takeHops (hops - 1) rest
      | .asConfedSequence =>
        let hops := if hops < seg.length then seg.length else hops
        .ofData seg.type (seg.as.take (min seg.length hops)) ::
          takeHops (hops - seg.length) rest
      | .asSequence =>
        .ofData seg.type (seg.as.take (min seg.length hops)) ::
          takeHops (hops - seg.length) rest

def aspathReconcileAs4 (aspath as4path : List Segment) : Option (List Segment) :=
  let hops : Int := (aspathCountHops aspath + aspathCountConfeds aspath : Nat) -
    (aspathCountHops as4path : Nat)
  let hops : Int := if hops < 0 then aspathCountHops aspath else hops
  if hops = 0 then some as4path
  else (aspathMerge (takeHops hops.toNat aspath) as4path).map assegmentNormalise

/-! ## Hops -/

def Segment.hops (seg : Segment) : Nat :=
  match seg.type with
  | .asSequence => seg.length
  | .asSet => 1
  | .asConfedSequence | .asConfedSet => 0

theorem aspathCountHops_cons : aspathCountHops (seg :: segs) = seg.hops + aspathCountHops segs := by
  rw [aspathCountHops, aspathCountHops, map_cons, sum_cons]
  rfl

theorem aspathCountHops_append {as1 as2 : List Segment} :
    aspathCountHops (as1 ++ as2) = aspathCountHops as1 + aspathCountHops as2 := by
  simp [aspathCountHops]

theorem Segment.hops_sortSet : seg.sortSet.hops = seg.hops := by
  cases set : seg.type.isSet with
  | false => rw [sortSet_of_not_set set]
  | true =>
    cases type : seg.type with
    | asSet => simp [hops, type]
    | asConfedSet => simp [hops, type]
    | asSequence => simp [type, SegType.isSet] at set
    | asConfedSequence => simp [type, SegType.isSet] at set

theorem aspathCountHops_map_sortSet :
    aspathCountHops (segs.map sortSet) = aspathCountHops segs := by
  induction segs with
  | nil => rfl
  | cons seg segs ih => rw [map_cons, aspathCountHops_cons, aspathCountHops_cons, ih, hops_sortSet]

/-! ## The two paths that arrive -/

/-- In canonical form up to empty segments. -/
structure Packed (segs : List Segment) : Prop where
  apart : segs.IsChain fun x y => x.typesPackable y = false
  strict : ∀ seg ∈ segs, seg.type.isSet = true → seg.as.Pairwise (· < ·)

/-- There is room for `q` in the first segment. -/
abbrev FitsBefore (q : List As) (segs : List Segment) : Prop :=
  ∀ seg ∈ segs.head?, seg.type = .asSequence → q.length + seg.length < 65536

theorem assegmentNormalise_packed : Packed (assegmentNormalise segs) := by
  cases segs with
  | nil => exact ⟨isChain_nil, by simp [assegmentNormalise]⟩
  | cons seg segs =>
    refine ⟨normaliseFrom_apart _ _, normaliseFrom_strict segs fun set => ?_⟩
    exact sortSet_strict (by simpa using set)

theorem Segment.back_type {x : Segment} {use32bit : Bool} (h : x ∈ seg.back use32bit) :
    x.type = seg.type := by
  by_cases sequence : seg.type = .asSequence
  · rw [back, if_pos sequence, mem_singleton] at h
    rw [h, sequence]
    rfl
  · rw [back, if_neg sequence] at h
    obtain ⟨y, hy, rfl⟩ := mem_map.mp h
    rw [sortSet_type, arrive_type hy]

theorem Segment.back_ne_nil (use32bit : Bool) (seg : Segment) : seg.back use32bit ≠ [] := by
  rw [back]
  split
  · simp
  · simpa using arrive_ne_nil use32bit seg

theorem backHops_eq : aspathCountHops (segs.flatMap (back false)) =
      aspathCountHops (segs.flatMap (back true)) := by
  induction segs with
  | nil => rfl
  | cons seg segs ih =>
    rw [flatMap_cons, flatMap_cons, aspathCountHops_append, aspathCountHops_append, ih]
    congr 1
    by_cases sequence : seg.type = .asSequence
    · have hops : ∀ use32bit, aspathCountHops (seg.back use32bit) = seg.length := by
        intro use32bit
        have length : (seg.pieces.flatten.map (narrow use32bit)).length = seg.length := by
          rw [length_map, length_flatten_pieces]
        rw [back, if_pos sequence]
        simp only [aspathCountHops, map_singleton, sum_singleton, ofData_type, Segment.length]
        rw [ofData_as (length ▸ seg.length_lt), length]
        rfl
      rw [hops, hops]
    · rw [back, if_neg sequence, back, if_neg sequence,
        aspathCountHops_map_sortSet, aspathCountHops_map_sortSet, arrive,
        arrive, aspathCountHops, aspathCountHops, map_map, map_map]
      congr 1
      apply map_congr_left
      intro as _
      cases type : seg.type <;> simp_all

/-! ## What is restored -/

/-- The sequence of the ASNs prepended, if any. -/
def sequenceOf (q : List As) : List Segment :=
  match q with
  | [] => []
  | _ => [.ofData .asSequence q]

def view (segs : List Segment) : List (SegType × List As) := segs.map fun seg => (seg.type, seg.as)

/-- The path `p` behind the ASNs `q`: a leading sequence of `p` is continued to the left. -/
def followedBy (q : List As) (p : List (SegType × List As)) : List (SegType × List As) :=
  match q, p with
  | [], p => p
  | q, (.asSequence, as) :: p => (.asSequence, q ++ as) :: p
  | q, p => (.asSequence, q) :: p

theorem view_injective {p p' : List Segment} (h : view p = view p') : p = p' := by
  refine map_injective_iff.mpr ?_ h
  intro seg seg' same
  simp only [Prod.mk.injEq] at same
  exact ext_as same.1 same.2

theorem followedBy_sequence (hq : q ≠ []) (as : List As) (p : List (SegType × List As)) :
    followedBy q ((.asSequence, as) :: p) = (.asSequence, q ++ as) :: p := by
  cases q with
  | nil => exact absurd rfl hq
  | cons a q => rfl

theorem followedBy_other (hq : q ≠ []) {p : List (SegType × List As)}
    (hp : ∀ seg ∈ p.head?, seg.1 ≠ .asSequence) :
    followedBy q p = (.asSequence, q) :: p := by
  cases q with
  | nil => exact absurd rfl hq
  | cons a q =>
    cases p with
    | nil => rfl
    | cons seg p =>
      obtain ⟨type, as⟩ := seg
      have : type ≠ .asSequence := hp (type, as) (by simp)
      cases type <;> first | rfl | exact absurd rfl this

theorem takeHops_zero : takeHops 0 segs = [] := by
  cases segs with
  | nil => rfl
  | cons seg segs => rw [takeHops, if_pos rfl]

/-- As many hops as were prepended are what was prepended. -/
theorem takeHops_prepended {q as : List As} {rest : List Segment} (hq : q ≠ [])
    (fits : (q ++ as).length < 65536) :
    takeHops q.length (.ofData .asSequence (q ++ as) :: rest) = [.ofData .asSequence q] := by
  have some : q.length ≠ 0 := by simpa using hq
  have all : min (q ++ as).length q.length = q.length := by
    rw [length_append]
    omega
  have none : q.length - (q ++ as).length = 0 := by
    rw [length_append]
    omega
  rw [takeHops, if_neg some]
  simp only [ofData_type, Segment.length, ofData_as fits, all, none, takeHops_zero, take_left]

theorem assegmentNormalise_eq_self (packed : Packed segs) : assegmentNormalise segs = segs := by
  rw [assegmentNormalise_eq_map packed.apart]
  conv_rhs => rw [← map_id segs]
  exact map_congr_left fun seg hseg => sortSet_of_strict (packed.strict seg hseg)

/-- Normalising a chain behind a new sequence joins the two or leaves both. -/
theorem normalise_prepended (hq : q ≠ []) (packed : Packed segs) (short : q.length < 65536)
    (fits : FitsBefore q segs) :
    ∃ as rest, assegmentNormalise (sequenceOf q ++ segs) = .ofData .asSequence (q ++ as) :: rest ∧
      (q ++ as).length < 65536 ∧ (∀ seg ∈ rest, seg ∈ segs) ∧
      aspathCountHops segs = as.length + aspathCountHops rest ∧
      followedBy q (view segs) = (.asSequence, q ++ as) :: view rest := by
  have one : sequenceOf q = [.ofData .asSequence q] := by
    cases q with
    | nil => exact absurd rfl hq
    | cons a q => rfl
  have pin : (ofData .asSequence q).sortSet = .ofData .asSequence q :=
    sortSet_of_not_set rfl
  rw [one, singleton_append, assegmentNormalise, pin]
  by_cases sequence : ∃ seg rest, segs = seg :: rest ∧ seg.type = .asSequence
  · obtain ⟨seg, rest, rfl, type⟩ := sequence
    have total : q.length + seg.as.length < 65536 := fits seg (by simp) type
    have data : (ofData .asSequence q).as = q := ofData_as short
    have stop : ∀ y ∈ rest.head?, y.type ≠ .asSequence := by
      intro y hy
      cases rest with
      | nil => simp at hy
      | cons z rest =>
        obtain rfl : z = y := by simpa using hy
        have differs := (isChain_cons_cons.mp packed.apart).1
        intro yseq
        rw [typesPackable_iff.mpr ⟨type, yseq⟩] at differs
        exact absurd differs (by decide)
    have joined : normaliseFrom (.ofData .asSequence q) ([seg] ++ rest) =
        .ofData .asSequence ((ofData .asSequence q).as ++ [seg].flatMap as) ::
          assegmentNormalise rest :=
      normaliseFrom_sequences rfl (by simpa using type) stop (by simpa [data] using total)
    have last : assegmentNormalise rest = rest :=
      assegmentNormalise_eq_self ⟨packed.apart.tail, (forall_mem_cons.mp packed.strict).2⟩
    rw [singleton_append, data, last] at joined
    refine ⟨seg.as, rest, ?_, by simpa using total, fun x hx => by simp [hx], ?_, ?_⟩
    · rw [joined]
      simp
    · rw [aspathCountHops_cons, hops, type]
      rfl
    · rw [view, map_cons, type, followedBy_sequence hq]
      rfl
  · have first : ∀ seg ∈ segs.head?, seg.type ≠ .asSequence := by
      intro seg hseg type
      cases segs with
      | nil => simp at hseg
      | cons z rest =>
        obtain rfl : z = seg := by simpa using hseg
        exact sequence ⟨z, rest, rfl, type⟩
    have whole : q ++ [] = q := append_nil q
    have kept : normaliseFrom (.ofData .asSequence q) ([] ++ segs) =
        .ofData .asSequence ((ofData .asSequence q).as ++ [].flatMap as) ::
          assegmentNormalise segs :=
      normaliseFrom_sequences rfl (by simp) first (by simpa [ofData_as short] using short)
    rw [nil_append, flatMap_nil, append_nil, ofData_as short] at kept
    refine ⟨[], segs, ?_, by rwa [whole], fun x hx => hx, ?_, ?_⟩
    · rw [kept, whole, assegmentNormalise_eq_self packed]
    · simp
    · rw [whole]
      apply followedBy_other hq
      intro p hp
      cases segs with
      | nil => simp [view] at hp
      | cons z rest =>
        obtain rfl : (z.type, z.as) = p := by simpa [view] using hp
        exact first z (by simp)

/-- Behind prepended hops the path of `AS4_PATH` takes the place of the path it came with. -/
theorem reconcile_prepended {old as4 : List Segment}
    (packed : Packed old) (packed4 : Packed as4) (short : q.length < 65536)
    (fits : FitsBefore q old) (noConfed : ∀ seg ∈ old, seg.type.isConfed = false)
    (hops : aspathCountHops old = aspathCountHops as4) :
    aspathReconcileAs4 (assegmentNormalise (sequenceOf q ++ old)) as4 =
      some (assegmentNormalise (sequenceOf q ++ as4)) := by
  by_cases hq : q = []
  · subst hq
    have left : sequenceOf [] = [] := rfl
    rw [left, nil_append, nil_append, assegmentNormalise_eq_self packed,
      assegmentNormalise_eq_self packed4, aspathReconcileAs4]
    simp [hops, aspathCountConfeds_eq_zero noConfed]
  · obtain ⟨as, rest, eq, total, sub, count, -⟩ := normalise_prepended hq packed short fits
    have confeds : aspathCountConfeds (.ofData .asSequence (q ++ as) :: rest) = 0 := by
      apply aspathCountConfeds_eq_zero
      intro seg hseg
      rcases mem_cons.mp hseg with rfl | hseg
      · rfl
      · exact noConfed seg (sub seg hseg)
    have counted : aspathCountHops (.ofData .asSequence (q ++ as) :: rest) =
        q.length + aspathCountHops as4 := by
      rw [aspathCountHops_cons, ← hops, count]
      simp only [Segment.hops, ofData_type, Segment.length, ofData_as total, length_append]
      omega
    have some : q.length ≠ 0 := by simpa using hq
    have left : ((q.length + aspathCountHops as4 + 0 : Nat) : Int) - (aspathCountHops as4 : Nat) =
        q.length := by
      push_cast
      ring
    rw [eq, aspathReconcileAs4, confeds, counted]
    simp only [left]
    rw [if_neg (by omega), if_neg (by omega), Int.toNat_natCast, takeHops_prepended hq total]
    cases q with
    | nil => exact absurd rfl hq
    | cons a q => rfl

/-- The number of pieces a segment is cut into is at most one only when it fits. -/
theorem Segment.back_eq_singleton_iff (strict : seg.type.isSet = true → seg.as.Pairwise (· < ·)) :
    seg.back true = [seg] ↔
      (seg.type = .asSequence → (replicate seg.fullPieces (seg.as.take 255)).flatten =
        seg.as.take (255 * seg.fullPieces)) ∧
      (seg.type ≠ .asSequence → seg.length ≤ 255) := by
  by_cases sequence : seg.type = .asSequence
  · have length := seg.length_flatten_pieces
    have split : seg.pieces.flatten = seg.as ↔
        (replicate seg.fullPieces (seg.as.take 255)).flatten =
          seg.as.take (255 * seg.fullPieces) := by
      rw [pieces, flatten_append, flatten_singleton]
      constructor
      · intro same
        exact append_cancel_right (same.trans (take_append_drop _ _).symm)
      · intro same
        rw [same, take_append_drop]
    rw [back, if_pos sequence, map_narrow_true, ← split]
    simp only [sequence, ne_eq, not_true_eq_false, false_implies, and_true, true_implies,
      cons.injEq]
    constructor
    · intro same
      have := congrArg as same
      rwa [ofData_as (length ▸ seg.length_lt)] at this
    · intro same
      rw [same, ← sequence, ofData_self]
  · constructor
    · intro same
      refine ⟨fun h => absurd h sequence, fun _ => ?_⟩
      have := congrArg List.length same
      simp only [back, if_neg sequence, arrive, pieces, length_map, length_append,
        length_replicate, length_singleton, fullPieces] at this
      omega
    · rintro ⟨-, short⟩
      exact back_true ((short sequence).trans (by decide)) short strict

theorem length_le_flatMap (nonempty : ∀ seg, f seg ≠ [])
    (segs : List Segment) : segs.length ≤ (segs.flatMap f).length := by
  induction segs with
  | nil => exact le_rfl
  | cons seg segs ih =>
    have := length_pos_iff.mpr (nonempty seg)
    rw [flatMap_cons, length_append, length_cons]
    omega

theorem flatMap_eq_self_iff (nonempty : ∀ seg, f seg ≠ [])
    (segs : List Segment) : segs.flatMap f = segs ↔ ∀ seg ∈ segs, f seg = [seg] := by
  induction segs with
  | nil => simp
  | cons seg segs ih =>
    rw [flatMap_cons, forall_mem_cons, ← ih]
    constructor
    · intro same
      obtain ⟨x, xs, eq⟩ := exists_cons_of_ne_nil (nonempty seg)
      have least := length_le_flatMap nonempty segs
      rw [eq, cons_append, List.cons.injEq] at same
      have lengths := congrArg List.length same.2
      rw [length_append] at lengths
      obtain rfl : xs = [] := length_eq_zero_iff.mp (by omega)
      exact ⟨by rw [eq, same.1], same.2⟩
    · rintro ⟨first, rest⟩
      rw [first, rest, singleton_append]

/-- The path `p` sent through old speakers that prepend `q`, and as `AS4_PATH`, is restored
to `q` followed by `p`. -/
def TransitRestores (s s4 : Stream) (p : List Segment) (q : List As) : Prop :=
  ∃ s' bytes out old s4' bytes4 out4 as4 path,
    aspathPut s p false = some (s', bytes) ∧ s.Wrote out s' ∧
    aspathParse out out.length false = some old ∧
    aspathPut s4 p true = some (s4', bytes4) ∧ s4.Wrote out4 s4' ∧
    aspathParse out4 out4.length true = some as4 ∧
    aspathReconcileAs4 (assegmentNormalise (sequenceOf q ++ old)) as4 = some path ∧
    view path = followedBy q (view p)

/-- A sequence longer than one piece repeats its first 255 ASNs up to the last piece, a set fits in
one piece, and the prepended ASNs fit in a leading sequence. -/
def Transits (p : List Segment) (q : List As) : Prop :=
  (∀ seg ∈ p, seg.type = .asSequence → (List.replicate seg.fullPieces (seg.as.take 255)).flatten =
      seg.as.take (255 * seg.fullPieces)) ∧
    (∀ seg ∈ p, seg.type ≠ .asSequence → seg.length ≤ 255) ∧
    ∀ seg ∈ p.head?, seg.type = .asSequence → q.length + seg.length < 65536

theorem followedBy_cancel {q as as' : List As} {type : SegType} {p p' : List (SegType × List As)}
    (h : followedBy q ((type, as) :: p) = followedBy q ((type, as') :: p')) :
    (type, as) :: p = (type, as') :: p' := by
  by_cases hq : q = []
  · subst hq
    exact h
  · by_cases sequence : type = .asSequence
    · subst sequence
      rw [followedBy_sequence hq, followedBy_sequence hq, cons.injEq, Prod.mk.injEq] at h
      rw [append_cancel_left h.1.2, h.2]
    · rw [followedBy_other hq (by simpa using sequence),
        followedBy_other hq (by simpa using sequence), cons.injEq] at h
      exact h.2

section

variable {p : List Segment}

section

variable (use32bit : Bool)

theorem back_packed (normal : Normal p) : Packed (p.flatMap (back use32bit)) :=
  normalise_arrive use32bit normal ▸ assegmentNormalise_packed

theorem back_noConfed (noConfed : ∀ seg ∈ p, seg.type.isConfed = false) :
    ∀ seg ∈ p.flatMap (back use32bit), seg.type.isConfed = false := by
  intro seg hseg
  obtain ⟨sent, hsent, hseg⟩ := mem_flatMap.mp hseg
  rw [back_type hseg]
  exact noConfed sent hsent

theorem back_head (seg : Segment) (p : List Segment) :
    ∃ x xs, (seg :: p).flatMap (back use32bit) = x :: xs ∧ x.type = seg.type ∧
      (seg.type = .asSequence → x.length = seg.length) := by
  obtain ⟨x, xs, eq⟩ := exists_cons_of_ne_nil (seg.back_ne_nil use32bit)
  refine ⟨x, xs ++ p.flatMap (back use32bit), ?_, ?_, ?_⟩
  · rw [flatMap_cons, eq, cons_append]
  · have hx : x ∈ seg.back use32bit := eq ▸ mem_cons_self
    exact back_type hx
  · intro sequence
    have length : (seg.pieces.flatten.map (narrow use32bit)).length = seg.length := by
      rw [length_map, length_flatten_pieces]
    rw [Segment.back, if_pos sequence, cons.injEq] at eq
    rw [← eq.1, Segment.length, ofData_as (length ▸ seg.length_lt), length]

theorem back_fits (fits : FitsBefore q p) : FitsBefore q (p.flatMap (back use32bit)) := by
  cases p with
  | nil => exact fits
  | cons seg p =>
    obtain ⟨x, xs, eq, type, length⟩ := back_head use32bit seg p
    rw [eq]
    intro y hy sequence
    obtain rfl : x = y := by simpa using hy
    rw [length (type ▸ sequence)]
    exact fits seg (by simp) (type ▸ sequence)

/-- What is restored is `q` in front of what `AS4_PATH` is read as. -/
theorem view_restored (normal : Normal p) (few : q.length ≤ 255) (fits : FitsBefore q p) :
    view (assegmentNormalise (sequenceOf q ++ p.flatMap (back true))) =
      followedBy q (view (p.flatMap (back true))) := by
  by_cases hq : q = []
  · subst hq
    rw [show sequenceOf [] = [] from rfl, nil_append,
      assegmentNormalise_eq_self (back_packed true normal)]
    rfl
  · obtain ⟨as, rest, eq, total, -, -, followed⟩ := normalise_prepended hq
      (back_packed true normal) (by omega) (back_fits true fits)
    rw [eq, followed, view, map_cons, ofData_as total]
    rfl

theorem followedBy_back_iff (normal : Normal p) :
    followedBy q (view (p.flatMap (back true))) = followedBy q (view p) ↔
      ∀ seg ∈ p, (seg.type = .asSequence →
          (replicate seg.fullPieces (seg.as.take 255)).flatten =
            seg.as.take (255 * seg.fullPieces)) ∧
        (seg.type ≠ .asSequence → seg.length ≤ 255) := by
  have each : (∀ seg ∈ p, seg.back true = [seg]) ↔ _ :=
    forall₂_congr fun seg hseg => back_eq_singleton_iff (normal.strict seg hseg)
  rw [← each, ← flatMap_eq_self_iff (back_ne_nil true)]
  constructor
  · intro same
    cases p with
    | nil => rfl
    | cons seg p =>
      obtain ⟨x, xs, eq, type, -⟩ := back_head true seg p
      rw [eq] at same ⊢
      simp only [view, map_cons, type] at same
      apply view_injective
      simp only [view, map_cons, type]
      exact followedBy_cancel same
  · intro same
    rw [same]

/-- A path in memory that is `q` in front of `p` leaves room for `q` in its first segment. -/
theorem fits_of_view {path : List Segment} (same : view path = followedBy q (view p)) :
    FitsBefore q p := by
  intro seg hseg sequence
  by_cases hq : q = []
  · subst hq
    simpa [Segment.length] using seg.length_lt
  · cases p with
    | nil => simp at hseg
    | cons z p =>
      obtain rfl : z = seg := by simpa using hseg
      simp only [view, map_cons, sequence] at same
      rw [followedBy_sequence hq] at same
      cases path with
      | nil => exact absurd same (by simp)
      | cons x path =>
        rw [map_cons, cons.injEq, Prod.mk.injEq] at same
        have := x.length_lt
        rwa [same.1.2, length_append] at this

theorem aspathParse_back (normal : Normal p) :
    aspathParse (wire use32bit p) (wire use32bit p).length use32bit =
      some (p.flatMap (back use32bit)) := by
  rw [← normalise_arrive use32bit normal, ← aspathParse_wire [] normal.nonempty, append_nil]

end

theorem reconcile_back (normal : Normal p)
    (noConfed : ∀ seg ∈ p, seg.type.isConfed = false) (few : q.length ≤ 255)
    (fits : FitsBefore q p) :
    aspathReconcileAs4 (assegmentNormalise (sequenceOf q ++ p.flatMap (back false)))
        (p.flatMap (back true)) =
      some (assegmentNormalise (sequenceOf q ++ p.flatMap (back true))) :=
  reconcile_prepended (back_packed false normal) (back_packed true normal) (by omega)
    (back_fits false fits)
    (back_noConfed false noConfed) backHops_eq

variable {s s4 : Stream} (normal : Normal p)
  (noConfed : ∀ seg ∈ p, seg.type.isConfed = false) (few : q.length ≤ 255)
  (room : (wire false p).length ≤ s.writeable) (room4 : (wire true p).length ≤ s4.writeable)

include normal noConfed few room room4

theorem TransitRestores.transits (restores : TransitRestores s s4 p q) : Transits p q := by
  obtain ⟨s', put, wrote⟩ := aspathPut_spec normal room
  obtain ⟨s4', put4, wrote4⟩ := aspathPut_spec normal room4
  obtain ⟨s₁, bytes, out, old, s₂, bytes4, out4, as4, path, put₁, wrote₁, parse₁, put₂, wrote₂,
    parse₂, reconciled, same⟩ := restores
  rw [put, Option.some.injEq, Prod.mk.injEq] at put₁
  rw [put4, Option.some.injEq, Prod.mk.injEq] at put₂
  obtain ⟨rfl, -⟩ := put₁
  obtain ⟨rfl, -⟩ := put₂
  obtain rfl : out = wire false p := append_cancel_left (wrote₁.2.symm.trans wrote.2)
  obtain rfl : out4 = wire true p := append_cancel_left (wrote₂.2.symm.trans wrote4.2)
  cases (aspathParse_back false normal).symm.trans parse₁
  cases (aspathParse_back true normal).symm.trans parse₂
  have fits := fits_of_view same
  rw [reconcile_back normal noConfed few fits, Option.some.injEq] at reconciled
  rw [← reconciled, view_restored normal few fits] at same
  have each := (followedBy_back_iff normal).mp same
  exact ⟨fun seg hseg => (each seg hseg).1, fun seg hseg => (each seg hseg).2, fits⟩

theorem Transits.restores (transits : Transits p q) : TransitRestores s s4 p q := by
  obtain ⟨s', put, wrote⟩ := aspathPut_spec normal room
  obtain ⟨s4', put4, wrote4⟩ := aspathPut_spec normal room4
  obtain ⟨repeats, short, fits⟩ := transits
  refine ⟨s', _, _, _, s4', _, _, _, _, put, wrote, aspathParse_back false normal, put4, wrote4,
    aspathParse_back true normal, reconcile_back normal noConfed few fits, ?_⟩
  rw [view_restored normal few fits]
  exact (followedBy_back_iff normal).mpr fun seg hseg => ⟨repeats seg hseg, short seg hseg⟩

end

/-- A path sent through old speakers is restored when every sequence longer than one piece
repeats itself, every set fits in one piece and the prepended ASNs fit in front, and only then. -/
theorem transitRestores_iff {s s4 : Stream} {p : List Segment} {q : List As} (normal : Normal p)
    (noConfed : ∀ seg ∈ p, seg.type.isConfed = false) (few : q.length ≤ 255)
    (room : (wire false p).length ≤ s.writeable) (room4 : (wire true p).length ≤ s4.writeable) :
    TransitRestores s s4 p q ↔ Transits p q :=
  ⟨fun restores => restores.transits normal noConfed few room room4,
    fun transits => transits.restores normal noConfed few room room4⟩

theorem mixedPath_restored : TransitRestores emptyPacket emptyPacket
      [.ofData .asSequence [65001, 4200000000], .ofData .asSet [5, 4200000001, 4200000002]]
      [64512, 64513] :=
  (transitRestores_iff (by decide) (by decide) (by decide) (by decide) (by decide)).mpr
    ⟨by decide, by decide, by decide⟩

/-- The second piece of a sequence is sent as a copy of the first. -/
theorem threePieces_not_restored : ¬ TransitRestores emptyPacket emptyPacket
      [.ofData .asSequence (List.replicate 255 65001 ++ List.replicate 256 65002)] [64512] := by
  intro restores
  have transits := restores.transits (by decide +kernel) (by decide +kernel) (by decide)
    (by decide +kernel) (by decide +kernel)
  have repeats := transits.1 _ mem_cons_self rfl
  exact absurd repeats (by decide +kernel)

end Mp2mp.Bgpd
