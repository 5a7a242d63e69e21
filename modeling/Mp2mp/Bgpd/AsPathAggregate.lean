import Mp2mp.Bgpd.AsPath

/-!
# Aggregating AS paths

`aspath_aggregate` of `bgp_aspath.c` keeps what two paths have in common at their start and
collects the rest of both in one set.

The loop that compares the paths leaves its match count behind.  When it stops inside a
segment, that count is where the rest of the segment begins.  When it stops between two
segments, because their types differ or one path has ended, it is the length of the segment
before, and as many ASNs of the following segments are skipped.

* `leading_eq`: what the loop keeps, and the count it leaves.
* `aspathAggregate_eq`: the common start, followed by at most one set.
* `aggregateKeeps_iff`: when no ASN is lost.
-/

namespace Mp2mp.Bgpd

open List Segment

variable {as1 as2 : List Segment}

/-! ## The function -/

/-- The loop that counts the leading ASNs two segments share. -/
def matchLen : List As → List As → Nat
  | a :: as, b :: bs => if a = b then matchLen as bs + 1 else 0
  | _, _ => 0

/-- The segment made of the first ASNs of `seg`, if any are shared. -/
def Segment.shared (seg : Segment) (count : Nat) : List Segment :=
  if count ≠ 0 then [.ofData seg.type (seg.as.take count)] else []

/-- The loop over the common leading segments: what it keeps, the last match count, and where
it stands in both paths. -/
def leading : Nat → List Segment → List Segment →
    List Segment × Nat × List Segment × List Segment
  | count, seg1 :: rest1, seg2 :: rest2 =>
    if seg1.type ≠ seg2.type then ([], count, seg1 :: rest1, seg2 :: rest2)
    else
      let minlen := min seg1.length seg2.length
      let count := matchLen seg1.as seg2.as
      if count ≠ minlen ∨ count ≠ seg1.length ∨ seg1.length ≠ seg2.length then
        (seg1.shared count, count, seg1 :: rest1, seg2 :: rest2)
      else
        let (kept, left) := leading count rest1 rest2
        (seg1.shared count ++ kept, left)
  | count, segs1, segs2 => ([], count, segs1, segs2)

/-- `aspath_aggregate_as_set_add`.  A set whose length wraps is reallocated to nothing and
written before its start. -/
def aspathAggregateAsSetAdd (asset : List As) (as : As) : Option (List As) :=
  if as ∈ asset then some asset
  else if asset.length + 1 = 65536 then none
  else some (asset ++ [as])

/-- The ASNs of a chain, from the one at `start` in its first segment on. -/
def asnsFrom (start : Nat) : List Segment → List As
  | [] => []
  | seg :: rest => seg.as.drop start ++ rest.flatMap Segment.as

/-- The set segment, once it has a member. -/
def setOf (asset : List As) : List Segment :=
  match asset with
  | [] => []
  | _ => [.ofData .asSet asset]

def aspathAggregate (as1 as2 : List Segment) : Option (List Segment) :=
  let (kept, start, rest1, rest2) := leading 0 as1 as2
  ((asnsFrom start rest1 ++ asnsFrom start rest2).foldlM aspathAggregateAsSetAdd []).map
    fun asset => assegmentNormalise (kept ++ setOf asset)

/-! ## The common start -/

/-- The leading segments two paths have in common. -/
def commonSegments : List Segment → List Segment → List Segment
  | seg1 :: rest1, seg2 :: rest2 =>
    if seg1 = seg2 then seg1 :: commonSegments rest1 rest2 else []
  | _, _ => []

/-- What follows the common segments, in both paths. -/
def afterCommon : List Segment → List Segment → List Segment × List Segment
  | seg1 :: rest1, seg2 :: rest2 =>
    if seg1 = seg2 then afterCommon rest1 rest2 else (seg1 :: rest1, seg2 :: rest2)
  | segs1, segs2 => (segs1, segs2)

theorem commonSegments_append (as1 as2 : List Segment) :
    as1 = commonSegments as1 as2 ++ (afterCommon as1 as2).1 ∧
      as2 = commonSegments as1 as2 ++ (afterCommon as1 as2).2 := by
  fun_induction commonSegments as1 as2 with
  | case1 rest1 seg rest2 ih =>
    rw [afterCommon, if_pos rfl, cons_append, ← ih.1, cons_append, ← ih.2]
    exact ⟨rfl, rfl⟩
  | case2 seg1 rest1 seg2 rest2 differ =>
    rw [afterCommon, if_neg differ]
    exact ⟨rfl, rfl⟩
  | case3 segs1 segs2 short =>
    have : afterCommon segs1 segs2 = (segs1, segs2) := by
      rw [afterCommon]
      exact short
    rw [this]
    exact ⟨rfl, rfl⟩

/-- Both paths go on with a segment of one type. -/
def SameType (segs1 segs2 : List Segment) : Prop :=
  ∃ seg1 ∈ segs1.head?, ∃ seg2 ∈ segs2.head?, seg1.type = seg2.type

/-- The ASNs that the first segments of two chains of the same type have in common. -/
def sharedStart (segs1 segs2 : List Segment) : List Segment :=
  match segs1, segs2 with
  | seg1 :: _, seg2 :: _ =>
    if seg1.type = seg2.type then seg1.shared (matchLen seg1.as seg2.as) else []
  | _, _ => []

/-- The longest common leading run of segments and ASNs. -/
def commonStart (as1 as2 : List Segment) : List Segment :=
  commonSegments as1 as2 ++ sharedStart (afterCommon as1 as2).1 (afterCommon as1 as2).2

theorem matchLen_spec (as bs : List As) : matchLen as bs ≤ as.length ∧ matchLen as bs ≤ bs.length ∧
      as.take (matchLen as bs) = bs.take (matchLen as bs) ∧
      ∀ a ∈ as[matchLen as bs]?, ∀ b ∈ bs[matchLen as bs]?, a ≠ b := by
  fun_induction matchLen as bs with
  | case1 as b bs ih =>
    obtain ⟨left, right, same, next⟩ := ih
    refine ⟨Nat.succ_le_succ left, Nat.succ_le_succ right, ?_, ?_⟩
    · rw [take_succ_cons, take_succ_cons, same]
    · simpa only [getElem?_cons_succ] using next
  | case2 a as b bs differ => simp [differ]
  | case3 as bs short =>
    cases as with
    | nil => simp
    | cons a as =>
      cases bs with
      | nil => simp
      | cons b bs => exact (short a as b bs rfl rfl).elim

/-- The match count the loop leaves, from `count` on: that of the segments it stops in, or the
length of the last common segment. -/
def leftCount (count : Nat) (as1 as2 : List Segment) : Nat :=
  match afterCommon as1 as2 with
  | (seg1 :: _, seg2 :: _) =>
    if seg1.type = seg2.type then matchLen seg1.as seg2.as
    else ((commonSegments as1 as2).getLast?.map Segment.length).getD count
  | _ => ((commonSegments as1 as2).getLast?.map Segment.length).getD count

theorem leftCount_cons (count : Nat) (seg : Segment) (rest1 rest2 : List Segment) :
    leftCount count (seg :: rest1) (seg :: rest2) = leftCount seg.length rest1 rest2 := by
  have last : ((commonSegments (seg :: rest1) (seg :: rest2)).getLast?.map Segment.length).getD
      count = ((commonSegments rest1 rest2).getLast?.map Segment.length).getD seg.length := by
    rw [commonSegments, if_pos rfl, getLast?_cons]
    cases (commonSegments rest1 rest2).getLast? <;> rfl
  simp only [leftCount, last, afterCommon, if_true]

theorem matchLen_self (as : List As) : matchLen as as = as.length := by
  induction as with
  | nil => rfl
  | cons a as ih => rw [matchLen, if_pos rfl, ih, length_cons]

theorem Segment.shared_self {seg : Segment} (nonempty : seg.as ≠ []) :
    seg.shared seg.length = [seg] := by
  have some : seg.length ≠ 0 := by simpa [length] using nonempty
  have whole : seg.as.take seg.length = seg.as := take_length
  rw [shared, if_pos some, whole]
  exact congrArg (fun x => [x]) (ext_as rfl (ofData_as seg.length_lt))

/-- What the loop keeps is the longest common leading run. -/
theorem leading_eq (count : Nat) (nonempty : ∀ seg ∈ as1, seg.as ≠ []) :
    leading count as1 as2 = (commonStart as1 as2, leftCount count as1 as2,
      (afterCommon as1 as2).1, (afterCommon as1 as2).2) := by
  induction as1 generalizing count as2 with
  | nil => cases as2 <;> rfl
  | cons seg1 rest1 ih =>
    cases as2 with
    | nil => rfl
    | cons seg2 rest2 =>
      by_cases same : seg1 = seg2
      · subst same
        have count' : matchLen seg1.as seg1.as = seg1.length := matchLen_self _
        have rest : leading seg1.length rest1 rest2 = _ :=
          ih seg1.length fun x hx => nonempty x (by simp [hx])
        simp only [leading, ne_eq, not_true_eq_false, if_false, count', Nat.min_self, or_self,
          rest, leftCount_cons, shared_self (nonempty seg1 (by simp)), commonStart,
          commonSegments, afterCommon, if_true, cons_append, nil_append]
      · by_cases type : seg1.type = seg2.type
        · obtain ⟨_, _, taken, _⟩ := matchLen_spec seg1.as seg2.as
          have stops : matchLen seg1.as seg2.as ≠ min seg1.length seg2.length ∨
              matchLen seg1.as seg2.as ≠ seg1.length ∨ seg1.length ≠ seg2.length := by
            by_contra goes
            push Not at goes
            obtain ⟨-, whole, lengths⟩ := goes
            rw [whole] at taken
            apply same (ext_as type ?_)
            rwa [Segment.length, take_length, ← Segment.length, lengths, Segment.length,
              take_length] at taken
          simp only [leading, type, ne_eq, not_true_eq_false, if_false, if_pos stops,
            commonStart, commonSegments, afterCommon, if_neg same, leftCount, sharedStart,
            if_true, nil_append]
        · simp only [leading, type, ne_eq, not_false_eq_true, if_true, commonStart,
            commonSegments, afterCommon, if_neg same, leftCount, sharedStart, if_false,
            nil_append, getLast?_nil, Option.map_none, Option.getD_none]

/-- A set is collected as long as its length does not wrap. -/
theorem asSetAdds_spec {asset l : List As} (nodup : asset.Nodup) (short : asset.length < 65536) :
    ((asset ++ l).toFinset.card < 65536 →
        ∃ asset', l.foldlM aspathAggregateAsSetAdd asset = some asset' ∧
          asset'.length < 65536 ∧ ∀ a, a ∈ asset' ↔ a ∈ asset ∨ a ∈ l) ∧
      (¬ (asset ++ l).toFinset.card < 65536 → l.foldlM aspathAggregateAsSetAdd asset = none) := by
  induction l generalizing asset with
  | nil =>
    have card : asset.toFinset.card = asset.length := toFinset_card_of_nodup nodup
    rw [append_nil, card]
    exact ⟨fun _ => ⟨asset, rfl, short, by simp⟩, fun h => absurd short h⟩
  | cons a l ih =>
    rw [foldlM_cons]
    by_cases member : a ∈ asset
    · have same : (asset ++ a :: l).toFinset = (asset ++ l).toFinset := by
        ext b
        simp only [mem_toFinset, mem_append, mem_cons]
        constructor
        · rintro (h | rfl | h)
          exacts [.inl h, .inl member, .inr h]
        · rintro (h | h)
          exacts [.inl h, .inr (.inr h)]
      obtain ⟨grows, faults⟩ := ih nodup short
      rw [same, aspathAggregateAsSetAdd, if_pos member]
      refine ⟨fun h => ?_, faults⟩
      obtain ⟨asset', eq, short', members⟩ := grows h
      refine ⟨asset', eq, short', fun b => ?_⟩
      rw [members b, mem_cons]
      constructor
      · rintro (h | h)
        exacts [.inl h, .inr (.inr h)]
      · rintro (h | rfl | h)
        exacts [.inl h, .inl member, .inr h]
    · have nodup' : (asset ++ [a]).Nodup := by
        rw [nodup_append]
        exact ⟨nodup, nodup_singleton a, by
          rintro b hb c hc rfl
          exact member (by simpa using mem_singleton.mp hc ▸ hb)⟩
      rw [aspathAggregateAsSetAdd, if_neg member]
      by_cases full : asset.length + 1 = 65536
      · have many : 65536 ≤ (asset ++ a :: l).toFinset.card := by
          rw [← full, ← length_singleton (a := a), ← length_append, ← toFinset_card_of_nodup nodup']
          apply Finset.card_le_card
          intro b
          simp only [mem_toFinset, mem_append, mem_cons, not_mem_nil]
          tauto
        rw [if_pos full]
        exact ⟨fun h => absurd many (by omega), fun _ => rfl⟩
      · rw [if_neg full]
        have whole : asset ++ a :: l = asset ++ [a] ++ l := by simp
        have fits : (asset ++ [a]).length < 65536 := by
          rw [length_append, length_singleton]
          omega
        obtain ⟨grows, faults⟩ := ih nodup' fits
        rw [whole]
        refine ⟨fun h => ?_, faults⟩
        obtain ⟨asset', eq, short', members⟩ := grows h
        refine ⟨asset', eq, short', fun b => ?_⟩
        rw [members b]
        simp only [mem_append, mem_cons, not_mem_nil, or_false, or_assoc]

/-! ## The result -/

theorem sharedStart_cases (segs1 segs2 : List Segment) :
    sharedStart segs1 segs2 = [] ∨ ∃ seg ∈ segs1.head?, ∃ count,
      seg.as.take count ≠ [] ∧ sharedStart segs1 segs2 = [.ofData seg.type (seg.as.take count)] := by
  cases segs1 with
  | nil => exact .inl rfl
  | cons seg1 rest1 =>
    cases segs2 with
    | nil => exact .inl rfl
    | cons seg2 rest2 =>
      rw [sharedStart]
      split
      · rw [shared]
        split
        · next some =>
          refine .inr ⟨seg1, rfl, matchLen seg1.as seg2.as, ?_, rfl⟩
          have := (matchLen_spec seg1.as seg2.as).1
          rw [← length_pos_iff, List.length_take]
          omega
        · exact .inl rfl
      · exact .inl rfl

/-- Chains that differ in the data of their last segment only are apart together. -/
theorem isChain_concat_congr {segs : List Segment} {x y : Segment} (type : x.type = y.type)
    (apart : (segs ++ [x]).IsChain fun x y => x.typesPackable y = false) :
    (segs ++ [y]).IsChain fun x y => x.typesPackable y = false := by
  rw [isChain_append] at apart ⊢
  refine ⟨apart.1, isChain_singleton y, fun a ha b hb => ?_⟩
  obtain rfl : y = b := by simpa using hb
  have := apart.2.2 a ha x (by simp)
  rwa [typesPackable, ← type]

theorem commonStart_normal (as2 : List Segment) (normal : Normal as1) :
    Normal (commonStart as1 as2) := by
  have split := (commonSegments_append as1 as2).1
  rw [split] at normal
  have front : Normal (commonSegments as1 as2) :=
    ⟨fun x hx => normal.nonempty x (mem_append_left _ hx),
      fun x hx => normal.strict x (mem_append_left _ hx), normal.apart.left_of_append⟩
  rw [commonStart]
  rcases sharedStart_cases (afterCommon as1 as2).1 (afterCommon as1 as2).2 with
    none | ⟨seg, head, count, some, eq⟩
  · rwa [none, append_nil]
  · obtain ⟨rest, after⟩ : ∃ rest, (afterCommon as1 as2).1 = seg :: rest :=
      ⟨_, eq_cons_of_mem_head? head⟩
    have short : (seg.as.take count).length < 65536 :=
      (length_take_le' ..).trans_lt seg.length_lt
    rw [after] at normal
    rw [eq]
    refine ⟨fun x hx => ?_, fun x hx set => ?_, ?_⟩
    · rcases mem_append.mp hx with hx | hx
      · exact front.nonempty x hx
      · rw [mem_singleton.mp hx, ofData_as short]
        exact some
    · rcases mem_append.mp hx with hx | hx
      · exact front.strict x hx set
      · rw [mem_singleton.mp hx] at set ⊢
        rw [ofData_as short]
        exact (normal.strict seg (by simp) set).sublist (take_sublist ..)
    · apply isChain_concat_congr
        (show seg.type = (ofData seg.type (seg.as.take count)).type from rfl)
      have whole := normal.apart
      rw [← singleton_append, ← append_assoc] at whole
      exact whole.left_of_append

theorem setOf_cases (asset : List As) :
    (asset = [] ∧ setOf asset = []) ∨ (asset ≠ [] ∧ setOf asset = [.ofData .asSet asset]) := by
  cases asset with
  | nil => exact .inl ⟨rfl, rfl⟩
  | cons a asset => exact .inr ⟨cons_ne_nil _ _, rfl⟩

/-- Behind a chain in canonical form the set is sorted and nothing else changes. -/
theorem normalise_setOf {kept : List Segment} {asset : List As} (normal : Normal kept)
    (short : asset.length < 65536) :
    ∃ tail, assegmentNormalise (kept ++ setOf asset) = kept ++ tail ∧
      Normal (kept ++ tail) ∧ ∀ a, a ∈ tail.flatMap as ↔ a ∈ asset := by
  rcases setOf_cases asset with ⟨rfl, eq⟩ | ⟨some, eq⟩
  · refine ⟨[], ?_, by rwa [append_nil], by simp⟩
    rw [eq, append_nil, normal.normalise_eq]
  · have apart : (kept ++ [ofData .asSet asset]).IsChain fun x y => x.typesPackable y = false := by
      rw [isChain_append]
      refine ⟨normal.apart, isChain_singleton _, fun x _ y hy => ?_⟩
      obtain rfl : ofData .asSet asset = y := by simpa using hy
      rw [← Bool.not_eq_true, typesPackable_iff]
      exact fun h => SegType.noConfusion h.2
    have sorted : kept.map sortSet = kept := by
      rw [← assegmentNormalise_eq_map normal.apart, normal.normalise_eq]
    have members : ∀ a, a ∈ (ofData .asSet asset).sortSet.as ↔ a ∈ asset := by
      intro a
      rw [mem_sortSet, ofData_as short]
    refine ⟨[(ofData .asSet asset).sortSet], ?_, ⟨fun x hx => ?_, fun x hx set => ?_, ?_⟩,
      by simpa using members⟩
    · rw [eq, assegmentNormalise_eq_map apart, map_append, sorted, map_singleton]
    · rcases mem_append.mp hx with hx | hx
      · exact normal.nonempty x hx
      · rw [mem_singleton.mp hx, sortSet_ne_nil, ofData_as short]
        exact some
    · rcases mem_append.mp hx with hx | hx
      · exact normal.strict x hx set
      · rw [mem_singleton.mp hx]
        exact sortSet_strict rfl
    · exact isChain_concat_congr (sortSet_type _).symm apart

/-- The ASNs that are collected in the set. -/
def collected (as1 as2 : List Segment) : List As :=
  asnsFrom (leftCount 0 as1 as2) (afterCommon as1 as2).1 ++
    asnsFrom (leftCount 0 as1 as2) (afterCommon as1 as2).2

/-- The result is the common start followed by the set of what is collected, if the set has
room for it. -/
theorem aspathAggregate_eq (as2 : List Segment) (normal : Normal as1) :
    ((collected as1 as2).toFinset.card < 65536 →
        ∃ tail, aspathAggregate as1 as2 = some (commonStart as1 as2 ++ tail) ∧
          Normal (commonStart as1 as2 ++ tail) ∧
          ∀ a, a ∈ tail.flatMap as ↔ a ∈ collected as1 as2) ∧
      (¬ (collected as1 as2).toFinset.card < 65536 → aspathAggregate as1 as2 = none) := by
  have run : aspathAggregate as1 as2 =
      ((collected as1 as2).foldlM aspathAggregateAsSetAdd []).map fun asset =>
        assegmentNormalise (commonStart as1 as2 ++ setOf asset) := by
    rw [aspathAggregate, leading_eq 0 normal.nonempty]
    rfl
  obtain ⟨grows, faults⟩ := asSetAdds_spec (l := collected as1 as2) nodup_nil (by decide)
  rw [nil_append] at grows faults
  rw [run]
  constructor
  · intro room
    obtain ⟨asset, eq, short, members⟩ := grows room
    obtain ⟨tail, result, canonical, tailed⟩ :=
      normalise_setOf (commonStart_normal as2 normal) short
    refine ⟨tail, by rw [eq, Option.map_some, result], canonical, fun a => ?_⟩
    rw [tailed a, members a]
    simp
  · intro full
    rw [faults full]
    rfl

/-! ## No ASN is lost -/

/-- The ASNs of the first segment of a chain before `count`. -/
def asnsBefore (count : Nat) (segs : List Segment) : List As :=
  segs.head?.elim [] fun seg => seg.as.take count

/-- The aggregate has the ASNs of both paths and starts with what they have in common. -/
def AggregateKeeps (as1 as2 : List Segment) : Prop :=
  ∃ path, aspathAggregate as1 as2 = some path ∧
    (∀ a, a ∈ path.flatMap Segment.as ↔
      a ∈ as1.flatMap Segment.as ∨ a ∈ as2.flatMap Segment.as) ∧
    commonStart as1 as2 <+: path

/-- The ASNs that the left over count skips. -/
def skipped (as1 as2 : List Segment) : List As :=
  asnsBefore (leftCount 0 as1 as2) (afterCommon as1 as2).1 ++
    asnsBefore (leftCount 0 as1 as2) (afterCommon as1 as2).2

/-- After their common segments both paths go on with segments of one type, or what the left
over count skips occurs elsewhere; and at most 65535 ASNs are collected. -/
def Lossless (as1 as2 : List Segment) : Prop :=
  (SameType (afterCommon as1 as2).1 (afterCommon as1 as2).2 ∨
      ∀ a ∈ skipped as1 as2, a ∈ (commonSegments as1 as2).flatMap Segment.as ++ collected as1 as2) ∧
    (collected as1 as2).toFinset.card < 65536

theorem mem_asns_iff (count : Nat) (segs : List Segment) (a : As) :
    a ∈ segs.flatMap as ↔ a ∈ asnsBefore count segs ∨ a ∈ asnsFrom count segs := by
  cases segs with
  | nil => simp [asnsBefore, asnsFrom]
  | cons seg rest =>
    have cut : a ∈ seg.as ↔ a ∈ seg.as.take count ∨ a ∈ seg.as.drop count := by
      rw [← mem_append, take_append_drop]
    simp only [flatMap_cons, mem_append, cut, asnsBefore, head?_cons,
      Option.elim_some, asnsFrom, or_assoc]

/-- Where both paths go on with one type, the count is that of the ASNs they share there. -/
theorem mem_skipped_iff (same : SameType (afterCommon as1 as2).1 (afterCommon as1 as2).2) (a : As) :
    a ∈ skipped as1 as2 ↔
      a ∈ (sharedStart (afterCommon as1 as2).1 (afterCommon as1 as2).2).flatMap as := by
  obtain ⟨seg1, head1, seg2, head2, type⟩ := same
  obtain ⟨rest1, after1⟩ : ∃ rest, (afterCommon as1 as2).1 = seg1 :: rest :=
    ⟨_, eq_cons_of_mem_head? head1⟩
  obtain ⟨rest2, after2⟩ : ∃ rest, (afterCommon as1 as2).2 = seg2 :: rest :=
    ⟨_, eq_cons_of_mem_head? head2⟩
  have after : afterCommon as1 as2 = (seg1 :: rest1, seg2 :: rest2) := Prod.ext after1 after2
  obtain ⟨_, _, taken, _⟩ := matchLen_spec seg1.as seg2.as
  have short : (seg1.as.take (matchLen seg1.as seg2.as)).length < 65536 :=
    (length_take_le' ..).trans_lt seg1.length_lt
  simp only [skipped, leftCount, after, type, if_true, asnsBefore, head?_cons, Option.elim_some,
    sharedStart, shared, ← taken, mem_append, or_self]
  split
  · simp [ofData_as short]
  · next none => simp [not_not.mp none]

theorem mem_commonStart_iff (a : As) : a ∈ (commonStart as1 as2).flatMap as ↔
      a ∈ (commonSegments as1 as2).flatMap as ∨
        a ∈ (sharedStart (afterCommon as1 as2).1 (afterCommon as1 as2).2).flatMap as := by
  rw [commonStart, flatMap_append, mem_append]

theorem sharedStart_of_not_sameType {segs1 segs2 : List Segment} (h : ¬ SameType segs1 segs2) :
    sharedStart segs1 segs2 = [] := by
  cases segs1 with
  | nil => rfl
  | cons seg1 rest1 =>
    cases segs2 with
    | nil => rfl
    | cons seg2 rest2 =>
      rw [sharedStart, if_neg fun type => h ⟨seg1, rfl, seg2, rfl, type⟩]

/-- Both paths together: what they share, what is skipped and what is collected. -/
theorem mem_both_iff (as1 as2 : List Segment) (a : As) : a ∈ as1.flatMap as ∨ a ∈ as2.flatMap as ↔
      a ∈ (commonSegments as1 as2).flatMap as ∨
        a ∈ skipped as1 as2 ∨ a ∈ collected as1 as2 := by
  obtain ⟨left, right⟩ := commonSegments_append as1 as2
  have first : a ∈ as1.flatMap as ↔ a ∈ (commonSegments as1 as2).flatMap as ∨
      a ∈ (afterCommon as1 as2).1.flatMap as := by
    nth_rewrite 1 [left]
    rw [flatMap_append, mem_append]
  have second : a ∈ as2.flatMap as ↔ a ∈ (commonSegments as1 as2).flatMap as ∨
      a ∈ (afterCommon as1 as2).2.flatMap as := by
    nth_rewrite 1 [right]
    rw [flatMap_append, mem_append]
  rw [first, second, mem_asns_iff (leftCount 0 as1 as2) (afterCommon as1 as2).1,
    mem_asns_iff (leftCount 0 as1 as2) (afterCommon as1 as2).2, skipped, mem_append, collected,
    mem_append]
  tauto

theorem AggregateKeeps.lossless (keeps : AggregateKeeps as1 as2)
    (normal : Normal as1) : Lossless as1 as2 := by
  obtain ⟨path, eq, members, -⟩ := keeps
  obtain ⟨grows, faults⟩ := aspathAggregate_eq as2 normal
  have room : (collected as1 as2).toFinset.card < 65536 := by
    by_contra full
    rw [faults full] at eq
    exact absurd eq (by simp)
  refine ⟨?_, room⟩
  by_cases same : SameType (afterCommon as1 as2).1 (afterCommon as1 as2).2
  · exact .inl same
  · right
    intro a skips
    obtain ⟨tail, result, -, tailed⟩ := grows room
    cases result.symm.trans eq
    have kept := (members a).mpr ((mem_both_iff as1 as2 a).mpr (.inr (.inl skips)))
    rwa [flatMap_append, mem_append, tailed a, commonStart,
      sharedStart_of_not_sameType same, append_nil, ← mem_append] at kept

theorem Lossless.keeps (lossless : Lossless as1 as2)
    (normal : Normal as1) : AggregateKeeps as1 as2 := by
  obtain ⟨once, room⟩ := lossless
  obtain ⟨tail, result, -, tailed⟩ := (aspathAggregate_eq as2 normal).1 room
  refine ⟨_, result, fun a => ?_, prefix_append ..⟩
  rw [flatMap_append, mem_append, tailed a, mem_commonStart_iff, mem_both_iff as1 as2 a]
  by_cases same : SameType (afterCommon as1 as2).1 (afterCommon as1 as2).2
  · rw [mem_skipped_iff same, or_assoc]
  · have elsewhere : a ∈ skipped as1 as2 → _ := once.resolve_left same a
    rw [mem_append] at elsewhere
    rw [sharedStart_of_not_sameType same]
    simp only [flatMap_nil, not_mem_nil, or_false]
    tauto

/-- Aggregation keeps every ASN and the common start exactly when the match count left behind
skips nothing that is needed and the set does not overflow. -/
theorem aggregateKeeps_iff {as1 as2 : List Segment} (normal : Normal as1) :
    AggregateKeeps as1 as2 ↔ Lossless as1 as2 :=
  ⟨fun keeps => keeps.lossless normal, fun lossless => lossless.keeps normal⟩

theorem forkedPaths_aggregate_kept :
    AggregateKeeps [.ofData .asSequence [1, 2, 3], .ofData .asSet [7, 8]]
      [.ofData .asSequence [1, 2, 5]] :=
  (aggregateKeeps_iff (by decide)).mpr ⟨.inl ⟨_, rfl, _, rfl, rfl⟩, by decide⟩

/-- `1 2 {7,8}` aggregated with `1 2` is `1 2`. -/
theorem shorterPath_aggregate_loses :
    aspathAggregate [.ofData .asSequence [1, 2], .ofData .asSet [7, 8]]
        [.ofData .asSequence [1, 2]] =
      some [.ofData .asSequence [1, 2]] ∧
    ¬ AggregateKeeps [.ofData .asSequence [1, 2], .ofData .asSet [7, 8]]
      [.ofData .asSequence [1, 2]] := by
  have result : aspathAggregate [.ofData .asSequence [1, 2], .ofData .asSet [7, 8]]
      [.ofData .asSequence [1, 2]] = some [.ofData .asSequence [1, 2]] := by decide
  refine ⟨result, ?_⟩
  rintro ⟨path, eq, members, -⟩
  cases result.symm.trans eq
  exact absurd ((members 7).mpr (.inl (by decide))) (by decide)

end Mp2mp.Bgpd
