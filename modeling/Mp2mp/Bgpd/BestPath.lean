import Mp2mp.Kit.Choice
import Mp2mp.Bgpd.PathOrder

/-!
# The best path does not depend on the order of arrival

`bgp_info_cmp` compares MEDs only between some pairs of paths and is not transitive.  With
`bgp deterministic-med` the first pass compares paths from one neighbouring AS, where MEDs
always count, and the second pass the winners, which are from different ones.  On each kind
of pair the comparison is a lexicographic order of its own.

* `bgpInfoCmp_grouped`: the two orders.
* `dmedPass_marks`: the first pass marks the best path of each group.
* `bgpBestSelection_perm`: every permutation of the paths has the same best path.
-/

namespace Mp2mp.Bgpd

open List Info

open Std (TransCmp OrientedCmp)
open Mp2mp.Kit

variable {ri ri1 x y : Info} {rest todo : List Info} {newSelect : Info} {out : Info × (Nat → Flags)}
  {new old : Option Info} {bgp : Bgp} {flags flags' : Nat → Flags}

/-! ## The comparison as two orders -/

/-- The steps that break ties. -/
def tieCmp : Info → Info → Ordering :=
  compareLex (compareOn Info.routerId) <|
  compareLex (compareOn Info.cluster) <|
  compareLex (compareOn Info.unaddressed) <|
  compareLex (compareOn Info.family) (compareOn Info.addr)

/-- The decision process, with what counts as the MED of a path. -/
def pathCmp (bgp : Bgp) (med : Info → Nat) : Info → Info → Ordering :=
  compareLex (fun x y => compareOn (fun ri : Info => ri.attr.weight) y x) <|
  compareLex (fun x y => compareOn (Info.pref bgp) y x) <|
  compareLex (compareOn Info.hops) <|
  compareLex (compareOn fun ri : Info => ri.attr.origin) <|
  compareLex (compareOn med) <|
  compareLex (compareOn (Info.external bgp)) <|
  compareLex (compareOn Info.igpmetric) tieCmp

instance : TransCmp tieCmp := by
  unfold tieCmp
  infer_instance

instance (bgp : Bgp) (med : Info → Nat) : TransCmp (pathCmp bgp med) := by
  unfold pathCmp
  infer_instance

/-- The settings under which the order of arrival should not matter. -/
structure Deterministic (bgp : Bgp) : Prop where
  deterministicMed : bgp.deterministicMed = true
  compareRouterId : bgp.compareRouterId = true
  singlePath : bgp.mpathConfigured = false
  aspathCounts : bgp.aspathIgnore = false

/-- A usable path, learned from an established peer. -/
structure Usable (flags : Nat → Flags) (ri : Info) : Prop where
  holddown : (flags ri.uid).holddown = false
  stale : (flags ri.uid).stale = false
  established : ri.peer.established = true
  normal : ri.subType = .normal
  noConfed : ∀ seg ∈ ri.attr.aspath, seg.type.isConfed = false

/-- The paths differ in what ties are broken by. -/
def Apart (x y : Info) : Prop :=
  (x.routerId, x.cluster, x.peer.suRemote) ≠ (y.routerId, y.cluster, y.peer.suRemote)

instance (x y : Info) : Decidable (Apart x y) :=
  inferInstanceAs (Decidable
    ((x.routerId, x.cluster, x.peer.suRemote) ≠ (y.routerId, y.cluster, y.peer.suRemote)))

theorem Apart.tieCmp_ne_eq (apart : Apart x y) : tieCmp x y ≠ .eq := by
  intro same
  obtain ⟨id, rest⟩ := Ordering.then_eq_eq.mp same
  obtain ⟨cluster, address⟩ := Ordering.then_eq_eq.mp rest
  by_cases su : x.peer.suRemote = y.peer.suRemote
  · apply apart
    rw [compare_eq_iff_eq.mp id, compare_eq_iff_eq.mp cluster, su]
  · exact addressCmp_ne_eq ((addressCmp_eq su).trans address)

theorem Apart.pathCmp_ne_eq {med : Info → Nat} (apart : Apart x y) : pathCmp bgp med x y ≠ .eq := by
  intro same
  simp only [pathCmp, compareLex, Ordering.then_eq_eq] at same
  exact apart.tieCmp_ne_eq same.2.2.2.2.2.2.2

section

theorem Usable.not_confed (hy : Usable flags y) :
    aspathCmpLeftConfed x.attr.aspath y.attr.aspath = false := by
  simp only [aspathCmpLeftConfed]
  split
  · next seg1 _ seg2 _ _ path2 =>
    have plain := hy.noConfed seg2 (by simp [path2])
    have type : seg2.type ≠ .asConfedSequence := by
      intro confed
      simp [confed, SegType.isConfed] at plain
    simp [type]
  · rfl

theorem sortCmp_eq (hx : Usable flags x) (hy : Usable flags y) :
    sortCmp (peerCalcSort bgp x.peer) (peerCalcSort bgp y.peer) =
      compare (x.external bgp) (y.external bgp) := by
  have notInternal : peerCalcSort bgp x.peer ≠ .internal := peerCalcSort_ne_internal hx.established
  have notInternal' : peerCalcSort bgp y.peer ≠ .internal := peerCalcSort_ne_internal hy.established
  rw [external, external]
  cases first : peerCalcSort bgp x.peer <;> cases second : peerCalcSort bgp y.peer <;>
    first
      | exact absurd first notInternal
      | exact absurd second notInternal'
      | rfl

/-- The last step, on paths that differ in the steps before it or in their peer address. -/
theorem addressStep_eq (apart : Apart x y) :
    (compare x.routerId y.routerId).then ((compare x.cluster y.cluster).then (addressCmp x y)) =
      tieCmp x y := by
  simp only [tieCmp, compareLex, compareOn]
  by_cases su : x.peer.suRemote = y.peer.suRemote
  · cases id : compare x.routerId y.routerId with
    | lt => rfl
    | gt => rfl
    | eq =>
      cases cluster : compare x.cluster y.cluster with
      | lt => rfl
      | gt => rfl
      | eq =>
        refine absurd ?_ apart
        rw [compare_eq_iff_eq.mp id, compare_eq_iff_eq.mp cluster, su]
  · rw [addressCmp_eq su]

/-- Whether MEDs of paths from different neighbours are compared depends on the number of hops
alone, which is then the same. -/
theorem foreignMed_step {o : Ordering} {c : Bool}
    (counted : c = (bgp.alwaysCompareMed || (x.hops == 0 && y.hops == 0))) (f : Ordering → Ordering) :
    (compare x.hops y.hops).then (f ((if c = true then compare (x.med bgp) (y.med bgp)
      else .eq).then o)) =
      (compare x.hops y.hops).then (f ((compare (x.foreignMed bgp) (y.foreignMed bgp)).then o)) := by
  cases order : compare x.hops y.hops with
  | lt => rfl
  | gt => rfl
  | eq =>
    have same : x.hops = y.hops := compare_eq_iff_eq.mp order
    rw [counted, foreignMed, foreignMed, same]
    by_cases always : bgp.alwaysCompareMed = true
    · simp [always]
    · by_cases none : y.hops = 0
      · simp [none]
      · simp [always, none]

/-- Between usable paths that differ, `bgp_info_cmp` is one of two lexicographic orders. -/
theorem bgpInfoCmp_grouped (settings : Deterministic bgp) (hx : Usable flags x)
    (hy : Usable flags y) (apart : Apart x y) :
    bgpInfoCmp bgp flags x y =
      if SameNeighbor x y then pathCmp bgp (med bgp) x y
      else pathCmp bgp (foreignMed bgp) x y := by
  have confedsX := aspathCountConfeds_eq_zero hx.noConfed
  have confedsY := aspathCountConfeds_eq_zero hy.noConfed
  have compared : medCompared bgp x.attr y.attr =
      (decide (SameNeighbor x y) || (bgp.alwaysCompareMed || (x.hops == 0 && y.hops == 0))) := by
    simp only [medCompared, confedsX, confedsY, hy.not_confed, SameNeighbor, hops]
    by_cases same : aspathCmpLeft x.attr.aspath y.attr.aspath = true
    · simp [same]
    · simp [same]
  have eq : bgpInfoCmp bgp flags x y =
      (compare y.attr.weight x.attr.weight).then ((compare (y.pref bgp) (x.pref bgp)).then
      ((compare x.hops y.hops).then ((compare x.attr.origin y.attr.origin).then
      ((if medCompared bgp x.attr y.attr then compare (x.med bgp) (y.med bgp) else .eq).then
      ((compare (x.external bgp) (y.external bgp)).then
      ((compare x.igpmetric y.igpmetric).then (tieCmp x y))))))) := by
    rw [← addressStep_eq apart, ← sortCmp_eq hx hy]
    simp only [bgpInfoCmp, settings.compareRouterId, settings.singlePath, settings.aspathCounts,
      hx.stale, hy.stale, hx.normal, hy.normal, confedsX, confedsY, add_zero, ite_self,
      ne_eq, not_true_eq_false, Bool.false_eq_true, Bool.true_eq_false, false_and, if_false,
      Ordering.eq_then]
    rfl
  rw [eq, compared]
  by_cases same : SameNeighbor x y
  · simp [same, pathCmp, compareLex, compareOn]
  · simp only [same, decide_false, Bool.false_or, if_false, pathCmp, compareLex, compareOn]
    rw [foreignMed_step rfl fun o => (compare x.attr.origin y.attr.origin).then o]

end

/-! ## The first pass -/

/-- Usable paths that differ, under settings that should make the choice independent of their
order. -/
structure Contest (bgp : Bgp) (paths : List Info) (flags : Nat → Flags) : Prop where
  settings : Deterministic bgp
  usable : ∀ ri ∈ paths, Usable flags ri
  nodup : (paths.map Info.uid).Nodup
  apart : ∀ x ∈ paths, ∀ y ∈ paths, x ≠ y → Apart x y

/-- The comparison within a group. -/
def groupCmp (bgp : Bgp) : Info → Info → Ordering := pathCmp bgp (Info.med bgp)

/-- The comparison between groups. -/
def finalCmp (bgp : Bgp) : Info → Info → Ordering := pathCmp bgp (Info.foreignMed bgp)

instance (bgp : Bgp) : TransCmp (groupCmp bgp) := by
  unfold groupCmp
  infer_instance

instance (bgp : Bgp) : TransCmp (finalCmp bgp) := by
  unfold finalCmp
  infer_instance

theorem Usable.of_same (h : Usable flags ri)
    (same : SameMarked flags flags') : Usable flags' ri := by
  have stale := congrArg Flags.stale (same ri.uid)
  exact ⟨(same.holddown _).trans h.holddown, stale.trans h.stale, h.established, h.normal,
    h.noConfed⟩

theorem Usable.leads (h : Usable flags ri) : ri.leads = true := by
  simp [Info.leads, h.established]

theorem Usable.counts (h : Usable flags ri) : ri.counts = true := by
  simp [Info.counts, h.established]

/-! ### Marks -/

section

variable (flags : Nat → Flags) (uid u : Nat)

theorem dmedCheck_check : (setFlags flags uid (.setDmedCheck true) u).dmedCheck = true ↔
      (flags u).dmedCheck = true ∨ u = uid := by
  rw [setFlags_apply]
  split
  · next here => simp [here, Flags.setDmedCheck]
  · next there => simp [there]

theorem dmedSelected_check (b : Bool) :
    (setFlags flags uid (.setDmedCheck b) u).dmedSelected = (flags u).dmedSelected := by
  rw [setFlags_apply]
  split <;> rfl

theorem dmedCheck_select (b : Bool) :
    (setFlags flags uid (.setDmedSelected b) u).dmedCheck = (flags u).dmedCheck := by
  rw [setFlags_apply]
  split <;> rfl

theorem dmedSelected_select (b : Bool) : (setFlags flags uid (.setDmedSelected b) u).dmedSelected =
      if u = uid then b else (flags u).dmedSelected := by
  rw [setFlags_apply]
  split <;> rfl

end

section

variable {paths : List Info} {flags₀ : Nat → Flags}

section

variable (c : Contest bgp paths flags₀)

include c

theorem Contest.uid_inj (hx : x ∈ paths) (hy : y ∈ paths) (h : x.uid = y.uid) : x = y :=
  inj_on_of_nodup_map c.nodup hx hy h

theorem Contest.within (same : SameMarked flags₀ flags)
    (hx : x ∈ paths) (hy : y ∈ paths) (differ : x ≠ y) (neighbor : SameNeighbor x y) :
    bgpInfoCmp bgp flags x y = groupCmp bgp x y := by
  rw [bgpInfoCmp_grouped c.settings ((c.usable x hx).of_same same) ((c.usable y hy).of_same same)
    (c.apart x hx y hy differ), if_pos neighbor, groupCmp]

theorem Contest.between (same : SameMarked flags₀ flags)
    (hx : x ∈ paths) (hy : y ∈ paths) (differ : x ≠ y) (neighbor : ¬ SameNeighbor x y) :
    bgpInfoCmp bgp flags x y = finalCmp bgp x y := by
  rw [bgpInfoCmp_grouped c.settings ((c.usable x hx).of_same same) ((c.usable y hy).of_same same)
    (c.apart x hx y hy differ), if_neg neighbor, finalCmp]

end

/-- What the inner loop leaves: the best of the group, and the others of it checked. -/
structure GroupRun (bgp : Bgp) (ri1 : Info) (rest : List Info) (newSelect : Info)
    (flags : Nat → Flags) (out : Info × (Nat → Flags)) : Prop where
  best : (rest.filter fun x => !(flags x.uid).dmedCheck && decide (SameNeighbor ri1 x)).foldl
    (keep (groupCmp bgp)) (some newSelect) = some out.1
  check : ∀ u, (out.2 u).dmedCheck = true ↔
    (flags u).dmedCheck = true ∨ ∃ x ∈ rest, x.uid = u ∧ SameNeighbor ri1 x
  selected : ∀ u, (out.2 u).dmedSelected = (flags u).dmedSelected

/-- A path that the inner loop compares and checks. -/
theorem GroupRun.cons {ri2 m : Info} (run : GroupRun bgp ri1 rest m flags' out)
    (fresh : ri2.uid ∉ rest.map uid) (unchecked : (flags ri2.uid).dmedCheck = false)
    (neighbor : SameNeighbor ri1 ri2)
    (check : ∀ u, (flags' u).dmedCheck = true ↔ (flags u).dmedCheck = true ∨ u = ri2.uid)
    (selected : ∀ u, (flags' u).dmedSelected = (flags u).dmedSelected)
    (better : keep (groupCmp bgp) (some newSelect) ri2 = some m) :
    GroupRun bgp ri1 (ri2 :: rest) newSelect flags out := by
  refine ⟨?_, fun u => ?_, fun u => (run.selected u).trans (selected u)⟩
  · have others : ∀ x ∈ rest, (!(flags x.uid).dmedCheck && decide (SameNeighbor ri1 x)) =
        (!(flags' x.uid).dmedCheck && decide (SameNeighbor ri1 x)) := by
      intro x hx
      have differ : x.uid ≠ ri2.uid := fun same => fresh (same ▸ mem_map_of_mem hx)
      have unchanged : (flags' x.uid).dmedCheck = (flags x.uid).dmedCheck := by
        rw [Bool.eq_iff_iff, check]
        exact or_iff_left differ
      rw [unchanged]
    rw [filter_cons_of_pos (by simp [unchecked, neighbor]), foldl_cons, better, filter_congr others]
    exact run.best
  · rw [run.check, check, exists_mem_cons_iff, or_assoc, eq_comm (b := ri2.uid)]
    simp only [neighbor, and_true]

theorem dmedGroup_run (c : Contest bgp paths flags₀)
    (same : SameMarked flags₀ flags) (sub : ∀ x ∈ newSelect :: rest, x ∈ paths)
    (nodup : ((newSelect :: rest).map uid).Nodup)
    (group : newSelect = ri1 ∨ SameNeighbor ri1 newSelect)
    (clear : (flags newSelect.uid).dmedSelected = false)
    (clears : ∀ x ∈ rest, (flags x.uid).dmedCheck = false → (flags x.uid).dmedSelected = false) :
    GroupRun bgp ri1 rest newSelect flags (dmedGroup bgp ri1 rest newSelect flags) := by
  induction rest generalizing newSelect flags with
  | nil => exact ⟨rfl, by simp [dmedGroup], fun _ => rfl⟩
  | cons ri2 rest ih =>
    have usable := (c.usable ri2 (sub ri2 (by simp))).of_same same
    simp only [map_cons, nodup_cons, mem_cons, not_or] at nodup
    obtain ⟨⟨differ, away⟩, fresh, nodup⟩ := nodup
    have subKept : ∀ x ∈ newSelect :: rest, x ∈ paths := by
      simp only [forall_mem_cons] at sub ⊢
      exact ⟨sub.1, sub.2.2⟩
    have nodupKept : ((newSelect :: rest).map uid).Nodup := nodup_cons.mpr ⟨away, nodup⟩
    have clearsRest := (forall_mem_cons.mp clears).2
    rw [dmedGroup]
    simp only [usable.holddown, usable.counts, usable.not_confed, Bool.or_false, Bool.not_true]
    by_cases checked : (flags ri2.uid).dmedCheck = true
    · rw [if_pos checked]
      have run := ih same subKept nodupKept group clear clearsRest
      refine ⟨?_, fun u => ?_, run.selected⟩
      · rw [filter_cons_of_neg (by simp [checked])]
        exact run.best
      · rw [run.check]
        constructor
        · rintro (h | ⟨x, hx, h⟩)
          · exact .inl h
          · exact .inr ⟨x, mem_cons_of_mem _ hx, h⟩
        · rintro (h | ⟨x, hx, uid, neighbor⟩)
          · exact .inl h
          · rcases mem_cons.mp hx with rfl | hx
            · exact .inl (uid ▸ checked)
            · exact .inr ⟨x, hx, uid, neighbor⟩
    · rw [if_neg checked]
      have unchecked : (flags ri2.uid).dmedCheck = false := by simpa using checked
      by_cases neighbor : SameNeighbor ri1 ri2
      · have related : SameNeighbor ri2 newSelect := by
          rcases group with rfl | group
          · exact neighbor.symm
          · exact neighbor.symm.trans group
        have compared := c.within same (sub ri2 (by simp)) (sub newSelect (by simp))
          (fun h => differ (by rw [h])) related
        rw [if_pos (show aspathCmpLeft _ _ = true from neighbor), compared]
        have clears' : ∀ f : Nat → Flags, (∀ u, (f u).dmedCheck = true ↔
            (flags u).dmedCheck = true ∨ u = ri2.uid) →
            (∀ u, (f u).dmedSelected = (flags u).dmedSelected) →
            ∀ x ∈ rest, (f x.uid).dmedCheck = false → (f x.uid).dmedSelected = false := by
          intro f check selected x hx unchecked
          rw [selected]
          apply clearsRest x hx
          rw [← Bool.not_eq_true] at unchecked ⊢
          exact fun h => unchecked ((check _).mpr (.inl h))
        by_cases less : groupCmp bgp ri2 newSelect = .lt
        · rw [if_pos less]
          set beaten := setFlags flags newSelect.uid (.setDmedSelected false) with hbeaten
          have check : ∀ u, (setFlags beaten ri2.uid (.setDmedCheck true) u).dmedCheck = true ↔
              (flags u).dmedCheck = true ∨ u = ri2.uid := by
            intro u
            rw [dmedCheck_check, hbeaten, dmedCheck_select]
          have selected : ∀ u, (setFlags beaten ri2.uid (.setDmedCheck true) u).dmedSelected =
              (flags u).dmedSelected := by
            intro u
            rw [dmedSelected_check, hbeaten, dmedSelected_select]
            split
            · next here => rw [here, clear]
            · rfl
          refine (ih ((same.trans (.select _ _ _)).trans (.check _ _ _))
            (forall_mem_cons.mp sub).2 (nodup_cons.mpr ⟨fresh, nodup⟩)
            (.inr neighbor) ?_ (clears' _ check selected)).cons fresh unchecked neighbor check
            selected ?_
          · rw [selected]
            exact clears ri2 (by simp) unchecked
          · rw [keep, if_pos less]
        · rw [if_neg less]
          have check := dmedCheck_check flags ri2.uid
          have selected := fun u => dmedSelected_check flags ri2.uid u true
          refine (ih (same.trans (.check _ _ _)) subKept nodupKept group ?_
            (clears' _ check selected)).cons fresh unchecked neighbor check selected ?_
          · rw [selected]
            exact clear
          · rw [keep, if_neg less]
      · rw [if_neg (show ¬ aspathCmpLeft _ _ = true from neighbor)]
        have run := ih same subKept nodupKept group clear clearsRest
        refine ⟨?_, fun u => ?_, run.selected⟩
        · rw [filter_cons_of_neg (by simp [neighbor])]
          exact run.best
        · rw [run.check]
          simp [neighbor]

/-- No other path from the same neighbour is better. -/
def Winner (bgp : Bgp) (paths : List Info) (x : Info) : Prop :=
  ∀ y ∈ paths, y ≠ x → SameNeighbor x y → groupCmp bgp x y = .lt

instance (bgp : Bgp) (paths : List Info) (x : Info) : Decidable (Winner bgp paths x) :=
  inferInstanceAs (Decidable (∀ y ∈ paths, y ≠ x → SameNeighbor x y → groupCmp bgp x y = .lt))

theorem winner_cons_iff (apart : ¬ SameNeighbor x ri) :
    Winner bgp (ri :: rest) x ↔ Winner bgp rest x := by
  rw [Winner, forall_mem_cons]
  exact and_iff_right fun _ neighbor => absurd neighbor apart

/-- What the first pass leaves of the paths `todo`: those checked before are as they were,
and the winners are marked. -/
structure Marked (bgp : Bgp) (todo : List Info) (flags flags' : Nat → Flags) : Prop where
  frame : ∀ u, u ∉ todo.map Info.uid → (flags' u).dmedSelected = (flags u).dmedSelected
  checked : ∀ x ∈ todo, (flags x.uid).dmedCheck = true →
    (flags' x.uid).dmedSelected = (flags x.uid).dmedSelected
  winners : ∀ x ∈ todo, (flags x.uid).dmedCheck = false →
    ((flags' x.uid).dmedSelected = true ↔ Winner bgp todo x)

/-- The best of the group of `ri1` is the one path of it that wins. -/
theorem GroupRun.least (c : Contest bgp paths flags₀) (run : GroupRun bgp ri1 rest ri1 flags out)
    (sub : ∀ x ∈ ri1 :: rest, x ∈ paths)
    (unchecked : ∀ x ∈ rest, SameNeighbor ri1 x → (flags x.uid).dmedCheck = false) :
    Least (groupCmp bgp) (fun y => y = ri1 ∨ y ∈ rest ∧ SameNeighbor ri1 y) out.1 := by
  have group : ∀ y, y ∈ rest.filter (fun x => !(flags x.uid).dmedCheck &&
      decide (SameNeighbor ri1 x)) ↔ y ∈ rest ∧ SameNeighbor ri1 y := by
    intro y
    rw [mem_filter, Bool.and_eq_true, decide_eq_true_iff]
    refine and_congr_right fun hy => ⟨fun h => h.2, fun h => ⟨?_, h⟩⟩
    rw [unchecked y hy h]
    rfl
  have mem : ∀ y, y = ri1 ∨ y ∈ rest.filter (fun x => !(flags x.uid).dmedCheck &&
      decide (SameNeighbor ri1 x)) → y ∈ paths := by
    intro y hy
    apply sub y
    rcases hy with rfl | hy
    · exact mem_cons_self
    · exact mem_cons_of_mem _ (mem_filter.mp hy).1
  have alone : Least (groupCmp bgp) (fun y => y = ri1) ri1 :=
    ⟨rfl, fun x same differ => absurd same differ⟩
  obtain ⟨m, found, least⟩ := alone.foldl_keep fun x y hx hy differ =>
    (c.apart x (mem x hx) y (mem y hy) differ).pathCmp_ne_eq
  cases run.best.symm.trans found
  exact least.congr fun y => or_congr_right (group y)

/-- The best of the group is the path of it that wins. -/
theorem eq_least_iff {m : Info}
    (least : Least (groupCmp bgp) (fun y => y = ri1 ∨ y ∈ rest ∧ SameNeighbor ri1 y) m)
    (mem : x = ri1 ∨ x ∈ rest ∧ SameNeighbor ri1 x) : x = m ↔ Winner bgp (ri1 :: rest) x := by
  rw [least.eq_iff mem, Winner]
  constructor
  · intro best y hy differ related
    refine best y ((mem_cons.mp hy).imp_right fun hy => ⟨hy, ?_⟩) differ
    rcases mem with rfl | mem
    · exact related
    · exact mem.2.trans related
  · intro wins y hy differ
    refine wins y (mem_cons.mpr (hy.imp_right And.left)) differ ?_
    rcases mem with rfl | mem
    · exact (hy.resolve_left differ).2
    · rcases hy with rfl | hy
      · exact mem.2.symm
      · exact mem.2.symm.trans hy.2

theorem dmedPass_marks (c : Contest bgp paths flags₀)
    (same : SameMarked flags₀ flags) (sub : ∀ x ∈ todo, x ∈ paths)
    (nodup : (todo.map uid).Nodup) (closed : ∀ x ∈ todo, ∀ y ∈ todo, SameNeighbor x y →
      (flags x.uid).dmedCheck = (flags y.uid).dmedCheck)
    (clear : ∀ x ∈ todo, (flags x.uid).dmedCheck = false → (flags x.uid).dmedSelected = false) :
    Marked bgp todo flags (dmedPass bgp todo flags) := by
  induction todo generalizing flags with
  | nil => exact ⟨fun _ _ => rfl, by simp, by simp⟩
  | cons ri1 rest ih =>
    have usable := (c.usable ri1 (sub ri1 (by simp))).of_same same
    rw [map_cons, nodup_cons] at nodup
    obtain ⟨fresh, nodupRest⟩ := nodup
    have subRest := (forall_mem_cons.mp sub).2
    rw [dmedPass]
    simp only [usable.holddown, usable.leads, Bool.or_false, Bool.not_true]
    by_cases checked : (flags ri1.uid).dmedCheck = true
    · rw [if_pos checked]
      have run := ih same subRest nodupRest
        (fun x hx y hy => closed x (mem_cons_of_mem _ hx) y (mem_cons_of_mem _ hy))
        (forall_mem_cons.mp clear).2
      refine ⟨fun u hu => run.frame u fun h => hu (mem_cons_of_mem _ h), ?_, ?_⟩
      · exact forall_mem_cons.mpr ⟨fun _ => run.frame _ fresh, run.checked⟩
      · refine forall_mem_cons.mpr ⟨fun h => absurd checked (by simp [h]), ?_⟩
        intro x hx unchecked
        rw [run.winners x hx unchecked, winner_cons_iff]
        intro neighbor
        have := closed x (mem_cons_of_mem _ hx) ri1 mem_cons_self neighbor
        rw [unchecked, checked] at this
        exact absurd this (by decide)
    · rw [if_neg checked]
      have unchecked : (flags ri1.uid).dmedCheck = false := by simpa using checked
      have clear1 := clear ri1 (by simp) unchecked
      have group : ∀ x ∈ rest, SameNeighbor ri1 x → (flags x.uid).dmedCheck = false :=
        fun x hx neighbor => (closed ri1 (by simp) x (by simp [hx]) neighbor).symm.trans unchecked
      have marks : SameMarked flags (dmedGroup bgp ri1 rest ri1 flags).2 :=
        dmedGroup_frame ri1 rest ri1 flags
      have run := dmedGroup_run c same sub (nodup_cons.mpr ⟨fresh, nodupRest⟩) (.inl rfl)
        clear1 (forall_mem_cons.mp clear).2
      have least := run.least c sub group
      generalize dmedGroup bgp ri1 rest ri1 flags = out at marks run least ⊢
      obtain ⟨m, after⟩ := out
      simp only at marks run least ⊢
      set marked := setFlags (setFlags after m.uid (.setDmedCheck true)) m.uid
        (.setDmedSelected true) with hmarked
      have memBest : m ∈ ri1 :: rest := by
        rcases least.1 with rfl | h
        · exact mem_cons_self
        · exact mem_cons_of_mem _ h.1
      have groupBest : ∀ x ∈ rest, x = m → SameNeighbor ri1 x := by
        rintro x hx rfl
        rcases least.1 with rfl | h
        · exact absurd (mem_map_of_mem hx) fresh
        · exact h.2
      have check : ∀ x ∈ rest, (marked x.uid).dmedCheck = true ↔
          (flags x.uid).dmedCheck = true ∨ SameNeighbor ri1 x := by
        intro x hx
        rw [hmarked, dmedCheck_select, dmedCheck_check, run.check, or_assoc]
        refine or_congr_right ⟨?_, fun h => .inl ⟨x, hx, rfl, h⟩⟩
        rintro (⟨y, hy, uid, neighbor⟩ | uid)
        · rwa [← c.uid_inj (subRest y hy) (subRest x hx) uid]
        · exact groupBest x hx (c.uid_inj (subRest x hx) (sub m memBest) uid)
      have selected : ∀ x ∈ ri1 :: rest, (marked x.uid).dmedSelected = true ↔
          x = m ∨ (flags x.uid).dmedSelected = true := by
        intro x hx
        rw [hmarked, dmedSelected_select, dmedSelected_check, run.selected]
        split
        · next uid => simp [c.uid_inj (sub x hx) (sub m memBest) uid]
        · next differ => exact (or_iff_right fun h => differ (by rw [h])).symm
      have uncheckedBest : (flags m.uid).dmedCheck = false := by
        rcases least.1 with rfl | h
        · exact unchecked
        · exact group m h.1 h.2
      -- among the paths still to come a group is checked as a whole or not at all
      have next := ih (((same.trans marks).trans (.check _ _ _)).trans (.select _ _ _))
        subRest nodupRest
        (fun x hx y hy neighbor => by
          rw [Bool.eq_iff_iff, check x hx, check y hy, closed x (by simp [hx]) y (by simp [hy])
            neighbor]
          exact or_congr_right ⟨fun h => h.trans neighbor, fun h => h.trans neighbor.symm⟩)
        (fun x hx unmarked => by
          rw [← Bool.not_eq_true, check x hx, not_or, Bool.not_eq_true] at unmarked
          rw [← Bool.not_eq_true, selected x (by simp [hx]), not_or, Bool.not_eq_true]
          exact ⟨fun best => unmarked.2 (groupBest x hx best), clear x (by simp [hx]) unmarked.1⟩)
      refine ⟨fun u hu => ?_, ?_, ?_⟩
      · rw [map_cons, mem_cons, not_or] at hu
        rw [next.frame u hu.2, dmedSelected_select, dmedSelected_check, run.selected, if_neg]
        rintro rfl
        exact absurd (mem_map_of_mem (f := uid) memBest) (by simpa using hu)
      · refine forall_mem_cons.mpr ⟨fun h => absurd h checked, fun x hx h => ?_⟩
        rw [next.checked x hx ((check x hx).mpr (.inl h)), Bool.eq_iff_iff,
          selected x (by simp [hx])]
        refine or_iff_right ?_
        rintro rfl
        exact absurd (h.symm.trans uncheckedBest) (by decide)
      · refine forall_mem_cons.mpr ⟨fun _ => ?_, fun x hx h => ?_⟩
        · rw [next.frame _ fresh, selected ri1 (by simp), clear1, eq_least_iff least (.inl rfl)]
          simp
        · by_cases neighbor : SameNeighbor ri1 x
          · rw [next.checked x hx ((check x hx).mpr (.inr neighbor)), selected x (by simp [hx]),
              clear x (by simp [hx]) h, eq_least_iff least (.inr ⟨hx, neighbor⟩)]
            simp
          · have fair : (marked x.uid).dmedCheck = false := by
              rw [← Bool.not_eq_true, check x hx, h]
              simp [neighbor]
            rw [next.winners x hx fair, winner_cons_iff fun related => neighbor related.symm]

/-! ## The second pass -/

theorem newSelect_eq_keep :
    (∀ exist ∈ new, bgpInfoCmp bgp flags ri exist = finalCmp bgp ri exist) → (match new with
      | none => some ri
      | some exist => if bgpInfoCmp bgp flags ri exist = .lt then some ri else some exist) =
      keep (finalCmp bgp) new ri := by
  intro h
  cases new with
  | none => rfl
  | some exist => rw [keep, ← h exist rfl]

/-- The second pass ends with the best of the marked paths. -/
theorem selectPass_new (c : Contest bgp paths flags₀)
    (same : SameMarked flags₀ flags) (sub : ∀ x ∈ todo, x ∈ paths)
    (nodup : (todo.map uid).Nodup) (seen : ∀ x ∈ new, x ∈ paths ∧ x ∉ todo)
    (apart : ∀ x ∈ todo, (flags x.uid).dmedSelected = true → ∀ y, y ∈ new ∨
      y ∈ todo ∧ (flags y.uid).dmedSelected = true → x ≠ y → ¬ SameNeighbor x y) :
    (selectPass bgp todo old new flags).new =
      (todo.filter fun x => (flags x.uid).dmedSelected).foldl (keep (finalCmp bgp)) new := by
  induction todo generalizing old new flags with
  | nil => rfl
  | cons ri rest ih =>
    have usable := (c.usable ri (sub ri (by simp))).of_same same
    rw [map_cons, nodup_cons] at nodup
    obtain ⟨fresh, nodup⟩ := nodup
    have subRest := (forall_mem_cons.mp sub).2
    have uids : ∀ x ∈ rest, x.uid ≠ ri.uid :=
      fun x hx same => fresh (same ▸ mem_map_of_mem hx)
    simp only [selectPass, usable.holddown, usable.counts, c.settings.deterministicMed,
      Bool.false_eq_true, Bool.not_true, Bool.true_and, if_false]
    by_cases marked : (flags ri.uid).dmedSelected = true
    · rw [if_neg (by simp [marked]),
        filter_cons_of_pos (p := fun x : Info => (flags x.uid).dmedSelected) marked,
        foldl_cons]
      dsimp only
      set cleared := setFlags (setFlags flags ri.uid (.setDmedCheck false)) ri.uid
        (.setDmedSelected false) with hcleared
      have sameCleared : SameMarked flags₀ cleared :=
        (same.trans (.check _ _ _)).trans (.select _ _ _)
      have others : ∀ x ∈ rest, (cleared x.uid).dmedSelected = (flags x.uid).dmedSelected := by
        intro x hx
        rw [hcleared, dmedSelected_select, if_neg (uids x hx), dmedSelected_check]
      have better : ∀ exist ∈ new, bgpInfoCmp bgp cleared ri exist = finalCmp bgp ri exist := by
        intro exist h
        obtain ⟨mem, unseen⟩ := seen exist h
        have differ : ri ≠ exist := fun h => unseen (h ▸ mem_cons_self)
        exact c.between sameCleared (sub ri (by simp)) mem differ
          (apart ri (by simp) marked exist (.inl h) differ)
      have kept : ∀ y ∈ keep (finalCmp bgp) new ri, y ∈ new ∨ y = ri := fun y => mem_keep
      refine (congrArg (fun next => (selectPass bgp rest _ next cleared).new)
        (newSelect_eq_keep better)).trans ?_
      rw [ih sameCleared subRest nodup, filter_congr others]
      · intro y hy
        rcases kept y hy with hy | rfl
        · exact ⟨(seen y hy).1, fun h => (seen y hy).2 (mem_cons_of_mem _ h)⟩
        · exact ⟨sub y (by simp), fun h => uids y h rfl⟩
      · intro x hx hsel y hy
        rw [others x hx] at hsel
        apply apart x (by simp [hx]) hsel y
        rcases hy with hy | ⟨hy, hysel⟩
        · rcases kept y hy with hy | rfl
          · exact .inl hy
          · exact .inr ⟨by simp, marked⟩
        · exact .inr ⟨by simp [hy], by rwa [others y hy] at hysel⟩
    · rw [if_pos (by simpa using marked),
        filter_cons_of_neg (p := fun x : Info => (flags x.uid).dmedSelected) marked]
      dsimp only
      rw [ih (same.trans (.check _ _ _)) subRest nodup]
      · simp only [dmedSelected_check]
      · exact fun y hy => ⟨(seen y hy).1, fun h => (seen y hy).2 (mem_cons_of_mem _ h)⟩
      · intro x hx hsel y hy
        rw [dmedSelected_check] at hsel
        apply apart x (by simp [hx]) hsel y
        exact hy.imp_right fun h => ⟨by simp [h.1], by simpa only [dmedSelected_check] using h.2⟩

theorem Winner.not_sameNeighbor (hx : Winner bgp paths x) (hy : Winner bgp paths y)
    (memX : x ∈ paths) (memY : y ∈ paths) (differ : x ≠ y) : ¬ SameNeighbor x y :=
  fun h => not_lt_both (hx y memY differ.symm h) (hy x memX differ h.symm)

/-- The best path, in terms that do not depend on the order of the paths. -/
theorem bgpBestSelection_new (c : Contest bgp paths flags)
    (unmarked : ∀ x ∈ paths, (flags x.uid).dmedCheck = false ∧ (flags x.uid).dmedSelected = false) :
    (bgpBestSelection bgp paths flags).new =
      (paths.filter fun x => decide (Winner bgp paths x)).foldl (keep (finalCmp bgp)) none := by
  have marked := dmedPass_marks c (.refl flags) (fun x hx => hx) c.nodup
    (fun x hx y hy _ => (unmarked x hx).1.trans (unmarked y hy).1.symm) fun x hx _ => (unmarked x hx).2
  have winners := fun x hx => marked.winners x hx (unmarked x hx).1
  rw [bgpBestSelection, if_pos c.settings.deterministicMed,
    selectPass_new c (dmedPass_frame paths flags) (fun x hx => hx) c.nodup (by simp)]
  · congr 1
    apply filter_congr
    intro x hx
    rw [Bool.eq_iff_iff, decide_eq_true_iff]
    exact winners x hx
  · intro x hx hsel y hy differ
    rcases hy with hy | ⟨hy, hysel⟩
    · exact absurd hy (by simp)
    · exact ((winners x hx).mp hsel).not_sameNeighbor ((winners y hy).mp hysel) hx hy differ

end

/-! ## Marks between runs -/

/-- No path of the node is marked. -/
def Node.Unmarked (node : Node) : Prop :=
  ∀ ri ∈ node.paths, (node.flags ri.uid).dmedCheck = false ∧
    (node.flags ri.uid).dmedSelected = false

/-- The path `u` does not take part. -/
def Outside (u : Nat) (flags : Nat → Flags) (todo : List Info) : Prop :=
  ∀ x ∈ todo, x.uid = u → ¬ Eligible flags x

section

variable {u : Nat}

theorem Outside.of_eq {flags' : Nat → Flags} (h : Outside u flags todo) (same : flags' u = flags u) :
    Outside u flags' todo := by
  rintro x hx rfl
  rw [Eligible, same]
  exact h x hx rfl

theorem Outside.tail (h : Outside u flags (ri :: rest)) : Outside u flags rest :=
  fun x hx => h x (mem_cons_of_mem _ hx)

theorem Outside.ne (h : Outside u flags (ri :: rest)) (eligible : Eligible flags ri) : ri.uid ≠ u :=
  fun same => h ri mem_cons_self same eligible

theorem setFlags_outside (flags : Nat → Flags) (differ : x.uid ≠ u) (f : Flags → Flags) :
    setFlags flags x.uid f u = flags u := by
  rw [setFlags_apply, if_neg differ.symm]

theorem dmedGroup_outside (bgp : Bgp) (ri1 : Info) (h : Outside u flags rest)
    (differ : newSelect.uid ≠ u) :
    (dmedGroup bgp ri1 rest newSelect flags).2 u = flags u ∧
      (dmedGroup bgp ri1 rest newSelect flags).1.uid ≠ u := by
  induction rest generalizing newSelect flags with
  | nil => exact ⟨rfl, differ⟩
  | cons ri2 rest ih =>
    rw [dmedGroup]
    split
    · exact ih h.tail differ
    · next open2 =>
      simp only [Bool.or_eq_true, not_or, Bool.not_eq_true, Bool.not_eq_false'] at open2
      have differ2 := h.ne ⟨open2.1.2, open2.2⟩
      split
      · split
        · have same := (setFlags_outside (setFlags flags newSelect.uid _) differ2
            (.setDmedCheck true)).trans (setFlags_outside flags differ (.setDmedSelected false))
          obtain ⟨kept, best⟩ := ih (h.tail.of_eq same) differ2
          exact ⟨kept.trans same, best⟩
        · have same := setFlags_outside flags differ2 (.setDmedCheck true)
          obtain ⟨kept, best⟩ := ih (h.tail.of_eq same) differ
          exact ⟨kept.trans same, best⟩
      · exact ih h.tail differ

theorem dmedPass_outside (bgp : Bgp) (h : Outside u flags todo) :
    dmedPass bgp todo flags u = flags u := by
  induction todo generalizing flags with
  | nil => rfl
  | cons ri1 rest ih =>
    rw [dmedPass]
    split
    · exact ih h.tail
    · next open1 =>
      simp only [Bool.or_eq_true, not_or, Bool.not_eq_true, Bool.not_eq_false'] at open1
      have counts : ri1.counts = true := by
        have leads := open1.2
        simp only [Info.leads, Info.counts, Bool.or_eq_true] at leads ⊢
        tauto
      obtain ⟨kept, best⟩ := dmedGroup_outside bgp ri1 h.tail (h.ne ⟨open1.1.2, counts⟩)
      have same := (setFlags_outside _ best (.setDmedSelected true)).trans
        ((setFlags_outside _ best (.setDmedCheck true)).trans kept)
      exact (ih (h.tail.of_eq same)).trans same

theorem selectPass_outside (h : Outside u flags todo) :
    (selectPass bgp todo old new flags).flags u = flags u := by
  induction todo generalizing old new flags with
  | nil => rfl
  | cons ri rest ih =>
    simp only [selectPass]
    by_cases holddown : (flags ri.uid).holddown = true
    · rw [if_pos holddown]
      generalize (if (flags ri.uid).selected then some ri else old) = old'
      split <;> exact ih h.tail
    · rw [if_neg holddown]
      by_cases away : (!ri.counts) = true
      · rw [if_pos away]
        exact ih h.tail
      · have differ := h.ne ⟨by simpa using holddown, by simpa using away⟩
        have check := setFlags_outside flags differ (.setDmedCheck false)
        rw [if_neg away]
        split
        · exact (ih (h.tail.of_eq check)).trans check
        · have same := (setFlags_outside _ differ (.setDmedSelected false)).trans check
          exact (ih (h.tail.of_eq same)).trans same

end

/-- Selection leaves no mark behind if it found none, so no run ever finds one. -/
theorem bgpBestSelection_unmarked {node : Node} (one : node.OneSelected)
    (unmarked : node.Unmarked) :
    ∀ ri ∈ (bgpBestSelection bgp node.paths node.flags).paths,
      ((bgpBestSelection bgp node.paths node.flags).flags ri.uid).dmedCheck = false ∧
      ((bgpBestSelection bgp node.paths node.flags).flags ri.uid).dmedSelected = false := by
  intro ri hri
  have chosen : Selected node (bgpBestSelection bgp node.paths node.flags) :=
    bgpBestSelection_selected one
  by_cases eligible : Eligible node.flags ri
  · exact chosen.unmarked ri hri eligible
  · have outside : Outside ri.uid node.flags node.paths := by
      intro x hx uid
      rwa [inj_on_of_nodup_map node.nodup hx (chosen.sub ri hri) uid]
    have kept : (bgpBestSelection bgp node.paths node.flags).flags ri.uid = node.flags ri.uid := by
      rw [bgpBestSelection]
      split
      · have same := dmedPass_outside bgp outside
        exact (selectPass_outside (outside.of_eq same)).trans same
      · exact selectPass_outside outside
    rw [kept]
    exact unmarked ri (chosen.sub ri hri)

/-! ## Permutations -/

instance : Std.Symm Apart := ⟨fun _ _ h => Ne.symm h⟩

theorem Contest.perm {paths paths' : List Info}
    (c : Contest bgp paths flags) (perm : paths'.Perm paths) : Contest bgp paths' flags where
  settings := c.settings
  usable ri h := c.usable ri (perm.mem_iff.mp h)
  nodup := (perm.map uid).nodup_iff.mpr c.nodup
  apart x hx y hy := c.apart x (perm.mem_iff.mp hx) y (perm.mem_iff.mp hy)

/-- Which path is selected does not depend on the order in which the paths arrived.  No path
is marked before, as every run of selection leaves it. -/
theorem bgpBestSelection_perm {bgp : Bgp} (settings : Deterministic bgp) {node : Node}
    (unmarked : node.Unmarked) (usable : ∀ ri ∈ node.paths, Usable node.flags ri)
    (apart : node.paths.Pairwise Apart) {paths : List Info} (perm : paths.Perm node.paths) :
    (bgpBestSelection bgp paths node.flags).new =
      (bgpBestSelection bgp node.paths node.flags).new := by
  have c : Contest bgp node.paths node.flags :=
    ⟨settings, usable, node.nodup, fun x hx y hy => apart.forall hx hy⟩
  rw [bgpBestSelection_new c unmarked,
    bgpBestSelection_new (c.perm perm) fun x hx => unmarked x (perm.mem_iff.mp hx)]
  have winners : ∀ x, Winner bgp paths x ↔ Winner bgp node.paths x :=
    fun x => forall_congr' fun y => by rw [perm.mem_iff]
  apply foldl_keep_congr
  · intro x
    rw [mem_filter, mem_filter, decide_eq_true_iff, decide_eq_true_iff, winners, perm.mem_iff]
  · intro x hx y hy differ
    have memX := perm.mem_iff.mp (mem_filter.mp hx).1
    have memY := perm.mem_iff.mp (mem_filter.mp hy).1
    exact (c.apart x memX y memY differ).pathCmp_ne_eq

/-- Three paths, two of them from one neighbouring AS: each one loses a comparison with one of
the others. -/
def contested : Node where
  paths :=
    [learnedPath 3 [.ofData .asSequence [7]] (some 20), learnedPath 2 [.ofData .asSequence [8]] (some 5),
      learnedPath 1 [.ofData .asSequence [7]] (some 30)]
  flags _ := .usable
  nodup := by decide

theorem learnedPath_usable (uid : Nat) {aspath : List Segment} (med : Option Nat)
    (h : ∀ seg ∈ aspath, seg.type.isConfed = false) :
    Usable (fun _ => .usable) (learnedPath uid aspath med) :=
  ⟨rfl, rfl, rfl, rfl, h⟩

theorem contested_unmarked :
    let sel := bgpBestSelection { bgpCreate with deterministicMed := true } contested.paths
      contested.flags
    ∀ ri ∈ sel.paths, (sel.flags ri.uid).dmedCheck = false ∧
      (sel.flags ri.uid).dmedSelected = false :=
  bgpBestSelection_unmarked (by simp [Node.OneSelected, contested, Flags.usable]) fun _ _ => ⟨rfl, rfl⟩

theorem contested_reverse :
    (bgpBestSelection { bgpCreate with deterministicMed := true, compareRouterId := true }
        contested.paths.reverse contested.flags).new =
      (bgpBestSelection { bgpCreate with deterministicMed := true, compareRouterId := true }
        contested.paths contested.flags).new := by
  have usable : ∀ ri ∈ contested.paths, Usable contested.flags ri := by
    simp only [contested, forall_mem_cons]
    exact ⟨learnedPath_usable 3 _ (by decide), learnedPath_usable 2 _ (by decide),
      learnedPath_usable 1 _ (by decide), by simp⟩
  exact bgpBestSelection_perm ⟨rfl, rfl, rfl, rfl⟩ (fun _ _ => ⟨rfl, rfl⟩) usable (by decide)
    (reverse_perm _)

end Mp2mp.Bgpd
