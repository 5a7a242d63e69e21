import Mp2mp.Bgpd.Selection

/-!
# Which path is examined first

Most steps of `bgp_info_cmp` compare a value of one path with the same value of the other.  A
few look for a mark on one path, and answer before they look at the other.

* `bgpInfoCmp_antisymm_iff`: the answer changes sign with the order of the paths, unless such a
  step is reached with both paths marked or the last one finds no difference.
-/

namespace Mp2mp.Bgpd

open Ordering (then_eq_eq swap_then)

/-! ## What is compared -/

/-- The AS a path was received from, if it starts with a sequence. -/
def neighborAs (aspath : List Segment) : Option (Option As) :=
  match aspath.dropWhile fun seg => seg.type.isConfed with
  | seg :: _ => if seg.type = .asSequence then some seg.as.head? else none
  | [] => none

theorem aspathCmpLeft_iff {aspath1 aspath2 : List Segment} : aspathCmpLeft aspath1 aspath2 = true ↔
      ∃ as, neighborAs aspath1 = some as ∧ neighborAs aspath2 = some as := by
  rw [aspathCmpLeft, neighborAs, neighborAs]
  cases aspath1.dropWhile fun seg => seg.type.isConfed with
  | nil => simp
  | cons seg1 _ =>
    cases aspath2.dropWhile fun seg => seg.type.isConfed with
    | nil => simp
    | cons seg2 _ =>
      by_cases first : seg1.type = .asSequence
      · by_cases second : seg2.type = .asSequence
        · simp only [first, second, beq_self_eq_true, Bool.and_self, Bool.true_and, beq_iff_eq,
            if_true, Option.some.injEq, exists_eq_left']
          exact eq_comm
        · simp [second]
      · simp [first]

def SameNeighbor (x y : Info) : Prop := aspathCmpLeft x.attr.aspath y.attr.aspath = true

instance (x y : Info) : Decidable (SameNeighbor x y) :=
  inferInstanceAs (Decidable (aspathCmpLeft x.attr.aspath y.attr.aspath = true))

theorem SameNeighbor.symm {x y : Info} (h : SameNeighbor x y) : SameNeighbor y x := by
  obtain ⟨as, hx, hy⟩ := aspathCmpLeft_iff.mp h
  exact aspathCmpLeft_iff.mpr ⟨as, hy, hx⟩

theorem SameNeighbor.trans {x y z : Info} (h : SameNeighbor x y) (h' : SameNeighbor y z) :
    SameNeighbor x z := by
  obtain ⟨as, hx, hy⟩ := aspathCmpLeft_iff.mp h
  obtain ⟨as', hy', hz⟩ := aspathCmpLeft_iff.mp h'
  rw [Option.some.inj (hy.symm.trans hy')] at hx
  exact aspathCmpLeft_iff.mpr ⟨as', hx, hz⟩

def Info.pref (bgp : Bgp) (ri : Info) : Nat := ri.attr.localPref.getD bgp.defaultLocalPref

def Info.hops (ri : Info) : Nat := aspathCountHops ri.attr.aspath

def Info.med (bgp : Bgp) (ri : Info) : Nat := bgpMedValue bgp ri.attr

/-- The MED as it counts between paths from different neighbours. -/
def Info.foreignMed (bgp : Bgp) (ri : Info) : Nat :=
  if bgp.alwaysCompareMed ∨ ri.hops = 0 then ri.med bgp else 0

/-- Paths from external peers go first. -/
def Info.external (bgp : Bgp) (ri : Info) : Nat :=
  if peerCalcSort bgp ri.peer = .ebgp then 0 else 1

def Info.routerId (ri : Info) : Nat := ri.attr.originatorId.getD ri.peer.remoteId

def Info.cluster (ri : Info) : Nat := ri.attr.clusterLength.getD 0

/-- A path without a peer address goes last. -/
def Info.unaddressed (ri : Info) : Nat := if ri.peer.suRemote = none then 1 else 0

def Info.family (ri : Info) : Nat := (ri.peer.suRemote.map Sockunion.family).getD 0

def Info.addr (ri : Info) : Nat := (ri.peer.suRemote.map Sockunion.addr).getD 0

/-! ## The steps -/

/-- A marked path is preferred, and the first one is looked at first. -/
def markCmp (new exist : Bool) : Ordering := if new then .lt else if exist then .gt else .eq

section

variable (bgp : Bgp) (flags : Nat → Flags) (new exist : Info)

/-- Steps 1 and 2. -/
def prefCmp : Ordering :=
  (compare exist.attr.weight new.attr.weight).then (compare (exist.pref bgp) (new.pref bgp))

/-- What step 4 compares. -/
def Info.pathLength (info : Info) : Nat :=
  if bgp.aspathConfed then info.hops + aspathCountConfeds info.attr.aspath else info.hops

/-- Steps 4 to 8. -/
def routeCmp : Ordering :=
  (if bgp.aspathIgnore then .eq else compare (new.pathLength bgp) (exist.pathLength bgp)).then <|
  (compare new.attr.origin exist.attr.origin).then <|
  (if medCompared bgp new.attr exist.attr then compare (new.med bgp) (exist.med bgp)
    else .eq).then <|
  (sortCmp (peerCalcSort bgp new.peer) (peerCalcSort bgp exist.peer)).then <|
  compare new.igpmetric exist.igpmetric

/-- Step 9: the paths are equal when multipath is configured. -/
def mpathEqual : Bool :=
  bgp.mpathConfigured ∧ (if bgp.aspathMultipathRelax then true
    else if peerCalcSort bgp new.peer = .ibgp then aspathCmp new.attr.aspath exist.attr.aspath
    else new.peer.as = exist.peer.as)

/-- Step 10 stays with this path. -/
def keeps (info : Info) : Bool :=
  (bgp.compareRouterId = false ∧ peerCalcSort bgp new.peer = .ebgp ∧
    peerCalcSort bgp exist.peer = .ebgp) ∧ (flags info.uid).selected

/-- Steps 11 and 12. -/
def idCmp : Ordering :=
  (compare new.routerId exist.routerId).then (compare new.cluster exist.cluster)

/-- Step 13, for paths that are not stale. -/
def addressCmp : Ordering :=
  match new.peer.suRemote, exist.peer.suRemote with
  | none, _ => .gt
  | some _, none => .lt
  | some su1, some su2 =>
    match sockunionCmp su1 su2 with
    | .gt => .gt
    | _ => .lt

/-- Both paths are locally originated, or only one of the two orders makes them equal, or both were
selected before, or both are stale, or they have the same address. -/
def OrderDecides : Prop :=
  prefCmp bgp new exist = .eq ∧
  (new.subType ≠ .normal ∧ exist.subType ≠ .normal ∨
  new.subType = .normal ∧ exist.subType = .normal ∧ routeCmp bgp new exist = .eq ∧
  (mpathEqual bgp new exist ≠ mpathEqual bgp exist new ∨
  mpathEqual bgp new exist = false ∧
  (keeps bgp flags new exist new = true ∧ keeps bgp flags new exist exist = true ∨
  keeps bgp flags new exist new = false ∧ keeps bgp flags new exist exist = false ∧
  idCmp new exist = .eq ∧
  ((flags new.uid).stale = true ∧ (flags exist.uid).stale = true ∨
  (flags new.uid).stale = false ∧ (flags exist.uid).stale = false ∧
  new.peer.suRemote = exist.peer.suRemote))))

/-- The comparison, cut into its steps. -/
theorem bgpInfoCmp_eq : bgpInfoCmp bgp flags new exist =
    (prefCmp bgp new exist).then ((markCmp (new.subType ≠ .normal) (exist.subType ≠ .normal)).then
    ((routeCmp bgp new exist).then (if mpathEqual bgp new exist then .eq else
    (markCmp (keeps bgp flags new exist new) (keeps bgp flags new exist exist)).then
    ((idCmp new exist).then ((markCmp (flags exist.uid).stale (flags new.uid).stale).then
    (addressCmp new exist)))))) := by
  have kept : markCmp (keeps bgp flags new exist new) (keeps bgp flags new exist exist) =
      if bgp.compareRouterId = false ∧ peerCalcSort bgp new.peer = .ebgp ∧
          peerCalcSort bgp exist.peer = .ebgp then
        markCmp (flags new.uid).selected (flags exist.uid).selected
      else .eq := by
    simp only [keeps]
    split <;> simp_all [markCmp]
  have stale : ∀ p q o, (markCmp p q).then o = if p then .lt else if q then .gt else o := by
    decide
  rw [kept, stale (flags exist.uid).stale]
  simp only [prefCmp, routeCmp, idCmp, Ordering.then_assoc, markCmp, mpathEqual, decide_eq_true_eq]
  rfl

end

variable {bgp : Bgp} {flags : Nat → Flags} {x y : Info}

/-! ## Turning the paths round -/

section

variable {o o' a b : Ordering}

theorem then_turned (h : o' = o.swap) : o.then a = (o'.then b).swap ↔ (o = .eq → a = b.swap) := by
  subst h
  cases o <;> simp

theorem markCmp_turned {p q : Bool} : (markCmp p q).then a = ((markCmp q p).then b).swap ↔
    ¬(p = true ∧ q = true) ∧ (p = false → q = false → a = b.swap) := by
  cases p <;> cases q <;> simp [markCmp]

theorem equal_turned {e e' : Bool} (ha : a ≠ .eq) (hb : b ≠ .eq) :
    (if e then .eq else a) = (if e' then .eq else b).swap ↔ e = e' ∧ (e = false → a = b.swap) := by
  cases e <;> cases e' <;> cases a <;> cases b <;> simp_all

end

theorem prefCmp_swap : prefCmp bgp y x = (prefCmp bgp x y).swap := by
  simp [prefCmp, swap_then, Nat.compare_swap]

theorem idCmp_swap : idCmp y x = (idCmp x y).swap := by
  simp [idCmp, swap_then, Nat.compare_swap]

theorem medCompared_comm : medCompared bgp y.attr x.attr = medCompared bgp x.attr y.attr := by
  have left : aspathCmpLeft y.attr.aspath x.attr.aspath = aspathCmpLeft x.attr.aspath y.attr.aspath :=
    Bool.eq_iff_iff.mpr ⟨SameNeighbor.symm, SameNeighbor.symm⟩
  have confed : aspathCmpLeftConfed y.attr.aspath x.attr.aspath =
      aspathCmpLeftConfed x.attr.aspath y.attr.aspath := by
    cases x.attr.aspath <;> cases y.attr.aspath <;> simp only [aspathCmpLeftConfed]
    rw [Bool.and_comm (_ == _) (_ == _), BEq.comm (a := List.head? _)]
  simp only [medCompared, left, confed, Bool.and_comm]

theorem sortCmp_swap (s t : PeerSort) : sortCmp t s = (sortCmp s t).swap := by
  cases s <;> cases t <;> rfl

theorem routeCmp_swap : routeCmp bgp y x = (routeCmp bgp x y).swap := by
  simp only [routeCmp, swap_then, ← sortCmp_swap, medCompared_comm, Nat.compare_swap,
    apply_ite Ordering.swap, Ordering.swap_eq]

theorem keeps_comm (info : Info) : keeps bgp flags y x info = keeps bgp flags x y info := by
  simp only [keeps, and_comm, and_left_comm]

theorem addressCmp_ne_eq : addressCmp x y ≠ .eq := by
  rw [addressCmp]
  split
  · simp
  · simp
  · split <;> simp

/-- Different addresses are compared by their keys. -/
theorem addressCmp_eq (differ : x.peer.suRemote ≠ y.peer.suRemote) :
    addressCmp x y = (compare x.unaddressed y.unaddressed).then
      ((compare x.family y.family).then (compare x.addr y.addr)) := by
  simp only [addressCmp, Info.unaddressed, Info.family, Info.addr]
  cases hx : x.peer.suRemote with
  | none =>
    cases hy : y.peer.suRemote with
    | none => exact absurd (hx.trans hy.symm) differ
    | some su2 => rfl
  | some su1 =>
    cases hy : y.peer.suRemote with
    | none => rfl
    | some su2 =>
      have apart : sockunionCmp su1 su2 ≠ .eq := by
        intro same
        simp only [sockunionCmp, then_eq_eq, compare_eq_iff_eq] at same
        cases su1
        cases su2
        simp_all
      change _ = sockunionCmp su1 su2
      dsimp only
      cases order : sockunionCmp su1 su2 with
      | lt => rfl
      | eq => exact absurd order apart
      | gt => rfl

theorem addressCmp_turned :
    addressCmp x y = (addressCmp y x).swap ↔ ¬x.peer.suRemote = y.peer.suRemote := by
  by_cases same : x.peer.suRemote = y.peer.suRemote
  · have turned : addressCmp x y = addressCmp y x := by
      rw [addressCmp, addressCmp, same]
    rw [turned]
    cases order : addressCmp y x <;> simp_all [addressCmp_ne_eq]
  · rw [addressCmp_eq same, addressCmp_eq (Ne.symm same)]
    simp [swap_then, Nat.compare_swap, same]

/-- Which of two paths is preferred does not depend on which is examined first, unless the order
decides. -/
theorem bgpInfoCmp_antisymm_iff (bgp : Bgp) (flags : Nat → Flags) (x y : Info) :
    bgpInfoCmp bgp flags x y = (bgpInfoCmp bgp flags y x).swap ↔ ¬OrderDecides bgp flags x y := by
  rw [bgpInfoCmp_eq, bgpInfoCmp_eq, keeps_comm (y := y), keeps_comm (y := y),
    then_turned prefCmp_swap, markCmp_turned, then_turned routeCmp_swap, equal_turned,
    markCmp_turned, then_turned idCmp_swap, markCmp_turned, addressCmp_turned]
  · simp only [OrderDecides, decide_eq_true_eq, decide_eq_false_iff_not, not_not]
    grind
  · simp [then_eq_eq, addressCmp_ne_eq]
  · simp [then_eq_eq, addressCmp_ne_eq]

/-- A route that the router itself originates. -/
def localRoute (uid : Nat) (subType : SubType) : Info where
  uid := uid
  peer := ⟨true, false, false, 0, 0, 0, none, by simp, by simp⟩
  attr := ⟨[], 0, 32768, none, none, none, none⟩
  subType := subType
  igpmetric := 0

/-- Of a static and a redistributed route each is preferred when it is examined first. -/
theorem localRoutes_undecided : ¬bgpInfoCmp bgpCreate (fun _ => .usable) (localRoute 1 .static)
    (localRoute 2 .redistribute) = (bgpInfoCmp bgpCreate (fun _ => .usable)
      (localRoute 2 .redistribute) (localRoute 1 .static)).swap := by
  decide

end Mp2mp.Bgpd
