import Mp2mp.Bgpd.AsPath

/-!
# Paths of a prefix

`struct bgp_info` of `bgp_route.h` with what `bgp_info_cmp` of `bgp_route.c` reads of it, its
peer and its attributes.

The flags of a path change while its other fields stay, so they are kept apart, by path:
`Flags` is what `ri->flags` holds, and a `uid` stands for the pointer `ri`.
-/

namespace Mp2mp.Bgpd

/-! ## Peers -/

/-- `bgp_peer_sort_t` -/
inductive PeerSort
  | ibgp
  | ebgp
  | internal
  | confed
deriving DecidableEq, Repr

/-- A peer address; the bytes of an address in network order are compared as a number. -/
structure Sockunion where
  family : Nat
  addr : Nat
deriving DecidableEq, Repr

def sockunionCmp (su1 su2 : Sockunion) : Ordering :=
  (compare su1.family su2.family).then (compare su1.addr su2.addr)

/-- `struct peer`.  `peer_self` stands for the router itself and never has a session; every
other peer was created with the local AS of its BGP instance. -/
structure Peer where
  isSelf : Bool
  established : Bool
  nsfWait : Bool
  localAs : As
  as : As
  remoteId : Nat
  suRemote : Option Sockunion
  self_idle : isSelf = true → established = false
  configured : isSelf = false → localAs ≠ 0
deriving DecidableEq

/-- The settings of `struct bgp` that selection depends on. -/
structure Bgp where
  defaultLocalPref : Nat
  alwaysCompareMed : Bool
  deterministicMed : Bool
  medMissingAsWorst : Bool
  medConfed : Bool
  aspathIgnore : Bool
  aspathConfed : Bool
  aspathMultipathRelax : Bool
  compareRouterId : Bool
  /-- `bgp_mpath_is_configured` -/
  mpathConfigured : Bool
  /-- `confed_id`, with `BGP_CONFIG_CONFEDERATION` -/
  confederation : Option As
  confedPeers : List As
deriving DecidableEq

/-- `peer_calc_sort` of a peer that is not a group -/
def peerCalcSort (bgp : Bgp) (peer : Peer) : PeerSort :=
  match bgp.confederation with
  | some confedId =>
    if peer.localAs = 0 then .internal
    else if peer.localAs = peer.as then
      if peer.localAs = confedId then .ebgp else .ibgp
    else if peer.as ∈ bgp.confedPeers then .confed
    else .ebgp
  | none =>
    if peer.localAs = 0 then .internal
    else if peer.localAs = peer.as then .ibgp
    else .ebgp

theorem peerCalcSort_ne_internal {bgp : Bgp} {peer : Peer} (h : peer.established = true) :
    peerCalcSort bgp peer ≠ .internal := by
  have neighbor : peer.isSelf = false := by
    cases self : peer.isSelf with
    | false => rfl
    | true => exact absurd (peer.self_idle self) (by simp [h])
  have := peer.configured neighbor
  rw [peerCalcSort]
  split <;> split_ifs <;> simp_all

/-! ## Paths -/

inductive SubType
  | normal
  | static
  | aggregate
  | redistribute
deriving DecidableEq, Repr

/-- `struct attr` with its extra part: what an attribute's flag bit guards is an `Option`. -/
structure Attr where
  aspath : List Segment
  origin : Nat
  weight : Nat
  localPref : Option Nat
  med : Option Nat
  originatorId : Option Nat
  clusterLength : Option Nat
deriving DecidableEq

/-- `struct bgp_info` without its flags. -/
structure Info where
  uid : Nat
  peer : Peer
  attr : Attr
  subType : SubType
  igpmetric : Nat
deriving DecidableEq

/-- `flags` of a path. -/
structure Flags where
  igpChanged : Bool
  damped : Bool
  history : Bool
  selected : Bool
  valid : Bool
  attrChanged : Bool
  dmedCheck : Bool
  dmedSelected : Bool
  stale : Bool
  removed : Bool
  counted : Bool
deriving DecidableEq, Repr

/-- `BGP_INFO_UNUSEABLE` -/
def Flags.unuseable (flags : Flags) : Bool := flags.history || flags.damped || flags.removed

/-- `BGP_INFO_HOLDDOWN` -/
def Flags.holddown (flags : Flags) : Bool := !flags.valid || flags.unuseable

/-! ## Comparing paths -/

def aspathCmpLeft (aspath1 aspath2 : List Segment) : Bool :=
  match aspath1.dropWhile fun seg => seg.type.isConfed,
    aspath2.dropWhile fun seg => seg.type.isConfed with
  | seg1 :: _, seg2 :: _ =>
    seg1.type == .asSequence && seg2.type == .asSequence && seg1.as.head? == seg2.as.head?
  | _, _ => false

def aspathCmpLeftConfed (aspath1 aspath2 : List Segment) : Bool :=
  match aspath1, aspath2 with
  | seg1 :: _, seg2 :: _ =>
    seg1.type == .asConfedSequence && seg2.type == .asConfedSequence &&
      seg1.as.head? == seg2.as.head?
  | _, _ => false

def bgpMedMax : Nat := 4294967295

def bgpMedValue (bgp : Bgp) (attr : Attr) : Nat :=
  attr.med.getD (if bgp.medMissingAsWorst then bgpMedMax else 0)

/-- Whether `bgp_info_cmp` compares the MEDs of two paths. -/
def medCompared (bgp : Bgp) (newattr existattr : Attr) : Bool :=
  let internalAsRoute := aspathCountHops newattr.aspath == 0 &&
    aspathCountHops existattr.aspath == 0
  let confedAsRoute := decide (aspathCountConfeds newattr.aspath > 0) &&
    decide (aspathCountConfeds existattr.aspath > 0) && internalAsRoute
  bgp.alwaysCompareMed || (bgp.medConfed && confedAsRoute) ||
    aspathCmpLeft newattr.aspath existattr.aspath ||
    aspathCmpLeftConfed newattr.aspath existattr.aspath || internalAsRoute

/-- `PEER_EBGP` is preferred to `PEER_IBGP` and `PEER_CONFED`. -/
def sortCmp (new exist : PeerSort) : Ordering :=
  if new = .ebgp ∧ (exist = .ibgp ∨ exist = .confed) then .lt
  else if exist = .ebgp ∧ (new = .ibgp ∨ new = .confed) then .gt
  else .eq

/-- `bgp_info_cmp` of two paths: `lt` is `-1`, `new` is preferred, and `gt` is `1`. -/
def bgpInfoCmp (bgp : Bgp) (flags : Nat → Flags) (new exist : Info) : Ordering :=
  let pref := fun attr : Attr => attr.localPref.getD bgp.defaultLocalPref
  let hops := fun attr : Attr =>
    if bgp.aspathConfed then aspathCountHops attr.aspath + aspathCountConfeds attr.aspath
    else aspathCountHops attr.aspath
  let newSort := peerCalcSort bgp new.peer
  let existSort := peerCalcSort bgp exist.peer
  let id := fun info : Info => info.attr.originatorId.getD info.peer.remoteId
  let cluster := fun info : Info => info.attr.clusterLength.getD 0
  -- 1. weight, 2. local preference
  (compare exist.attr.weight new.attr.weight).then <|
  (compare (pref exist.attr) (pref new.attr)).then <|
  -- 3. local routes
  (if new.subType ≠ .normal then .lt else if exist.subType ≠ .normal then .gt else .eq : Ordering).then <|
  -- 4. AS path length, 5. origin
  (if bgp.aspathIgnore then .eq else compare (hops new.attr) (hops exist.attr)).then <|
  (compare new.attr.origin exist.attr.origin).then <|
  -- 6. MED
  (if medCompared bgp new.attr exist.attr then
    compare (bgpMedValue bgp new.attr) (bgpMedValue bgp exist.attr) else .eq).then <|
  -- 7. peer type, 8. IGP metric
  (sortCmp newSort existSort).then <|
  (compare new.igpmetric exist.igpmetric).then <|
  -- 9. equal paths when multipath is configured
  if bgp.mpathConfigured ∧ (if bgp.aspathMultipathRelax then true
      else if newSort = .ibgp then aspathCmp new.attr.aspath exist.attr.aspath
      else new.peer.as = exist.peer.as) then .eq
  else
  -- 10. the path selected before, if both are external
  (if bgp.compareRouterId = false ∧ newSort = .ebgp ∧ existSort = .ebgp then
    if (flags new.uid).selected then .lt
    else if (flags exist.uid).selected then .gt
    else .eq
  else .eq : Ordering).then <|
  -- 11. router id, 12. cluster length
  (compare (id new) (id exist)).then <|
  (compare (cluster new) (cluster exist)).then <|
  -- 13. neighbour address
  if (flags exist.uid).stale then .lt
  else if (flags new.uid).stale then .gt
  else
    match new.peer.suRemote, exist.peer.suRemote with
    | none, _ => .gt
    | some _, none => .lt
    | some su1, some su2 =>
      match sockunionCmp su1 su2 with
      | .gt => .gt
      | _ => .lt

end Mp2mp.Bgpd
