import Mathlib.Data.Fintype.Basic

/-!
# Flooding and installation of LSAs

`ospf_flood` and what it calls: the retransmission and request lists of the neighbours
(`ospf_flood.c`), the comparison of two instances, the installation of an LSA and the removal
of the instance it replaces (`ospf_lsa.c`).

An LSA is known by its address (`Ptr`), as the databases and the lists share it; `Ospf.lsa` is
what is stored there.  The loops over the neighbours do the same to each of them, so they are
written as maps over the neighbours.  Packets sent, delayed acknowledgements, the scheduling of
route calculations and the re-origination of an LSA of the router itself (the end of `ospf_flood`,
`ospf_process_self_originated_lsa`) are not part of the model; the number of lists an LSA is on,
which the source keeps in `retransmit_counter`, is counted.

* `flood_reliable_iff`: when the lists are right after `ospf_flood`.
* `flood_installs_iff`: when an LSA of another router that was flooded is in the database
  afterwards, so that a second copy of it is not flooded again.
-/

namespace Mp2mp.Ospfd

open Function (update update_self update_apply update_of_ne update_idem)

abbrev Addr := BitVec 32

/-- `lsah->type`. -/
inductive LsaType where
  | router
  | network
  | summary
  | asbrSummary
  | asExternal
  | groupMember
  | asNssa
  | externalAttributes
  | opaqueLink
  | opaqueArea
  | opaqueAs
  deriving DecidableEq, Repr

/-- `IS_OPAQUE_LSA`. -/
def LsaType.isOpaque : LsaType → Bool
  | .opaqueLink | .opaqueArea | .opaqueAs => true
  | _ => false

/-- The types that are kept in the database of the whole AS. -/
def LsaType.isAs : LsaType → Bool
  | .asExternal | .opaqueAs => true
  | _ => false

/-- The types that `ospf_lsa_examin` accepts. -/
def LsaType.supported : LsaType → Bool
  | .groupMember | .externalAttributes => false
  | _ => true

/-- What the databases look LSAs up by. -/
structure LsaKey where
  type : LsaType
  id : Addr
  advRouter : Addr
  deriving DecidableEq

/-- An LSA as it stands in a packet; `body` is all that the header fields named here leave. -/
structure LsaData where
  key : LsaKey
  seqnum : BitVec 32
  checksum : Nat
  age : Nat
  body : List UInt8

/-- `struct ospf_lsa`; the area is not read for the types of `isAs`, where the source has `NULL`. -/
structure Lsa extends LsaData where
  tvRecv : Nat
  area : Nat
  oi : Option Nat
  self : Bool
  selfChecked : Bool
  received : Bool
  prematureAge : Bool
  localXlt : Bool

abbrev Ptr := Nat

abbrev Lsdb := LsaKey → Option Ptr

structure Interface where
  index : Nat
  area : Nat
  address : Addr
  enable : Bool
  virtualLink : Bool
  networkLsaSelf : Bool

/-- `struct ospf_neighbor`; `state` counts the states of `ospf_nsm.h`. -/
structure Neighbor where
  oi : Interface
  routerId : Addr
  state : Nat
  opaqueCapable : Bool
  lsReq : Lsdb
  lsRxmt : Lsdb

/-- `area->external_routing`. -/
inductive ExternalRouting where
  | default
  | stub
  | nssa
  deriving DecidableEq

/-- A router with `n` neighbours.  The database of the AS is `lsdb none`; `registerOpaqueLsa` tells
for which opaque LSAs of its own there is or can be an entry of `opaque_lsa_self`. -/
structure Ospf (n : Nat) where
  routerId : Addr
  now : Nat
  minLsArrival : Nat
  oiflist : List Interface
  externalRouting : Nat → ExternalRouting
  nbr : Fin n → Neighbor
  lsa : Ptr → Lsa
  next : Ptr
  lsdb : Option Nat → Lsdb
  maxageLsa : List Ptr
  lsaRefreshQueue : List Ptr
  lsaChecksum : LsaKey → BitVec 32 → List UInt8 → Nat
  registerOpaqueLsa : LsaKey → Bool

def nsmExchange : Nat := 7
def nsmLoading : Nat := 8
def nsmFull : Nat := 9
def ospfLsaMaxage : Nat := 3600
def ospfLsaMaxageDiff : Nat := 900
def ospfMaxSequenceNumber : BitVec 32 := 0x7fffffff
def ospfInitialSequenceNumber : BitVec 32 := 0x80000001

variable {n : Nat} {key : LsaKey} {nbr : Neighbor} {p : Ptr}

namespace Ospf

variable (s : Ospf n)

/-- `LS_AGE`; times are in milliseconds. -/
def lsAge (p : Ptr) : Nat :=
  min ospfLsaMaxage ((s.lsa p).age + (s.now - (s.lsa p).tvRecv) / 1000)

def isLsaMaxage (p : Ptr) : Bool :=
  s.lsAge p = ospfLsaMaxage

def ospfLsaMoreRecent : Option Ptr → Option Ptr → Int
  | none, none => 0
  | none, some _ => -1
  | some _, none => 1
  | some p, some q =>
    let x := (s.lsa p).seqnum.toInt
    let y := (s.lsa q).seqnum.toInt
    let r : Int := (s.lsa p).checksum - (s.lsa q).checksum
    if y < x then 1
    else if x < y then -1
    else if r ≠ 0 then r
    else if s.isLsaMaxage p && !s.isLsaMaxage q then 1
    else if !s.isLsaMaxage p && s.isLsaMaxage q then -1
    else if s.lsAge q + ospfLsaMaxageDiff < s.lsAge p then -1
    else if s.lsAge p + ospfLsaMaxageDiff < s.lsAge q then 1
    else 0

/-- Which of two LSAs is newer does not depend on the order of comparison. -/
theorem moreRecent_antisymm (l1 l2 : Option Ptr) :
    s.ospfLsaMoreRecent l1 l2 = -s.ospfLsaMoreRecent l2 l1 := by
  match l1, l2 with
  | none, none | none, some _ | some _, none => rfl
  | some p, some q =>
    simp only [ospfLsaMoreRecent]
    rcases lt_trichotomy (s.lsa p).seqnum.toInt (s.lsa q).seqnum.toInt with older | same | newer
    · rw [if_neg older.not_gt, if_pos older, if_pos older]
    · simp only [same, lt_irrefl, if_false]
      by_cases sums : (s.lsa p).checksum = (s.lsa q).checksum
      · rw [sums, Int.sub_self, if_neg (not_not.mpr rfl)]
        -- one of them has reached MaxAge, or their ages differ enough
        cases s.isLsaMaxage p <;> cases s.isLsaMaxage q
        case false.true | true.false => rfl
        all_goals
          by_cases younger : s.lsAge p + ospfLsaMaxageDiff < s.lsAge q
          · have : ¬s.lsAge q + ospfLsaMaxageDiff < s.lsAge p := by omega
            simp [younger, this]
          · by_cases older : s.lsAge q + ospfLsaMaxageDiff < s.lsAge p <;> simp [younger, older]
      · rw [if_pos (by omega), if_pos (by omega), Int.neg_sub]
    · rw [if_pos newer, if_neg newer.not_gt, if_pos newer, Int.neg_neg]

/-- `ospf_lsa_is_self_originated`, without the flags it sets. -/
def ospfLsaIsSelfOriginated (p : Ptr) : Bool :=
  let key := (s.lsa p).key
  if (s.lsa p).selfChecked then (s.lsa p).self
  else (s.lsa p).self || key.advRouter = s.routerId ||
    (key.type = .router && key.id = s.routerId) ||
    (key.type = .network && s.oiflist.any fun oi => !oi.virtualLink && key.id = oi.address)

def setLsa (p : Ptr) (f : Lsa → Lsa) : Ospf n :=
  { s with lsa := update s.lsa p (f (s.lsa p)) }

/-- The database an LSA belongs to. -/
def scope (p : Ptr) : Option Nat :=
  if (s.lsa p).key.type.isAs then none else some (s.lsa p).area

def ospfLsRetransmitAdd (nbr : Neighbor) (p : Ptr) : Neighbor :=
  let key := (s.lsa p).key
  if s.ospfLsaMoreRecent (nbr.lsRxmt key) (some p) < 0 then
    { nbr with lsRxmt := update nbr.lsRxmt key (some p) }
  else nbr

/-- The examination of the request list: the neighbour afterwards, and whether the flooding
goes on with it. -/
def examineRequest (nbr : Neighbor) (p : Ptr) : Neighbor × Bool :=
  let key := (s.lsa p).key
  if nbr.state < nsmFull then
    match nbr.lsReq key with
    | none => (nbr, true)
    | some lsReq =>
      let ret := s.ospfLsaMoreRecent (some lsReq) (some p)
      if 0 < ret then (nbr, false)
      else ({ nbr with lsReq := update nbr.lsReq key none }, ret ≠ 0)
  else (nbr, true)

/-- The checks after the request list: opaque capability, and whether the LSA comes from the
neighbour (without a sender, whether it is the advertising router). -/
def skipsNbr (inbr : Option (Fin n)) (nbr : Neighbor) (p : Ptr) : Bool :=
  let key := (s.lsa p).key
  key.type.isOpaque && !nbr.opaqueCapable ||
    match inbr with
    | some i => (s.nbr i).routerId = nbr.routerId
    | none => key.advRouter = nbr.routerId

/-- `ospf_flood_through_interface`, for one neighbour of the interface. -/
def ospfFloodThroughInterface (inbr : Option (Fin n)) (p : Ptr) (nbr : Neighbor) : Neighbor :=
  if !nbr.oi.enable || nbr.state < nsmExchange then nbr
  else
    let (nbr, goesOn) := s.examineRequest nbr p
    if !goesOn || s.skipsNbr inbr nbr p then nbr else s.ospfLsRetransmitAdd nbr p

/-- The interfaces of `ospf_flood_through_area`. -/
def areaFloods (area : Nat) (p : Ptr) (oi : Interface) : Bool :=
  oi.area = area && !(area ≠ 0 && oi.virtualLink) &&
    !((s.lsa p).key.type = .opaqueLink && (s.lsa p).oi ≠ some oi.index)

/-- The interfaces of `ospf_flood_through_as`, which is called for no Type-7 LSA. -/
def asFloods (oi : Interface) : Bool :=
  s.externalRouting oi.area = .default && !oi.virtualLink

def mapNbrs (on : Interface → Bool) (f : Neighbor → Neighbor) : Ospf n :=
  { s with nbr := fun i => if on (s.nbr i).oi then f (s.nbr i) else s.nbr i }

def ospfFloodThroughArea (area : Nat) (inbr : Option (Fin n)) (p : Ptr) : Ospf n :=
  s.mapNbrs (s.areaFloods area p) (s.ospfFloodThroughInterface inbr p)

def ospfFloodThroughAs (inbr : Option (Fin n)) (p : Ptr) : Ospf n :=
  s.mapNbrs s.asFloods (s.ospfFloodThroughInterface inbr p)

def ospfFloodThrough (inbr : Option (Fin n)) (p : Ptr) : Ospf n :=
  if (s.lsa p).key.type.isAs then s.ospfFloodThroughAs inbr p
  else s.ospfFloodThroughArea (s.lsa p).area inbr p

def ospfLsRetransmitDelete (nbr : Neighbor) (p : Ptr) : Neighbor :=
  let key := (s.lsa p).key
  if nbr.lsRxmt key = some p then
    { nbr with lsRxmt := update nbr.lsRxmt key none }
  else nbr

/-- `ospf_ls_retransmit_delete_nbr_if`, for one neighbour of the interface. -/
def ospfLsRetransmitDeleteNbrIf (p : Ptr) (nbr : Neighbor) : Neighbor :=
  if nbr.oi.enable then
    match nbr.lsRxmt (s.lsa p).key with
    | none => nbr
    | some lsr =>
      if (s.lsa lsr).seqnum = (s.lsa p).seqnum then s.ospfLsRetransmitDelete nbr lsr else nbr
  else nbr

/-- `ospf_ls_retransmit_delete_nbr_area` and, for the types of the AS,
`ospf_ls_retransmit_delete_nbr_as`. -/
def ospfLsRetransmitDeleteNbrs (area : Nat) (p : Ptr) : Ospf n :=
  s.mapNbrs (fun oi => (s.lsa p).key.type.isAs || oi.area = area)
    (s.ospfLsRetransmitDeleteNbrIf p)

/-- `ospf_discard_from_db`; the LSA stays in the database. -/
def ospfDiscardFromDb (scope : Option Nat) (p : Ptr) : Ospf n :=
  match s.lsdb scope (s.lsa p).key with
  | none => s
  | some old =>
    let s := { s with lsaRefreshQueue := s.lsaRefreshQueue.erase old }
    let s := s.ospfLsRetransmitDeleteNbrs (s.lsa old).area old
    { s with maxageLsa := s.maxageLsa.erase old }

/-- `ospf_lsa_maxage`. -/
def ospfLsaMaxageAdd (p : Ptr) : Ospf n :=
  { s with maxageLsa := s.maxageLsa.insert p }

def ospfLsdbAdd (scope : Option Nat) (p : Ptr) : Ospf n :=
  let lsdb := update (s.lsdb scope) (s.lsa p).key (some p)
  { s with lsdb := update s.lsdb scope lsdb }

/-- Whether the installation puts the LSA on the list of those to be refreshed. -/
def registers (p : Ptr) : Bool :=
  (s.lsa p).self &&
    match (s.lsa p).key.type with
    | .router | .network => !(s.lsa p).received
    | .asNssa | .groupMember | .externalAttributes => false
    | .asExternal => !(s.lsa p).localXlt
    | _ => true

/-- The instance that follows one with the last sequence number, made ready to be flushed. -/
def prematurelyAge (p : Ptr) (lsa : Lsa) : Lsa :=
  { lsa with
    seqnum := ospfMaxSequenceNumber
    prematureAge := lsa.prematureAge || !s.isLsaMaxage p
    age := ospfLsaMaxage }

/-- The LSA with the checksum it is stored with. -/
def summed (lsa : Lsa) : Lsa :=
  { lsa with
    checksum := if lsa.self then s.lsaChecksum lsa.key lsa.seqnum lsa.body else lsa.checksum }

/-- `ospf_lsa_install`: the LSA takes the place of the instance in the database. -/
def storeLsa (p : Ptr) : Ospf n :=
  ((s.ospfDiscardFromDb (s.scope p) p).setLsa p s.summed).ospfLsdbAdd (s.scope p) p

/-- Whether the installation of the type succeeds. -/
def installs (p : Ptr) : Bool :=
  (s.lsa p).key.type.supported &&
    !((s.lsa p).key.type.isOpaque && (s.lsa p).self && !s.registerOpaqueLsa (s.lsa p).key)

/-- `ospf_lsa_install` after the check of the sequence number. -/
def installLsa (p : Ptr) : Option Ptr × Ospf n :=
  let s := s.storeLsa p
  if s.installs p then
    let s := if s.registers p then { s with lsaRefreshQueue := s.lsaRefreshQueue.insert p } else s
    (some p, if s.isLsaMaxage p then s.ospfLsaMaxageAdd p else s)
  else (none, s)

def ospfLsaInstall (p : Ptr) : Option Ptr × Ospf n :=
  if (s.lsa p).seqnum - 1 = ospfMaxSequenceNumber then
    if s.ospfLsaIsSelfOriginated p then (s.setLsa p (s.prematurelyAge p)).installLsa p
    else (s.lsdb (s.scope p) (s.lsa p).key, s)
  else s.installLsa p

/-- The check of `MinLSArrival` in `ospf_flood`. -/
def receivedRecently : Option Ptr → Bool
  | none => false
  | some p =>
    !((s.lsa p).self && (s.lsa p).age = 0 && (s.lsa p).seqnum = ospfInitialSequenceNumber) &&
      s.now - (s.lsa p).tvRecv < s.minLsArrival

/-- What `ospf_flood` does between the check of `MinLSArrival` and the installation. -/
def floodAndPurge (inbr : Fin n) (current : Option Ptr) (p : Ptr) : Ospf n :=
  let s := s.ospfFloodThrough (some inbr) p
  match current with
  | none => s
  | some current => s.ospfLsRetransmitDeleteNbrs (s.nbr inbr).oi.area current

/-- The flags of a received LSA. -/
def markReceived (p : Ptr) : Ospf n :=
  s.setLsa p fun lsa =>
    { lsa with received := true, self := s.ospfLsaIsSelfOriginated p, selfChecked := true }

/-- `ospf_flood` up to the installation; an LSA of the router itself is then handed to
`ospf_process_self_originated_lsa`. -/
def ospfFlood (inbr : Fin n) (current : Option Ptr) (p : Ptr) : Int × Ospf n :=
  if s.receivedRecently current then (-1, s)
  else
    match (s.floodAndPurge inbr current p |>.markReceived p).ospfLsaInstall p with
    | (none, s) => (-1, s)
    | (some _, s) => (0, s)

def ospfLsaLookup (area : Nat) (key : LsaKey) : Option Ptr :=
  if key.type.supported then s.lsdb (if key.type.isAs then none else some area) key else none

/-- The test of `ospf_ls_upd` before it calls `ospf_flood`. -/
def isNewer (current : Option Ptr) (p : Ptr) : Bool :=
  current = none || s.ospfLsaMoreRecent current (some p) < 0

/-! ## The retransmission lists -/

/-- The interfaces an LSA is flooded through. -/
def floods (p : Ptr) (oi : Interface) : Bool :=
  if (s.lsa p).key.type.isAs then s.asFloods oi else s.areaFloods (s.lsa p).area p oi

/-- Neighbour `nbr` waits for no instance as recent as the LSA, did not send it and has no instance
as recent on its retransmission list. -/
structure TakesNbr (inbr : Option (Fin n)) (p : Ptr) (nbr : Neighbor) : Prop where
  enable : nbr.oi.enable
  state : nsmExchange ≤ nbr.state
  request : nbr.state < nsmFull → ∀ q, nbr.lsReq (s.lsa p).key = some q →
    s.ospfLsaMoreRecent (some q) (some p) < 0
  skips : ¬s.skipsNbr inbr nbr p
  newer : s.ospfLsaMoreRecent (nbr.lsRxmt (s.lsa p).key) (some p) < 0

/-- The LSA is put on the list of neighbour `j`. -/
def Takes (inbr : Option (Fin n)) (p : Ptr) (j : Fin n) : Prop :=
  s.floods p (s.nbr j).oi ∧ s.TakesNbr inbr p (s.nbr j)

/-- The neighbours whose lists are searched for an LSA of the area. -/
def Swept (area : Nat) (p : Ptr) (j : Fin n) : Prop :=
  ((s.lsa p).key.type.isAs ∨ (s.nbr j).oi.area = area) ∧ (s.nbr j).oi.enable

variable {s} {inbr : Option (Fin n)} {q : Ptr} {j : Fin n} {area : Nat}

theorem swept_congr {s' : Ospf n} (key : (s'.lsa p).key = (s.lsa p).key)
    (oi : (s'.nbr j).oi = (s.nbr j).oi) : s'.Swept area p j ↔ s.Swept area p j := by
  rw [Swept, Swept, key, oi]

theorem floodThrough_eq : s.ospfFloodThrough inbr p =
    s.mapNbrs (s.floods p) (s.ospfFloodThroughInterface inbr p) := by
  rw [ospfFloodThrough]
  split
  · next as => simp [ospfFloodThroughAs, mapNbrs, floods, as]
  · next notAs => simp [ospfFloodThroughArea, mapNbrs, floods, notAs]

/-- Only the request list changes. -/
theorem examineRequest_frame :
    ∃ lsReq, (s.examineRequest nbr p).1 = { nbr with lsReq } := by
  rw [examineRequest]
  dsimp only
  repeat' split
  all_goals exact ⟨_, rfl⟩

theorem examineRequest_goesOn : (s.examineRequest nbr p).2 ↔ (nbr.state < nsmFull →
    ∀ q, nbr.lsReq (s.lsa p).key = some q → s.ospfLsaMoreRecent (some q) (some p) < 0) := by
  rw [examineRequest]
  by_cases full : nbr.state < nsmFull
  · rw [if_pos full]
    cases waits : nbr.lsReq (s.lsa p).key with
    | none => simp
    | some q =>
      dsimp only
      split
      · next older => simp [full, older.le]
      · next newer =>
        rw [decide_eq_true_iff]
        constructor
        · intro differ _ r same
          rw [← Option.some.inj same]
          exact lt_of_le_of_ne (not_lt.mp newer) differ
        · exact fun newest => (newest full q rfl).ne
  · simp [full]

/-- What flooding does to a retransmission list. -/
theorem floodThroughInterface_rxmt [Decidable (s.TakesNbr inbr p nbr)] :
    (s.ospfFloodThroughInterface inbr p nbr).lsRxmt =
      if s.TakesNbr inbr p nbr then update nbr.lsRxmt (s.lsa p).key (some p)
      else nbr.lsRxmt := by
  rw [ospfFloodThroughInterface]
  split
  · next idle =>
    rw [if_neg fun takes => ?_]
    have := takes.state
    simp [takes.enable] at idle
    omega
  · next busy =>
    simp only [Bool.or_eq_true, Bool.not_eq_true', decide_eq_true_eq, not_or, not_lt,
      Bool.not_eq_false] at busy
    obtain ⟨lsReq, same⟩ := examineRequest_frame
    dsimp only
    rw [same]
    split
    · next stops =>
      rw [if_neg fun takes => ?_]
      have goesOn := examineRequest_goesOn.mpr takes.request
      have skips := takes.skips
      rw [Bool.or_eq_true, Bool.not_eq_true', goesOn] at stops
      exact stops.elim Bool.noConfusion skips
    · next goes =>
      rw [Bool.or_eq_true, Bool.not_eq_true', not_or, Bool.not_eq_false] at goes
      rw [ospfLsRetransmitAdd]
      dsimp only
      split
      · next newer =>
        rw [if_pos ⟨busy.1, busy.2, examineRequest_goesOn.mp goes.1, goes.2, newer⟩]
      · next older => rw [if_neg fun takes => older takes.newer]

theorem mapNbrs_oi {on : Interface → Bool} {f : Neighbor → Neighbor}
    (same : ∀ nbr, (f nbr).oi = nbr.oi) : ((s.mapNbrs on f).nbr j).oi = (s.nbr j).oi := by
  rw [mapNbrs]
  dsimp only
  split
  · exact same _
  · rfl

theorem floodThrough_oi : ((s.ospfFloodThrough inbr p).nbr j).oi = (s.nbr j).oi := by
  rw [floodThrough_eq]
  refine mapNbrs_oi fun nbr => ?_
  obtain ⟨lsReq, same⟩ := examineRequest_frame
  rw [ospfFloodThroughInterface]
  dsimp only
  rw [same, ospfLsRetransmitAdd]
  repeat' split
  all_goals rfl

theorem retransmitDeleteNbrs_oi :
    ((s.ospfLsRetransmitDeleteNbrs area p).nbr j).oi = (s.nbr j).oi := by
  refine mapNbrs_oi fun nbr => ?_
  simp only [ospfLsRetransmitDeleteNbrIf, ospfLsRetransmitDelete]
  repeat' split
  all_goals rfl

theorem floodThrough_rxmt [Decidable (s.Takes inbr p j)] :
    ((s.ospfFloodThrough inbr p).nbr j).lsRxmt (s.lsa p).key =
      if s.Takes inbr p j then some p else (s.nbr j).lsRxmt (s.lsa p).key := by
  classical
  rw [floodThrough_eq, mapNbrs]
  dsimp only
  by_cases on : s.floods p (s.nbr j).oi
  · rw [if_pos on, floodThroughInterface_rxmt]
    by_cases takes : s.TakesNbr inbr p (s.nbr j)
    · rw [if_pos takes, if_pos ⟨on, takes⟩, update_self]
    · rw [if_neg takes, if_neg fun h => takes h.2]
  · rw [if_neg on, if_neg fun h => on h.1]

/-- What the removal of an instance leaves on a list on which LSAs stand under their keys. -/
theorem retransmitDeleteNbrs_rxmt (here : (s.lsa p).key = key)
    (keyed : ∀ q, (s.nbr j).lsRxmt key = some q → (s.lsa q).key = key) :
    ((s.ospfLsRetransmitDeleteNbrs area p).nbr j).lsRxmt key = some q ↔
      (s.nbr j).lsRxmt key = some q ∧ ¬(s.Swept area p j ∧ (s.lsa q).seqnum = (s.lsa p).seqnum) := by
  subst here
  rw [ospfLsRetransmitDeleteNbrs, mapNbrs, Swept]
  dsimp only
  by_cases on : (s.lsa p).key.type.isAs ∨ (s.nbr j).oi.area = area
  · rw [if_pos (by simpa using on), ospfLsRetransmitDeleteNbrIf]
    by_cases enable : (s.nbr j).oi.enable
    · rw [if_pos enable]
      cases waits : (s.nbr j).lsRxmt (s.lsa p).key with
      | none => simp [waits]
      | some r =>
        dsimp only
        by_cases same : (s.lsa r).seqnum = (s.lsa p).seqnum
        · rw [if_pos same, ospfLsRetransmitDelete, keyed r waits, if_pos waits]
          simp only [update_self, reduceCtorEq, Option.some.injEq, false_iff]
          rintro ⟨rfl, differ⟩
          exact differ ⟨⟨on, enable⟩, same⟩
        · rw [if_neg same, waits, Option.some.injEq]
          exact ⟨fun h => ⟨h, fun hit => same (h ▸ hit.2)⟩, fun h => h.1⟩
    · simp [enable]
  · rw [if_neg (by simpa using on)]
    simp [on]

theorem setLsa_lsa (f : Lsa → Lsa) :
    (s.setLsa p f).lsa q = if q = p then f (s.lsa q) else s.lsa q := by
  rw [setLsa]
  dsimp only
  rw [update_apply]
  split
  · next same => rw [same]
  · rfl

theorem setLsa_same {α : Type} (g : Lsa → α) {f : Lsa → Lsa} (same : ∀ lsa, g (f lsa) = g lsa) :
    g ((s.setLsa p f).lsa q) = g (s.lsa q) := by
  rw [setLsa_lsa]
  split
  · exact same _
  · rfl

theorem markReceived_data : ((s.markReceived p).lsa q).toLsaData = (s.lsa q).toLsaData :=
  setLsa_same Lsa.toLsaData fun _ => rfl

theorem markReceived_area : ((s.markReceived p).lsa q).area = (s.lsa q).area :=
  setLsa_same Lsa.area fun _ => rfl

theorem markReceived_self :
    (s.markReceived p).ospfLsaIsSelfOriginated p = s.ospfLsaIsSelfOriginated p := by
  simp [ospfLsaIsSelfOriginated, markReceived, setLsa_lsa]

/-! ## Reliable flooding -/

/-- LSA `p` was received from neighbour `inbr`, and `current` is the database copy. -/
structure Received (s : Ospf n) (inbr : Fin n) (current : Option Ptr) (p : Ptr) : Prop where
  area : (s.lsa p).area = (s.nbr inbr).oi.area
  lookup : s.lsdb (s.scope p) (s.lsa p).key = current
  copy : ∀ c, current = some c → (s.lsa c).key = (s.lsa p).key ∧ (s.lsa c).area = (s.lsa p).area
  rxmt : ∀ j q, (s.nbr j).lsRxmt (s.lsa p).key = some q → (s.lsa q).key = (s.lsa p).key
  fresh : current ≠ some p ∧ ∀ j, (s.nbr j).lsRxmt (s.lsa p).key ≠ some p

variable {inbr : Fin n} {current : Option Ptr}

theorem Takes.swept (takes : s.Takes (some inbr) p j) {c : Ptr}
    (key : (s.lsa c).key = (s.lsa p).key) : s.Swept (s.lsa p).area c j := by
  refine ⟨?_, takes.2.enable⟩
  have on := takes.1
  rw [key]
  by_cases as : (s.lsa p).key.type.isAs
  · exact .inl as
  · rw [floods, if_neg as, areaFloods] at on
    simp only [Bool.and_eq_true, decide_eq_true_eq] at on
    exact .inr on.1.1

theorem Received.keyed (h : s.Received inbr current p) {q : Ptr}
    (waits : ((s.ospfFloodThrough (some inbr) p).nbr j).lsRxmt (s.lsa p).key = some q) :
    (s.lsa q).key = (s.lsa p).key := by
  classical
  rw [floodThrough_rxmt] at waits
  split at waits
  · rw [Option.some.inj waits]
  · exact h.rxmt j q waits

/-- The lists once the instance is purged that the flooded one replaces. -/
theorem Received.purged (h : s.Received inbr current p) :
    ((s.floodAndPurge inbr current p).nbr j).lsRxmt (s.lsa p).key = some q ↔
      ((s.ospfFloodThrough (some inbr) p).nbr j).lsRxmt (s.lsa p).key = some q ∧
      ∀ c, current = some c →
        ¬(s.Swept (s.lsa p).area c j ∧ (s.lsa q).seqnum = (s.lsa c).seqnum) := by
  have lsa : (s.ospfFloodThrough (some inbr) p).lsa = s.lsa := by rw [floodThrough_eq]; rfl
  cases current with
  | none => simp [floodAndPurge]
  | some c =>
    rw [floodAndPurge, retransmitDeleteNbrs_rxmt (by rw [lsa, (h.copy c rfl).1]) fun r waits => by
      rw [lsa, h.keyed waits], swept_congr (by rw [lsa]) floodThrough_oi, floodThrough_oi, ← h.area,
      lsa]
    simp only [Option.some.injEq, forall_eq']

theorem floodAndPurge_oi : ((s.floodAndPurge inbr current p).nbr j).oi = (s.nbr j).oi := by
  cases current with
  | none => exact floodThrough_oi
  | some c => exact retransmitDeleteNbrs_oi.trans floodThrough_oi

theorem floodAndPurge_frame (s : Ospf n) (inbr : Fin n) (current : Option Ptr) (p : Ptr) :
    ∃ nbr, s.floodAndPurge inbr current p = { s with nbr } := by
  cases current <;> rw [floodAndPurge, floodThrough_eq] <;> exact ⟨_, rfl⟩

theorem discardFromDb_frame (s : Ospf n) (scope : Option Nat) (p : Ptr) :
    ∃ maxageLsa lsaRefreshQueue, s.ospfDiscardFromDb scope p =
      { s with nbr := (s.ospfDiscardFromDb scope p).nbr, maxageLsa, lsaRefreshQueue } := by
  rw [ospfDiscardFromDb]
  split <;> exact ⟨_, _, rfl⟩

theorem installLsa_frame {s : Ospf n} : ∃ maxageLsa lsaRefreshQueue, (s.installLsa p).2 =
    { s.ospfLsdbAdd (s.scope p) p with
      nbr := (s.ospfDiscardFromDb (s.scope p) p).nbr
      lsa := update s.lsa p (s.summed (s.lsa p))
      maxageLsa
      lsaRefreshQueue } := by
  obtain ⟨_, _, discarded⟩ := discardFromDb_frame s (s.scope p) p
  have after : ∃ maxageLsa lsaRefreshQueue,
      (s.installLsa p).2 = { s.storeLsa p with maxageLsa, lsaRefreshQueue } := by
    rw [installLsa]
    dsimp only
    repeat' split
    all_goals exact ⟨_, _, rfl⟩
  obtain ⟨maxageLsa, lsaRefreshQueue, after⟩ := after
  refine ⟨maxageLsa, lsaRefreshQueue, ?_⟩
  rw [after, storeLsa, discarded, setLsa, ospfLsdbAdd, ospfLsdbAdd]
  dsimp only
  rw [update_self]
  rfl

/-- `ospf_flood` after the check of `MinLSArrival`. -/
theorem flood_snd (late : ¬s.receivedRecently current) : (s.ospfFlood inbr current p).2 =
      ((s.floodAndPurge inbr current p |>.markReceived p).ospfLsaInstall p).2 := by
  rw [ospfFlood, if_neg late]
  split <;> next run => rw [run]

/-- The installation purges the lists of an instance that is not on them any more. -/
theorem Received.installed (h : s.Received inbr current p)
    (notSelf : ¬s.ospfLsaIsSelfOriginated p) (late : ¬s.receivedRecently current) :
    (((s.ospfFlood inbr current p).2).nbr j).lsRxmt (s.lsa p).key = some q ↔
      ((s.floodAndPurge inbr current p).nbr j).lsRxmt (s.lsa p).key = some q := by
  rw [flood_snd late]
  obtain ⟨nbr, frame⟩ := floodAndPurge_frame s inbr current p
  set s₁ := s.floodAndPurge inbr current p with purged
  have data (r : Ptr) : ((s₁.markReceived p).lsa r).toLsaData = (s.lsa r).toLsaData := by
    rw [markReceived_data, frame]
  have area (r : Ptr) : ((s₁.markReceived p).lsa r).area = (s.lsa r).area := by
    rw [markReceived_area, frame]
  have lookup : (s₁.markReceived p).lsdb ((s₁.markReceived p).scope p) (s.lsa p).key = current := by
    rw [scope, data, area, ← h.lookup, ← scope, frame]
    rfl
  rw [ospfLsaInstall]
  by_cases last : ((s₁.markReceived p).lsa p).seqnum - 1 = ospfMaxSequenceNumber
  · rw [if_pos last, if_neg]
    · rfl
    · rw [markReceived_self, frame]
      exact notSelf
  · obtain ⟨_, _, installed⟩ := installLsa_frame
    rw [if_neg last, installed, ospfDiscardFromDb, data, lookup]
    cases current with
    | none => rfl
    | some c =>
      dsimp only
      rw [area, (h.copy c rfl).2]
      show ((Ospf.ospfLsRetransmitDeleteNbrs _ _ _).nbr j).lsRxmt _ = _ ↔ _
      rw [retransmitDeleteNbrs_rxmt (by rw [data, (h.copy c rfl).1]) fun r waits => by
        rw [data, h.keyed (h.purged.mp waits).1], data, data]
      refine and_iff_left_of_imp fun waits => ?_
      have oi : ((s₁.markReceived p).nbr j).oi = (s.nbr j).oi := by
        show (s₁.nbr j).oi = _
        rw [purged, floodAndPurge_oi]
      show ¬((s₁.markReceived p).Swept (s.lsa p).area c j ∧ _)
      rw [swept_congr (by rw [data]) oi]
      exact (h.purged.mp waits).2 c rfl

/-- After `ospf_flood` the lists are right if and only if the database copy has another sequence
number than the LSA or no neighbour takes the LSA, and a neighbour with the copy on its list
takes the LSA or is searched for the copy. -/
theorem flood_reliable_iff (h : s.Received inbr current p)
    (notSelf : ¬s.ospfLsaIsSelfOriginated p) (returns : (s.ospfFlood inbr current p).1 = 0) :
    ((∀ j, ((s.ospfFloodThrough (some inbr) p).nbr j).lsRxmt (s.lsa p).key = some p →
        ((s.ospfFlood inbr current p).2.nbr j).lsRxmt (s.lsa p).key = some p) ∧
      ∀ j c, current = some c →
        ((s.ospfFlood inbr current p).2.nbr j).lsRxmt (s.lsa p).key ≠ some c) ↔
    ∀ c, current = some c →
      ((s.lsa c).seqnum = (s.lsa p).seqnum → ∀ j, ¬s.Takes (some inbr) p j) ∧
      ∀ j, (s.nbr j).lsRxmt (s.lsa p).key = some c →
        s.Takes (some inbr) p j ∨ s.Swept (s.lsa p).area c j := by
  classical
  have added (j : Fin n) : ((s.ospfFloodThrough (some inbr) p).nbr j).lsRxmt (s.lsa p).key = some p ↔
      s.Takes (some inbr) p j := by
    rw [floodThrough_rxmt]
    split
    · next takes => simp [takes]
    · next idle => simp [idle, h.fresh.2 j]
  have kept (j : Fin n) {c : Ptr} (copy : current = some c) :
      ((s.ospfFloodThrough (some inbr) p).nbr j).lsRxmt (s.lsa p).key = some c ↔
      ¬s.Takes (some inbr) p j ∧ (s.nbr j).lsRxmt (s.lsa p).key = some c := by
    have differ : p ≠ c := fun same => h.fresh.1 (same ▸ copy)
    rw [floodThrough_rxmt]
    split
    · next takes => simp [takes, differ]
    · next idle => simp [idle]
  have late : ¬s.receivedRecently current := by
    intro recent
    rw [ospfFlood, if_pos recent] at returns
    cases returns
  simp only [h.installed notSelf late, h.purged, added, ne_eq]
  constructor
  · rintro ⟨reaches, gone⟩ c copy
    constructor
    · intro same j takes
      exact (reaches j takes).2 c copy ⟨takes.swept (h.copy c copy).1, same.symm⟩
    · intro j waits
      by_contra missed
      rw [not_or] at missed
      refine gone j c copy ⟨(kept j copy).mpr ⟨missed.1, waits⟩, fun c' copy' hit => ?_⟩
      rw [copy, Option.some.injEq] at copy'
      exact missed.2 (copy' ▸ hit.1)
  · intro right
    constructor
    · intro j takes
      refine ⟨takes, fun c copy hit => (right c copy).1 hit.2.symm j takes⟩
    · intro j c copy left
      obtain ⟨idle, waits⟩ := (kept j copy).mp left.1
      rcases (right c copy).2 j waits with takes | swept
      · exact idle takes
      · exact left.2 c copy ⟨swept, rfl⟩

def sampleKey : LsaKey := ⟨.router, 9, 9⟩

def sampleLsa (seqnum : BitVec 32) (age tvRecv : Nat) : Lsa :=
  { key := sampleKey, seqnum, age, tvRecv, checksum := 0, body := [], area := 0, oi := none
    self := false, selfChecked := false, received := false, prematureAge := false
    localXlt := false }

def firstNbr : Fin 2 := 0
def secondNbr : Fin 2 := 1
def sampleOi : Interface := ⟨0, 0, 1, true, false, false⟩

/-- LSA 1 arrives from the first of two neighbours; the second has not acknowledged the database
copy yet. -/
def sampleRouter (current : Option Ptr) (seqnum : BitVec 32) (age : Nat) : Ospf 2 where
  routerId := 1
  now := 5000
  minLsArrival := 1000
  oiflist := [sampleOi]
  externalRouting := fun _ => .default
  nbr := fun i =>
    { oi := sampleOi, routerId := if i = 0 then 2 else 3, state := nsmFull, opaqueCapable := true
      lsReq := fun _ => none, lsRxmt := fun key => if i = 1 ∧ key = sampleKey then current else none }
  lsa := fun p => if p = 0 then sampleLsa 5 0 0 else sampleLsa seqnum age 5000
  next := 2
  lsdb := fun scope key => if scope = some 0 ∧ key = sampleKey then current else none
  maxageLsa := []
  lsaRefreshQueue := []
  lsaChecksum := fun _ _ _ => 0
  registerOpaqueLsa := fun _ => true

theorem sampleRouter_received {seqnum : BitVec 32} {age : Nat} (fresh : current ≠ some 1) :
    (sampleRouter current seqnum age).Received 0 current 1 := by
  have same (q : Ptr) : ((sampleRouter current seqnum age).lsa q).key = sampleKey ∧
      ((sampleRouter current seqnum age).lsa q).area = 0 := by
    rw [sampleRouter]
    dsimp only
    split <;> exact ⟨rfl, rfl⟩
  refine ⟨rfl, rfl, fun c _ => same c, fun j q _ => (same q).1, fresh, fun j => ?_⟩
  show (if j = 1 ∧ sampleKey = sampleKey then current else none) ≠ some 1
  split
  · exact fresh
  · nofun

/-- A later instance stays on the list. -/
theorem laterInstance_kept : ((sampleRouter (some 0) 6 0).ospfFlood 0 (some 0) 1).1 = 0 ∧
    (((sampleRouter (some 0) 6 0).ospfFlood 0 (some 0) 1).2.nbr 1).lsRxmt sampleKey = some 1 :=
  ⟨by decide, ((flood_reliable_iff (sampleRouter_received (by decide)) (by decide) (by decide)).mpr
    fun c copy => Option.some.inj copy ▸ ⟨nofun, fun j _ => .inr ⟨.inr rfl, rfl⟩⟩).1 1 (by decide)⟩

/-- The flush of the database copy is on no list when `ospf_flood` returns. -/
theorem flush_lost : (sampleRouter (some 0) 5 3600).ospfLsaMoreRecent (some 0) (some 1) < 0 ∧
    ((sampleRouter (some 0) 5 3600).ospfFlood 0 (some 0) 1).1 = 0 ∧
    (((sampleRouter (some 0) 5 3600).ospfFloodThrough (some 0) 1).nbr 1).lsRxmt sampleKey = some 1 ∧
    (((sampleRouter (some 0) 5 3600).ospfFlood 0 (some 0) 1).2.nbr 1).lsRxmt sampleKey = none := by
  decide

/-! ## Flooded and installed -/

theorem lsdbAdd_lsdb {scope scope' : Option Nat} : (s.ospfLsdbAdd scope p).lsdb scope' key =
      if scope' = scope ∧ key = (s.lsa p).key then some p else s.lsdb scope' key := by
  rw [ospfLsdbAdd]
  dsimp only
  rw [update_apply]
  split
  · next same => rw [update_apply, same]; simp
  · next other => simp [other]

/-- The sequence number with which an LSA of another router is not installed. -/
def Refused (s : Ospf n) (p : Ptr) : Prop :=
  (s.lsa p).seqnum - 1 = ospfMaxSequenceNumber ∧ ¬s.ospfLsaIsSelfOriginated p

/-- An installed LSA, in the database and as it is stored. -/
theorem install_stores (stored : ¬s.Refused p) :
    (s.ospfLsaInstall p).2.routerId = s.routerId ∧ (s.ospfLsaInstall p).2.next = s.next ∧
    (s.ospfLsaInstall p).2.lsdb = (s.ospfLsdbAdd (s.scope p) p).lsdb ∧
    (s.ospfLsaInstall p).2.lsa = update s.lsa p
      (s.summed (if (s.lsa p).seqnum - 1 = ospfMaxSequenceNumber then s.prematurelyAge p (s.lsa p)
        else s.lsa p)) := by
  rw [ospfLsaInstall]
  by_cases last : (s.lsa p).seqnum - 1 = ospfMaxSequenceNumber
  · have self : s.ospfLsaIsSelfOriginated p := by
      by_contra other
      exact stored ⟨last, other⟩
    obtain ⟨_, _, frame⟩ := installLsa_frame
    have key : ((s.setLsa p (s.prematurelyAge p)).lsa p).key = (s.lsa p).key :=
      setLsa_same (fun lsa : Lsa => lsa.key) fun _ => rfl
    have area : ((s.setLsa p (s.prematurelyAge p)).lsa p).area = (s.lsa p).area :=
      setLsa_same Lsa.area fun _ => rfl
    rw [if_pos last, if_pos self, if_pos last, frame]
    refine ⟨rfl, rfl, ?_, ?_⟩
    · simp only [ospfLsdbAdd, scope, key, area]
      rfl
    · simp only [setLsa, update_self, update_idem]
      rfl
  · obtain ⟨_, _, frame⟩ := installLsa_frame
    rw [if_neg last, if_neg last, frame]
    exact ⟨rfl, rfl, rfl, rfl⟩

theorem install_refuses (refused : s.Refused p) : (s.ospfLsaInstall p).2 = s := by
  rw [ospfLsaInstall, if_pos refused.1, if_neg refused.2]

/-- Time `t`, at which another LSA has arrived. -/
def arrive (s : Ospf n) (t : Nat) (q : Ptr) (lsa : Lsa) : Ospf n :=
  { s with now := t, lsa := update s.lsa q lsa }

/-- Two LSAs that `ospf_lsa_more_recent` takes for one instance. -/
structure SameInstance (s : Ospf n) (p q : Ptr) : Prop where
  key : (s.lsa q).key = (s.lsa p).key
  seqnum : (s.lsa q).seqnum = (s.lsa p).seqnum
  checksum : (s.lsa q).checksum = (s.lsa p).checksum
  maxage : s.isLsaMaxage q = s.isLsaMaxage p
  close : s.lsAge p ≤ s.lsAge q + ospfLsaMaxageDiff ∧ s.lsAge q ≤ s.lsAge p + ospfLsaMaxageDiff

theorem SameInstance.moreRecent (h : s.SameInstance p q) :
    s.ospfLsaMoreRecent (some p) (some q) = 0 := by
  have := h.close
  simp [ospfLsaMoreRecent, h.seqnum, h.checksum, h.maxage]
  omega

theorem summed_of_valid {lsa : Lsa}
    (valid : lsa.checksum = s.lsaChecksum lsa.key lsa.seqnum lsa.body) : s.summed lsa = lsa := by
  rw [summed, ← valid, ite_self]

/-- An instance is known by its data and the time it arrived. -/
theorem SameInstance.congr {s' : Ospf n} (h : s.SameInstance p q) (now : s'.now = s.now)
    (same : ∀ r, r = p ∨ r = q →
      (s'.lsa r).toLsaData = (s.lsa r).toLsaData ∧ (s'.lsa r).tvRecv = (s.lsa r).tvRecv) :
    s'.SameInstance p q := by
  have ages (r : Ptr) (here : r = p ∨ r = q) : s'.lsAge r = s.lsAge r := by
    rw [lsAge, lsAge, now, (same r here).1, (same r here).2]
  have maxages (r : Ptr) (here : r = p ∨ r = q) : s'.isLsaMaxage r = s.isLsaMaxage r := by
    rw [isLsaMaxage, isLsaMaxage, ages r here]
  constructor
  · rw [(same p (.inl rfl)).1, (same q (.inr rfl)).1, h.key]
  · rw [(same p (.inl rfl)).1, (same q (.inr rfl)).1, h.seqnum]
  · rw [(same p (.inl rfl)).1, (same q (.inr rfl)).1, h.checksum]
  · rw [maxages p (.inl rfl), maxages q (.inr rfl), h.maxage]
  · rw [ages p (.inl rfl), ages q (.inr rfl)]
    exact h.close

/-- An LSA received of another router is in the database after `ospf_flood`, so that a second copy
of it is not flooded again, if and only if its sequence number is not the one that is refused. -/
theorem flood_installs_iff (h : s.Received inbr current p) (late : ¬s.receivedRecently current)
    (notSelf : ¬s.ospfLsaIsSelfOriginated p)
    (valid : (s.lsa p).checksum = s.lsaChecksum (s.lsa p).key (s.lsa p).seqnum (s.lsa p).body)
    (supported : (s.lsa p).key.type.supported) :
    ((s.ospfFlood inbr current p).2.lsdb (s.scope p) (s.lsa p).key = some p ∧
      ∀ t q lsa, q ≠ p → (s.arrive t q lsa).SameInstance p q →
        let s' := (s.ospfFlood inbr current p).2.arrive t q lsa
        ¬s'.isNewer (s'.ospfLsaLookup (s.lsa p).area (s.lsa p).key) q) ↔
    (s.lsa p).seqnum - 1 ≠ ospfMaxSequenceNumber := by
  obtain ⟨nbr, frame⟩ := floodAndPurge_frame s inbr current p
  set m := (s.floodAndPurge inbr current p).markReceived p with marked
  have data : (m.lsa p).toLsaData = (s.lsa p).toLsaData := by rw [marked, markReceived_data, frame]
  have scope : m.scope p = s.scope p := by
    rw [scope, scope, data, marked, markReceived_area, frame]
  have refused : m.Refused p ↔ (s.lsa p).seqnum - 1 = ospfMaxSequenceNumber := by
    rw [Refused, data, marked, markReceived_self, frame]
    exact and_iff_left notSelf
  rw [flood_snd late, ← marked]
  constructor
  · rintro ⟨stored, -⟩ last
    rw [install_refuses (refused.mpr last), marked, frame] at stored
    exact h.fresh.1 (h.lookup.symm.trans stored)
  · intro notLast
    obtain ⟨-, -, lsdb, lsa⟩ := install_stores (mt refused.mp notLast)
    have here : (m.ospfLsaInstall p).2.lsdb (s.scope p) (s.lsa p).key = some p := by
      rw [lsdb, lsdbAdd_lsdb, scope, data, if_pos ⟨rfl, rfl⟩]
    refine ⟨here, fun t q copy differ same => ?_⟩
    set s' := (m.ospfLsaInstall p).2.arrive t q copy with arrived
    have lookup : s'.ospfLsaLookup (s.lsa p).area (s.lsa p).key = some p := by
      rw [ospfLsaLookup, if_pos supported]
      exact here
    have first : s'.lsa p = (m.ospfLsaInstall p).2.lsa p := update_of_ne differ.symm _ _
    have second : s'.lsa q = copy := update_self _ _ _
    have kept : (s.arrive t q copy).lsa p = s.lsa p := update_of_ne differ.symm _ _
    have asked : (s.arrive t q copy).lsa q = copy := update_self _ _ _
    show ¬s'.isNewer (s'.ospfLsaLookup (s.lsa p).area (s.lsa p).key) q
    rw [lookup, isNewer]
    simp only [reduceCtorEq, decide_false, Bool.false_or, decide_eq_true_eq, not_lt]
    have validNow : (m.lsa p).checksum =
        m.lsaChecksum (m.lsa p).key (m.lsa p).seqnum (m.lsa p).body := by
      rw [data, valid, marked, frame]
      rfl
    rw [lsa, update_self, data, if_neg notLast, summed_of_valid validNow] at first
    have again : s'.SameInstance p q := by
      refine same.congr rfl fun r here => ?_
      rcases here with rfl | rfl
      · rw [first, kept, data, marked, frame]
        exact ⟨rfl, setLsa_same Lsa.tvRecv fun _ => rfl⟩
      · rw [second, asked]
        exact ⟨rfl, rfl⟩
    exact again.moreRecent.ge

theorem newInstance_installed :
    ((sampleRouter none 6 0).ospfFlood 0 none 1).2.lsdb (some 0) sampleKey = some 1 :=
  ((flood_installs_iff (sampleRouter_received (by decide)) (by decide) (by decide) rfl rfl).mpr
    (by decide)).1

/-- An LSA with the sequence number before the initial one is flooded whenever it arrives. -/
theorem refused_refloods :
    (((sampleRouter none 0x80000000 0).ospfFloodThrough (some 0) 1).nbr 1).lsRxmt sampleKey =
      some 1 ∧
    ((sampleRouter none 0x80000000 0).ospfFlood 0 none 1).2.lsdb (some 0) sampleKey = none ∧
    (((sampleRouter none 0x80000000 0).ospfFlood 0 none 1).2.arrive 9000 2
      (sampleLsa 0x80000000 0 9000)).isNewer none 2 := by
  decide

end Ospf

end Mp2mp.Ospfd
