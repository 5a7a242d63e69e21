import Mp2mp.Kit.Exec
import Mp2mp.Ldpd.Types

/-!
# The state of the label decision engine

The records of `lde.h`, and the engine's state in two parts: `Lib`, the label
information base that `lde_lib.c` works on (neighbours, FEC nodes, pseudowires),
and around it in `Engine` what the MP2MP code added: the table `label_nbrs`, the
process-wide `leaf`, the label counter and the local variable `ln1` of
`lde_dispatch_imsg`, which keeps its value from one message to the next.

The search trees are their in-order walks, kept in order by the comparison
function of the source.  `lde_nbr_compare` subtracts peer ids as signed
integers, an order as long as the ids in use span less than 2^31.

A neighbour is referred to by its peer id, a FEC node by its FEC.  Memory errors
are faults: the run ends where the source would dereference a null or
uninitialised pointer, and where it calls `fatalx`.  Two walks step on from a
table entry their own body has freed, and a mapping sent from a temporary node
stays linked to that node after it was freed; what such an access does is a
parameter, `Freed`.
-/

namespace Mp2mp.Lde

open Kit Ldpd

/-! ## Records -/

/-- Where the list entry of an `lde_map` points back to. -/
inductive MapPrev
  /-- into the list of its node in `ft` -/
  | node
  /-- to the head of the list of a temporary node, which has been freed -/
  | freed
  /-- to the entry of the same FEC for this neighbour, added after it to the same temporary node -/
  | entry (peerid : UInt32)
deriving DecidableEq, Repr

structure LdeMap where
  fec : Fec
  map : Map
  prev : MapPrev
deriving DecidableEq, Repr

structure LdeReq where
  fec : Fec
  msgId : UInt32
deriving DecidableEq, Repr

structure LdeWdraw where
  fec : Fec
  label : UInt32
deriving DecidableEq, Repr

structure LdeAddr where
  af : Af
  addr : LdpdAddr
deriving DecidableEq, Repr

structure LdeNbr where
  peerid : UInt32
  id : InAddr
  v4Enabled : Bool
  v6Enabled : Bool
  recvReq : List LdeReq
  sentReq : List LdeReq
  recvMap : List LdeMap
  sentMap : List LdeMap
  sentWdraw : List LdeWdraw
  addrList : List LdeAddr
deriving DecidableEq, Repr

structure FecNh where
  af : Af
  nexthop : LdpdAddr
  remoteLabel : UInt32
  priority : UInt8
deriving DecidableEq, Repr

/-- `struct fec_node`. Mappings are kept as the peer ids they are from or to; `lsrIdView` is
`fec.u.pwid.lsr_id`, which `lde_kernel_insert` reads whatever the type; for an IPv4 FEC it is not
part of the key. -/
structure FecNode where
  fec : Fec
  lsrIdView : InAddr
  nexthops : List FecNh
  downstream : List UInt32
  upstream : List UInt32
  localLabel : UInt32
  data : Option Nat
deriving DecidableEq, Repr

inductive StreamType
  | up
  | down
deriving DecidableEq, Repr

structure LabelNbr where
  label : UInt32
  localLabel : UInt32
  peerid : UInt32
  fec : Fec
  type : StreamType
deriving DecidableEq, Repr

/-- `struct l2vpn_pw`, with the type and MTU of its `l2vpn`; `uid` is its address. -/
structure L2vpnPw where
  uid : Nat
  pwType : UInt16
  mtu : UInt16
  lsrId : InAddr
  af : Af
  addr : LdpdAddr
  pwid : UInt32
  ifindex : UInt16
  remoteGroup : UInt32
  remoteMtu : UInt16
  remoteStatus : UInt32
  flags : UInt8
deriving DecidableEq, Repr

/-- `F_PW_STATUSTLV_CONF`: status tlv configured -/
def fPwStatustlvConf : UInt8 := 0x01
/-- `F_PW_STATUSTLV`: status tlv negotiated -/
def fPwStatustlv : UInt8 := 0x02
/-- `F_PW_CWORD_CONF`: control word configured -/
def fPwCwordConf : UInt8 := 0x04
/-- `F_PW_CWORD`: control word negotiated -/
def fPwCword : UInt8 := 0x08
/-- `F_PW_STATUS_UP`: pseudowire is operational -/
def fPwStatusUp : UInt8 := 0x10

/-! ## Messages sent -/

/-- `struct kroute`, as the engine fills it in. -/
structure Kroute where
  af : Af
  addr : LdpdAddr
  prefixlen : UInt8
  nexthop : LdpdAddr
  localLabel : UInt32
  remoteLabel : UInt32
  priority : UInt8
deriving DecidableEq, Repr

structure Kpw where
  ifindex : UInt16
  pwType : UInt16
  af : Af
  nexthop : LdpdAddr
  localLabel : UInt32
  remoteLabel : UInt32
  flags : UInt8
deriving DecidableEq, Repr

/-- `struct ctl_rt`, as `rt_dump` fills it in; `fec` is its family, prefix and length. -/
structure CtlRt where
  fec : Fec
  nexthop : InAddr
  localLabel : UInt32
  remoteLabel : UInt32
  inUse : Bool
deriving DecidableEq, Repr

/-- A message composed for the LDP engine or the parent process. -/
inductive Out
  | mappingAdd (peerid : UInt32) (map : Map)
  | mappingAddEnd (peerid : UInt32)
  | withdrawAdd (peerid : UInt32) (map : Map)
  | withdrawAddEnd (peerid : UInt32)
  | releaseAdd (peerid : UInt32) (map : Map)
  | releaseAddEnd (peerid : UInt32)
  | notificationSend (peerid : UInt32) (nm : NotifyMsg)
  | klabelChange (kr : Kroute)
  | klabelDelete (kr : Kroute)
  | kpwlabelChange (kpw : Kpw)
  | kpwlabelDelete (kpw : Kpw)
  | ctlShowLib (rtctl : CtlRt)
  | ctlEnd
  | ctlMldpLsp
deriving DecidableEq, Repr

/-! ## State -/

/-- `lde_nbrs`, `ft`, the configured pseudowires, and the messages the current event has sent. -/
structure Lib where
  nbrs : List LdeNbr
  ft : List FecNode
  pws : List L2vpnPw
  out : List Out
deriving DecidableEq, Repr

/-- The label decision engine.  `leaf` is 0 on a transit node, 1 on a leaf and
2 on a root; `label` is the last label handed out; `ln1` is `none` while the
local variable is uninitialised or points to a freed neighbour. -/
structure Engine where
  lib : Lib
  labelNbrs : List LabelNbr
  leaf : Nat
  label : UInt32
  ln1 : Option UInt32
deriving DecidableEq, Repr

/-- The engine as `lde` starts it. -/
def Engine.init : Engine :=
  { lib := ⟨[], [], [], []⟩, labelNbrs := [], leaf := 0, label := mplsLabelReservedMax, ln1 := none }

/-- Why the engine stopped. -/
inductive Fault
  /-- `label_nbr_add` found the key in the table -/
  | labelNbrExists
  /-- `IMSG_NEIGHBOR_UP` for a peer id in use -/
  | neighborExists
  /-- `lde_map2fec` of an unknown address family -/
  | unknownAf
  | nullDeref
  | uninitialised
  | useAfterFree
deriving DecidableEq, Repr

abbrev LdeM := EStateM Fault Engine

/-- What an access to freed memory does.  C leaves it undefined. -/
inductive Freed
  /-- the run ends there -/
  | lost
  /-- the memory has not been used again and still holds what it held -/
  | intact
deriving DecidableEq, Repr

def Freed.access : Freed → LdeM Unit
  | .lost => throw .useAfterFree
  | .intact => pure ()

def modifyLib (f : Lib → Lib) : LdeM Unit := modify fun s => { s with lib := f s.lib }

/-! ## Tables -/

/-- `lde_nbr_compare`: the sign of the difference as an `int`. -/
def ldeNbrCompare (a b : UInt32) : Ordering :=
  if a = b then .eq else if (a - b).toNat < 2 ^ 31 then .gt else .lt

/-- `label_nbr_compare`; pseudowire FECs are compared without the peer id. -/
def labelNbrCompare (a b : Fec × UInt32) : Ordering :=
  (fecCompare a.1 b.1).then <|
    match a.1 with
    | .pwid .. => .eq
    | _ => compare a.2 b.2

def LabelNbr.key (e : LabelNbr) : Fec × UInt32 := (e.fec, e.peerid)

/-- `lde_nbr_find` -/
def Lib.nbr? (l : Lib) (peerid : UInt32) : Option LdeNbr :=
  Table.find ldeNbrCompare LdeNbr.peerid peerid l.nbrs

def Lib.modNbr (l : Lib) (peerid : UInt32) (f : LdeNbr → LdeNbr) : Lib :=
  { l with nbrs := Table.modify ldeNbrCompare LdeNbr.peerid peerid f l.nbrs }

/-- `fec_find(&ft, fec)` -/
def Lib.node? (l : Lib) (fec : Fec) : Option FecNode := Table.find fecCompare FecNode.fec fec l.ft

def Lib.modNode (l : Lib) (fec : Fec) (f : FecNode → FecNode) : Lib :=
  { l with ft := Table.modify fecCompare FecNode.fec fec f l.ft }

def Lib.emit (l : Lib) (o : Out) : Lib := { l with out := l.out ++ [o] }

/-- `fec_find` in a tree of mappings, requests or withdraws. -/
def fecFind {α : Type} (key : α → Fec) (fec : Fec) (t : List α) : Option α :=
  Table.find fecCompare key fec t

def fecRemove {α : Type} (key : α → Fec) (fec : Fec) (t : List α) : List α :=
  Table.remove fecCompare key fec t

def fecInsert {α : Type} (key : α → Fec) (a : α) (t : List α) : List α :=
  Table.insert fecCompare key a t

def ldeAddressFind (ln : LdeNbr) (af : Af) (addr : LdpdAddr) : Option LdeAddr :=
  ln.addrList.find? fun a => a.af == af && ldpAddrcmp af a.addr addr == .eq

/-- `lde_nbr_find_by_addr` -/
def Lib.nbrFindByAddr (l : Lib) (af : Af) (addr : LdpdAddr) : Option LdeNbr :=
  l.nbrs.find? fun ln => (ldeAddressFind ln af addr).isSome

/-- `lde_nbr_find(peerid)->`: the neighbour, or the dereference of a null pointer. -/
def ldeNbrDeref (peerid : UInt32) : LdeM LdeNbr := do
  match (← get).lib.nbr? peerid with
  | none => throw .nullDeref
  | some ln => pure ln

/-- The value of a pointer variable that may not have been assigned. -/
def assigned : Option UInt32 → LdeM UInt32
  | none => throw .uninitialised
  | some peerid => pure peerid

/-- `lde_nbr_find_by_lsrid`: the addresses 192.168.228.134 and 192.168.228.128
stand for the ids 9.9.9.9 and 8.8.8.8. -/
def Lib.nbrFindByLsrid (l : Lib) (addr : InAddr) : Option LdeNbr :=
  let addr1 :=
    if addr = 0xc0a8e486 then 0x09090909
    else if addr = 0xc0a8e480 then 0x08080808
    else addr
  l.nbrs.find? fun ln => ln.id == addr1

end Mp2mp.Lde
