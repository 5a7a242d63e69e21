import Mp2mp.Lde.Lib

/-!
# The events of the label decision engine

`lde_dispatch_imsg` with the MP2MP code in it, `lde_dispatch_parent` and the
garbage collector, as one program per event.  The table `label_nbrs` holds, for
each MP2MP LSP, the neighbours this router is joined to: `up` towards the root,
`down` towards the leaves.

The MP2MP code looks at `u.ipv4` of every FEC: `prefix` is the root and
`prefixlen` the opaque value of the LSP.
-/

namespace Mp2mp.Lde

open Kit Ldpd

/-! ## The table `label_nbrs` -/

/-- `label_nbr_find`; the label is not part of the key. -/
def labelNbrFind (peerid : UInt32) (fec : Fec) (t : List LabelNbr) : Option LabelNbr :=
  Table.find labelNbrCompare LabelNbr.key (fec, peerid) t

def labelNbrDel (lnr : LabelNbr) (t : List LabelNbr) : List LabelNbr :=
  Table.remove labelNbrCompare LabelNbr.key lnr.key t

def labelNbrAdd (lnr : LabelNbr) : LdeM Unit := do
  let s ← get
  if (labelNbrFind lnr.peerid lnr.fec s.labelNbrs).isSome then throw .labelNbrExists
  else
    set { s with labelNbrs := Table.insert labelNbrCompare LabelNbr.key lnr s.labelNbrs }

/-- The test the MP2MP code makes for two FECs being those of one LSP. -/
def sameLsp (a b : Fec) : Bool :=
  a.ipv4Prefix == b.ipv4Prefix && a.ipv4Prefixlen == b.ipv4Prefixlen

def ldeAssignLabel : LdeM UInt32 := do
  modify fun s => { s with label := s.label + 1 }
  return (← get).label

/-- The node whose `u.ipv4.prefix` is the root: the first one of the walk. -/
def firstRoute (root : InAddr) (ft : List FecNode) : Option FecNode :=
  ft.find? fun fn => fn.fec.ipv4Prefix == root

/-- A FEC node on the heap that is not in `ft` and is freed after the send. -/
def temporaryNode (fec : Fec) (label : UInt32) : FecNode :=
  ⟨fec, fec.pwidLsrId, [], [], [], label, none⟩

/-- `fec_find(&ln->sent_map, fec) != NULL` -/
def LdeNbr.sent (ln : LdeNbr) (fec : Fec) : Bool := (fecFind LdeMap.fec fec ln.sentMap).isSome

/-! ## Commands -/

/-- `tree_up`.  The neighbour is the one the last nexthop of the walk belongs to. -/
def treeUp (root : InAddr) (ov : UInt8) : LdeM Unit := do
  modify fun s => { s with leaf := 1 }
  let l := (← get).lib
  match firstRoute root l.ft with
  | none => pure ()
  | some fn2 =>
    let label ← ldeAssignLabel
    match fn2.nexthops.getLast? with
    | none => throw .uninitialised
    | some fnh1 =>
      match l.nbrFindByAddr fnh1.af fnh1.nexthop with
      | none => throw .nullDeref
      | some ln2 =>
        let fec4 := Fec.ofV4 fn2.fec.type root ov
        labelNbrAdd ⟨noLabel, label, ln2.peerid, fec4, .up⟩
        modifyLib (ldeSendLabelmapping ln2.peerid (temporaryNode fec4 label) true .freed)

/-- Withdraw and release the label of an entry, delete the entry, and step on from it. -/
def tearEntry (r : Freed) (lnr : LabelNbr) (peerid : UInt32) : LdeM Unit := do
  let _ ← ldeNbrDeref peerid
  modifyLib (ldeSendLabelwithdrawWcard peerid lnr.label)
  modifyLib (ldeSendLabelreleaseWcard peerid lnr.label)
  modify fun s => { s with labelNbrs := labelNbrDel lnr s.labelNbrs }
  r.access

/-- The walk of `tree_down`.  Only the assignment of `ln` is under the test;
every entry is torn down, with the neighbour `ln` then points to. -/
def treeDownWalk (r : Freed) (root : InAddr) (ov : UInt8) :
    List LabelNbr → Option UInt32 → LdeM Unit
  | [], _ => pure ()
  | lnr :: rest, ln => do
    let ln :=
      if lnr.fec.ipv4Prefix = root ∧ lnr.fec.ipv4Prefixlen = ov ∧ lnr.type = .up then
        some lnr.peerid
      else ln
    tearEntry r lnr (← assigned ln)
    treeDownWalk r root ov rest ln

/-- `tree_down`; its condition `leaf = 1` is an assignment. -/
def treeDown (r : Freed) (root : InAddr) (ov : UInt8) : LdeM Unit := do
  modify fun s => { s with leaf := 1 }
  treeDownWalk r root ov (← get).labelNbrs none

/-! ## Label mappings -/

/-- The label of the first entry of the LSP, or a new one. -/
def lspLabel (fec : Fec) : LdeM UInt32 := do
  match (← get).labelNbrs.find? fun lnr => sameLsp lnr.fec fec with
  | some lnr => return lnr.localLabel
  | none => ldeAssignLabel

/-- Send a mapping from a temporary node, unless the neighbour has been sent one. -/
def sendOnce (peerid : UInt32) (fec : Fec) (label : UInt32) (l : Lib) : Lib :=
  match l.nbr? peerid with
  | none => l
  | some ln =>
    if ln.sent fec then l else ldeSendLabelmapping peerid (temporaryNode fec label) true .freed l

/-- What the root and a transit node do alike: choose the label of the LSP and
record the neighbour as downstream. -/
def joinDown (map : Map) (peerid : UInt32) (fec : Fec) : LdeM UInt32 := do
  let label ← lspLabel fec
  labelNbrAdd ⟨map.label, label, peerid, fec, .down⟩
  return label

/-- A mapping from downstream on the root. -/
def joinAtRoot (map : Map) (peerid : UInt32) (fec : Fec) : LdeM Unit := do
  let label ← joinDown map peerid fec
  modifyLib (sendOnce peerid fec label)

/-- The neighbour towards the root: the one the first nexthop of the first node
with the address of the root belongs to. -/
def Lib.towards (l : Lib) (root : InAddr) : Option LdeNbr :=
  ((firstRoute root l.ft).bind fun fn3 => fn3.nexthops.head?).bind fun fnh =>
    l.nbrFindByAddr fnh.af fnh.nexthop

/-- A mapping from downstream on a transit node. If the neighbour towards the root has been sent a
mapping, one is sent back. -/
def joinAtTransit (map : Map) (peerid : UInt32) (fec : Fec) : LdeM Unit := do
  modify fun s => { s with leaf := 0 }
  let label ← joinDown map peerid fec
  match (← get).lib.towards fec.ipv4Prefix with
  | none => pure ()
  | some ln1 =>
    if ln1.sent fec then
      modifyLib (ldeSendLabelmapping peerid (temporaryNode fec label) true .freed)
    else do
      labelNbrAdd ⟨noLabel, label, ln1.peerid, fec, .up⟩
      modifyLib (ldeSendLabelmapping ln1.peerid (temporaryNode fec label) true .freed)

/-- A nexthop of the node is 0.0.0.0, which is how a route to this router looks. -/
def FecNode.isLocal (fn : FecNode) : Bool := fn.nexthops.any fun fnh => fnh.nexthop.v4 == 0

/-- A mapping from a neighbour that is not in the table for this LSP. -/
def fromDownstream (map : Map) (peerid : UInt32) (fec : Fec) : LdeM Unit := do
  match firstRoute fec.ipv4Prefix (← get).lib.ft with
  | none => throw .uninitialised
  | some fn1 =>
    modify fun s => if fn1.isLocal then { s with leaf := 2 } else s
    if (← get).leaf = 2 then joinAtRoot map peerid fec else joinAtTransit map peerid fec

/-- The label sent downstream: that of the first entry of the LSP, a new one if that is `NO_LABEL`,
and zero in a node no entry was found for. -/
def upstreamLabel (fec : Fec) : LdeM UInt32 := do
  match (← get).labelNbrs.find? fun lnr1 => sameLsp lnr1.fec fec with
  | some lnr1 => if lnr1.localLabel = noLabel then ldeAssignLabel else return lnr1.localLabel
  | none => return 0

/-- The entry of `q` gets linked behind the one of `peerid`. -/
def linkBehind (q peerid : UInt32) (fec : Fec) (l : Lib) : Lib :=
  l.modNbr q fun ln =>
    { ln with
      sentMap :=
        Table.modify fecCompare LdeMap.fec fec (fun me => { me with prev := .entry peerid })
          ln.sentMap }

/-- Send a mapping from the one temporary node of the fan-out.  The entry it
gets is linked before the entry of `head`, the last one added. -/
def fanOutSend (peerid : UInt32) (fec : Fec) (label : UInt32) (head : Option UInt32) (l : Lib) :
    Lib × Option UInt32 :=
  let l' := sendOnce peerid fec label l
  if ((l.nbr? peerid).any fun ln => ln.sent fec) = ((l'.nbr? peerid).any fun ln => ln.sent fec) then
    (l', head)
  else
    match head with
    | none => (l', some peerid)
    | some q => (linkBehind q peerid fec l', some peerid)

/-- The fan-out of a label from upstream.  `ln1` is assigned only at a `down`
entry of the LSP, but the send follows at every entry. -/
def fanOut (fec : Fec) (label : UInt32) : List LabelNbr → Option UInt32 → LdeM Unit
  | [], _ => pure ()
  | lnr1 :: rest, head => do
    let _ ← ldeNbrDeref lnr1.peerid
    modify fun s =>
      if lnr1.type = .down ∧ sameLsp lnr1.fec fec then { s with ln1 := some lnr1.peerid } else s
    let s ← get
    let peerid ← assigned s.ln1
    modifyLib fun l => (fanOutSend peerid fec label head l).1
    fanOut fec label rest (fanOutSend peerid fec label head s.lib).2

/-- A mapping from a neighbour that is in the table for this LSP. -/
def fromUpstream (map : Map) (lnr : LabelNbr) (fec : Fec) : LdeM Unit := do
  modify fun s =>
    { s with
      labelNbrs := Table.modify labelNbrCompare LabelNbr.key lnr.key
        (fun lnr => { lnr with label := map.label }) s.labelNbrs }
  if (← get).leaf = 1 then pure ()
  else do
    let label ← upstreamLabel fec
    fanOut fec label (← get).labelNbrs none

/-- The walk over `label_nbrs` after every mapping; it prints, and leaves `ln1`
at the neighbour of the last entry. -/
def printWalk : List LabelNbr → LdeM Unit
  | [] => pure ()
  | lnr :: rest => do
    let _ ← ldeNbrDeref lnr.peerid
    modify fun s => { s with ln1 := some lnr.peerid }
    printWalk rest

/-- The MP2MP part of `IMSG_LABEL_MAPPING`. -/
def mldpMapping (map : Map) (peerid : UInt32) (fec : Fec) : LdeM Unit := do
  match labelNbrFind peerid fec (← get).labelNbrs with
  | none => fromDownstream map peerid fec
  | some lnr => fromUpstream map lnr fec

/-- `IMSG_LABEL_MAPPING` -/
def labelMapping (map : Map) (ln : LdeNbr) : LdeM Unit := do
  modifyLib (ldeCheckMapping map ln.peerid)
  mldpMapping map ln.peerid (ldeMap2fec map ln.id)
  printWalk (← get).labelNbrs

/-! ## Wildcard withdraws -/

/-- Tear down the `up` entries of the walk. -/
def teardownWalk (r : Freed) : List LabelNbr → LdeM Unit
  | [] => pure ()
  | lnr3 :: rest =>
    if lnr3.type = .up then do
      tearEntry r lnr3 lnr3.peerid
      teardownWalk r rest
    else teardownWalk r rest

/-- The entry a wildcard withdraw is for. -/
def withdrawn (map : Map) (peerid : UInt32) (t : List LabelNbr) : Option LabelNbr :=
  t.find? fun lnr2 => lnr2.localLabel == map.label && lnr2.peerid == peerid

/-- `IMSG_LABEL_WITHDRAW` of the type wildcard -/
def labelWithdrawWcard (r : Freed) (map : Map) (ln : LdeNbr) : LdeM Unit := do
  modifyLib (ldeCheckWithdrawWcard map ln.peerid)
  modify fun s =>
    { s with
      labelNbrs :=
        match withdrawn map ln.peerid s.labelNbrs with
        | some lnr2 => labelNbrDel lnr2 s.labelNbrs
        | none => s.labelNbrs }
  let s ← get
  if s.leaf ≠ 2 ∧ (s.labelNbrs.all fun lnr => lnr.type == .up) then teardownWalk r s.labelNbrs
  else pure ()

/-! ## Events -/

/-- `rt_dump`; the control message for an entry of the table. -/
def rtctlOf (lnr : LabelNbr) (ln : LdeNbr) : CtlRt :=
  { fec := lnr.fec, nexthop := ln.id, localLabel := lnr.localLabel, remoteLabel := lnr.label,
    inUse := lnr.type == .up }

/-- `rt_dump`; pseudowire entries are skipped before the neighbour is looked at. -/
def rtDump : List LabelNbr → LdeM Unit
  | [] => pure ()
  | lnr :: rest =>
    if lnr.fec.type = .pwid then rtDump rest
    else do
      let ln ← ldeNbrDeref lnr.peerid
      modifyLib fun l => l.emit (.ctlShowLib (rtctlOf lnr ln))
      rtDump rest

/-- A message from the LDP engine about a neighbour, or a command. -/
inductive Imsg
  | labelMappingFull
  | labelMapping (map : Map)
  | labelRequest (map : Map)
  | labelRelease (map : Map)
  | labelWithdraw (map : Map)
  | labelAbort (map : Map)
  | addressAdd (addr : LdeAddr)
  | addressDel (addr : LdeAddr)
  | notification (nm : NotifyMsg)
  | neighborUp (id : InAddr) (v4Enabled v6Enabled : Bool)
  | neighborDown
  | ctlShowLib
  | mldpAdd (root : InAddr) (lspId : UInt8)
  | mldpDel (root : InAddr) (lspId : UInt8)
deriving DecidableEq, Repr

/-- An event from the parent process, or the timer. -/
inductive ParentEvent
  /-- `IMSG_NETWORK_ADD`; `lsrIdView` is what the stack holds behind the FEC of an IPv4 route -/
  | networkAdd (af : Af) (addr : LdpdAddr) (prefixlen : UInt8) (lsrIdView : InAddr)
    (nexthop : LdpdAddr) (priority : UInt8)
  | networkDel (af : Af) (addr : LdpdAddr) (prefixlen : UInt8) (nexthop : LdpdAddr)
    (priority : UInt8)
  | pwInit (pw : L2vpnPw)
  | pwExit (uid : Nat)
  /-- `IMSG_RECONF_END`, when `merge_af` finds `F_LDPD_AF_EXPNULL` changed -/
  | egressLabel (af : Af) (expnull : Bool)
  | gcTimer
deriving DecidableEq, Repr

/-- An event of the process.  `fresh` says that the message is the first one a
call of `lde_dispatch_imsg` reads. -/
inductive Event
  | imsg (fresh : Bool) (peerid : UInt32) (msg : Imsg)
  | parent (e : ParentEvent)
deriving DecidableEq, Repr

def routeFec (af : Af) (addr : LdpdAddr) (prefixlen : UInt8) : Fec :=
  match af with
  | .inet => .ipv4 addr.v4 prefixlen
  | .inet6 => .ipv6 addr prefixlen

/-- The label messages that reach `lde_map2fec` with an address family it does not know. -/
def Imsg.unknownAf : Imsg → Bool
  | .labelMapping map | .labelRequest map | .labelRelease map | .labelWithdraw map => map.unknownAf
  | _ => false

/-- The messages for which the neighbour has been found. -/
def nbrImsg (r : Freed) (ln : LdeNbr) : Imsg → LdeM Unit
  | .labelMappingFull => modifyLib (fecSnap ln.peerid)
  | .labelMapping map => labelMapping map ln
  | .labelRequest map => modifyLib (ldeCheckRequest map ln.peerid)
  | .labelRelease map =>
    if map.type = .wildcard then ldeCheckReleaseWcard r map ln else ldeCheckRelease r map ln
  | .labelWithdraw map =>
    if map.type = .wildcard then labelWithdrawWcard r map ln
    else modifyLib (ldeCheckWithdraw map ln.peerid)
  | .addressAdd a => modifyLib fun l => l.modNbr ln.peerid (ldeAddressAdd a)
  | .addressDel a => modifyLib fun l => l.modNbr ln.peerid (ldeAddressDel a)
  | .notification nm =>
    if nm.statusCode = sPwStatus then modifyLib (l2vpnRecvPwStatus ln nm) else pure ()
  | .neighborDown => ldeNbrDel r ln
  | _ => pure ()

/-- `lde_dispatch_imsg`, one message. -/
def ldeDispatchImsg (r : Freed) (peerid : UInt32) (msg : Imsg) : LdeM Unit := do
  match msg with
  | .neighborUp id v4 v6 =>
    if ((← get).lib.nbr? peerid).isSome then throw .neighborExists
    else modifyLib (ldeNbrNew peerid id v4 v6)
  | .ctlShowLib => do
    rtDump (← get).labelNbrs
    modifyLib fun l => l.emit .ctlEnd
  | .mldpAdd root ov => do
    treeUp root ov
    modifyLib fun l => l.emit .ctlMldpLsp
  | .mldpDel root ov => do
    treeDown r root ov
    modifyLib fun l => l.emit .ctlMldpLsp
  | msg =>
    match (← get).lib.nbr? peerid with
    | none => pure ()
    | some ln => if msg.unknownAf then throw .unknownAf else nbrImsg r ln msg

/-- `lde_dispatch_parent`, one message, and the timer. -/
def ldeDispatchParent (e : ParentEvent) (l : Lib) : Lib :=
  match e with
  | .networkAdd af addr prefixlen lsrIdView nexthop priority =>
    let fec := routeFec af addr prefixlen
    ldeKernelInsert fec (if af = .inet then lsrIdView else fec.pwidLsrId) af nexthop priority none l
  | .networkDel af addr prefixlen nexthop priority =>
    ldeKernelRemove (routeFec af addr prefixlen) af nexthop priority l
  | .pwInit pw => l2vpnPwInit pw l
  | .pwExit uid => l2vpnPwExit uid l
  | .egressLabel af expnull => ldeChangeEgressLabel af expnull l
  | .gcTimer => ldeGcTimer l

/-- One event.  The messages of the event before are gone, and `ln1` is a
variable of one call of `lde_dispatch_imsg`. -/
def step (r : Freed) (e : Event) : LdeM Unit := do
  modifyLib fun l => { l with out := [] }
  match e with
  | .imsg fresh peerid msg => do
    modify fun s => if fresh then { s with ln1 := none } else s
    ldeDispatchImsg r peerid msg
  | .parent e => do
    modify fun s => { s with ln1 := none }
    modifyLib (ldeDispatchParent e)

end Mp2mp.Lde
