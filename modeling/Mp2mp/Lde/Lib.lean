import Mp2mp.Lde.State

/-!
# The label information base

`lde_lib.c`, the senders of `lde.c` and the pseudowire functions of `l2vpn.c`
they call, as functions on `Lib`.  The label allocation of `lde_kernel_insert` is
commented out in the source, so every FEC node keeps the label `NO_LABEL` it is
created with.

The functions that remove a mapping sent from a temporary FEC node can touch
freed memory; they are in `LdeM`.
-/

namespace Mp2mp.Lde

open Kit Ldpd LdeMap

/-! ## Kernel labels -/

def pwForwarding : UInt32 := 0

def Lib.pwOf (l : Lib) (uid : Nat) : Option L2vpnPw := l.pws.find? fun pw => pw.uid == uid

/-- `fn->data` -/
def Lib.pw? (l : Lib) (fn : FecNode) : Option L2vpnPw := fn.data.bind l.pwOf

def Lib.modPw (l : Lib) (uid : Nat) (f : L2vpnPw → L2vpnPw) : Lib :=
  { l with pws := l.pws.map fun pw => if pw.uid = uid then f pw else pw }

def l2vpnPwFec (pw : L2vpnPw) : Fec := .pwid pw.pwType pw.pwid pw.lsrId

def fecNhFind (fn : FecNode) (af : Af) (nexthop : LdpdAddr) (priority : UInt8) : Option FecNh :=
  fn.nexthops.find? fun fnh =>
    fnh.af == af && ldpAddrcmp af fnh.nexthop nexthop == .eq && fnh.priority == priority

def l2vpnPwOk (l : Lib) (pw : L2vpnPw) (fnh : FecNh) : Bool :=
  fnh.remoteLabel != noLabel && pw.mtu == pw.remoteMtu &&
    !(hasFlag pw.flags fPwStatustlv && pw.remoteStatus != pwForwarding) &&
    match l.node? (match pw.af with
      | .inet => .ipv4 pw.addr.v4 32
      | .inet6 => .ipv6 pw.addr 128) with
    | none => false
    | some fn => fn.localLabel != noLabel && fn.nexthops.all fun nh => nh.remoteLabel != noLabel

def kpwOf (fn : FecNode) (fnh : FecNh) (pw : L2vpnPw) : Kpw :=
  { ifindex := pw.ifindex, pwType := pw.pwType, af := pw.af, nexthop := pw.addr,
    localLabel := fn.localLabel, remoteLabel := fnh.remoteLabel, flags := pw.flags }

/-- `lde_send_change_klabel`, the case `FEC_TYPE_PWID`. -/
def changeKpwlabel (fn : FecNode) (fnh : FecNh) (l : Lib) : Lib :=
  if fn.localLabel = noLabel ∨ fnh.remoteLabel = noLabel then l
  else
    match l.pw? fn with
    | none => l
    | some pw =>
      let up := { pw with flags := pw.flags ||| fPwStatusUp }
      (l.modPw pw.uid fun _ => up).emit (.kpwlabelChange (kpwOf fn fnh up))

/-- `lde_send_delete_klabel`, the case `FEC_TYPE_PWID`. -/
def deleteKpwlabel (fn : FecNode) (fnh : FecNh) (l : Lib) : Lib :=
  match l.pw? fn with
  | none => l
  | some pw =>
    if hasFlag pw.flags fPwStatusUp then
      let down := { pw with flags := pw.flags &&& ~~~fPwStatusUp }
      (l.modPw pw.uid fun _ => down).emit (.kpwlabelDelete (kpwOf fn fnh down))
    else l

/-- The pseudowire case of the two senders: up or down as `l2vpn_pw_ok` says. -/
def setKpwlabel (pw : L2vpnPw) (fn : FecNode) (fnh : FecNh) (l : Lib) : Lib :=
  if l2vpnPwOk l pw fnh then changeKpwlabel fn fnh l else deleteKpwlabel fn fnh l

/-- One pseudowire of `l2vpn_sync_pws`. -/
def l2vpnSyncPw (af : Af) (addr : LdpdAddr) (l : Lib) (uid : Nat) : Lib :=
  match l.pwOf uid with
  | none => l
  | some pw =>
    if af ≠ pw.af ∨ ldpAddrcmp af pw.addr addr ≠ .eq then l
    else
      match l.node? (l2vpnPwFec pw) with
      | none => l
      | some fn =>
        match fecNhFind fn .inet (.ofV4 pw.lsrId) 0 with
        | none => l
        | some fnh => setKpwlabel pw fn fnh l

def l2vpnSyncPws (af : Af) (addr : LdpdAddr) (l : Lib) : Lib :=
  (l.pws.map L2vpnPw.uid).foldl (l2vpnSyncPw af addr) l

def krouteOf (fn : FecNode) (fnh : FecNh) : Kroute :=
  match fn.fec with
  | .ipv6 p len =>
    { af := .inet6, addr := p, prefixlen := len, nexthop := fnh.nexthop,
      localLabel := fn.localLabel, remoteLabel := fnh.remoteLabel, priority := fnh.priority }
  | fec =>
    { af := .inet, addr := .ofV4 fec.ipv4Prefix, prefixlen := fec.ipv4Prefixlen,
      nexthop := .ofV4 fnh.nexthop.v4,
      localLabel := fn.localLabel, remoteLabel := fnh.remoteLabel, priority := fnh.priority }

/-- The pseudowires to be looked at when the labels of a host route change. -/
def syncHostRoute (fec : Fec) (l : Lib) : Lib :=
  match fec with
  | .ipv4 p len => if len = 32 then l2vpnSyncPws .inet (.ofV4 p) l else l
  | .ipv6 p len => if len = 128 then l2vpnSyncPws .inet6 p l else l
  | .pwid .. => l

def ldeSendChangeKlabel (fn : FecNode) (fnh : FecNh) (l : Lib) : Lib :=
  match fn.fec.type with
  | .pwid => changeKpwlabel fn fnh l
  | _ => syncHostRoute fn.fec (l.emit (.klabelChange (krouteOf fn fnh)))

def ldeSendDeleteKlabel (fn : FecNode) (fnh : FecNh) (l : Lib) : Lib :=
  match fn.fec.type with
  | .pwid => deleteKpwlabel fn fnh l
  | _ => syncHostRoute fn.fec (l.emit (.klabelDelete (krouteOf fn fnh)))

/-! ## Label messages -/

/-- The check the three senders make alike: is the neighbour to hear of this FEC? -/
def Lib.concerns (l : Lib) (ln : LdeNbr) (fn : FecNode) : Bool :=
  match fn.fec with
  | .ipv4 .. => ln.v4Enabled
  | .ipv6 .. => ln.v6Enabled
  | .pwid .. =>
    match l.pw? fn with
    | none => false
    | some pw => pw.lsrId == ln.id

/-- `lde_fec2map` with the control word flag of the pseudowire, if the FEC has one. -/
def Lib.fecMap (l : Lib) (fn : FecNode) : Map :=
  let map := ldeFec2map fn.fec
  match l.pw? fn with
  | none => map
  | some pw =>
    if fn.fec.type = .pwid ∧ hasFlag pw.flags fPwCword then
      { map with flags := map.flags ||| fMapPwCword }
    else map

/-- The map of a label mapping, with the parameters of the pseudowire. -/
def Lib.mappingMap (l : Lib) (fn : FecNode) : Map :=
  let map := l.fecMap fn
  match fn.fec.type, l.pw? fn with
  | .pwid, some pw =>
    let map := { map with fec := map.fec.setIfmtu pw.mtu, flags := map.flags ||| fMapPwIfmtu }
    if hasFlag pw.flags fPwStatustlv then
      { map with flags := map.flags ||| fMapPwStatus, pwStatus := pwForwarding }
    else map
  | _, _ => map

/-- `lde_map_add` and the assignment of the map that follows it, on the side of
the neighbour; an entry that is there only gets the new map. -/
def recordMap (fec : Fec) (map : Map) (prev : MapPrev) (t : List LdeMap) : List LdeMap :=
  match fecFind LdeMap.fec fec t with
  | some _ => Table.modify fecCompare LdeMap.fec fec (fun me => { me with map := map }) t
  | none => fecInsert LdeMap.fec ⟨fec, map, prev⟩ t

/-- SL.5: record the sent label mapping; a new entry goes to the list of its node. -/
def recordSent (peerid : UInt32) (ln : LdeNbr) (fec : Fec) (map : Map) (prev : MapPrev) (l : Lib) :
    Lib :=
  let l := l.modNbr peerid fun ln => { ln with sentMap := recordMap fec map prev ln.sentMap }
  if (fecFind LdeMap.fec fec ln.sentMap).isNone ∧ prev = .node then
    l.modNode fec fun fn => { fn with upstream := peerid :: fn.upstream }
  else l

/-- The mapping message of `lde_send_labelmapping`, a pending request taken into account. -/
def Lib.labelmapping (l : Lib) (ln : LdeNbr) (fn : FecNode) : Map :=
  let map := { l.mappingMap fn with label := fn.localLabel }
  match fecFind LdeReq.fec fn.fec ln.recvReq with
  | some lre => { map with requestid := lre.msgId, flags := fMapReqId }
  | none => map

/-- `lde_send_labelmapping`.  `prev` says whether `fn` is a node of `ft` or a
temporary one. -/
def ldeSendLabelmapping (peerid : UInt32) (fn : FecNode) (single : Bool) (prev : MapPrev)
    (l : Lib) : Lib :=
  match l.nbr? peerid with
  | none => l
  | some ln =>
    if l.concerns ln fn then
      let map := l.labelmapping ln fn
      let l := l.modNbr peerid fun ln =>
        { ln with recvReq := fecRemove LdeReq.fec fn.fec ln.recvReq }
      let l := l.emit (.mappingAdd peerid map)
      let l := if single then l.emit (.mappingAddEnd peerid) else l
      recordSent peerid ln fn.fec map prev l
    else l

/-- SWd.2: record the label withdraw of one FEC. -/
def recordWdraw (fec : Fec) (label : UInt32) (t : List LdeWdraw) : List LdeWdraw :=
  match fecFind LdeWdraw.fec fec t with
  | some _ => Table.modify fecCompare LdeWdraw.fec fec (fun lw => { lw with label := label }) t
  | none => fecInsert LdeWdraw.fec ⟨fec, label⟩ t

/-- `map.st` and the flag that goes with it. -/
def withStatus (map : Map) (st : Option MapStatus) : Map :=
  match st with
  | none => map
  | some st => { map with st := st, flags := map.flags ||| fMapStatus }

/-- `lde_send_labelwithdraw` of one FEC. -/
def ldeSendLabelwithdraw (peerid : UInt32) (fn : FecNode) (st : Option MapStatus) (l : Lib) : Lib :=
  match l.nbr? peerid with
  | none => l
  | some ln =>
    if l.concerns ln fn then
      let map := withStatus { l.fecMap fn with label := fn.localLabel } st
      let l := l.emit (.withdrawAdd peerid map)
      let l := l.emit (.withdrawAddEnd peerid)
      l.modNbr peerid fun ln => { ln with sentWdraw := recordWdraw fn.fec map.label ln.sentWdraw }
    else l

/-- A cleared map of the type wildcard with the given label. -/
def wildcardMap (label : UInt32) : Map := { Map.zero with type := .wildcard, label := label }

/-- `lde_send_labelwithdraw` with a null `fn`: a wildcard, recorded for every FEC of `ft`. -/
def ldeSendLabelwithdrawWcard (peerid : UInt32) (label : UInt32) (l : Lib) : Lib :=
  let l := l.emit (.withdrawAdd peerid (wildcardMap label))
  let l := l.emit (.withdrawAddEnd peerid)
  l.modNbr peerid fun ln =>
    { ln with
      sentWdraw := l.ft.foldl (fun t fn => recordWdraw fn.fec label t) ln.sentWdraw }

def ldeSendLabelwithdrawAll (fn : FecNode) (l : Lib) : Lib :=
  (l.nbrs.map LdeNbr.peerid).foldl (fun l peerid => ldeSendLabelwithdraw peerid fn none l) l

/-- `lde_send_labelrelease` of one FEC. -/
def ldeSendLabelrelease (peerid : UInt32) (fn : FecNode) (label : UInt32) (l : Lib) : Lib :=
  match l.nbr? peerid with
  | none => l
  | some ln =>
    if l.concerns ln fn then
      (l.emit (.releaseAdd peerid { l.fecMap fn with label := label })).emit (.releaseAddEnd peerid)
    else l

/-- `lde_send_labelrelease` with a null `fn`. -/
def ldeSendLabelreleaseWcard (peerid : UInt32) (label : UInt32) (l : Lib) : Lib :=
  (l.emit (.releaseAdd peerid (wildcardMap label))).emit (.releaseAddEnd peerid)

def ldeSendNotification (peerid : UInt32) (statusCode msgId : UInt32) (msgType : UInt16) (l : Lib) :
    Lib :=
  l.emit (.notificationSend peerid
    { NotifyMsg.zero with statusCode := statusCode, msgId := msgId, msgType := msgType })

/-! ## FEC nodes and nexthops -/

/-- `fec_add`, unless the tree has the FEC; `lsrIdView` is what the caller's
FEC holds in the place of `u.pwid.lsr_id`. -/
def fecAdd (fec : Fec) (lsrIdView : InAddr) (l : Lib) : Lib :=
  { l with ft := fecInsert FecNode.fec ⟨fec, lsrIdView, [], [], [], noLabel, none⟩ l.ft }

/-- Rewrite the nexthop of a node that `fnh` is. -/
def Lib.modNh (l : Lib) (fec : Fec) (fnh : FecNh) (f : FecNh → FecNh) : Lib :=
  l.modNode fec fun fn =>
    { fn with
      nexthops := fn.nexthops.map fun nh =>
        if nh.af = fnh.af ∧ nh.nexthop = fnh.nexthop ∧ nh.priority = fnh.priority then f nh
        else nh }

def Lib.eachNh (l : Lib) (fec : Fec) (body : FecNode → FecNh → Lib → Lib) : Lib :=
  match l.node? fec with
  | none => l
  | some fn => fn.nexthops.foldl (fun l fnh => body fn fnh l) l

/-- Delete the kernel label of a nexthop and forget the remote label. -/
def uninstallNh (fn : FecNode) (fnh : FecNh) (l : Lib) : Lib :=
  (ldeSendDeleteKlabel fn fnh l).modNh fn.fec fnh fun nh => { nh with remoteLabel := noLabel }

/-- Set the remote label of a nexthop and change its kernel label. -/
def installNh (label : UInt32) (fn : FecNode) (fnh : FecNh) (l : Lib) : Lib :=
  ldeSendChangeKlabel fn { fnh with remoteLabel := label }
    (l.modNh fn.fec fnh fun nh => { nh with remoteLabel := label })

/-! ## Label mappings -/

def sWrongCbit : UInt32 := 0x00000025
def sNoRoute : UInt32 := 0x0000000d
def sLoopDetected : UInt32 := 0x0000000b
def msgTypeLabelmapping : UInt16 := 0x0400
def msgTypeLabelrequest : UInt16 := 0x0401

/-- RFC 4447, section 5.4.3: pseudowire status negotiation. -/
def negotiateStatus (ln : LdeNbr) (fec : Fec) (map : Map) (pw : L2vpnPw) (l : Lib) : Lib :=
  if (fecFind LdeMap.fec fec ln.recvMap).isNone ∧ ¬hasFlag map.flags fMapPwStatus then
    l.modPw pw.uid fun pw => { pw with flags := pw.flags &&& ~~~fPwStatustlv }
  else l

/-- `l2vpn_pw_negotiate`; the result says whether the mapping is to be ignored. -/
def l2vpnPwNegotiate (ln : LdeNbr) (fn : FecNode) (map : Map) (l : Lib) : Bool × Lib :=
  match l.pw? fn with
  | none => (false, l)
  | some pw =>
    let clearCword (l : Lib) : Lib :=
      l.modPw pw.uid fun pw => { pw with flags := pw.flags &&& ~~~fPwCword }
    if (fecFind LdeMap.fec fn.fec ln.sentMap).isSome then
      if hasFlag map.flags fMapPwCword ∧ ¬hasFlag pw.flags fPwCwordConf then (true, l)
      else if ¬hasFlag map.flags fMapPwCword ∧ hasFlag pw.flags fPwCwordConf then
        let st : MapStatus := ⟨sWrongCbit, map.msgId, msgTypeLabelmapping⟩
        let l := clearCword (ldeSendLabelwithdraw ln.peerid fn (some st) l)
        (false, negotiateStatus ln fn.fec map pw (ldeSendLabelmapping ln.peerid fn true .node l))
      else (false, negotiateStatus ln fn.fec map pw l)
    else if hasFlag map.flags fMapPwCword then
      if hasFlag pw.flags fPwCwordConf then
        (false, negotiateStatus ln fn.fec map pw
          (l.modPw pw.uid fun pw => { pw with flags := pw.flags ||| fPwCword }))
      else (true, l)
    else (false, negotiateStatus ln fn.fec map pw (clearCword l))

/-- RFC 4447 control word and status tlv negotiation, if the mapping is for a pseudowire. -/
def negotiate (ln : LdeNbr) (fn : FecNode) (map : Map) (l : Lib) : Bool × Lib :=
  if map.type = .pwid then l2vpnPwNegotiate ln fn map l else (false, l)

/-- LMp.10a: the label is not the one of the mapping before. -/
def replaceMapping (ln : LdeNbr) (fn : FecNode) (me : LdeMap) (l : Lib) : Lib :=
  (ldeSendLabelrelease ln.peerid fn me.map.label l).eachNh fn.fec fun fn fnh l =>
    if (ldeAddressFind ln fnh.af fnh.nexthop).isSome then uninstallNh fn fnh l else l

/-- The pseudowire with the parameters of a received mapping. -/
def remotePw (map : Map) (pw : L2vpnPw) : L2vpnPw :=
  { pw with
    remoteGroup := map.fec.groupId
    remoteMtu := if hasFlag map.flags fMapPwIfmtu then map.fec.ifmtu else pw.remoteMtu
    remoteStatus := if hasFlag map.flags fMapPwStatus then map.pwStatus else pw.remoteStatus }

/-- LMp.15: install the FEC in the FIB. -/
def installMapping (ln : LdeNbr) (map : Map) (fn : FecNode) (fnh : FecNh) (l : Lib) : Lib :=
  match fn.fec with
  | .pwid .. =>
    match l.pw? fn with
    | none => l
    | some pw =>
      let l := (l.modPw pw.uid (remotePw map)).modNh fn.fec fnh fun nh =>
        { nh with remoteLabel := map.label }
      let fnh := { fnh with remoteLabel := map.label }
      if l2vpnPwOk l (remotePw map pw) fnh then ldeSendChangeKlabel fn fnh l else l
  | _ => if (ldeAddressFind ln fnh.af fnh.nexthop).isSome then installNh map.label fn fnh l else l

/-- LMp.13 and LMp.16: record the mapping from this peer. -/
def recordRecv (ln : LdeNbr) (fec : Fec) (map : Map) (l : Lib) : Lib :=
  let l := l.modNbr ln.peerid fun ln => { ln with recvMap := recordMap fec map .node ln.recvMap }
  if (fecFind LdeMap.fec fec ln.recvMap).isNone then
    l.modNode fec fun fn => { fn with downstream := ln.peerid :: fn.downstream }
  else l

/-- LMp.9 to LMp.16, once the mapping is not ignored; `lre` says that it answers a request. -/
def acceptMapping (ln : LdeNbr) (fn : FecNode) (map : Map) (lre : Bool) (l : Lib) : Lib :=
  let l :=
    match fecFind LdeMap.fec fn.fec ln.recvMap with
    | some me =>
      if me.map.label ≠ map.label ∧ lre = false then replaceMapping ln fn me l else l
    | none => l
  recordRecv ln fn.fec map (l.eachNh fn.fec (installMapping ln map))

/-- `lde_req_del` of a sent request, if there is one. -/
def ldeReqDelSent (peerid : UInt32) (fec : Fec) (l : Lib) : Lib :=
  l.modNbr peerid fun ln => { ln with sentReq := fecRemove LdeReq.fec fec ln.sentReq }

def ldeCheckMapping (map : Map) (peerid : UInt32) (l : Lib) : Lib :=
  match l.nbr? peerid with
  | none => l
  | some ln =>
    let fec := ldeMap2fec map ln.id
    let l := fecAdd fec fec.pwidLsrId l
    match l.node? fec with
    | none => l
    | some fn =>
      -- LMp.1, LMp.2
      let lre := (fecFind LdeReq.fec fec ln.sentReq).isSome
      let (ignored, l) := negotiate ln fn map (ldeReqDelSent peerid fec l)
      if ignored then l else acceptMapping ln fn map lre l

def ldeCheckRequest (map : Map) (peerid : UInt32) (l : Lib) : Lib :=
  match l.nbr? peerid with
  | none => l
  | some ln =>
    let fec := ldeMap2fec map ln.id
    match l.node? fec with
    | none => ldeSendNotification peerid sNoRoute map.msgId msgTypeLabelrequest l
    | some fn =>
      if fn.nexthops = [] then ldeSendNotification peerid sNoRoute map.msgId msgTypeLabelrequest l
      else if fec.type ≠ .pwid ∧
          fn.nexthops.any fun fnh => (ldeAddressFind ln fnh.af fnh.nexthop).isSome then
        ldeSendNotification peerid sLoopDetected map.msgId msgTypeLabelrequest l
      else if (fecFind LdeReq.fec fec ln.recvReq).isSome then l
      else
        let l := l.modNbr peerid fun ln =>
          { ln with recvReq := fecInsert LdeReq.fec ⟨fec, map.msgId⟩ ln.recvReq }
        ldeSendLabelmapping peerid fn true .node l

/-- `lde_map_del` of a received mapping. -/
def ldeMapDelRecv (peerid : UInt32) (fec : Fec) (l : Lib) : Lib :=
  (l.modNbr peerid fun ln => { ln with recvMap := fecRemove LdeMap.fec fec ln.recvMap }).modNode fec
    fun fn => { fn with downstream := fn.downstream.erase peerid }

/-- LWd.3 and LWd.4: check the previously received label mapping of one FEC. -/
def withdrawRecv (map : Map) (peerid : UInt32) (fec : Fec) (l : Lib) : Lib :=
  match (l.nbr? peerid).bind fun ln => fecFind LdeMap.fec fec ln.recvMap with
  | some me =>
    if map.label = noLabel ∨ map.label = me.map.label then ldeMapDelRecv peerid fec l else l
  | none => l

/-- LWd.1: remove the label from forwarding and switching use. -/
def uninstallMapping (ln : LdeNbr) (fn : FecNode) (fnh : FecNh) (l : Lib) : Lib :=
  match fn.fec with
  | .pwid .. => if (l.pw? fn).isSome then uninstallNh fn fnh l else l
  | _ => if (ldeAddressFind ln fnh.af fnh.nexthop).isSome then uninstallNh fn fnh l else l

def ldeCheckWithdraw (map : Map) (peerid : UInt32) (l : Lib) : Lib :=
  match l.nbr? peerid with
  | none => l
  | some ln =>
    if map.type = .pwid ∧ ¬hasFlag map.flags fMapPwId then l
    else
      let fec := ldeMap2fec map ln.id
      let l := fecAdd fec fec.pwidLsrId l
      match l.node? fec with
      | none => l
      | some fn =>
        let l := l.eachNh fec (uninstallMapping ln)
        withdrawRecv map peerid fec (ldeSendLabelrelease peerid fn map.label l)

/-- `lde_check_withdraw_wcard`, in which LWd.1 is commented out. -/
def ldeCheckWithdrawWcard (map : Map) (peerid : UInt32) (l : Lib) : Lib :=
  let l := ldeSendLabelreleaseWcard peerid map.label l
  (l.ft.map FecNode.fec).foldl (fun l fec => withdrawRecv map peerid fec l) l

/-! ## Removing sent mappings -/

/-- The entries of `fec` that were linked behind the one of `peerid` are now
linked to what it was linked to. -/
def relink (peerid : UInt32) (fec : Fec) (prev : MapPrev) (l : Lib) : Lib :=
  { l with
    nbrs := l.nbrs.map fun ln =>
      { ln with
        sentMap := ln.sentMap.map fun me =>
          if me.fec = fec ∧ me.prev = .entry peerid then { me with prev := prev } else me } }

/-- `lde_map_del` of a sent mapping; `LIST_REMOVE` writes through the link. -/
def ldeMapDelSent (r : Freed) (peerid : UInt32) (me : LdeMap) : LdeM Unit := do
  modifyLib fun l => l.modNbr peerid fun ln =>
    { ln with sentMap := fecRemove LdeMap.fec me.fec ln.sentMap }
  match me.prev with
  | .node => modifyLib fun l => l.modNode me.fec fun fn =>
    { fn with upstream := fn.upstream.erase peerid }
  | .entry q => modifyLib (relink peerid me.fec (.entry q))
  | .freed => do
    r.access
    modifyLib (relink peerid me.fec .freed)

/-- LRl.3 and LRl.4: delete the record of an outstanding label withdraw. -/
def releaseWdraw (map : Map) (peerid : UInt32) (fec : Fec) (l : Lib) : Lib :=
  match (l.nbr? peerid).bind fun ln => fecFind LdeWdraw.fec fec ln.sentWdraw with
  | none => l
  | some lw =>
    if map.label = noLabel ∨ (lw.label ≠ noLabel ∧ map.label = lw.label) then
      l.modNbr peerid fun ln => { ln with sentWdraw := fecRemove LdeWdraw.fec fec ln.sentWdraw }
    else l

/-- LRl.3 to LRl.6 for one FEC. -/
def releaseSent (r : Freed) (map : Map) (peerid : UInt32) (fec : Fec) : LdeM Unit := do
  modifyLib (releaseWdraw map peerid fec)
  match ((← get).lib.nbr? peerid).bind fun ln => fecFind LdeMap.fec fec ln.sentMap with
  | none => pure ()
  | some me =>
    if map.label = noLabel ∨ map.label = me.map.label then ldeMapDelSent r peerid me else pure ()

def ldeCheckRelease (r : Freed) (map : Map) (ln : LdeNbr) : LdeM Unit := do
  let fec := ldeMap2fec map ln.id
  let fn := (← get).lib.node? fec
  if (map.type = .pwid ∧ ¬hasFlag map.flags fMapPwId) ∨ fn = none then pure ()
  else releaseSent r map ln.peerid fec

def ldeCheckReleaseWcard (r : Freed) (map : Map) (ln : LdeNbr) : LdeM Unit := do
  let fecs := (← get).lib.ft.map FecNode.fec
  fecs.forM (releaseSent r map ln.peerid)

/-! ## Routes, neighbours and the garbage collector -/

/-- `lde_kernel_insert`.  The switch over the FEC type falls through, so the
neighbour is always looked up by `u.pwid.lsr_id`. -/
def ldeKernelInsert (fec : Fec) (lsrIdView : InAddr) (af : Af) (nexthop : LdpdAddr)
    (priority : UInt8) (data : Option Nat) (l : Lib) : Lib :=
  let l := fecAdd fec lsrIdView l
  match l.node? fec with
  | none => l
  | some fn =>
    if (fecNhFind fn af nexthop priority).isSome then l
    else
      let fnh : FecNh := ⟨af, nexthop, noLabel, priority⟩
      let data := if fec.type = .pwid then data else fn.data
      let l := l.modNode fec fun fn => { fn with data := data, nexthops := fnh :: fn.nexthops }
      let l := ldeSendChangeKlabel { fn with data := data } fnh l
      match l.nbrFindByLsrid fn.lsrIdView with
      | none => l
      | some ln =>
        match fecFind LdeMap.fec fec ln.recvMap with
        | none => l
        | some me => ldeCheckMapping me.map ln.peerid l

def ldeKernelRemove (fec : Fec) (af : Af) (nexthop : LdpdAddr) (priority : UInt8) (l : Lib) : Lib :=
  match l.node? fec with
  | none => l
  | some fn =>
    match fecNhFind fn af nexthop priority with
    | none => l
    | some fnh =>
      let fn := { fn with nexthops := fn.nexthops.erase fnh }
      let l := (ldeSendDeleteKlabel fn fnh l).modNode fec fun n => { n with nexthops := fn.nexthops }
      if fn.nexthops = [] then
        (ldeSendLabelwithdrawAll fn l).modNode fec fun n =>
          { n with localLabel := noLabel, data := if fec.type = .pwid then none else n.data }
      else l

def l2vpnPwReset (pw : L2vpnPw) : L2vpnPw :=
  let flags :=
    if hasFlag pw.flags fPwCwordConf then pw.flags ||| fPwCword else pw.flags &&& ~~~fPwCword
  { pw with
    remoteGroup := 0
    remoteMtu := 0
    remoteStatus := 0
    flags :=
      if hasFlag flags fPwStatustlvConf then flags ||| fPwStatustlv else flags &&& ~~~fPwStatustlv }

/-- `l2vpn_pw_init` of a pseudowire of the configuration. -/
def l2vpnPwInit (pw : L2vpnPw) (l : Lib) : Lib :=
  let l := { l with pws := l2vpnPwReset pw :: l.pws.filter fun p => p.uid != pw.uid }
  ldeKernelInsert (l2vpnPwFec pw) pw.lsrId .inet (.ofV4 pw.lsrId) 0 (some pw.uid) l

/-- `l2vpn_pw_exit`, after which the configuration drops the pseudowire. -/
def l2vpnPwExit (uid : Nat) (l : Lib) : Lib :=
  match l.pwOf uid with
  | none => l
  | some pw =>
    let l := ldeKernelRemove (l2vpnPwFec pw) .inet (.ofV4 pw.lsrId) 0 l
    { l with pws := l.pws.filter fun p => p.uid != uid }

def l2vpnRecvPwStatus (ln : LdeNbr) (nm : NotifyMsg) (l : Lib) : Lib :=
  if ¬hasFlag nm.fec.flags fMapPwId then l
  else
    match l.node? (ldeMap2fec nm.fec ln.id) with
    | none => l
    | some fn =>
      match l.pw? fn, fecNhFind fn .inet (.ofV4 ln.id) 0 with
      | some pw, some fnh =>
        if pw.remoteStatus = nm.pwStatus then l
        else
          let pw := { pw with remoteStatus := nm.pwStatus }
          setKpwlabel pw fn fnh (l.modPw pw.uid fun _ => pw)
      | _, _ => l

def fecSnap (peerid : UInt32) (l : Lib) : Lib :=
  let l := l.ft.foldl
    (fun l fn => if fn.localLabel = noLabel then l else ldeSendLabelmapping peerid fn false .node l) l
  l.emit (.mappingAddEnd peerid)

/-- `egress_label`; `expnull` is `F_LDPD_AF_EXPNULL` of the address family. -/
def egressLabel (af : Af) (expnull : Bool) : UInt32 :=
  match af, expnull with
  | .inet, true => mplsLabelIpv4null
  | .inet6, true => mplsLabelIpv6null
  | _, false => mplsLabelImplnull

/-- The FECs that `lde_change_egress_label` goes on with for an address family. -/
def egressType : Af → FecType
  | .inet => .ipv4
  | .inet6 => .ipv6

/-- The withdraws of `lde_change_egress_label` to a neighbour. -/
def withdrawEgress (expnull : Bool) (ln : LdeNbr) (l : Lib) : Lib :=
  if expnull then ldeSendLabelwithdrawWcard ln.peerid mplsLabelImplnull l
  else
    let l := if ln.v4Enabled then ldeSendLabelwithdrawWcard ln.peerid mplsLabelIpv4null l else l
    if ln.v6Enabled then ldeSendLabelwithdrawWcard ln.peerid mplsLabelIpv6null l else l

/-- One node of the walk of `lde_change_egress_label` for a neighbour. -/
def advertiseEgress (af : Af) (expnull : Bool) (peerid : UInt32) (l : Lib) (fn : FecNode) : Lib :=
  let label := egressLabel af expnull
  if mplsLabelReservedMax < fn.localLabel ∨ fn.fec.type ≠ egressType af then l
  else
    ldeSendLabelmapping peerid { fn with localLabel := label } false .node
      (l.modNode fn.fec fun fn => { fn with localLabel := label })

/-- `lde_change_egress_label`, whose argument `was_implicit` is the new flag. -/
def ldeChangeEgressLabel (af : Af) (expnull : Bool) (l : Lib) : Lib :=
  l.nbrs.foldl (fun l ln =>
    let l := withdrawEgress expnull ln l
    (l.ft.foldl (advertiseEgress af expnull ln.peerid) l).emit (.mappingAddEnd ln.peerid)) l

/-- One nexthop of the walk of `lde_nbr_del`. -/
def uninstallNbr (ln : LdeNbr) (fn : FecNode) (fnh : FecNh) (l : Lib) : Lib :=
  match fn.fec with
  | .pwid _ _ lsrId =>
    if lsrId = ln.id then
      uninstallNh fn fnh <|
        match l.pw? fn with
        | some pw => l.modPw pw.uid l2vpnPwReset
        | none => l
    else l
  | _ => if (ldeAddressFind ln fnh.af fnh.nexthop).isSome then uninstallNh fn fnh l else l

/-- Uninstall the received mappings of a neighbour and free their records. -/
def freeRecvMaps (ln : LdeNbr) (l : Lib) : Lib :=
  let l := (l.ft.map FecNode.fec).foldl (fun l fec => l.eachNh fec (uninstallNbr ln)) l
  (ln.recvMap.map LdeMap.fec).foldl (fun l fec => ldeMapDelRecv ln.peerid fec l) l

/-- `lde_nbr_del`.  A local variable that pointed to the neighbour is worth nothing after it. -/
def ldeNbrDel (r : Freed) (ln : LdeNbr) : LdeM Unit := do
  modifyLib (freeRecvMaps ln)
  ln.sentMap.forM (ldeMapDelSent r ln.peerid)
  modify fun s =>
    { s with
      lib := { s.lib with
        nbrs := Table.remove ldeNbrCompare LdeNbr.peerid ln.peerid s.lib.nbrs }
      ln1 := if s.ln1 = some ln.peerid then none else s.ln1 }

def ldeNbrNew (peerid : UInt32) (id : InAddr) (v4Enabled v6Enabled : Bool) (l : Lib) : Lib :=
  { l with
    nbrs := Table.insert ldeNbrCompare LdeNbr.peerid
      ⟨peerid, id, v4Enabled, v6Enabled, [], [], [], [], [], []⟩ l.nbrs }

def ldeAddressAdd (a : LdeAddr) (ln : LdeNbr) : LdeNbr :=
  if (ldeAddressFind ln a.af a.addr).isSome then ln else { ln with addrList := ln.addrList ++ [a] }

def ldeAddressDel (a : LdeAddr) (ln : LdeNbr) : LdeNbr :=
  match ldeAddressFind ln a.af a.addr with
  | none => ln
  | some a' => { ln with addrList := ln.addrList.erase a' }

def ldeGcTimer (l : Lib) : Lib :=
  { l with
    ft := l.ft.filter fun fn => !(fn.nexthops.isEmpty && fn.downstream.isEmpty && fn.upstream.isEmpty) }

end Mp2mp.Lde
