import Mp2mp.Kit.Exec
import Mp2mp.Kit.Keyed

/-!
# Label forwarding entries in zebra

The LSP table of `zebra_mpls.c`, the work queue that processes changed entries, and the
kernel's label table as `netlink_mpls_multipath` of `rt_netlink.c` writes it.

An LSP and an NHLFE are known by the address they were allocated at, which is never used
again; the queue and `best_nhlfe` hold addresses.  Whether a nexthop is reachable is looked
up in the connected routes, which the environment changes.
-/

namespace Mp2mp.Zebra

open Kit

/-! ## Nexthops -/

abbrev Label := UInt32

def mplsImpNullLabel : Label := 3

/-- `union g_addr`; the first word is the IPv4 address. -/
structure GAddr where
  w0 : UInt32
  w1 : UInt32
  w2 : UInt32
  w3 : UInt32
deriving DecidableEq, Repr

/-- `enum nexthop_types_t` -/
inductive NexthopType
  | ifindex
  | ifname
  | ipv4
  | ipv4Ifindex
  | ipv4Ifname
  | ipv6
  | ipv6Ifindex
  | ipv6Ifname
  | blackhole
deriving DecidableEq, Repr

/-- The gateway arguments `gtype`, `gate` and `ifindex` of a request. -/
structure Gateway where
  gtype : NexthopType
  gate : GAddr
  ifindex : UInt32
deriving DecidableEq, Repr

/-- `struct nexthop`, with its one label. -/
structure Nexthop where
  type : NexthopType
  gate : GAddr
  ifindex : UInt32
  label : Label
  active : Bool
  fib : Bool
deriving DecidableEq, Repr

/-- `enum lsp_types_t` -/
inductive LspType
  | invalid
  | static
  | ldp
deriving DecidableEq, Repr

def lspDistance : LspType → UInt8
  | .static => 1
  | .invalid | .ldp => 150

/-- The comparison that `nhlfe_nhop_match` and `snhlfe_match` make between a gateway they
hold and the one they are asked for. -/
def hopMatch (type : NexthopType) (gate : GAddr) (ifindex : UInt32) (g : Gateway) : Bool :=
  type == g.gtype &&
    match type with
    | .ipv4 => gate.w0 == g.gate.w0
    | .ipv6 => gate == g.gate
    | .ipv6Ifindex => gate == g.gate && ifindex == g.ifindex
    | _ => false

/-- The gateway that is stored for the arguments of a request; there is none for the types
that are not supported. -/
def storedGateway (g : Gateway) : Option (GAddr × UInt32) :=
  match g.gtype with
  | .ipv4 => some (⟨g.gate.w0, 0, 0, 0⟩, 0)
  | .ipv6 | .ipv6Ifindex => some (g.gate, g.ifindex)
  | _ => none

/-! ## The table -/

/-- `zebra_nhlfe_t` -/
structure Nhlfe where
  id : Nat
  type : LspType
  nexthop : Nexthop
  distance : UInt8
  changed : Bool
  selected : Bool
  multipath : Bool
  deleted : Bool
  installed : Bool
deriving DecidableEq, Repr

/-- `zebra_lsp_t` -/
structure Lsp where
  id : Nat
  inLabel : Label
  nhlfeList : List Nhlfe
  bestNhlfe : Option Nat
  numEcmp : Nat
  scheduled : Bool
  installed : Bool
  changed : Bool
deriving DecidableEq, Repr

/-- `zebra_snhlfe_t` -/
structure Snhlfe where
  gtype : NexthopType
  gate : GAddr
  ifindex : UInt32
  outLabel : Label
deriving DecidableEq, Repr

/-- `zebra_slsp_t` -/
structure Slsp where
  inLabel : Label
  snhlfeList : List Snhlfe
deriving DecidableEq, Repr

/-- The connected routes that `nhlfe_nexthop_active_ipv4` and `_ipv6` look for, with their
interface, and the interfaces that are operative. -/
structure Rib where
  connected4 : UInt32 → Option UInt32
  connected6 : GAddr → Option UInt32
  operative : UInt32 → Bool

/-- A nexthop as the kernel is told of it.  The interface is only given with `ipv6Ifindex`. -/
structure Hop where
  type : NexthopType
  gate : GAddr
  ifindex : UInt32
deriving DecidableEq, Repr

/-- A path of a label in the kernel. -/
structure Path where
  hop : Hop
  label : Label
deriving DecidableEq, Repr

/-- The default VRF, the queue, and what surrounds them. -/
structure Zvrf where
  lspTable : List Lsp
  slspTable : List Slsp
  queue : List Nat
  next : Nat
  rib : Rib
  kernel : Label → Option (List Path)

/-! ## Reachability -/

/-- `IN6_IS_ADDR_LINKLOCAL` -/
def GAddr.isLinklocal (a : GAddr) : Bool := a.w0 &&& (0xffc00000 : UInt32) = 0xfe800000

/-- A nexthop with the interface that its route is connected to, or inactive. -/
def Nexthop.via (nh : Nexthop) : Option UInt32 → Nexthop
  | some i => { nh with ifindex := i, active := true }
  | none => { nh with active := false }

/-- `nhlfe_nexthop_active` -/
def nexthopActive (rib : Rib) (nh : Nexthop) : Nexthop :=
  match nh.type with
  | .ipv4 => nh.via (rib.connected4 nh.gate.w0)
  | .ipv6 => nh.via (rib.connected6 nh.gate)
  | .ipv6Ifindex =>
    if nh.gate.isLinklocal then { nh with active := rib.operative nh.ifindex }
    else nh.via (rib.connected6 nh.gate)
  | _ => nh

/-! ## Selection -/

/-- The NHLFEs that are looked at for the best path. -/
def Nhlfe.usable (n : Nhlfe) : Bool := !n.deleted && n.nexthop.active

/-- What the first loop of `lsp_select_best_nhlfe` does to an NHLFE. -/
def Nhlfe.refresh (rib : Rib) (n : Nhlfe) : Nhlfe :=
  { n with
    selected := false
    multipath := false
    nexthop := if n.deleted then n.nexthop else nexthopActive rib n.nexthop }

/-- The best path so far. -/
def better (best : Option Nhlfe) (n : Nhlfe) : Option Nhlfe :=
  if n.usable then
    match best with
    | none => some n
    | some b => if n.distance < b.distance then some n else some b
  else best

def bestOf (l : List Nhlfe) : Option Nhlfe := l.foldl better none

/-- What the second loop does to an NHLFE: mark it if it is as good as the best. -/
def Nhlfe.mark (distance : UInt8) (n : Nhlfe) : Nhlfe :=
  if n.usable && n.distance == distance then { n with selected := true, multipath := true } else n

/-- The kernel has to hear of this NHLFE. -/
def Nhlfe.differs (n : Nhlfe) : Bool :=
  (n.selected && !n.installed) || (n.selected && n.installed && n.changed) ||
    (n.installed && !n.selected)

def lspSelectBestNhlfe (rib : Rib) (lsp : Lsp) : Lsp :=
  let l := lsp.nhlfeList.map (·.refresh rib)
  match bestOf l with
  | none => { lsp with nhlfeList := l, bestNhlfe := none, numEcmp := 0, changed := false }
  | some best =>
    let l := l.map (·.mark best.distance)
    { lsp with
      nhlfeList := l.map fun n => { n with changed := false }
      bestNhlfe := some best.id
      numEcmp := l.countP (·.selected)
      changed := lsp.installed && l.any (·.differs) }

/-! ## The kernel -/

/-- The part of a gateway that its type uses. -/
def hopOf (type : NexthopType) (gate : GAddr) (ifindex : UInt32) : Hop :=
  match type with
  | .ipv4 => ⟨.ipv4, ⟨gate.w0, 0, 0, 0⟩, 0⟩
  | .ipv6 => ⟨.ipv6, gate, 0⟩
  | .ipv6Ifindex => ⟨.ipv6Ifindex, gate, ifindex⟩
  | t => ⟨t, ⟨0, 0, 0, 0⟩, 0⟩

def Nexthop.hop (nh : Nexthop) : Hop := hopOf nh.type nh.gate nh.ifindex

def Gateway.hop (g : Gateway) : Hop := hopOf g.gtype g.gate g.ifindex

/-- The path that is built for a nexthop. -/
def Nexthop.path (nh : Nexthop) : Path := ⟨nh.hop, nh.label⟩

/-- The paths of an `RTM_NEWROUTE`. -/
def Nhlfe.toAdd (n : Nhlfe) : Bool := n.selected && n.nexthop.active

/-- The paths of an `RTM_DELROUTE`. -/
def Nhlfe.toDelete (n : Nhlfe) : Bool := n.installed && n.nexthop.fib

def Nhlfe.setInstalled (b : Bool) (n : Nhlfe) : Nhlfe :=
  { n with installed := b, nexthop := { n.nexthop with fib := b } }

/-- Apply `f` to the first `limit` members that meet `p`. -/
def onFirst {α : Type} (p : α → Bool) (f : α → α) : Nat → List α → List α
  | _, [] => []
  | 0, l => l
  | limit + 1, x :: l => if p x then f x :: onFirst p f limit l else x :: onFirst p f (limit + 1) l

/-- The number of paths that a request may have; `MULTIPATH_NUM` zero is no limit. -/
def pathLimit (multipathNum : Nat) (l : List Nhlfe) : Nat :=
  if multipathNum = 0 then l.length else multipathNum

section

variable (multipathNum : Nat)

/-- `netlink_mpls_multipath` with `RTM_NEWROUTE`: the NHLFEs afterwards, and the paths of the
request, if one is made. -/
def netlinkAdd (l : List Nhlfe) : List Nhlfe × Option (List Path) :=
  if l.any (·.toAdd) then
    (onFirst (·.toAdd) (·.setInstalled true) (pathLimit multipathNum l) l,
      some (((l.filter (·.toAdd)).take (pathLimit multipathNum l)).map (·.nexthop.path)))
  else (l, none)

/-- `netlink_mpls_multipath` with `RTM_DELROUTE`: the NHLFEs afterwards, and whether a request
is made. -/
def netlinkDel (l : List Nhlfe) : List Nhlfe × Bool :=
  if l.any (·.toDelete) then
    (onFirst (·.toDelete) (·.setInstalled false) (pathLimit multipathNum l) l, true)
  else (l, false)

/-- The kernel's table with the entry of one label set. -/
def setKernel (kernel : Label → Option (List Path)) (label : Label) (entry : Option (List Path)) :
    Label → Option (List Path) :=
  fun l => if l = label then entry else kernel l

/-- The outcome of the netlink requests of one run of `lsp_process`. -/
structure Netlink where
  addOk : Bool
  delOk : Bool
deriving DecidableEq, Repr

/-- The `RTM_DELROUTE` of an LSP, after which it counts as not installed. -/
def kernelDel (nl : Netlink) (lsp : Lsp) (kernel : Label → Option (List Path)) :
    Lsp × (Label → Option (List Path)) :=
  let r := netlinkDel multipathNum lsp.nhlfeList
  ({ lsp with nhlfeList := r.1, installed := false },
    if r.2 && nl.delOk then setKernel kernel lsp.inLabel none else kernel)

/-- `kernel_add_lsp`, for an LSP with a best NHLFE. -/
def kernelAddLsp (nl : Netlink) (lsp : Lsp) (kernel : Label → Option (List Path)) :
    Lsp × (Label → Option (List Path)) :=
  let r := netlinkAdd multipathNum lsp.nhlfeList
  let lsp := { lsp with changed := false }
  match r.2 with
  | none => ({ lsp with nhlfeList := r.1, installed := true }, kernel)
  | some paths =>
    if nl.addOk then
      ({ lsp with nhlfeList := r.1, installed := true }, setKernel kernel lsp.inLabel (some paths))
    else
      -- `clear_nhlfe_installed`
      ({ lsp with nhlfeList := r.1.map (·.setInstalled false) }, kernel)

/-- `kernel_upd_lsp`, for an LSP with a best NHLFE. -/
def kernelUpdLsp (nl : Netlink) (lsp : Lsp) (kernel : Label → Option (List Path)) :
    Lsp × (Label → Option (List Path)) :=
  let r := kernelDel multipathNum nl lsp kernel
  kernelAddLsp multipathNum nl r.1 r.2

def lspProcess (nl : Netlink) (rib : Rib) (lsp : Lsp) (kernel : Label → Option (List Path)) :
    Lsp × (Label → Option (List Path)) :=
  let lsp := lspSelectBestNhlfe rib lsp
  if lsp.installed then
    if lsp.bestNhlfe.isNone then kernelDel multipathNum nl lsp kernel
    else if lsp.changed then kernelUpdLsp multipathNum nl lsp kernel
    else (lsp, kernel)
  else if lsp.bestNhlfe.isSome then kernelAddLsp multipathNum nl lsp kernel
  else (lsp, kernel)

end

/-! ## Table and queue -/

def Zvrf.findLsp (s : Zvrf) (inLabel : Label) : Option Lsp :=
  s.lspTable.find? (·.inLabel == inLabel)

/-- Write an entry back, or release it if there is none. -/
def Zvrf.putLsp (s : Zvrf) (id : Nat) (lsp : Option Lsp) : Zvrf :=
  { s with lspTable := Keyed.replace (·.id) id lsp s.lspTable }

/-- `lsp_processq_add`: the entry, and the queue. -/
def lspProcessqAdd (lsp : Lsp) (queue : List Nat) : Lsp × List Nat :=
  if lsp.scheduled then (lsp, queue) else ({ lsp with scheduled := true }, queue ++ [lsp.id])

/-- An entry changed and put into the queue. -/
def Zvrf.schedule (s : Zvrf) (lsp : Lsp) : Zvrf :=
  let r := lspProcessqAdd lsp s.queue
  { s.putLsp lsp.id (some r.1) with queue := r.2 }

/-- An entry changed, which is released if it has no NHLFE left and is not scheduled. -/
def Zvrf.keep (s : Zvrf) (lsp : Lsp) : Zvrf :=
  s.putLsp lsp.id (if lsp.nhlfeList = [] ∧ ¬lsp.scheduled then none else some lsp)

def lspProcessqDel (lsp : Lsp) : Lsp :=
  { lsp with scheduled := false, nhlfeList := lsp.nhlfeList.filter (!·.deleted) }

/-- `nhlfe_nhop_match` and the type. -/
def Nhlfe.isFor (type : LspType) (g : Gateway) (n : Nhlfe) : Bool :=
  n.type == type && hopMatch n.nexthop.type n.nexthop.gate n.nexthop.ifindex g

def nhlfeFind (lsp : Lsp) (type : LspType) (g : Gateway) : Option Nhlfe :=
  lsp.nhlfeList.find? (·.isFor type g)

def Lsp.setNhlfe (lsp : Lsp) (id : Nat) (f : Nhlfe → Nhlfe) : Lsp :=
  { lsp with nhlfeList := lsp.nhlfeList.map fun n => if n.id = id then f n else n }

def Lsp.nhlfeDel (lsp : Lsp) (id : Nat) : Lsp :=
  { lsp with nhlfeList := lsp.nhlfeList.filter (·.id ≠ id) }

/-- The NHLFE that `nhlfe_add` allocates. -/
def newNhlfe (id : Nat) (type : LspType) (gtype : NexthopType) (gate : GAddr × UInt32)
    (outLabel : Label) : Nhlfe :=
  { id := id, type := type
    nexthop :=
      { type := gtype, gate := gate.1, ifindex := gate.2, label := outLabel
        active := false, fib := false }
    distance := lspDistance type
    changed := true, selected := false, multipath := false, deleted := false, installed := false }

def lspAlloc (id : Nat) (inLabel : Label) : Lsp :=
  { id := id, inLabel := inLabel, nhlfeList := [], bestNhlfe := none, numEcmp := 0
    scheduled := false, installed := false, changed := false }

/-- `hash_get` with `lsp_alloc`. -/
def Zvrf.getLsp (s : Zvrf) (inLabel : Label) : Lsp × Zvrf :=
  match s.findLsp inLabel with
  | some lsp => (lsp, s)
  | none =>
    let lsp := lspAlloc s.next inLabel
    (lsp, { s with lspTable := s.lspTable ++ [lsp], next := s.next + 1 })

/-- An NHLFE is installed again with the label it has. -/
def Nhlfe.undelete (n : Nhlfe) : Nhlfe := { n with deleted := false }

/-- An NHLFE is installed again with another label. -/
def Nhlfe.relabel (outLabel : Label) (n : Nhlfe) : Nhlfe :=
  { n with deleted := false, changed := true, nexthop := { n.nexthop with label := outLabel } }

/-- `mpls_lsp_install`; an address is set aside for an NHLFE that is added. -/
def mplsLspInstall (s : Zvrf) (type : LspType) (inLabel outLabel : Label) (g : Gateway) : Zvrf :=
  let (lsp, s) := s.getLsp inLabel
  let id := s.next
  let s := { s with next := id + 1 }
  match nhlfeFind lsp type g with
  | some n =>
    if n.nexthop.label = outLabel then s.putLsp lsp.id (some (lsp.setNhlfe n.id (·.undelete)))
    else s.schedule (lsp.setNhlfe n.id (·.relabel outLabel))
  | none =>
    match storedGateway g with
    | none => s
    | some gate =>
      s.schedule { lsp with nhlfeList := newNhlfe id type g.gtype gate outLabel :: lsp.nhlfeList }

/-- An installed NHLFE is marked for deletion. -/
def Nhlfe.markDeleted (n : Nhlfe) : Nhlfe := { n with changed := false, deleted := true }

def mplsLspUninstall (s : Zvrf) (type : LspType) (inLabel : Label) (g : Gateway) : Zvrf :=
  match s.findLsp inLabel with
  | none => s
  | some lsp =>
    match nhlfeFind lsp type g with
    | none => s
    | some n =>
      if n.installed then s.schedule (lsp.setNhlfe n.id (·.markDeleted))
      else s.keep (lsp.nhlfeDel n.id)

/-- The loop of `mpls_lsp_uninstall_all`: NHLFEs of the type are marked or deleted. -/
def uninstallType (type : LspType) (l : List Nhlfe) : List Nhlfe :=
  l.filterMap fun n =>
    if n.type ≠ type then some n else if n.installed then some n.markDeleted else none

/-- `mpls_lsp_uninstall_all`, on an entry that has NHLFEs. -/
def mplsLspUninstallAll (s : Zvrf) (type : LspType) (inLabel : Label) : Zvrf :=
  match s.findLsp inLabel with
  | none => s
  | some lsp =>
    if lsp.nhlfeList = [] then s
    else
      let lsp' := { lsp with nhlfeList := uninstallType type lsp.nhlfeList }
      if lsp.nhlfeList.any fun n => n.type = type && n.installed then s.schedule lsp'
      else s.keep lsp'

def zebraMplsLspSchedule (s : Zvrf) : Zvrf :=
  { s with
    lspTable := s.lspTable.map fun l => { l with scheduled := true }
    queue := s.queue ++ (s.lspTable.filter (!·.scheduled)).map (·.id) }

/-! ## Static configuration -/

/-- `snhlfe_match` -/
def Snhlfe.isFor (g : Gateway) (n : Snhlfe) : Bool := hopMatch n.gtype n.gate n.ifindex g

def snhlfeFind (slsp : Slsp) (g : Gateway) : Option Snhlfe := slsp.snhlfeList.find? (·.isFor g)

def Zvrf.findSlsp (s : Zvrf) (inLabel : Label) : Option Slsp :=
  s.slspTable.find? (·.inLabel == inLabel)

def zebraMplsLspLabelConsistent (s : Zvrf) (inLabel outLabel : Label) (g : Gateway) : Bool :=
  match s.findSlsp inLabel with
  | none => true
  | some slsp =>
    match snhlfeFind slsp g with
    | some n => n.outLabel = outLabel ∨ slsp.snhlfeList.length = 1
    | none =>
      match slsp.snhlfeList.head? with
      | none => true
      | some first => (first.outLabel = mplsImpNullLabel) = (outLabel = mplsImpNullLabel)

def Zvrf.putSlsp (s : Zvrf) (inLabel : Label) (l : List Snhlfe) : Zvrf :=
  { s with slspTable := ⟨inLabel, l⟩ :: s.slspTable.filter (·.inLabel ≠ inLabel) }

/-- Write a static entry back, or release it if it has no NHLFE. -/
def Zvrf.keepSlsp (s : Zvrf) (inLabel : Label) (l : List Snhlfe) : Zvrf :=
  if l = [] then { s with slspTable := s.slspTable.filter (·.inLabel ≠ inLabel) }
  else s.putSlsp inLabel l

/-- The static NHLFEs of an in-label; `slsp_alloc` starts with none. -/
def Zvrf.snhlfes (s : Zvrf) (inLabel : Label) : List Snhlfe :=
  match s.findSlsp inLabel with
  | some slsp => slsp.snhlfeList
  | none => []

def zebraMplsStaticLspAdd (s : Zvrf) (inLabel outLabel : Label) (g : Gateway) : Zvrf :=
  let l := s.snhlfes inLabel
  match l.find? (·.isFor g) with
  | some n =>
    if n.outLabel = outLabel then s
    else
      mplsLspInstall
        (s.putSlsp inLabel (l.map fun m => if m = n then { n with outLabel := outLabel } else m))
        .static inLabel outLabel g
  | none =>
    match storedGateway g with
    | none => s.putSlsp inLabel l
    | some gate =>
      mplsLspInstall (s.putSlsp inLabel (⟨g.gtype, gate.1, gate.2, outLabel⟩ :: l))
        .static inLabel outLabel g

/-- `zebra_mpls_static_lsp_del`; the gateway type `blackhole` stands for all NHLFEs. -/
def zebraMplsStaticLspDel (s : Zvrf) (inLabel : Label) (g : Gateway) : Zvrf :=
  match s.findSlsp inLabel with
  | none => s
  | some slsp =>
    if g.gtype = .blackhole then
      (mplsLspUninstallAll s .static inLabel).keepSlsp inLabel []
    else
      match snhlfeFind slsp g with
      | none => s
      | some n =>
        (mplsLspUninstall s .static inLabel g).keepSlsp inLabel (slsp.snhlfeList.erase n)

/-! ## Runs -/

inductive MplsFault
  /-- the queue holds an entry that was freed -/
  | useAfterFree
deriving DecidableEq, Repr

/-- One item of the queue: `lsp_process`, then `lsp_processq_del`. -/
def processItem (multipathNum : Nat) (nl : Netlink) : EStateM MplsFault Zvrf Unit := do
  let s ← get
  match s.queue with
  | [] => pure ()
  | id :: queue =>
    match s.lspTable.find? (·.id == id) with
    | none => throw .useAfterFree
    | some lsp =>
      let r := lspProcess multipathNum nl s.rib lsp s.kernel
      set ({ s with queue := queue, kernel := r.2 }.keep (lspProcessqDel r.1))

/-- What happens to the forwarding table. -/
inductive MplsEvent
  | install (type : LspType) (inLabel outLabel : Label) (g : Gateway)
  | uninstall (type : LspType) (inLabel : Label) (g : Gateway)
  | uninstallAll (type : LspType) (inLabel : Label)
  /-- reachability changes and `zebra_mpls_lsp_schedule` is called -/
  | reachability (rib : Rib)
  | processItem (nl : Netlink)

def mplsStep (multipathNum : Nat) : MplsEvent → EStateM MplsFault Zvrf Unit
  | .install type inLabel outLabel g => modify fun s => mplsLspInstall s type inLabel outLabel g
  | .uninstall type inLabel g => modify fun s => mplsLspUninstall s type inLabel g
  | .uninstallAll type inLabel => modify fun s => mplsLspUninstallAll s type inLabel
  | .reachability rib => modify fun s => zebraMplsLspSchedule { s with rib := rib }
  | .processItem nl => processItem multipathNum nl

/-- What happens to the static configuration and the forwarding table. -/
inductive StaticEvent
  | add (inLabel outLabel : Label) (g : Gateway)
  | del (inLabel : Label) (g : Gateway)
  | other (e : MplsEvent)

/-- The commands of `zebra_mpls_transit_lsp` and what happens besides. -/
def staticStep (multipathNum : Nat) : StaticEvent → EStateM MplsFault Zvrf Unit
  | .add inLabel outLabel g => modify fun s =>
    if zebraMplsLspLabelConsistent s inLabel outLabel g then
      zebraMplsStaticLspAdd s inLabel outLabel g
    else s
  | .del inLabel g => modify fun s => zebraMplsStaticLspDel s inLabel g
  | .other e => mplsStep multipathNum e

/-- No entries, and an empty label table in the kernel. -/
def Zvrf.init (rib : Rib) : Zvrf :=
  { lspTable := [], slspTable := [], queue := [], next := 0, rib := rib, kernel := fun _ => none }

end Mp2mp.Zebra
