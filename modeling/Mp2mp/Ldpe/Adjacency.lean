import Mp2mp.Ldpe.Hello
import Mp2mp.Ldpe.NbrTrees

/-!
# Hello adjacencies

The discovery side of the LDP engine: `recv_hello` of `hello.c`, the adjacencies and
targeted neighbours of `adjacency.c`, and the part of `nbr_new` and `nbr_del` that links
adjacencies to neighbours.

A structure of the source is its address together with the members that never change;
what changes is kept in lists of the state.  The list of an interface is the part of the
global list of adjacencies that is on it, since both are extended at the head.  Sessions
and timers are left out: an inactivity timer may fire at any time.

`adj_find` looks for an adjacency by its source address only.  A hello from an address
that another adjacency has, with another LSR id or on another interface, is accepted
without an adjacency of its own.

* `adjacency_graph`: in a run in which no hello finds the adjacency of another one,
  adjacencies and neighbours are linked both ways, every neighbour has an adjacency of its
  address family, and every hello that is accepted has its adjacency.
-/

namespace Mp2mp.Ldpe

open Kit Ldpd List EStateM Function Stable

variable {addr : LdpdAddr} {id lsrId : InAddr} {scopeId : UInt32} {adj : Adj}
  {r : Option HelloSource} {e : AdjEntry} {tnbr : Tnbr} {t : TnbrRef}

/-! ## Addresses -/

/-- `IN6_IS_SCOPE_EMBED`: link-local, or multicast on a link or an interface. -/
def in6IsScopeEmbed (a : LdpdAddr) : Bool :=
  a.w0 &&& 0xffc00000 == 0xfe800000 || a.w0 &&& 0xff0f0000 == 0xff020000 ||
    a.w0 &&& 0xff0f0000 == 0xff010000

def badAddrV4 (a : InAddr) : Bool :=
  a >>> 24 == 0 || a >>> 24 == 127 || a &&& 0xf0000000 == 0xe0000000 ||
    a &&& 0xf0000000 == 0xf0000000

/-- `bad_addr_v6`: unspecified, loopback, multicast, site-local, v4-mapped or v4-compatible. -/
def badAddrV6 (a : LdpdAddr) : Bool :=
  a == ⟨0, 0, 0, 0⟩ || a == ⟨0, 0, 0, 1⟩ || a.w0 >>> 24 == 0xff ||
    a.w0 &&& 0xffc00000 == 0xfec00000 || (a.w0 == 0 && a.w1 == 0 && a.w2 == 0xffff) ||
    (a.w0 == 0 && a.w1 == 0 && a.w2 == 0 && 1 < a.w3)

def badAddr (af : Af) (a : LdpdAddr) : Bool :=
  match af with
  | .inet => badAddrV4 a.v4
  | .inet6 => badAddrV6 a

/-! ## State -/

structure IfaceAf where
  ifindex : UInt32
  af : Af
deriving DecidableEq, Repr

/-- What never changes of `struct tnbr`. -/
structure TnbrRef where
  ptr : Nat
  af : Af
  addr : LdpdAddr
deriving DecidableEq, Repr

inductive HelloSource
  | link (ia : IfaceAf) (srcAddr : LdpdAddr)
  | targeted (target : TnbrRef)
deriving DecidableEq, Repr

open HelloSource

/-- `adj_get_af` -/
def HelloSource.af : HelloSource → Af
  | .link ia _ => ia.af
  | .targeted target => target.af

/-- The interface of an adjacency on a link. -/
def HelloSource.ia : HelloSource → Option IfaceAf
  | .link ia _ => some ia
  | .targeted _ => none

/-- What never changes of `struct adj`. -/
structure Adj where
  ptr : Nat
  lsrId : InAddr
  source : HelloSource
  transAddr : LdpdAddr
deriving DecidableEq, Repr

/-- An adjacency with its member `nbr`. -/
structure AdjEntry where
  adj : Adj
  nbr : Option NbrNode
deriving DecidableEq, Repr

open AdjEntry

/-- A neighbour with the scope of its address and its list of adjacencies. -/
structure NbrEntry where
  node : NbrNode
  raddrScope : UInt32
  adjList : List Adj
deriving DecidableEq, Repr

/-- `struct tnbr`; the flags are `F_TNBR_CONFIGURED` and `F_TNBR_DYNAMIC`. -/
structure Tnbr where
  ref : TnbrRef
  configured : Bool
  dynamic : Bool
  pwCount : UInt16
  adj : Option Adj
deriving DecidableEq, Repr

/-- The state of the discovery.  `accepted` is where the hello of the last event came from,
and its LSR id, if it was accepted. -/
structure Discovery where
  adjList : List AdjEntry
  nbrs : List NbrEntry
  trees : NbrTrees
  tnbrList : List Tnbr
  next : Nat
  accepted : Option (HelloSource × InAddr)
deriving DecidableEq, Repr

open Discovery

def Discovery.init : Discovery := ⟨[], [], .init, [], 0, none⟩

/-- Why the engine stopped. -/
inductive DiscFault
  | fatalx (fault : NbrFault)
  /-- a list entry is inserted while it is on a list -/
  | listInsert
  | useAfterFree
deriving DecidableEq, Repr

abbrev DiscM := EStateM DiscFault Discovery

def Discovery.adj? (s : Discovery) (a : Adj) : Option AdjEntry := s.adjList.find? (·.adj = a)

def Discovery.nbr? (s : Discovery) (n : NbrNode) : Option NbrEntry := s.nbrs.find? (·.node = n)

def Discovery.tnbr? (s : Discovery) (t : TnbrRef) : Option Tnbr := s.tnbrList.find? (·.ref = t)

def Discovery.modTnbr (t : TnbrRef) (f : Tnbr → Tnbr) (s : Discovery) : Discovery :=
  { s with tnbrList := s.tnbrList.map fun tnbr => if tnbr.ref = t then f tnbr else tnbr }

/-- `nbr_adj_count` -/
def NbrEntry.adjCount (e : NbrEntry) (af : Af) : Nat := e.adjList.countP (·.source.af = af)

/-! ## Adjacencies -/

def adjNew (lsrId : InAddr) (source : HelloSource) (addr : LdpdAddr) : DiscM Adj := do
  let s ← get
  let adj : Adj := ⟨s.next, lsrId, source, addr⟩
  let s := { s with adjList := ⟨adj, none⟩ :: s.adjList, next := s.next + 1 }
  match source with
  | .link .. => set s
  | .targeted target => set (s.modTnbr target fun tnbr => { tnbr with adj := some adj })
  return adj

/-- `adj_del_single`; `LIST_REMOVE` takes the entry off the list that it is on. -/
def adjDelSingle (adj : Adj) (s : Discovery) : Discovery :=
  let nbrs :=
    if ((s.adj? adj).bind AdjEntry.nbr).isSome then
      s.nbrs.map fun e => { e with adjList := e.adjList.erase adj }
    else s.nbrs
  let s := { s with adjList := s.adjList.filter (·.adj ≠ adj), nbrs := nbrs }
  match adj.source with
  | .link .. => s
  | .targeted target => s.modTnbr target fun tnbr => { tnbr with adj := none }

/-- `nbr_del`, as far as adjacencies go -/
def nbrDelAdj (n : NbrNode) (s : Discovery) : Discovery :=
  { s with nbrs := s.nbrs.filter (·.node ≠ n), trees := nbrDelTrees n s.trees }

/-- `adj_del`: a neighbour without an adjacency of its own address family goes, and the
adjacencies that it has left go before it. -/
def adjDel (adj : Adj) : DiscM Unit := do
  match (← get).adj? adj with
  | none => throw .useAfterFree
  | some entry => do
    modify (adjDelSingle adj)
    match entry.nbr with
    | none => pure ()
    | some n =>
      match (← get).nbr? n with
      | none => throw .useAfterFree
      | some e =>
        if e.adjCount n.af = 0 then
          modify fun s => nbrDelAdj n (e.adjList.foldl (fun s a => adjDelSingle a s) s)
        else pure ()

def discard (adj : Option Adj) : DiscM Unit :=
  match adj with
  | none => pure ()
  | some adj => adjDel adj

/-- `adj_find`; an adjacency on a link is found by its source address, compared as one of
the address family of the hello. -/
def HelloSource.finds (source : HelloSource) (adj : Adj) : Bool :=
  match source, adj.source with
  | .link ia srcAddr, .link _ srcAddr' => ldpAddrcmp ia.af srcAddr' srcAddr == .eq
  | .targeted target, .targeted target' => target' == target
  | _, _ => false

def adjFind (source : HelloSource) (s : Discovery) : Option Adj :=
  (s.adjList.find? fun entry => source.finds entry.adj).map AdjEntry.adj

/-! ## Neighbours -/

/-- `nbr_new`, as far as adjacencies go: those with the LSR id are
put on the list, each at the head. -/
def nbrNewAdj (id : InAddr) (af : Af) (addr : LdpdAddr) (scopeId : UInt32) : DiscM Unit := do
  let s ← get
  let node : NbrNode := ⟨s.trees.next, id, af, addr⟩
  let own := s.adjList.filter (·.adj.lsrId = id)
  if own.any (·.nbr.isSome) then throw .listInsert
  else
    match (nbrNewTrees id af addr).run s.trees with
    | .error fault _ => throw (.fatalx fault)
    | .ok _ trees =>
      set { s with
        adjList := s.adjList.map fun (e : AdjEntry) =>
          if e.adj.lsrId = id then { e with nbr := some node } else e
        nbrs := s.nbrs ++ [NbrEntry.mk node scopeId (own.map AdjEntry.adj).reverse]
        trees := trees }

def nbrFindAddr (af : Af) (addr : LdpdAddr) (s : Discovery) : Option NbrNode :=
  RbTree.find (nbrAddrCompare af addr) s.trees.nbrsByAddr

/-- `nbr_find_ldpid`, and the neighbour at the address that it returns. -/
def Discovery.nbrFindLdpid (s : Discovery) (id : InAddr) : Option NbrEntry :=
  (Ldpe.nbrFindLdpid id s.trees).bind s.nbr?

/-- `adj->nbr = nbr` and the insertion that follows it in `recv_hello`. -/
def linkAdj (adj : Adj) (n : NbrNode) (s : Discovery) : Discovery :=
  { s with
    adjList := s.adjList.map fun e => if e.adj = adj then { e with nbr := some n } else e
    nbrs := s.nbrs.map fun e => if e.node = n then { e with adjList := adj :: e.adjList } else e }

/-! ## Targeted neighbours -/

/-- `tnbr_new` with the given flags, and its insertion into `tnbr_list`. -/
def tnbrNew (af : Af) (addr : LdpdAddr) (configured dynamic : Bool) : DiscM TnbrRef := do
  let s ← get
  let ref : TnbrRef := ⟨s.next, af, addr⟩
  set { s with tnbrList := ⟨ref, configured, dynamic, 0, none⟩ :: s.tnbrList, next := s.next + 1 }
  return ref

def tnbrFind (af : Af) (addr : LdpdAddr) (s : Discovery) : Option Tnbr :=
  s.tnbrList.find? fun tnbr => af == tnbr.ref.af && ldpAddrcmp af addr tnbr.ref.addr == .eq

def tnbrDel (tnbr : Tnbr) : DiscM Unit := do
  discard tnbr.adj
  modify fun s => { s with tnbrList := s.tnbrList.filter (·.ref ≠ tnbr.ref) }

/-- `tnbr_check`; the result says whether the targeted neighbour is still there. -/
def tnbrCheck (t : TnbrRef) : DiscM Bool := do
  match (← get).tnbr? t with
  | none => throw .useAfterFree
  | some tnbr =>
    if ¬tnbr.configured ∧ ¬tnbr.dynamic ∧ tnbr.pwCount = 0 then do
      tnbrDel tnbr
      return false
    else return true

/-! ## Hellos -/

/-- A packet of the discovery socket: the interface that was found for it, and whether it
was sent to a multicast address. -/
structure HelloPacket where
  af : Af
  src : LdpdAddr
  ifindex : UInt32
  multicast : Bool
  pkt : List UInt8
deriving DecidableEq, Repr

def minHoldtime : UInt16 := 3

def Hello.targeted (hello : Hello) : Bool := hello.flags &&& fHelloTargeted != 0
def Hello.reqTarg (hello : Hello) : Bool := hello.flags &&& fHelloReqTarg != 0
def Hello.dsTlv (hello : Hello) : Bool := hasFlag hello.opts.tlvsRcvd fHelloTlvRcvdDs

/-- The transport address, which by default is the source address. -/
def Hello.transAddr (hello : Hello) (src : LdpdAddr) : LdpdAddr :=
  if hasFlag hello.opts.tlvsRcvd fHelloTlvRcvdAddr then hello.opts.addr else src

/-- The source of a targeted hello: a targeted neighbour, which may be a new dynamic one.  A
dynamic one goes when the 'R' bit is cleared. -/
def targetedSource (conf : LdpdConf) (p : HelloPacket) (hello : Hello) : DiscM (Option HelloSource) := do
  let create : DiscM (Option HelloSource) := do
    if hello.reqTarg ∧ (conf.afConf p.af).thelloAccept then
      return some (.targeted (← tnbrNew p.af p.src false true))
    else return none
  match tnbrFind p.af p.src (← get) with
  | none => create
  | some tnbr =>
    if tnbr.dynamic ∧ ¬hello.reqTarg then do
      modify fun s => s.modTnbr tnbr.ref fun tnbr => { tnbr with dynamic := false }
      if ← tnbrCheck tnbr.ref then return some (.targeted tnbr.ref) else create
    else return some (.targeted tnbr.ref)

/-- The source of a hello, unless it is discarded. -/
def helloSource (conf : LdpdConf) (p : HelloPacket) (hello : Hello) : DiscM (Option HelloSource) :=
  if hello.targeted then
    if p.af = .inet6 ∧ in6IsScopeEmbed p.src then return none
    else targetedSource conf p hello
  else return some (.link ⟨p.ifindex, p.af⟩ p.src)

/-- The address family that is not `af`. -/
def otherAf : Af → Af
  | .inet => .inet6
  | .inet6 => .inet

/-- A session is started in the address family that is preferred. -/
def preferred (hello : Hello) (af : Af) : Bool :=
  !hello.dsTlv || (hello.opts.transPref == 4 && af == .inet) ||
    (hello.opts.transPref == 6 && af == .inet6)

/-- An adjacency is made, if none was found, and linked to the neighbour that was found. -/
def makeAdj (p : HelloPacket) (hello : Hello) (source : HelloSource) (adj : Option Adj)
    (nbr : Option NbrEntry) : DiscM Unit :=
  match adj with
  | some _ => pure ()
  | none => do
    let adj ← adjNew hello.lsrId source (hello.transAddr p.src)
    match nbr with
    | some e => modify (linkAdj adj e.node)
    | none => pure ()

/-- The end of `recv_hello`. -/
def acceptHello (p : HelloPacket) (hello : Hello) (source : HelloSource) (scopeId : UInt32)
    (adj : Option Adj) (nbr : Option NbrEntry) : DiscM Unit := do
  makeAdj p hello source adj nbr
  if nbr = none ∧ preferred hello p.af then
    nbrNewAdj hello.lsrId p.af (hello.transAddr p.src) scopeId
  modify fun s => { s with accepted := some (source, hello.lsrId) }

/-- `recv_hello` once the source is known. -/
def lookupHello (conf : LdpdConf) (p : HelloPacket) (hello : Hello) (source : HelloSource)
    (scopeId : UInt32) : DiscM Unit := do
  let s ← get
  let adj := adjFind source s
  let nbr := s.nbrFindLdpid hello.lsrId
  let transAddr := hello.transAddr p.src
  if hello.dsTlv ∧ hello.opts.transPref ≠ conf.transPref.code then discard adj
  else if nbr.any (fun e => !hello.dsTlv && 0 < e.adjCount (otherAf p.af)) then pure ()
  else if nbr.any (fun e => e.node.af == p.af &&
      (ldpAddrcmp p.af e.node.raddr transAddr != .eq || e.raddrScope != scopeId)) then discard adj
  else if nbr = none ∧ (nbrFindAddr p.af transAddr s).isSome then discard adj
  else acceptHello p hello source scopeId adj nbr

def recvHello (conf : LdpdConf) (p : HelloPacket) (hello : Hello) : DiscM Unit :=
  let transAddr := hello.transAddr p.src
  let embedded : Bool := p.af = .inet6 ∧ in6IsScopeEmbed transAddr
  if hello.holdtime ≠ 0 ∧ hello.holdtime < minHoldtime then pure ()
  else if p.multicast ∧ hello.targeted then pure ()
  else if ¬p.multicast ∧ ¬hello.targeted then pure ()
  else if badAddr p.af transAddr then pure ()
  else if embedded ∧ hello.targeted then pure ()
  else do
    match ← helloSource conf p hello with
    | none => pure ()
    | some source => lookupHello conf p hello source (if embedded then p.ifindex else 0)

/-- `disc_recv_packet`, once it has found the interface -/
def recvPacket (conf : LdpdConf) (p : HelloPacket) : DiscM Unit :=
  if badAddr p.af p.src then pure ()
  else
    match recvHelloPrms conf p.af p.pkt with
    | none => pure ()
    | some hello => recvHello conf p hello

/-! ## Events -/

def adjItimer (adj : Adj) : DiscM Unit := do
  match adj.source with
  | .link .. => adjDel adj
  | .targeted target =>
    match (← get).tnbr? target with
    | none => throw .useAfterFree
    | some tnbr =>
      if ¬tnbr.configured ∧ tnbr.pwCount = 0 then tnbrDel tnbr
      else do
        modify fun s => s.modTnbr target fun tnbr => { tnbr with adj := none }
        adjDel adj

/-- `if_reset`: the first adjacency that is left on the interface goes, until there is none. -/
def ifReset (ia : IfaceAf) : DiscM Unit := do
  let adjs := ((← get).adjList.map AdjEntry.adj).filter (·.source.ia = some ia)
  adjs.forM fun adj => do
    if ((← get).adj? adj).isSome then adjDel adj else pure ()

def ldpeRemoveDynamicTnbrs (af : Af) : DiscM Unit := do
  let refs := ((← get).tnbrList.map Tnbr.ref).filter (·.af = af)
  refs.forM fun t => do
    modify fun s => s.modTnbr t fun tnbr => { tnbr with dynamic := false }
    let _ ← tnbrCheck t

/-- An adjacency whose timer fires is given by its place in the global list. -/
inductive DiscEvent
  | packet (p : HelloPacket)
  | adjItimer (adj : Nat)
  | ifReset (ia : IfaceAf)
  /-- `merge_tnbrs` finds a targeted neighbour in the new configuration -/
  | tnbrConf (af : Af) (addr : LdpdAddr)
  /-- `merge_tnbrs` does not find one any more -/
  | tnbrUnconf (af : Af) (addr : LdpdAddr)
  /-- `ldpe_l2vpn_pw_init` -/
  | pwInit (af : Af) (addr : LdpdAddr)
  /-- `ldpe_l2vpn_pw_exit` -/
  | pwExit (af : Af) (addr : LdpdAddr)
  | removeDynamicTnbrs (af : Af)
deriving DecidableEq, Repr

/-- Change a targeted neighbour that is there, and check whether it is still needed. -/
def tnbrRelease (af : Af) (addr : LdpdAddr) (f : Tnbr → Tnbr) : DiscM Unit := do
  match tnbrFind af addr (← get) with
  | none => pure ()
  | some tnbr => do
    modify fun s => s.modTnbr tnbr.ref f
    let _ ← tnbrCheck tnbr.ref

/-- Change a targeted neighbour, which is made if it is not there. -/
def tnbrClaim (af : Af) (addr : LdpdAddr) (f : Tnbr → Tnbr) : DiscM Unit := do
  match tnbrFind af addr (← get) with
  | some tnbr => modify fun s => s.modTnbr tnbr.ref f
  | none => do
    let ref ← tnbrNew af addr false false
    modify fun s => s.modTnbr ref f

def discEvent (conf : LdpdConf) : DiscEvent → DiscM Unit
  | .packet p => recvPacket conf p
  | .adjItimer i => do
    match (← get).adjList[i]? with
    | none => pure ()
    | some e => adjItimer e.adj
  | .ifReset ia => ifReset ia
  | .tnbrConf af addr => tnbrClaim af addr fun tnbr => { tnbr with configured := true }
  | .tnbrUnconf af addr => do
    match tnbrFind af addr (← get) with
    | none => pure ()
    | some tnbr =>
      if tnbr.configured then
        tnbrRelease af addr fun tnbr => { tnbr with configured := false }
      else pure ()
  | .pwInit af addr => tnbrClaim af addr fun tnbr => { tnbr with pwCount := tnbr.pwCount + 1 }
  | .pwExit af addr => tnbrRelease af addr fun tnbr => { tnbr with pwCount := tnbr.pwCount - 1 }
  | .removeDynamicTnbrs af => ldpeRemoveDynamicTnbrs af

/-- One event; `accepted` is about this one. -/
def discStep (conf : LdpdConf) (e : DiscEvent) : DiscM Unit := do
  modify fun s => { s with accepted := none }
  discEvent conf e

/-! ## Links -/

/-- Adjacencies and neighbours point to each other, structures are at different addresses, and
the trees hold the neighbours. -/
structure Discovery.Linked (s : Discovery) : Prop where
  nodup : (s.adjList.map AdjEntry.adj).Nodup
  fresh : ∀ e ∈ s.adjList, e.adj.ptr < s.next
  targets : ∀ e ∈ s.adjList, ∀ t, e.adj.source = .targeted t → t.ptr < s.next
  refs : ∀ tnbr ∈ s.tnbrList, tnbr.ref.ptr < s.next
  nodes : s.nbrs.map NbrEntry.node = s.trees.live
  holds : s.trees.Holds
  sorted : s.trees.Sorted
  up : ∀ e ∈ s.adjList, ∀ n, e.nbr = some n →
    e.adj.lsrId = n.id ∧ ∃ m ∈ s.nbrs, m.node = n ∧ e.adj ∈ m.adjList
  down : ∀ m ∈ s.nbrs, ∀ a ∈ m.adjList, ⟨a, some m.node⟩ ∈ s.adjList
  lists : ∀ m ∈ s.nbrs, m.adjList.Nodup

open Discovery.Linked

/-- Every neighbour but one has an adjacency of its address family. -/
def Discovery.Own (s : Discovery) (but : Option NbrNode) : Prop :=
  ∀ m ∈ s.nbrs, some m.node ≠ but → ∃ a ∈ m.adjList, a.source.af = m.node.af

variable {m : NbrEntry} {f : Tnbr → Tnbr} {source : HelloSource}

section

variable {s : Discovery} {a : Adj} {n : NbrNode} {but : Option NbrNode}

namespace Discovery.Linked

theorem entry_eq (h : s.Linked) {e' : AdjEntry} (he : e ∈ s.adjList) (he' : e' ∈ s.adjList)
    (heq : e.adj = e'.adj) : e = e' :=
  inj_on_of_nodup_map h.nodup he he' heq

theorem nbr_eq (h : s.Linked) {m' : NbrEntry} (hm : m ∈ s.nbrs) (hm' : m' ∈ s.nbrs)
    (heq : m.node = m'.node) : m = m' :=
  inj_on_of_nodup_map (h.nodes ▸ h.holds.nodup) hm hm' heq

/-- An adjacency is on the list of the neighbour that it points to and on no other. -/
theorem nbr_of_mem (h : s.Linked) (he : e ∈ s.adjList)
    (hm : m ∈ s.nbrs) (hmem : e.adj ∈ m.adjList) : e.nbr = some m.node := by
  rw [h.entry_eq he (h.down m hm e.adj hmem) rfl]

theorem mem_of_adj? (h : s.adj? adj = some e) : e ∈ s.adjList ∧ e.adj = adj :=
  ⟨mem_of_find?_eq_some h, by simpa using find?_some h⟩

theorem mem_of_nbr? (h : s.nbr? n = some m) : m ∈ s.nbrs ∧ m.node = n :=
  ⟨mem_of_find?_eq_some h, by simpa using find?_some h⟩

end Discovery.Linked

/-! ### One adjacency goes -/

section

variable (adj : Adj) (s : Discovery)

theorem adjDelSingle_adjList : (adjDelSingle adj s).adjList = s.adjList.filter (·.adj ≠ adj) := by
  unfold adjDelSingle
  cases adj.source <;> rfl

theorem adjDelSingle_trees : (adjDelSingle adj s).trees = s.trees := by
  unfold adjDelSingle
  cases adj.source <;> rfl

theorem adjDelSingle_next : (adjDelSingle adj s).next = s.next := by
  unfold adjDelSingle
  cases adj.source <;> rfl

theorem adjDelSingle_accepted : (adjDelSingle adj s).accepted = s.accepted := by
  unfold adjDelSingle
  cases adj.source <;> rfl

end

theorem mem_modTnbr (hf : ∀ tnbr, (f tnbr).ref = tnbr.ref)
    (h : tnbr ∈ (s.modTnbr t f).tnbrList) :
    ∃ tnbr' ∈ s.tnbrList, tnbr.ref = tnbr'.ref := by
  obtain ⟨tnbr', hmem, rfl⟩ := mem_map.mp h
  refine ⟨tnbr', hmem, ?_⟩
  split
  · exact hf tnbr'
  · rfl

theorem mem_tnbrList_adjDelSingle (h : tnbr ∈ (adjDelSingle adj s).tnbrList) :
    ∃ tnbr' ∈ s.tnbrList, tnbr.ref = tnbr'.ref := by
  unfold adjDelSingle at h
  cases hsource : adj.source with
  | link ia srcAddr =>
    rw [hsource] at h
    exact ⟨tnbr, h, rfl⟩
  | targeted t =>
    rw [hsource] at h
    refine mem_modTnbr (s := { s with nbrs := _, adjList := _ }) ?_ h
    exact fun _ => rfl

namespace Discovery.Linked

theorem nbrs_adjDelSingle (h : s.Linked) (adj : Adj) :
    (adjDelSingle adj s).nbrs = s.nbrs.map fun m => { m with adjList := m.adjList.erase adj } := by
  have hnbrs : (Ldpe.adjDelSingle adj s).nbrs =
      if ((s.adj? adj).bind nbr).isSome then
        s.nbrs.map fun m => { m with adjList := m.adjList.erase adj }
      else s.nbrs := by
    unfold Ldpe.adjDelSingle
    cases adj.source <;> rfl
  rw [hnbrs]
  split
  · rfl
  rename_i hnone
  have hsame : ∀ m ∈ s.nbrs, { m with adjList := m.adjList.erase adj } = m := by
    intro m hm
    have hnot : adj ∉ m.adjList := by
      intro hmem
      have hdown := h.down m hm adj hmem
      cases hfind : s.adj? adj with
      | none => exact absurd (find?_eq_none.mp hfind _ hdown) (by simp)
      | some e =>
        obtain ⟨he, heq⟩ := mem_of_adj? hfind
        rw [hfind, Option.bind_some, h.entry_eq he hdown heq] at hnone
        exact hnone rfl
    rw [erase_of_not_mem hnot]
  exact ((map_congr_left hsame).trans (map_id _)).symm

theorem adjDelSingle (h : s.Linked) (adj : Adj) : (adjDelSingle adj s).Linked := by
  have hsub : ∀ e ∈ (Ldpe.adjDelSingle adj s).adjList, e ∈ s.adjList ∧ e.adj ≠ adj := by
    intro e he
    rw [adjDelSingle_adjList, mem_filter] at he
    exact ⟨he.1, by simpa using he.2⟩
  have hnbrs := h.nbrs_adjDelSingle adj
  refine ⟨?_, fun e he => ?_, fun e he => ?_, fun tnbr htnbr => ?_, ?_, ?_, ?_, fun e he n hn => ?_,
    fun m hm a ha => ?_, fun m hm => ?_⟩
  · rw [adjDelSingle_adjList]
    exact h.nodup.sublist (filter_sublist.map _)
  · rw [adjDelSingle_next]
    exact h.fresh e (hsub e he).1
  · rw [adjDelSingle_next]
    exact h.targets e (hsub e he).1
  · obtain ⟨tnbr', hmem, href⟩ := mem_tnbrList_adjDelSingle htnbr
    rw [adjDelSingle_next, href]
    exact h.refs tnbr' hmem
  · rw [adjDelSingle_trees, hnbrs, ← h.nodes, map_map]
    rfl
  · rw [adjDelSingle_trees]
    exact h.holds
  · rw [adjDelSingle_trees]
    exact h.sorted
  · obtain ⟨hmem, hne⟩ := hsub e he
    obtain ⟨hid, m, hm, hnode, hlist⟩ := h.up e hmem n hn
    rw [hnbrs]
    exact ⟨hid, _, mem_map_of_mem hm, hnode, (mem_erase_of_ne hne).mpr hlist⟩
  · rw [hnbrs] at hm
    obtain ⟨m₀, hm₀, rfl⟩ := mem_map.mp hm
    obtain ⟨hne, hmem⟩ := ((h.lists m₀ hm₀).mem_erase_iff).mp ha
    rw [adjDelSingle_adjList, mem_filter]
    exact ⟨h.down m₀ hm₀ a hmem, by simpa using hne⟩
  · rw [hnbrs] at hm
    obtain ⟨m₀, hm₀, rfl⟩ := mem_map.mp hm
    exact (h.lists m₀ hm₀).erase adj

theorem own_adjDelSingle (h : s.Linked) (hown : s.Own but)
    (hapart : ∀ m ∈ s.nbrs, some m.node ≠ but → adj ∉ m.adjList) :
    (Ldpe.adjDelSingle adj s).Own but := by
  intro m hm hne
  rw [h.nbrs_adjDelSingle adj] at hm
  obtain ⟨m₀, hm₀, rfl⟩ := mem_map.mp hm
  obtain ⟨a, ha, haf⟩ := hown m₀ hm₀ hne
  refine ⟨a, ?_, haf⟩
  show a ∈ m₀.adjList.erase adj
  rwa [erase_of_not_mem (hapart m₀ hm₀ hne)]

/-! ### A neighbour goes -/

theorem foldl_adjDelSingle {adjs : List Adj} (h : s.Linked) (hown : s.Own (some n))
    (hapart : ∀ a ∈ adjs, ∀ m ∈ s.nbrs, some m.node ≠ some n → a ∉ m.adjList) :
    (adjs.foldl (fun s a => Ldpe.adjDelSingle a s) s).Linked ∧
      (adjs.foldl (fun s a => Ldpe.adjDelSingle a s) s).Own (some n) ∧
      (adjs.foldl (fun s a => Ldpe.adjDelSingle a s) s).accepted = s.accepted ∧
      ∀ e ∈ (adjs.foldl (fun s a => Ldpe.adjDelSingle a s) s).adjList,
        e ∈ s.adjList ∧ e.adj ∉ adjs := by
  induction adjs generalizing s with
  | nil => exact ⟨h, hown, rfl, fun e he => ⟨he, not_mem_nil⟩⟩
  | cons adj adjs ih =>
    have hown' := h.own_adjDelSingle hown (hapart adj mem_cons_self)
    obtain ⟨hlinked, hown'', haccepted, hrest⟩ := ih (h.adjDelSingle adj) hown' (by
      intro a ha m hm hne
      rw [h.nbrs_adjDelSingle adj] at hm
      obtain ⟨m₀, hm₀, rfl⟩ := mem_map.mp hm
      exact fun hmem => hapart a (mem_cons_of_mem _ ha) m₀ hm₀ hne (mem_of_mem_erase hmem))
    refine ⟨hlinked, hown'', haccepted.trans (adjDelSingle_accepted adj s), fun e he => ?_⟩
    obtain ⟨hmem, hnot⟩ := hrest e he
    rw [adjDelSingle_adjList, mem_filter] at hmem
    refine ⟨hmem.1, fun hcons => ?_⟩
    rcases mem_cons.mp hcons with heq | hmem'
    · simp [heq] at hmem
    · exact hnot hmem'

theorem nbrDelAdj (h : s.Linked) (hfree : ∀ e ∈ s.adjList, e.nbr ≠ some n) : (nbrDelAdj n s).Linked := by
  have hsub : ∀ m ∈ (Ldpe.nbrDelAdj n s).nbrs, m ∈ s.nbrs ∧ m.node ≠ n := by
    intro m hm
    obtain ⟨hm, hne⟩ := mem_filter.mp hm
    exact ⟨hm, by simpa using hne⟩
  refine ⟨h.nodup, h.fresh, h.targets, h.refs, ?_, h.holds.nbrDelTrees n,
    h.sorted.nbrDelTrees h.holds n, fun e he n' hn' => ?_, fun m hm => h.down m (hsub m hm).1,
    fun m hm => h.lists m (hsub m hm).1⟩
  · show (s.nbrs.filter (·.node ≠ n)).map NbrEntry.node = s.trees.live.erase n
    rw [h.holds.nodup.erase_eq_filter, ← h.nodes, filter_map]
    congr 1
    refine filter_congr fun m _ => ?_
    simp only [comp_apply, bne, Bool.beq_eq_decide_eq, decide_not]
  · obtain ⟨hid, m, hm, hnode, hmem⟩ := h.up e he n' hn'
    refine ⟨hid, m, mem_filter.mpr ⟨hm, ?_⟩, hnode, hmem⟩
    have hne : n' ≠ n := fun heq => hfree e he (heq ▸ hn')
    simpa [hnode] using hne

theorem own_nbrDelAdj (hown : s.Own (some n)) : (Ldpe.nbrDelAdj n s).Own none := by
  intro m hm _
  obtain ⟨hm, hne⟩ := mem_filter.mp hm
  have hne : m.node ≠ n := by simpa using hne
  exact hown m hm fun heq => hne (Option.some.inj heq)

end Discovery.Linked

/-- The links are as they should be, and every neighbour has an adjacency of its family. -/
structure Discovery.Wf (s : Discovery) : Prop where
  linked : s.Linked
  own : s.Own none

/-- In the middle of an event: no hello has been accepted yet. -/
structure Discovery.Busy (s : Discovery) : Prop extends s.Wf where
  accepted : s.accepted = none

theorem adjDel_busy {adj : Adj} : Stable Discovery.Busy (adjDel adj) := by
  refine ⟨fun s hs => ?_⟩
  have h := hs.linked
  unfold adjDel
  rw [run_get_bind]
  cases hfind : s.adj? adj with
  | none => exact trivial
  | some entry =>
    obtain ⟨hentry, rfl⟩ := mem_of_adj? hfind
    have hlinked := h.adjDelSingle entry.adj
    have haccepted := (adjDelSingle_accepted entry.adj s).trans hs.accepted
    -- it is on the list of its own neighbour only
    have hapart : ∀ m ∈ s.nbrs, some m.node ≠ entry.nbr → entry.adj ∉ m.adjList :=
      fun m hm hne hmem => hne (h.nbr_of_mem hentry hm hmem).symm
    rw [run_bind, run_modify]
    dsimp only
    cases hnbr : entry.nbr with
    | none =>
      refine ⟨⟨hlinked, h.own_adjDelSingle hs.own fun m hm _ => hapart m hm ?_⟩, haccepted⟩
      rw [hnbr]
      exact Option.some_ne_none _
    | some n =>
      rw [hnbr] at hapart
      have hown := h.own_adjDelSingle (fun m hm _ => hs.own m hm (Option.some_ne_none _)) hapart
      dsimp only
      rw [run_get_bind]
      generalize adjDelSingle entry.adj s = s₁ at hlinked haccepted hown
      cases he : s₁.nbr? n with
      | none => exact trivial
      | some e =>
        obtain ⟨hmem, rfl⟩ := mem_of_nbr? he
        by_cases hcount : e.adjCount e.node.af = 0
        · simp only [if_pos hcount, run_modify]
          obtain ⟨hlinked', hown', haccepted', hleft⟩ :=
            hlinked.foldl_adjDelSingle hown fun a ha m hm hne hmem' => by
              have hnode := hlinked.nbr_of_mem (hlinked.down e hmem a ha) hm hmem'
              exact hne hnode.symm
          refine ⟨⟨hlinked'.nbrDelAdj fun x hx hxn => ?_, own_nbrDelAdj hown'⟩,
            haccepted'.trans haccepted⟩
          -- what still pointed to the neighbour would be on its list
          obtain ⟨hx, hnot⟩ := hleft x hx
          obtain ⟨-, m, hm, hnode, hlist⟩ := hlinked.up x hx e.node hxn
          rw [hlinked.nbr_eq hm hmem hnode] at hlist
          exact hnot hlist
        · simp only [if_neg hcount, run_pure]
          refine ⟨⟨hlinked, fun m hm _ => ?_⟩, haccepted⟩
          by_cases hnode : m.node = e.node
          · rw [hlinked.nbr_eq hm hmem hnode]
            obtain ⟨a, ha, haf⟩ := countP_pos_iff.mp (Nat.pos_of_ne_zero hcount)
            exact ⟨a, ha, by simpa using haf⟩
          · exact hown m hm fun heq => hnode (Option.some.inj heq)

/-! ### A new adjacency -/

/-- The state that `adj_new` leaves, as far as adjacencies and neighbours go. -/
theorem Discovery.Linked.cons (h : s.Linked) (lsrId : InAddr)
    (addr : LdpdAddr) (hsource : ∀ t, source = .targeted t → t.ptr < s.next) :
    Discovery.Linked { s with
      adjList := ⟨⟨s.next, lsrId, source, addr⟩, none⟩ :: s.adjList, next := s.next + 1 } := by
  refine ⟨nodup_cons.mpr ⟨fun hmem => ?_, h.nodup⟩, fun e he => ?_, fun e he t ht => ?_,
    fun tnbr htnbr => (h.refs tnbr htnbr).trans (lt_add_one _), h.nodes, h.holds, h.sorted,
    fun e he n hn => ?_, fun m hm a ha => mem_cons_of_mem _ (h.down m hm a ha), h.lists⟩
  · obtain ⟨e, he, heq⟩ := mem_map.mp hmem
    exact absurd (heq ▸ h.fresh e he) (lt_irrefl _)
  · rcases mem_cons.mp he with rfl | he
    · exact lt_add_one _
    · exact (h.fresh e he).trans (lt_add_one _)
  · rcases mem_cons.mp he with rfl | he
    · exact (hsource t ht).trans (lt_add_one _)
    · exact (h.targets e he t ht).trans (lt_add_one _)
  · rcases mem_cons.mp he with rfl | he
    · cases hn
    · exact h.up e he n hn

theorem Discovery.Linked.modTnbr (h : s.Linked) (t : TnbrRef)
    (hf : ∀ tnbr, (f tnbr).ref = tnbr.ref) : (s.modTnbr t f).Linked := by
  refine ⟨h.nodup, h.fresh, h.targets, fun tnbr htnbr => ?_, h.nodes, h.holds, h.sorted, h.up,
    h.down, h.lists⟩
  obtain ⟨tnbr', hmem, href⟩ := mem_modTnbr hf htnbr
  rw [href]
  exact h.refs tnbr' hmem

theorem modTnbr_busy (hf : ∀ tnbr, (f tnbr).ref = tnbr.ref) :
    Stable Discovery.Busy (modify fun s => s.modTnbr t f : DiscM Unit) :=
  .modify fun _ hs => ⟨⟨hs.linked.modTnbr t hf, hs.own⟩, hs.accepted⟩

theorem adjNew_busy {s s' : Discovery}
    (hs : s.Busy) (hsource : ∀ t, source = .targeted t → t.ptr < s.next)
    (hrun : (adjNew lsrId source addr).run s = .ok adj s') :
    s'.Busy ∧ ⟨adj, none⟩ ∈ s'.adjList ∧ adj.lsrId = lsrId ∧ adj.source = source ∧
      s'.nbrs = s.nbrs ∧ s'.trees = s.trees := by
  have hcons := hs.linked.cons lsrId addr hsource
  unfold adjNew at hrun
  rw [run_bind, run_get] at hrun
  cases source with
  | link ia srcAddr =>
    cases hrun
    exact ⟨⟨⟨hcons, hs.own⟩, hs.accepted⟩, mem_cons_self, rfl, rfl, rfl, rfl⟩
  | targeted t =>
    cases hrun
    exact ⟨⟨⟨hcons.modTnbr t fun _ => rfl, hs.own⟩, hs.accepted⟩, mem_cons_self, rfl, rfl, rfl, rfl⟩

/-- What an update leaves as it was. -/
theorem map_updated {α β : Type} {f : α → α} {g : α → β} (same : ∀ x, g (f x) = g x) (l : List α) :
    (l.map f).map g = l.map g := by
  rw [map_map]
  exact map_congr_left fun x _ => same x

theorem Discovery.Linked.linkAdj (h : s.Linked) (hadj : ⟨adj, none⟩ ∈ s.adjList)
    (hid : adj.lsrId = n.id) (hm : m ∈ s.nbrs) (hnode : m.node = n) :
    (linkAdj adj n s).Linked := by
  have hentry : ∀ e ∈ s.adjList, e.adj = adj → e.nbr = none := fun e he heq => by
    rw [h.entry_eq he hadj heq]
  have hnot : ∀ m ∈ s.nbrs, adj ∉ m.adjList := fun m hm hmem => by
    have hnone := hentry _ (h.down m hm adj hmem) rfl
    cases hnone
  refine ⟨?_, fun e he => ?_, fun e he => ?_, h.refs, ?_, h.holds, h.sorted, fun e he n' hn' => ?_,
    fun m' hm' a ha => ?_, fun m' hm' => ?_⟩
  · rw [Ldpe.linkAdj, map_updated fun e => by split <;> rfl]
    exact h.nodup
  · obtain ⟨e₀, he₀, rfl⟩ := mem_map.mp he
    have hfresh := h.fresh e₀ he₀
    split <;> exact hfresh
  · obtain ⟨e₀, he₀, rfl⟩ := mem_map.mp he
    have htargets := h.targets e₀ he₀
    split <;> exact htargets
  · show (s.nbrs.map _).map NbrEntry.node = s.trees.live
    rw [← h.nodes, map_updated fun m => by split <;> rfl]
  · obtain ⟨e₀, he₀, rfl⟩ := mem_map.mp he
    split at hn'
    · rename_i heq
      rw [if_pos heq]
      cases hn'
      refine ⟨heq ▸ hid, _, mem_map_of_mem hm, ?_, ?_⟩
      · rw [if_pos hnode]
        exact hnode
      · rw [if_pos hnode]
        exact heq ▸ mem_cons_self
    · rename_i hne
      rw [if_neg hne]
      obtain ⟨hid', m₀, hm₀, hnode₀, hlist⟩ := h.up e₀ he₀ n' hn'
      refine ⟨hid', _, mem_map_of_mem hm₀, ?_, ?_⟩
      · split <;> exact hnode₀
      · split
        · exact mem_cons_of_mem _ hlist
        · exact hlist
  · obtain ⟨m₀, hm₀, rfl⟩ := mem_map.mp hm'
    have hold (b : Adj) (hb : b ∈ m₀.adjList) : ⟨b, some m₀.node⟩ ∈ (Ldpe.linkAdj adj n s).adjList := by
      have hne : b ≠ adj := fun heq => hnot m₀ hm₀ (heq ▸ hb)
      refine mem_map.mpr ⟨_, h.down m₀ hm₀ b hb, ?_⟩
      rw [if_neg hne]
    split at ha
    · rename_i heq
      rw [if_pos heq]
      rcases mem_cons.mp ha with rfl | ha
      · refine mem_map.mpr ⟨_, hadj, ?_⟩
        rw [if_pos rfl, heq]
      · exact hold a ha
    · rename_i hne
      rw [if_neg hne]
      exact hold a ha
  · obtain ⟨m₀, hm₀, rfl⟩ := mem_map.mp hm'
    split
    · exact nodup_cons.mpr ⟨hnot m₀ hm₀, h.lists m₀ hm₀⟩
    · exact h.lists m₀ hm₀

theorem Discovery.Own.linkAdj (h : s.Own but) (adj : Adj) (n : NbrNode) :
    (linkAdj adj n s).Own but := by
  intro m hm hne
  obtain ⟨m₀, hm₀, rfl⟩ := mem_map.mp hm
  split at hne
  · rename_i heq
    rw [if_pos heq]
    obtain ⟨a, ha, haf⟩ := h m₀ hm₀ hne
    exact ⟨a, mem_cons_of_mem _ ha, haf⟩
  · rename_i heq
    rw [if_neg heq]
    exact h m₀ hm₀ hne

/-- An adjacency that is linked has the LSR id of a neighbour. -/
theorem Discovery.Linked.lsrId_ne {s : Discovery} (h : s.Linked)
    (hnew : ∀ n ∈ s.trees.live, n.id ≠ id) {e : AdjEntry} (he : e ∈ s.adjList) {n : NbrNode}
    (hn : e.nbr = some n) : e.adj.lsrId ≠ id := by
  intro heq
  obtain ⟨hid, m, hm, rfl, -⟩ := h.up e he n hn
  exact hnew m.node (h.nodes ▸ mem_map_of_mem hm) (hid.symm.trans heq)

/-- For an id without a neighbour, `nbr_new` inserts no adjacency that is on a list. -/
theorem nbrNewAdj_inserts {s : Discovery} {af : Af} (h : s.Linked)
    (hnew : ∀ n ∈ s.trees.live, n.id ≠ id) :
    fault (nbrNewAdj id af addr scopeId) s ≠ some .listInsert := by
  intro hfault
  obtain ⟨s', hrun⟩ := fault_eq_some.mp hfault
  unfold nbrNewAdj at hrun
  rw [run_get_bind] at hrun
  dsimp only at hrun
  split at hrun
  · rename_i hlinked
    obtain ⟨e, he, hnbr⟩ := any_eq_true.mp hlinked
    obtain ⟨n, hn⟩ := Option.isSome_iff_exists.mp hnbr
    have hid := (mem_filter.mp he).2
    exact h.lsrId_ne hnew (mem_filter.mp he).1 hn (by simpa using hid)
  · split at hrun <;> cases hrun

theorem nbrNewAdj_busy {af : Af}
    {s s' : Discovery} (hs : s.Busy) (hnew : ∀ n ∈ s.trees.live, n.id ≠ id)
    (hordered : Ordered (id :: s.trees.live.map NbrNode.id))
    (hadj : ∃ e ∈ s.adjList, e.adj.lsrId = id ∧ e.adj.source.af = af)
    (hrun : (nbrNewAdj id af addr scopeId).run s = .ok () s') :
    s'.Busy ∧ s'.adjList.map AdjEntry.adj = s.adjList.map AdjEntry.adj := by
  have h := hs.linked
  unfold nbrNewAdj at hrun
  rw [run_get_bind] at hrun
  dsimp only at hrun
  split at hrun
  · cases hrun
  split at hrun
  · cases hrun
  rename_i trees htrees
  cases hrun
  have hlive := nbrNewTrees_live htrees
  have hcall : (nbrCall (.nbrNew id af addr)).run s.trees = .ok () trees := htrees
  have hholds := h.holds.step hcall
  have hkeeps : KeepsOrder s.trees (.nbrNew id af addr) := hordered
  have hsorted := h.sorted.step h.holds (by rintro _ _ _ ⟨⟩; exact hnew) hkeeps hcall
  generalize hn : (⟨s.trees.next, id, af, addr⟩ : NbrNode) = node at hlive
  have hid : node.id = id := hn ▸ rfl
  have haf : node.af = af := hn ▸ rfl
  have hadjs : (s.adjList.map fun (e : AdjEntry) => if e.adj.lsrId = id then { e with nbr := some node }
      else e).map adj = s.adjList.map adj :=
    map_updated (fun e => by split <;> rfl) _
  have hlinked : ∀ e ∈ s.adjList, ∀ n, e.nbr = some n → e.adj.lsrId ≠ id :=
    fun e he n hn' => h.lsrId_ne hnew he hn'
  have hown : ∀ a, a ∈ ((s.adjList.filter (·.adj.lsrId = id)).map adj).reverse ↔
      ∃ e ∈ s.adjList, e.adj.lsrId = id ∧ e.adj = a := by
    intro a
    simp only [mem_reverse, mem_map, mem_filter, decide_eq_true_eq, and_assoc]
  refine ⟨⟨⟨⟨?_, fun e he => ?_, fun e he => ?_, h.refs, ?_, hholds, hsorted, fun e he n' hn' => ?_,
    fun m hm a ha => ?_, fun m hm => ?_⟩, fun m hm _ => ?_⟩, hs.accepted⟩, hadjs⟩
  · show (List.map _ (List.map _ s.adjList)).Nodup
    rw [hadjs]
    exact h.nodup
  · obtain ⟨e₀, he₀, rfl⟩ := mem_map.mp he
    have hfresh := h.fresh e₀ he₀
    split <;> exact hfresh
  · obtain ⟨e₀, he₀, rfl⟩ := mem_map.mp he
    have htargets := h.targets e₀ he₀
    split <;> exact htargets
  · show (s.nbrs ++ [NbrEntry.mk node scopeId _]).map NbrEntry.node = trees.live
    rw [hlive, map_append, h.nodes]
    rfl
  · obtain ⟨e₀, he₀, rfl⟩ := mem_map.mp he
    split at hn'
    · rename_i heq
      rw [if_pos heq]
      cases hn'
      exact ⟨heq.trans hid.symm, _, mem_append_right _ mem_cons_self, rfl,
        (hown _).mpr ⟨e₀, he₀, heq, rfl⟩⟩
    · rename_i hne
      rw [if_neg hne]
      obtain ⟨hid', m, hm, hnode, hlist⟩ := h.up e₀ he₀ n' hn'
      exact ⟨hid', m, mem_append_left _ hm, hnode, hlist⟩
  · rcases mem_append.mp hm with hm | hm
    · have hdown := h.down m hm a ha
      refine mem_map.mpr ⟨_, hdown, ?_⟩
      rw [if_neg (hlinked _ hdown _ rfl)]
    · obtain rfl := mem_singleton.mp hm
      obtain ⟨e, he, heq, rfl⟩ := (hown a).mp ha
      refine mem_map.mpr ⟨e, he, ?_⟩
      rw [if_pos heq]
  · rcases mem_append.mp hm with hm | hm
    · exact h.lists m hm
    · obtain rfl := mem_singleton.mp hm
      exact nodup_reverse.mpr (h.nodup.sublist (filter_sublist.map _))
  · rcases mem_append.mp hm with hm | hm
    · exact hs.own m hm (Option.some_ne_none _)
    · obtain rfl := mem_singleton.mp hm
      obtain ⟨e, he, heq, hfamily⟩ := hadj
      exact ⟨e.adj, (hown _).mpr ⟨e, he, heq, rfl⟩, hfamily.trans haf.symm⟩

end

/-! ## Events -/

section

variable {s s' : Discovery} {conf : LdpdConf} {p : HelloPacket} {hello : Hello}

theorem tnbrNew_busy {af : Af} {configured dynamic : Bool} {ref : TnbrRef}
    (hs : s.Busy) (hrun : (tnbrNew af addr configured dynamic).run s = .ok ref s') :
    s'.Busy ∧ ref = ⟨s.next, af, addr⟩ ∧ s'.next = s.next + 1 ∧ s'.adjList = s.adjList ∧
      s'.trees = s.trees := by
  have h := hs.linked
  cases hrun
  refine ⟨⟨⟨⟨h.nodup, fun e he => (h.fresh e he).trans (lt_add_one _),
    fun e he t ht => (h.targets e he t ht).trans (lt_add_one _), fun tnbr htnbr => ?_, h.nodes,
    h.holds, h.sorted, h.up, h.down, h.lists⟩, hs.own⟩, hs.accepted⟩, rfl, rfl, rfl, rfl⟩
  rcases mem_cons.mp htnbr with rfl | htnbr
  · exact lt_add_one _
  · exact (h.refs tnbr htnbr).trans (lt_add_one _)

theorem discard_busy {adj : Option Adj} : Stable Discovery.Busy (discard adj) := by
  cases adj with
  | none => exact .pure _
  | some adj => exact adjDel_busy

theorem tnbrDel_busy : Stable Discovery.Busy (tnbrDel tnbr) := by
  refine .bind discard_busy fun _ => .modify fun s hs => ?_
  have h := hs.linked
  exact ⟨⟨⟨h.nodup, h.fresh, h.targets, fun t ht => h.refs t (mem_of_mem_filter ht), h.nodes,
    h.holds, h.sorted, h.up, h.down, h.lists⟩, hs.own⟩, hs.accepted⟩

theorem tnbrCheck_busy : Stable Discovery.Busy (tnbrCheck t) := by
  refine .get fun s => ?_
  cases s.tnbr? t with
  | none => exact .throw _
  | some tnbr => exact .ite (.bind tnbrDel_busy fun _ => .pure _) (.pure _)

theorem adjItimer_busy {adj : Adj} : Stable Discovery.Busy (adjItimer adj) := by
  unfold adjItimer
  cases adj.source with
  | link ia srcAddr => exact adjDel_busy
  | targeted target =>
    refine .get fun s => ?_
    cases s.tnbr? target with
    | none => exact .throw _
    | some tnbr =>
      refine .ite tnbrDel_busy (.bind ?_ fun _ => adjDel_busy)
      exact modTnbr_busy fun _ => rfl

theorem ifReset_busy {ia : IfaceAf} : Stable Discovery.Busy (ifReset ia) :=
  .get fun _ => .forM fun _ _ => .get fun _ =>
    ite adjDel_busy (pure _)

theorem ldpeRemoveDynamicTnbrs_busy {af : Af} :
    Stable Discovery.Busy (ldpeRemoveDynamicTnbrs af) := by
  refine get fun _ => Triple.forM fun t _ => bind ?_ fun _ => ?_
  · exact modTnbr_busy fun _ => rfl
  · exact .bind tnbrCheck_busy fun _ => .pure _

theorem tnbrRelease_busy {af : Af}
    (hf : ∀ tnbr, (f tnbr).ref = tnbr.ref) : Stable Discovery.Busy (tnbrRelease af addr f) := by
  refine .get fun s => ?_
  cases tnbrFind af addr s with
  | none => exact .pure _
  | some tnbr =>
    refine .bind (modTnbr_busy hf) fun _ => ?_
    exact .bind tnbrCheck_busy fun _ => .pure _

theorem tnbrClaim_busy {af : Af}
    (hf : ∀ tnbr, (f tnbr).ref = tnbr.ref) : Stable Discovery.Busy (tnbrClaim af addr f) := by
  refine .get fun s => ?_
  cases tnbrFind af addr s with
  | some tnbr => exact modTnbr_busy hf
  | none => exact .bind ⟨fun s hs => (tnbrNew_busy hs rfl).1⟩ fun ref => modTnbr_busy hf

/-! ### Hellos -/

/-- The adjacency that `adj_find` finds for a hello. -/
def Discovery.found (s : Discovery) (p : HelloPacket) (hello : Hello) : Option Adj :=
  if hello.targeted then (tnbrFind p.af p.src s).bind fun tnbr => adjFind (.targeted tnbr.ref) s
  else adjFind (.link ⟨p.ifindex, p.af⟩ p.src) s

/-- An adjacency for the same address on the same interface, or for the same targeted
neighbour. -/
def HelloSource.Same : HelloSource → HelloSource → Prop
  | .link ia srcAddr, .link ia' srcAddr' => ia' = ia ∧ ldpAddrcmp ia.af srcAddr' srcAddr = .eq
  | .targeted t, .targeted t' => t' = t
  | _, _ => False

theorem HelloSource.Same.af {source' : HelloSource} (h : source.Same source') :
    source'.af = source.af := by
  unfold HelloSource.Same at h
  split at h
  · rw [af, h.1, af]
  · rw [h]
  · exact h.elim

/-- What is found on the right interface is the right adjacency. -/
theorem HelloSource.same_of_finds (h : source.finds adj)
    (hia : ∀ ia ∈ adj.source.ia, ∀ ia' ∈ source.ia, ia = ia') : source.Same adj.source := by
  unfold finds at h
  split at h
  · rename_i hsource
    rw [hsource] at hia ⊢
    exact ⟨hia _ rfl _ rfl, by simpa using h⟩
  · rename_i hsource
    rw [hsource]
    exact beq_iff_eq.mp h
  · cases h

theorem finds_of_adjFind (h : adjFind source s = some adj) :
    source.finds adj ∧ ∃ e ∈ s.adjList, e.adj = adj := by
  obtain ⟨e, he, rfl⟩ := Option.map_eq_some_iff.mp h
  have hfinds := find?_some he
  exact ⟨hfinds, e, mem_of_find?_eq_some he, rfl⟩

theorem finds_targeted (h : (targeted t).finds adj) : adj.source = .targeted t := by
  unfold finds at h
  cases hsource : adj.source with
  | link ia srcAddr =>
    rw [hsource] at h
    cases h
  | targeted t' =>
    rw [hsource] at h
    rw [beq_iff_eq.mp h]

theorem tnbrCheck_true (hrun : (tnbrCheck t).run s = .ok true s') : s' = s := by
  unfold tnbrCheck at hrun
  rw [run_get_bind] at hrun
  split at hrun
  · cases hrun
  · split at hrun
    · obtain ⟨_, _, -, hret⟩ := run_bind_ok.mp hrun
      cases hret
    · cases hrun
      rfl

/-- What is known of the source of a hello that is not discarded. -/
structure Sourced (s s' : Discovery) (p : HelloPacket) (hello : Hello) (source : HelloSource) :
    Prop where
  af : source.af = p.af
  ia : ∀ ia ∈ source.ia, ia = ⟨p.ifindex, p.af⟩
  target : ∀ t, source = .targeted t → t.ptr < s'.next
  trees : s'.trees = s.trees
  found : ∀ a, adjFind source s' = some a → s.found p hello = some a

theorem targetedSource_run (hs : s.Busy) (htargeted : hello.targeted)
    (hrun : (targetedSource conf p hello).run s = .ok r s') :
    s'.Busy ∧ ∀ source ∈ r, Sourced s s' p hello source := by
  have h := hs.linked
  unfold targetedSource at hrun
  rw [run_get_bind] at hrun
  cases htnbr : tnbrFind p.af p.src s with
  | none =>
    rw [htnbr] at hrun
    dsimp only at hrun
    split at hrun
    · obtain ⟨ref, s₁, hnew, hret⟩ := run_bind_ok.mp hrun
      cases hret
      obtain ⟨hbusy, rfl, hnext, hadjs, htrees⟩ := tnbrNew_busy hs hnew
      refine ⟨hbusy, fun source hsource => ?_⟩
      cases hsource
      refine ⟨rfl, nofun, fun t ht => ?_, htrees, fun a ha => ?_⟩
      · cases ht
        rw [hnext]
        exact lt_add_one _
      · -- no adjacency is for a targeted neighbour that has just been made
        obtain ⟨hfinds, e, he, rfl⟩ := finds_of_adjFind ha
        rw [hadjs] at he
        exact absurd (h.targets e he _ (finds_targeted hfinds)) (lt_irrefl _)
    · cases hrun
      exact ⟨hs, nofun⟩
  | some tnbr =>
    rw [htnbr] at hrun
    dsimp only at hrun
    have hmem : tnbr ∈ s.tnbrList := mem_of_find?_eq_some htnbr
    have haf : tnbr.ref.af = p.af := by
      have hsome := find?_some htnbr
      simp at hsome
      exact hsome.1.symm
    have hfound : ∀ a, adjFind (.targeted tnbr.ref) s = some a → s.found p hello = some a := by
      intro a ha
      rw [found, if_pos htargeted, htnbr, Option.bind_some, ha]
    split at hrun
    · rename_i hdynamic
      obtain ⟨_, s₁, hmod, hrest⟩ := run_bind_ok.mp hrun
      obtain ⟨there, s₂, hcheck, hret⟩ := run_bind_ok.mp hrest
      have hs₁ : s₁.Busy := by
        refine (modTnbr_busy ?_).of_ok hs hmod
        exact fun _ => rfl
      have hs₂ := (tnbrCheck_busy).of_ok hs₁ hcheck
      cases there with
      | true =>
        obtain rfl := tnbrCheck_true hcheck
        cases hmod
        cases hret
        refine ⟨hs₂, fun source hsource => ?_⟩
        cases hsource
        refine ⟨haf, nofun, fun t ht => ?_, rfl, hfound⟩
        cases ht
        exact h.refs tnbr hmem
      | false =>
        -- the 'R' bit is cleared, so no new one is made
        simp only [Bool.false_eq_true, if_false, hdynamic.2, false_and] at hret
        cases hret
        exact ⟨hs₂, nofun⟩
    · cases hrun
      refine ⟨hs, fun source hsource => ?_⟩
      cases hsource
      refine ⟨haf, nofun, fun t ht => ?_, rfl, hfound⟩
      cases ht
      exact h.refs tnbr hmem

theorem helloSource_run (hs : s.Busy) (hrun : (helloSource conf p hello).run s = .ok r s') :
    s'.Busy ∧ ∀ source ∈ r, Sourced s s' p hello source := by
  unfold helloSource at hrun
  split at hrun
  · rename_i htargeted
    split at hrun
    · cases hrun
      exact ⟨hs, nofun⟩
    · exact targetedSource_run hs htargeted hrun
  · rename_i hlink
    cases hrun
    refine ⟨hs, fun source hsource => ?_⟩
    cases hsource
    refine ⟨rfl, fun ia hia => ?_, nofun, rfl, fun a ha => ?_⟩
    · cases hia
      rfl
    · rw [found, if_neg hlink, ha]

/-- There is an adjacency for the source of a hello with its LSR id. -/
def Discovery.HasAdj (s : Discovery) (source : HelloSource) (lsrId : InAddr) : Prop :=
  ∃ e ∈ s.adjList, e.adj.lsrId = lsrId ∧ source.Same e.adj.source

/-- The hello that was accepted has its adjacency. -/
def Discovery.Accepted (s : Discovery) : Prop := ∀ x ∈ s.accepted, s.HasAdj x.1 x.2

theorem Discovery.Linked.mem_of_nbrFindLdpid (h : s.Linked)
    (hfind : s.nbrFindLdpid id = some m) : m ∈ s.nbrs ∧ m.node.id = id := by
  obtain ⟨n, hn, hm⟩ := Option.bind_eq_some_iff.mp hfind
  obtain ⟨hmem, rfl⟩ := mem_of_nbr? hm
  exact ⟨hmem, ((h.holds.find_iff h.sorted id m.node).mp hn).2⟩

theorem Discovery.Linked.of_nbrFindLdpid (h : s.Linked)
    (hfind : s.nbrFindLdpid id = none) : ∀ n ∈ s.trees.live, n.id ≠ id := by
  intro n hn hid
  have hnode := (h.holds.find_iff h.sorted id n).mpr ⟨hn, hid⟩
  rw [← h.nodes] at hn
  obtain ⟨m, hm, hmn⟩ := mem_map.mp hn
  rw [nbrFindLdpid, hnode, Option.bind_some, nbr?] at hfind
  exact absurd (find?_eq_none.mp hfind m hm) (by simpa using hmn)

theorem Discovery.HasAdj.congr (h : s.HasAdj source lsrId)
    (hadjs : s'.adjList.map AdjEntry.adj = s.adjList.map AdjEntry.adj) : s'.HasAdj source lsrId := by
  obtain ⟨e, he, hid, hsame⟩ := h
  have hmem : e.adj ∈ s'.adjList.map adj := hadjs ▸ mem_map_of_mem he
  obtain ⟨e', he', heq⟩ := mem_map.mp hmem
  exact ⟨e', he', heq ▸ hid, heq ▸ hsame⟩

theorem HelloSource.Same.refl (source : HelloSource) : source.Same source := by
  cases source with
  | link ia srcAddr => exact ⟨rfl, by cases ia.af <;> simp [ldpAddrcmp, memcmp16]⟩
  | targeted t => rfl

/-- After it there is an adjacency for the hello. -/
theorem makeAdj_run {adj : Option Adj} {nbr : Option NbrEntry} (hs : s.Busy)
    (htarget : ∀ t, source = .targeted t → t.ptr < s.next)
    (hadj : ∀ a ∈ adj, ∃ e ∈ s.adjList, e.adj = a ∧ a.lsrId = hello.lsrId ∧ source.Same a.source)
    (hnbr : ∀ m ∈ nbr, m ∈ s.nbrs ∧ m.node.id = hello.lsrId)
    (hrun : (makeAdj p hello source adj nbr).run s = .ok () s') :
    s'.Busy ∧ s'.HasAdj source hello.lsrId ∧ s'.trees = s.trees := by
  unfold makeAdj at hrun
  cases adj with
  | some a =>
    cases hrun
    obtain ⟨e, he, rfl, hid, hsame⟩ := hadj a rfl
    exact ⟨hs, ⟨e, he, hid, hsame⟩, rfl⟩
  | none =>
    obtain ⟨a, s₁, hnew, hlink⟩ := run_bind_ok.mp hrun
    obtain ⟨hs₁, hmem, hid, hsource, hnbrs, htrees⟩ := adjNew_busy hs htarget hnew
    have hhas : s₁.HasAdj source hello.lsrId := ⟨_, hmem, hid, hsource ▸ .refl _⟩
    cases nbr with
    | none =>
      cases hlink
      exact ⟨hs₁, hhas, htrees⟩
    | some m =>
      cases hlink
      obtain ⟨hm, hnode⟩ := hnbr m rfl
      rw [← hnbrs] at hm
      have hlinked := hs₁.linked.linkAdj hmem (hid.trans hnode.symm) hm rfl
      refine ⟨⟨⟨hlinked, hs₁.own.linkAdj a m.node⟩, hs₁.accepted⟩, hhas.congr ?_, htrees⟩
      exact map_updated (fun e => by split <;> rfl) _

theorem acceptHello_run (hs : s.Busy)
    (haf : source.af = p.af) (htarget : ∀ t, source = .targeted t → t.ptr < s.next)
    (hfound : ∀ a ∈ adjFind source s, a.lsrId = hello.lsrId ∧ source.Same a.source)
    (hordered : Ordered (hello.lsrId :: s.trees.live.map NbrNode.id))
    (hrun : (acceptHello p hello source scopeId (adjFind source s)
      (s.nbrFindLdpid hello.lsrId)).run s = .ok () s') : s'.Wf ∧ s'.Accepted := by
  have h := hs.linked
  obtain ⟨_, s₁, hmake, hrest⟩ := run_bind_ok.mp hrun
  obtain ⟨hs₁, hhas, htrees⟩ := makeAdj_run hs htarget
    (fun a ha => by
      obtain ⟨-, e, he, heq⟩ := finds_of_adjFind ha
      exact ⟨e, he, heq, hfound a ha⟩)
    (fun m hm => h.mem_of_nbrFindLdpid hm) hmake
  have hfinish {s₂ : Discovery} (hs₂ : s₂.Busy) (hhas₂ : s₂.HasAdj source hello.lsrId) :
      Discovery.Wf { s₂ with accepted := some (source, hello.lsrId) } ∧
        Discovery.Accepted { s₂ with accepted := some (source, hello.lsrId) } := by
    have hl := hs₂.linked
    refine ⟨⟨⟨hl.nodup, hl.fresh, hl.targets, hl.refs, hl.nodes, hl.holds, hl.sorted, hl.up, hl.down,
      hl.lists⟩, hs₂.own⟩, fun x hx => ?_⟩
    cases hx
    exact hhas₂
  split at hrest
  · rename_i hnew
    obtain ⟨_, s₂, hnbr, hset⟩ := run_bind_ok.mp hrest
    cases hset
    have hlive := h.of_nbrFindLdpid hnew.1
    rw [← htrees] at hlive hordered
    obtain ⟨e, he, hid, hsame⟩ := hhas
    obtain ⟨hs₂, hadjs⟩ := nbrNewAdj_busy hs₁ hlive hordered ⟨e, he, hid, hsame.af.trans haf⟩ hnbr
    exact hfinish hs₂ (Discovery.HasAdj.congr ⟨e, he, hid, hsame⟩ hadjs)
  · cases hrest
    exact hfinish hs₁ hhas

theorem Discovery.Busy.done (hs : s.Busy) : s.Wf ∧ s.Accepted := by
  refine ⟨hs.toWf, fun x hx => ?_⟩
  rw [hs.accepted] at hx
  cases hx

theorem lookupHello_run (hs : s.Busy)
    (haf : source.af = p.af) (htarget : ∀ t, source = .targeted t → t.ptr < s.next)
    (hfound : ∀ a ∈ adjFind source s, a.lsrId = hello.lsrId ∧ source.Same a.source)
    (hordered : Ordered (hello.lsrId :: s.trees.live.map NbrNode.id))
    (hrun : (lookupHello conf p hello source scopeId).run s = .ok () s') : s'.Wf ∧ s'.Accepted := by
  have hdiscard {adj : Option Adj} (hrun : (discard adj).run s = .ok () s') : s'.Wf ∧ s'.Accepted :=
    ((discard_busy).of_ok hs hrun).done
  unfold lookupHello at hrun
  rw [run_get_bind] at hrun
  dsimp only at hrun
  split at hrun
  · exact hdiscard hrun
  split at hrun
  · cases hrun
    exact hs.done
  split at hrun
  · exact hdiscard hrun
  split at hrun
  · exact hdiscard hrun
  · exact acceptHello_run hs haf htarget hfound hordered hrun

/-- The adjacency that a hello finds is its own, and the LSR ids of the neighbours are in
order with the one of the hello. -/
def FindsOwn (conf : LdpdConf) (s : Discovery) : DiscEvent → Prop
  | .packet p =>
    ∀ hello ∈ recvHelloPrms conf p.af p.pkt,
      (∀ a ∈ s.found p hello, a.lsrId = hello.lsrId ∧ ∀ ia ∈ a.source.ia, ia = ⟨p.ifindex, p.af⟩) ∧
      Ordered (hello.lsrId :: s.trees.live.map NbrNode.id)
  | _ => True

instance (conf : LdpdConf) (s : Discovery) (e : DiscEvent) : Decidable (FindsOwn conf s e) := by
  unfold FindsOwn
  split <;> infer_instance

theorem recvPacket_run (hs : s.Busy) (hgood : FindsOwn conf s (.packet p))
    (hrun : (recvPacket conf p).run s = .ok () s') : s'.Wf ∧ s'.Accepted := by
  unfold recvPacket at hrun
  split at hrun
  · cases hrun
    exact hs.done
  split at hrun
  · cases hrun
    exact hs.done
  rename_i hello hhello
  obtain ⟨hown, hordered⟩ := hgood hello hhello
  unfold recvHello at hrun
  dsimp only at hrun
  split at hrun
  · cases hrun
    exact hs.done
  split at hrun
  · cases hrun
    exact hs.done
  split at hrun
  · cases hrun
    exact hs.done
  split at hrun
  · cases hrun
    exact hs.done
  split at hrun
  · cases hrun
    exact hs.done
  obtain ⟨r, s₁, hsource, hrest⟩ := run_bind_ok.mp hrun
  obtain ⟨hs₁, hsourced⟩ := helloSource_run hs hsource
  cases r with
  | none =>
    cases hrest
    exact hs₁.done
  | some source =>
    have hx := hsourced source rfl
    rw [← hx.trees] at hordered
    refine lookupHello_run hs₁ hx.af hx.target (fun a ha => ?_) hordered hrest
    obtain ⟨hid, hia⟩ := hown a (hx.found a ha)
    refine ⟨hid, same_of_finds (finds_of_adjFind ha).1 fun ia hmem ia' hmem' => ?_⟩
    rw [hia ia hmem, hx.ia ia' hmem']

theorem discStep_run {e : DiscEvent} (hs : s.Wf) (hgood : FindsOwn conf s e)
    (hrun : (discStep conf e).run s = .ok () s') : s'.Wf ∧ s'.Accepted := by
  obtain ⟨_, s₁, hmod, hevent⟩ := run_bind_ok.mp hrun
  cases hmod
  have h := hs.linked
  have hs₁ : Discovery.Busy { s with accepted := none } :=
    ⟨⟨⟨h.nodup, h.fresh, h.targets, h.refs, h.nodes, h.holds, h.sorted, h.up, h.down, h.lists⟩,
      hs.own⟩, rfl⟩
  cases e with
  | packet p => exact recvPacket_run hs₁ hgood hevent
  | adjItimer i =>
    refine Discovery.Busy.done (Triple.of_ok (get fun s => ?_) hs₁ hevent)
    cases s.adjList[i]? with
    | none => exact .pure _
    | some e => exact adjItimer_busy
  | ifReset ia => exact ((ifReset_busy).of_ok hs₁ hevent).done
  | tnbrConf af addr =>
    refine Discovery.Busy.done ((tnbrClaim_busy ?_).of_ok hs₁ hevent)
    exact fun _ => rfl
  | tnbrUnconf af addr =>
    refine Discovery.Busy.done (Triple.of_ok (get fun s => ?_) hs₁ hevent)
    cases tnbrFind af addr s with
    | none => exact .pure _
    | some tnbr => exact .ite (tnbrRelease_busy fun _ => rfl) (.pure _)
  | pwInit af addr =>
    refine Discovery.Busy.done ((tnbrClaim_busy ?_).of_ok hs₁ hevent)
    exact fun _ => rfl
  | pwExit af addr =>
    refine Discovery.Busy.done ((tnbrRelease_busy ?_).of_ok hs₁ hevent)
    exact fun _ => rfl
  | removeDynamicTnbrs af => exact ((ldpeRemoveDynamicTnbrs_busy).of_ok hs₁ hevent).done

end

/-! ## The graph -/

/-- Adjacencies and neighbours point to each other, every neighbour has an adjacency of its address
family, and the hello accepted has its adjacency. -/
structure Discovery.Consistent (s : Discovery) : Prop where
  linked : ∀ e ∈ s.adjList, ∀ n ∈ e.nbr,
    e.adj.lsrId = n.id ∧ ∃ m ∈ s.nbrs, m.node = n ∧ e.adj ∈ m.adjList
  own : ∀ m ∈ s.nbrs, ∃ e ∈ s.adjList, e.adj ∈ m.adjList ∧ e.adj.source.af = m.node.af
  accepted : s.Accepted

theorem Discovery.Wf.init : init.Wf :=
  ⟨⟨nodup_nil, nofun, nofun, nofun, rfl, holds_init, sorted_init, nofun, nofun, nofun⟩, nofun⟩

/-- In a run in which every hello finds its own adjacency or none, the graph is consistent. -/
theorem adjacency_graph (conf : LdpdConf) (tr : List DiscEvent) (s : Discovery)
    (h : Run (discStep conf) Discovery.init (FindsOwn conf) tr s) : s.Consistent := by
  obtain ⟨hs, haccepted⟩ : s.Wf ∧ s.Accepted := by
    refine h.invariant (I := fun s => s.Wf ∧ s.Accepted) ⟨Discovery.Wf.init, nofun⟩ ?_
    intro s e s' hs hgood hrun
    exact discStep_run hs.1 hgood hrun
  refine ⟨fun e he n hn => hs.linked.up e he n hn, fun m hm => ?_, haccepted⟩
  obtain ⟨a, ha, haf⟩ := hs.own m hm (Option.some_ne_none _)
  exact ⟨_, hs.linked.down m hm a ha, ha, haf⟩

/-- A router that only uses IPv4, with its router id as the transport address. -/
def ipv4Conf (rtrId : InAddr) : LdpdConf :=
  ⟨rtrId, ⟨0, 0, .ofV4 rtrId, true, false, false⟩, ⟨0, 0, .ofV4 0, false, false, false⟩, 15, 45,
    .ldpov4, false⟩

/-- A link hello of the router `rtrId` that comes from 10.0.1.2. -/
def linkHello (rtrId : InAddr) (ifindex : UInt32) : DiscEvent :=
  .packet ⟨.inet, .ofV4 0x0a000102, ifindex, true,
    sendHello (ipv4Conf rtrId) ⟨0, 0, 0⟩ (.link .inet 0)⟩

theorem linkHello_consistent :
    ∃ s, Run (discStep (ipv4Conf 0x01010101)) Discovery.init (FindsOwn (ipv4Conf 0x01010101))
        [linkHello 0x02020202 1, linkHello 0x02020202 1] s ∧
      s.adjList.length = 1 ∧ s.nbrs.length = 1 ∧ s.accepted.isSome ∧ s.Consistent :=
  ⟨_, .of_play (by decide +kernel), by decide +kernel, by decide +kernel, by decide +kernel,
    adjacency_graph _ _ _ (.of_play (by decide +kernel))⟩

/-- The router at 10.0.1.2 gets another id: the new neighbour has no adjacency. -/
theorem newLsrId_no_adjacency :
    ∃ s, Run (discStep (ipv4Conf 0x01010101)) Discovery.init (fun _ _ => True)
        [linkHello 0x02020202 1, linkHello 0x03030303 1] s ∧
      (∃ m ∈ s.nbrs, m.node.id = 0x03030303 ∧ m.adjList = []) ∧ ¬s.Consistent := by
  refine ⟨_, .of_play (by decide +kernel), by decide +kernel, fun h => ?_⟩
  exact absurd h.own (by decide +kernel)

end Mp2mp.Ldpe
