import Mp2mp.Lde.CrossLinks

/-!
# Mappings and routes in either order

A mapping that comes before the route it is for is retained, and installed when the
route arrives.  The engine finds the neighbour whose mapping to install by the LSR-id
that the FEC of a pseudowire would hold, because the switch over the FEC type in
`lde_kernel_insert` falls through.

* `order_independent_iff`: a mapping and the route by way of its neighbour may arrive in
  either order if and only if the lookup by this LSR-id comes to the neighbour and the MP2MP
  part of the mapping does not stop the engine in one of the orders.
-/

namespace Mp2mp.Lde

open Kit Ldpd Option List

variable {r : Freed} {s : Engine} {l : Lib} {label : UInt32} {fn : FecNode}

/-! ## Kernel labels -/

def Out.klabel? : Out → Option Kroute
  | .klabelChange kr => some kr
  | _ => none

/-- The routes of the `IMSG_KLABEL_CHANGE` messages. -/
def Lib.klabels (l : Lib) : List Kroute := l.out.filterMap Out.klabel?

theorem klabels_emit {o : Out} (ho : o.klabel? = none) :
    (l.emit o).klabels = l.klabels := by
  simp [Lib.klabels, Lib.emit, ho]

theorem klabels_setKpwlabel {pw : L2vpnPw} {fn : FecNode} {fnh : FecNh} :
    (setKpwlabel pw fn fnh l).klabels = l.klabels := by
  unfold setKpwlabel
  split
  · unfold changeKpwlabel
    split
    · rfl
    · split
      · rfl
      · exact klabels_emit rfl
  · unfold deleteKpwlabel
    split
    · rfl
    · split
      · exact klabels_emit rfl
      · rfl

theorem klabels_syncHostRoute {fec : Fec} : (syncHostRoute fec l).klabels = l.klabels := by
  have hsync (af : Af) (addr : LdpdAddr) : (l2vpnSyncPws af addr l).klabels = l.klabels := by
    refine foldlRecOn (motive := fun l' : Lib => l'.klabels = l.klabels) _ _ rfl ?_
    intro l' hl' uid _
    refine Eq.trans ?_ hl'
    unfold l2vpnSyncPw
    split
    · rfl
    split
    · rfl
    split
    · rfl
    split
    · rfl
    · exact klabels_setKpwlabel
  unfold syncHostRoute
  split
  · split
    · exact hsync _ _
    · rfl
  · split
    · exact hsync _ _
    · rfl
  · rfl

theorem klabels_ldeSendChangeKlabel (fnh : FecNh) (l : Lib) (hroute : isRoute fn.fec) :
    (ldeSendChangeKlabel fn fnh l).klabels = l.klabels ++ [krouteOf fn fnh] := by
  have hemit : (l.emit (.klabelChange (krouteOf fn fnh))).klabels = l.klabels ++ [krouteOf fn fnh] := by
    simp [Lib.klabels, Lib.emit, Out.klabel?]
  unfold ldeSendChangeKlabel
  split
  · rename_i hpw
    cases hfec : fn.fec <;> simp_all [Fec.type, isRoute]
  · rw [klabels_syncHostRoute, hemit]

/-! ## A route and its one nexthop -/

/-- A route of an `IMSG_NETWORK_ADD`. -/
structure Route where
  af : Af
  addr : LdpdAddr
  prefixlen : UInt8
  stack : InAddr
  nexthop : LdpdAddr
  priority : UInt8

def Route.fec (rt : Route) : Fec := routeFec rt.af rt.addr rt.prefixlen

namespace Route

def event (rt : Route) : ParentEvent :=
  .networkAdd rt.af rt.addr rt.prefixlen rt.stack rt.nexthop rt.priority

/-- What `lde_kernel_insert` reads as the LSR-id of the FEC. -/
def lsrIdView (rt : Route) : InAddr := if rt.af = .inet then rt.stack else rt.fec.pwidLsrId

theorem isRoute_fec (rt : Route) : isRoute rt.fec := by
  unfold Route.fec
  cases rt.af <;> rfl

/-- `lde_kernel_insert` of the route. -/
def insert (rt : Route) (l : Lib) : Lib :=
  ldeKernelInsert rt.fec rt.lsrIdView rt.af rt.nexthop rt.priority none l

def nh (rt : Route) (label : UInt32) : FecNh := ⟨rt.af, rt.nexthop, label, rt.priority⟩

/-- What the kernel is told about the route with this remote label. -/
def kroute (rt : Route) (label : UInt32) : Kroute :=
  krouteOf ⟨rt.fec, rt.lsrIdView, [], [], [], noLabel, none⟩ (rt.nh label)

/-- The remote label of the nexthop. -/
def remoteLabel (rt : Route) (l : Lib) : Option UInt32 :=
  ((l.node? rt.fec).bind fun fn => fecNhFind fn rt.af rt.nexthop rt.priority).map FecNh.remoteLabel

/-- The message is about the nexthop. -/
def isFor (rt : Route) (kr : Kroute) : Bool :=
  rt.kroute 0 == { kr with localLabel := noLabel, remoteLabel := 0 }

/-- The last `IMSG_KLABEL_CHANGE` about the nexthop. -/
def lastKlabel (rt : Route) (krs : List Kroute) : Option Kroute := (krs.filter rt.isFor).getLast?

theorem kroute_eq (rt : Route) (label : UInt32) (hfec : fn.fec = rt.fec)
    (hlocal : fn.localLabel = noLabel) : krouteOf fn (rt.nh label) = rt.kroute label := by
  simp only [kroute, krouteOf, hfec, hlocal]

theorem isFor_kroute {rt : Route} {label : UInt32} : rt.isFor (rt.kroute label) = true := by
  unfold isFor kroute krouteOf
  cases rt.fec <;> simp [nh]

theorem lastKlabel_append (rt : Route) (krs : List Kroute) :
    rt.lastKlabel (krs ++ [rt.kroute label]) = some (rt.kroute label) := by
  simp [lastKlabel, filter_append, rt.isFor_kroute]

theorem ldpAddrcmp_self {af : Af} {addr : LdpdAddr} : ldpAddrcmp af addr addr = .eq := by
  cases af with
  | inet => simp [ldpAddrcmp]
  | inet6 => simp [ldpAddrcmp, memcmp16_eq]

theorem remoteLabel_eq (rt : Route)
    (hfn : l.node? rt.fec = some fn) (hnhs : fn.nexthops = [rt.nh label]) :
    rt.remoteLabel l = some label := by
  simp [remoteLabel, hfn, fecNhFind, hnhs, nh, ldpAddrcmp_self]

end Route

variable {fec : Fec}

/-! ## A mapping for a route -/

/-- `lde_check_mapping` of a mapping for a route, if it does not replace another label. -/
theorem ldeCheckMapping_route {map : Map} {ln : LdeNbr}
    (hln : l.nbr? ln.peerid = some ln) (hfec : ldeMap2fec map ln.id = fec) (hroute : isRoute fec)
    (hfn : (fecAdd fec fec.pwidLsrId l).node? fec = some fn)
    (hlabel : ∀ me, fecFind LdeMap.fec fec ln.recvMap = some me → me.map.label = map.label) :
    ldeCheckMapping map ln.peerid l =
      recordRecv ln fec map ((ldeReqDelSent ln.peerid fec (fecAdd fec fec.pwidLsrId l)).eachNh fec
        (installMapping ln map)) := by
  obtain ⟨-, hfnfec⟩ := Lib.fec_of_node? hfn
  have hneg (l : Lib) : negotiate ln fn map l = (false, l) := by
    unfold negotiate
    rw [if_neg]
    intro hpw
    rw [← hfec, ldeMap2fec, hpw] at hroute
    cases hroute
  simp only [ldeCheckMapping, hln, hfec, hfn, hneg, Bool.false_eq_true, if_false, acceptMapping,
    hfnfec]
  split
  · rename_i me hme
    rw [if_neg fun h => h.1 (hlabel me hme)]
  · rfl

theorem klabels_recordRecv (ln : LdeNbr) (fec : Fec) (map : Map) (l : Lib) :
    (recordRecv ln fec map l).klabels = l.klabels := by
  unfold recordRecv
  split <;> rfl

theorem node?_recordRecv (ln : LdeNbr) (map : Map) (hfn : l.node? fec = some fn) :
    ∃ downstream, (recordRecv ln fec map l).node? fec = some { fn with downstream := downstream } := by
  unfold recordRecv
  dsimp only
  split
  · refine ⟨ln.peerid :: fn.downstream, ?_⟩
    rw [Lib.node?_modNode_eq _ fec fec (by intro; rfl), if_pos rfl]
    exact congrArg (Option.map _) hfn
  · exact ⟨fn.downstream, hfn⟩

section

variable {rt : Route} {map : Map} {ln : LdeNbr}

/-- A mapping that comes before the route is only recorded. -/
theorem mapping_before (hs : l.Sorted) (hln : l.nbr? ln.peerid = some ln)
    (hmap : ldeMap2fec map ln.id = rt.fec) (hnode : l.node? rt.fec = none)
    (hrecv : fecFind LdeMap.fec rt.fec ln.recvMap = none) :
    ∃ downstream, (ldeCheckMapping map ln.peerid l).node? rt.fec =
      some ⟨rt.fec, rt.fec.pwidLsrId, [], downstream, [], noLabel, none⟩ := by
  have hadd : (fecAdd rt.fec rt.fec.pwidLsrId l).node? rt.fec =
      some ⟨rt.fec, rt.fec.pwidLsrId, [], [], [], noLabel, none⟩ := by
    rw [node?_fecAdd_eq _ _ _ hs, if_pos rfl, hnode]
    rfl
  rw [ldeCheckMapping_route hln hmap rt.isRoute_fec hadd fun me hme => by
    rw [hrecv] at hme; cases hme]
  have hreq : (ldeReqDelSent ln.peerid rt.fec (fecAdd rt.fec rt.fec.pwidLsrId l)).node? rt.fec =
      some ⟨rt.fec, rt.fec.pwidLsrId, [], [], [], noLabel, none⟩ := hadd
  simp only [Lib.eachNh, hreq, foldl_nil]
  exact node?_recordRecv ln map hreq

/-- A mapping that comes after the route is installed at the nexthop. -/
theorem mapping_after (hs : l.Sorted) (hln : l.nbr? ln.peerid = some ln)
    (hmap : ldeMap2fec map ln.id = rt.fec) (hfn : l.node? rt.fec = some fn)
    (hnhs : fn.nexthops = [rt.nh noLabel])
    (hlocal : fn.localLabel = noLabel) (hserves : (ldeAddressFind ln rt.af rt.nexthop).isSome)
    (hlabel : ∀ me, fecFind LdeMap.fec rt.fec ln.recvMap = some me → me.map.label = map.label) :
    rt.remoteLabel (ldeCheckMapping map ln.peerid l) = some map.label ∧
      (ldeCheckMapping map ln.peerid l).klabels = l.klabels ++ [rt.kroute map.label] := by
  have hroute := rt.isRoute_fec
  obtain ⟨-, hfec⟩ := Lib.fec_of_node? hfn
  have hadd : (fecAdd rt.fec rt.fec.pwidLsrId l).node? rt.fec = some fn := by
    rw [node?_fecAdd_eq _ _ _ hs, if_pos rfl, hfn]
    rfl
  rw [ldeCheckMapping_route hln hmap hroute hadd hlabel]
  generalize hl₁ : ldeReqDelSent ln.peerid rt.fec (fecAdd rt.fec rt.fec.pwidLsrId l) = l₁
  have hfn₁ : l₁.node? rt.fec = some fn := by
    rw [← hl₁]
    exact hadd
  have hklabels₁ : l₁.klabels = l.klabels := by
    rw [← hl₁]
    rfl
  -- the walk has one nexthop to come to, and the neighbour serves it
  have hwalk : l₁.eachNh rt.fec (installMapping ln map) =
      installNh map.label fn (rt.nh noLabel) l₁ := by
    simp only [Lib.eachNh, hfn₁, hnhs, foldl_cons, foldl_nil]
    unfold installMapping
    split
    · rename_i hpw
      rw [← hfec, hpw] at hroute
      cases hroute
    · exact if_pos hserves
  rw [hwalk]
  have hinstalled : (installNh map.label fn (rt.nh noLabel) l₁).node? rt.fec =
      some { fn with nexthops := [rt.nh map.label] } := by
    unfold installNh
    rw [Lib.node?, (ldeSendChangeKlabel_installs _ _ _).ft, ← Lib.node?, Lib.modNh,
      Lib.node?_modNode_eq _ _ _ (by intro; rfl), hfec, if_pos rfl, hfn₁, map_some, hnhs]
    simp [Route.nh, hfec]
  refine ⟨?_, ?_⟩
  · obtain ⟨downstream, hnode⟩ := node?_recordRecv ln map hinstalled
    exact rt.remoteLabel_eq hnode rfl
  · rw [klabels_recordRecv]
    refine (klabels_ldeSendChangeKlabel _ _ (by rw [hfec]; exact hroute)).trans ?_
    rw [← hklabels₁, ← rt.kroute_eq map.label hfec hlocal]
    rfl

/-- The state after the nexthop of a route has been added, before a retained mapping is looked for. -/
structure Added (rt : Route) (l l₂ : Lib) : Prop where
  nbrs : l₂.nbrs = l.nbrs
  sorted : Table.Sorted fecCompare FecNode.fec l₂.ft
  node : ∃ fn, l₂.node? rt.fec = some fn ∧ fn.nexthops = [rt.nh noLabel] ∧ fn.localLabel = noLabel
  klabels : l₂.klabels = l.klabels ++ [rt.kroute noLabel]

/-- `lde_kernel_insert` of the first nexthop of a node. -/
theorem insert_first (hs : l.Sorted)
    (hfn : (fecAdd rt.fec rt.lsrIdView l).node? rt.fec = some fn) (hnhs : fn.nexthops = [])
    (hlocal : fn.localLabel = noLabel) :
    ∃ l₂, Added rt l l₂ ∧ rt.insert l =
      match l.nbrFindByLsrid fn.lsrIdView with
      | none => l₂
      | some ln =>
        match fecFind LdeMap.fec rt.fec ln.recvMap with
        | none => l₂
        | some me => ldeCheckMapping me.map ln.peerid l₂ := by
  have hroute := rt.isRoute_fec
  obtain ⟨-, hfec⟩ := Lib.fec_of_node? hfn
  have hdata : (if rt.fec.type = .pwid then none else fn.data) = fn.data := by
    rw [if_neg]
    intro hpw
    cases hf : rt.fec <;> simp_all [Fec.type, isRoute]
  let l₁ := (fecAdd rt.fec rt.lsrIdView l).modNode rt.fec fun fn' =>
    { fn' with data := fn.data, nexthops := rt.nh noLabel :: fn'.nexthops }
  have hkeeps : Keeps (fecAdd rt.fec rt.lsrIdView l) l₁ := (Keeps.refl _).modNode fun _ => rfl
  refine ⟨ldeSendChangeKlabel fn (rt.nh noLabel) l₁, ⟨?_, ?_, ?_, ?_⟩, ?_⟩
  · exact (ldeSendChangeKlabel_installs _ _ l₁).nbrs
  · rw [(ldeSendChangeKlabel_installs _ _ _).ft]
    exact hkeeps.sorted ((fecAdd_keeps rt.fec rt.lsrIdView l).sorted hs)
  · refine ⟨{ fn with nexthops := [rt.nh noLabel] }, ?_, rfl, hlocal⟩
    rw [Lib.node?, (ldeSendChangeKlabel_installs _ _ _).ft, ← Lib.node?,
      Lib.node?_modNode_eq _ _ _ (by intro; rfl), if_pos rfl, hfn, map_some, hnhs]
  · rw [klabels_ldeSendChangeKlabel _ _ (by rw [hfec]; exact hroute), rt.kroute_eq _ hfec hlocal]
    rfl
  · have hlsrid : (ldeSendChangeKlabel fn (rt.nh noLabel) l₁).nbrFindByLsrid fn.lsrIdView =
        l.nbrFindByLsrid fn.lsrIdView := by
      unfold Lib.nbrFindByLsrid
      rw [(ldeSendChangeKlabel_installs _ _ l₁).nbrs]
      rfl
    unfold Route.insert ldeKernelInsert
    simp only [hfn, fecNhFind, hnhs, find?_nil, isSome_none, Bool.false_eq_true, if_false,
      hdata]
    rw [← hlsrid]
    rfl

/-- A mapping and a route arrive in a state that knows nothing of the FEC: the nexthop belongs to
the neighbour `ln` alone, which has a label for it. -/
structure Arrives (s : Engine) (rt : Route) (ln : LdeNbr) (map : Map) : Prop where
  unknown : s.lib.node? rt.fec = none
  absent : s.Lacks ln.peerid rt.fec
  nbr : s.lib.nbr? ln.peerid = some ln
  serves : ∀ ln' ∈ s.lib.nbrs, (ldeAddressFind ln' rt.af rt.nexthop).isSome ↔ ln' = ln
  known : map.unknownAf = false
  mapping : ldeMap2fec map ln.id = rt.fec
  label : map.label ≠ noLabel

theorem Arrives.mem (h : Arrives s rt ln map) : ln ∈ s.lib.nbrs := (Lib.peerid_of_nbr? h.nbr).1

/-- Nothing has been received for a FEC that is not in `ft`. -/
theorem Arrives.recv_none (h : Arrives s rt ln map) (hs : s.lib.retained.Linked) (q : UInt32) :
    s.lib.retained.recv q rt.fec = none := by
  have hdown : s.lib.retained.downstream rt.fec = [] := by simp [Lib.retained, h.unknown]
  rw [← not_isSome_iff_eq_none, ← hs.mem, hdown]
  exact not_mem_nil

theorem fecFind_of_recv {q : UInt32} (fec : Fec) (hln : l.nbr? q = some ln) :
    (fecFind LdeMap.fec fec ln.recvMap).map LdeMap.map = l.retained.recv q fec := by
  simp only [Lib.retained, hln, bind_some]

theorem Arrives.fecFind_none (h : Arrives s rt ln map) (hs : s.lib.retained.Linked) {q : UInt32}
    {ln' : LdeNbr} (hln : s.lib.nbr? q = some ln') :
    fecFind LdeMap.fec rt.fec ln'.recvMap = none := by
  have hfind := fecFind_of_recv rt.fec hln
  rwa [h.recv_none hs, map_eq_none_iff] at hfind

/-- What is retained of the FEC once the mapping has come. -/
theorem Arrives.recv_mapping (h : Arrives s rt ln map) (hs : s.RoutesSorted)
    (hlinked : s.lib.retained.Linked) (q : UInt32) :
    (ldeCheckMapping map ln.peerid s.lib).retained.recv q rt.fec =
      if q = ln.peerid then some map else none := by
  obtain ⟨ignored, hignored, heq⟩ := retained_ldeCheckMapping map hs h.nbr
  rw [h.mapping] at hignored heq
  rw [hignored rt.isRoute_fec] at heq
  rw [heq, if_neg Bool.false_ne_true]
  simp only [Retained.record, and_true]
  split
  · rfl
  · exact h.recv_none hlinked q

/-- The route in a state that knows nothing of the FEC: no mapping is found for it. -/
theorem Arrives.inserted (h : Arrives s rt ln map) (hs : s.Wf) (hlinked : s.lib.retained.Linked) :
    Added rt s.lib (rt.insert s.lib) := by
  have hadd : (fecAdd rt.fec rt.lsrIdView s.lib).node? rt.fec =
      some ⟨rt.fec, rt.lsrIdView, [], [], [], noLabel, none⟩ := by
    rw [node?_fecAdd_eq _ _ _ hs.routes, if_pos rfl, h.unknown]
    rfl
  obtain ⟨l₂, hadded, hinsert⟩ := insert_first hs.routes hadd rfl rfl
  have hl₂ : rt.insert s.lib = l₂ := by
    rw [hinsert]
    split
    · rfl
    · rename_i ln' hln'
      rw [h.fecFind_none hlinked (nbr?_of_mem hs.peers (mem_of_find?_eq_some hln'))]
  exact hl₂ ▸ hadded

/-- The mapping after the route, whose messages are gone. -/
theorem Arrives.routeFirst (h : Arrives s rt ln map) (hs : s.Wf) (hlinked : s.lib.retained.Linked) :
    let l := ldeCheckMapping map ln.peerid { rt.insert s.lib with out := [] }
    rt.remoteLabel l = some map.label ∧ l.klabels = [rt.kroute map.label] := by
  have hadded := h.inserted hs hlinked
  obtain ⟨fn, hfn, hnhs, hlocal⟩ := hadded.node
  have hln₂ : (rt.insert s.lib).nbr? ln.peerid = some ln := by
    rw [Lib.nbr?, hadded.nbrs]
    exact h.nbr
  refine mapping_after (l := { rt.insert s.lib with out := [] }) hadded.sorted hln₂ h.mapping hfn hnhs
    hlocal ((h.serves ln h.mem).mpr rfl) fun me hme => ?_
  rw [h.fecFind_none hlinked h.nbr] at hme
  cases hme

/-! ## The MP2MP part of a mapping -/

abbrev Heard := UInt32 × InAddr × List LdeAddr × List LdeMap

/-- What a neighbour is and has sent. -/
def LdeNbr.heard (ln : LdeNbr) : Heard := (ln.peerid, ln.id, ln.addrList, ln.recvMap)

/-- What a neighbour is. -/
def LdeNbr.who (ln : LdeNbr) : UInt32 × InAddr × List LdeAddr := (ln.peerid, ln.id, ln.addrList)

/-- Nothing but mappings to neighbours has been sent. -/
structure Resent (l l' : Lib) : Prop where
  ft : l'.ft = l.ft
  nbrs : l'.nbrs.map LdeNbr.heard = l.nbrs.map LdeNbr.heard
  klabels : l'.klabels = l.klabels

theorem Resent.refl (l : Lib) : Resent l l := ⟨rfl, rfl, rfl⟩

theorem resent_sendTemporary {peerid : UInt32} :
    Resent l (ldeSendLabelmapping peerid (temporaryNode fec label) true .freed l) := by
  unfold ldeSendLabelmapping
  split
  · exact .refl l
  · dsimp only
    split
    · rw [if_pos rfl, recordSent, if_neg fun h => by cases h.2]
      refine ⟨rfl, ?_, ?_⟩
      · refine (Lib.nbrs_map_modNbr _ _ ?_).trans (l.nbrs_map_modNbr peerid ?_)
        · exact fun _ => rfl
        · exact fun _ => rfl
      · exact (klabels_emit rfl).trans (klabels_emit rfl)
    · exact .refl l

theorem resent_sendOnce {peerid : UInt32} : Resent l (sendOnce peerid fec label l) := by
  unfold sendOnce
  split
  · exact .refl l
  · split
    · exact .refl l
    · exact resent_sendTemporary

theorem nbr?_of_heard {l' : Lib} (h : l'.nbrs.map LdeNbr.heard = l.nbrs.map LdeNbr.heard)
    (q : UInt32) : (l'.nbr? q).map LdeNbr.heard = (l.nbr? q).map LdeNbr.heard :=
  find?_view h fun v => ldeNbrCompare q v.1 == .eq

theorem recv_of_heard {l' : Lib} (h : l'.nbrs.map LdeNbr.heard = l.nbrs.map LdeNbr.heard)
    (q : UInt32) (fec : Fec) : l'.retained.recv q fec = l.retained.recv q fec := by
  have hq := nbr?_of_heard h q
  simp only [Lib.retained]
  cases hl' : l'.nbr? q <;> cases hl : l.nbr? q <;> simp_all [LdeNbr.heard]

/-- A mapping changes neither the neighbours nor their addresses. -/
theorem who_of_heard {l' : Lib} (hln : l.nbr? ln.peerid = some ln)
    (h : l'.nbrs.map LdeNbr.heard = (ldeCheckMapping map ln.peerid l).nbrs.map LdeNbr.heard) :
    l'.nbrs.map LdeNbr.who = l.nbrs.map LdeNbr.who := by
  have hsame : Same _ (ldeCheckMapping map ln.peerid l) := ldeCheckMapping_same hln
  have hview := congrArg (List.map fun v : NbrView => (v.peerid, v.id, v.addrList)) hsame.nbrs
  have hheard := congrArg (List.map fun v : Heard => (v.1, v.2.1, v.2.2.1)) h
  rw [List.map_map, List.map_map] at hview hheard
  exact hheard.trans hview

theorem Resent.isSome {l' : Lib} (h : Resent l l') (q : UInt32) :
    (l'.nbr? q).isSome = (l.nbr? q).isSome := by
  rw [← isSome_map (f := LdeNbr.heard), nbr?_of_heard h.nbrs, isSome_map]

/-- New entries for neighbours that are there do not stop the walk over the table. -/
theorem bindingsLive_iff_of_new {s' : Engine} {new : List LabelNbr} (hlib : Resent s.lib s'.lib)
    (hmem : ∀ x, x ∈ s'.labelNbrs ↔ x ∈ new ∨ x ∈ s.labelNbrs)
    (hnew : ∀ x ∈ new, (s.lib.nbr? x.peerid).isSome) : s'.BindingsLive ↔ s.BindingsLive := by
  simp only [Engine.BindingsLive, hmem, hlib.isSome]
  exact ⟨fun h x hx => h x (.inr hx), fun h x hx => hx.elim (hnew x) (h x)⟩

/-- A join that `label_nbr_add` does not stop. -/
theorem fromDownstream_resent (map : Map) {peerid : UInt32} (hnew : s.Lacks peerid fec)
    (hln : (s.lib.nbr? peerid).isSome) {fn1 : FecNode}
    (hfirst : firstRoute fec.ipv4Prefix s.lib.ft = some fn1) :
    (∃ s', (fromDownstream map peerid fec).run s = .error .labelNbrExists s') ∨
      ∃ s', (fromDownstream map peerid fec).run s = .ok () s' ∧ Resent s.lib s'.lib ∧
        (s'.BindingsLive ↔ s.BindingsLive) := by
  have hdown (leaf : Nat) (x : LabelNbr) : x ∈ (s.joined leaf map peerid fec).labelNbrs ↔
      x ∈ [⟨map.label, s.joinLabel fec, peerid, fec, .down⟩] ∨ x ∈ s.labelNbrs := by
    rw [mem_joined hnew, mem_singleton]
  rw [run_fromDownstream, hfirst]
  dsimp only
  split
  · rw [run_joinAtRoot hnew]
    refine .inr ⟨_, rfl, resent_sendOnce, ?_⟩
    exact bindingsLive_iff_of_new resent_sendOnce (hdown 2) (by simpa using hln)
  · rw [run_joinAtTransit hnew]
    dsimp only
    split
    · have hlib : Resent s.lib (s.joined 0 map peerid fec).lib := by
        rw [Engine.joined_lib]
        exact .refl _
      refine .inr ⟨_, rfl, hlib, ?_⟩
      exact bindingsLive_iff_of_new hlib (hdown 0) (by simpa using hln)
    · rename_i ln1 hln1
      split
      · refine .inr ⟨_, rfl, resent_sendTemporary, ?_⟩
        exact bindingsLive_iff_of_new resent_sendTemporary (hdown 0) (by simpa using hln)
      · split
        · exact .inl ⟨_, rfl⟩
        · rename_i hfree
          have hup : (s.lib.nbr? ln1.peerid).isSome :=
            Lib.nbr?_isSome.mpr (mem_map_of_mem (Lib.towards_mem hln1))
          refine .inr ⟨_, rfl, resent_sendTemporary, ?_⟩
          have hnbrs : ∀ x ∈ [(⟨noLabel, s.joinLabel fec, ln1.peerid, fec, .up⟩ : LabelNbr),
              ⟨map.label, s.joinLabel fec, peerid, fec, .down⟩], (s.lib.nbr? x.peerid).isSome := by
            simpa using ⟨hup, hln⟩
          refine bindingsLive_iff_of_new resent_sendTemporary (fun x => ?_) hnbrs
          refine (mem_withEntry (not_isSome_iff_eq_none.mp hfree)).trans ?_
          simp only [hdown, mem_cons, not_mem_nil, or_false]
          tauto

/-- The event of a mapping. -/
abbrev mappingEvent (map : Map) (peerid : UInt32) : Event := .imsg true peerid (.labelMapping map)

/-- A mapping from a neighbour without an entry for its FEC: when it is processed, and what it then
leaves of `lde_check_mapping`. -/
theorem run_mapping (r : Freed) (hs : s.RoutesSorted) (hln : s.lib.nbr? ln.peerid = some ln)
    (haf : map.unknownAf = false) (hnew : s.Lacks ln.peerid (ldeMap2fec map ln.id)) :
    ((∃ s', (step r (mappingEvent map ln.peerid)).run s = .ok () s') ↔
      ¬AddsTwice s (mappingEvent map ln.peerid) ∧ s.BindingsLive) ∧
    ∀ s', (step r (mappingEvent map ln.peerid)).run s = .ok () s' →
      Resent (ldeCheckMapping map ln.peerid { s.lib with out := [] }) s'.lib := by
  have hrun := run_step_labelMapping r true hln haf
  have hstops : fault (step r (mappingEvent map ln.peerid)) s = some .labelNbrExists ↔
      AddsTwice s (mappingEvent map ln.peerid) := by
    rw [fault_of_run_eq (run_step_imsg r true ln.peerid _ s)]
    exact fault_dispatch_labelMapping (s := s.start true) hs
  obtain ⟨fn1, hfirst, -⟩ := firstRoute_ldeCheckMapping (l := (s.start true).lib) map hs hln
  set c := (s.start true).checked map ln.peerid
  have hnew' : c.Lacks ln.peerid (ldeMap2fec map ln.id) := hnew
  have hlive : c.BindingsLive ↔ s.BindingsLive := by
    simp only [Engine.BindingsLive]
    exact forall₂_congr fun lnr _ => checked_isSome (s := s.start true) map hln lnr.peerid
  rw [fault_of_run_eq hrun, fault_labelMapping_mldp,
    fault_of_run_eq (run_mldpMapping_new hnew')] at hstops
  simp only [hrun, run_labelMapping_new (s := s.start true) hnew, ← hstops]
  have hhere : (c.lib.nbr? ln.peerid).isSome := by
    rw [checked_isSome (s := s.start true) map hln]
    exact isSome_of_mem hln
  rcases fromDownstream_resent map hnew' hhere hfirst with
    ⟨s₂, herr⟩ | ⟨s₂, hok, hres, hsame⟩
  · refine ⟨iff_of_false ?_ fun h => h.1 (fault_eq_some.mpr ⟨s₂, herr⟩), ?_⟩
    · rintro ⟨s', s₂', hok, -⟩
      cases hok.symm.trans herr
    · rintro s' ⟨s₂', hok, -⟩
      cases hok.symm.trans herr
  · have hclean : fault (fromDownstream map ln.peerid (ldeMap2fec map ln.id)) c ≠
        some .labelNbrExists := by
      simp only [fault, hok, ne_eq, reduceCtorEq, not_false_eq_true]
    constructor
    · constructor
      · rintro ⟨s', s₂', hok', hlive', -⟩
        cases hok.symm.trans hok'
        exact ⟨hclean, hlive.mp (hsame.mp hlive')⟩
      · rintro ⟨-, hlive'⟩
        exact ⟨_, s₂, hok, hsame.mpr (hlive.mpr hlive'), rfl⟩
    · rintro s' ⟨s₂', hok', -, rfl⟩
      cases hok.symm.trans hok'
      exact hres

/-! ## Both orders -/

/-- The route after the mapping, whatever else was sent in between: the label is installed if the
lookup by LSR-id comes to the neighbour. -/
theorem Arrives.mappingFirst (h : Arrives s rt ln map) (hs : s.Wf)
    (hlinked : s.lib.retained.Linked) (l₁ : Lib)
    (hft : l₁.ft = (ldeCheckMapping map ln.peerid s.lib).ft)
    (hnbrs : l₁.nbrs.map LdeNbr.heard =
      (ldeCheckMapping map ln.peerid s.lib).nbrs.map LdeNbr.heard) :
    (s.lib.nbrFindByLsrid rt.fec.pwidLsrId = some ln ∧
      rt.remoteLabel (rt.insert l₁) = some map.label ∧
      (rt.insert l₁).klabels = l₁.klabels ++ [rt.kroute noLabel] ++ [rt.kroute map.label]) ∨
    (s.lib.nbrFindByLsrid rt.fec.pwidLsrId ≠ some ln ∧
      rt.remoteLabel (rt.insert l₁) = some noLabel) := by
  have hrecv := h.recv_mapping hs.routes hlinked
  obtain ⟨downstream, hnode⟩ :=
    mapping_before hs.routes h.nbr h.mapping h.unknown (h.fecFind_none hlinked h.nbr)
  have hkeeps := ldeCheckMapping_keeps map ln.peerid s.lib
  have hwho := who_of_heard h.nbr hnbrs
  have hrecv₁ (q : UInt32) : l₁.retained.recv q rt.fec = if q = ln.peerid then some map else none :=
    (recv_of_heard hnbrs q rt.fec).trans (hrecv q)
  have hpeers : ({ s with lib := l₁ } : Engine).PeersDistinct := by
    have hids := congrArg (List.map Prod.fst) hwho
    rw [List.map_map, List.map_map] at hids
    show (l₁.nbrs.map LdeNbr.peerid).Nodup
    exact hids ▸ hs.peers
  have hsorted : l₁.Sorted := by
    rw [Lib.Sorted, hft]
    exact hkeeps.sorted hs.routes
  have hadd : (fecAdd rt.fec rt.lsrIdView l₁).node? rt.fec =
      some ⟨rt.fec, rt.fec.pwidLsrId, [], downstream, [], noLabel, none⟩ := by
    rw [node?_fecAdd_eq _ _ _ hsorted, if_pos rfl, Lib.node?, hft, ← Lib.node?, hnode]
    rfl
  have hview : (l₁.nbrFindByLsrid rt.fec.pwidLsrId).map LdeNbr.who =
      (s.lib.nbrFindByLsrid rt.fec.pwidLsrId).map LdeNbr.who :=
    find?_view hwho fun v => v.2.1 == _
  obtain ⟨l₂, hadded, hinsert⟩ := insert_first hsorted hadd rfl rfl
  obtain ⟨fn, hfn, hnhs, hlocal⟩ := hadded.node
  rw [hinsert, ← hadded.klabels]
  by_cases hfound : s.lib.nbrFindByLsrid rt.fec.pwidLsrId = some ln
  · refine .inl ⟨hfound, ?_⟩
    rw [hfound, map_some] at hview
    obtain ⟨ln₁, hln₁, hwho₁⟩ := map_eq_some_iff.mp hview
    obtain ⟨hpeerid, hid, haddrs⟩ : ln₁.peerid = ln.peerid ∧ ln₁.id = ln.id ∧
        ln₁.addrList = ln.addrList := by simpa [LdeNbr.who] using hwho₁
    have hnbr₁ : l₁.nbr? ln₁.peerid = some ln₁ :=
      nbr?_of_mem (s := { s with lib := l₁ }) hpeers (mem_of_find?_eq_some hln₁)
    have hme := fecFind_of_recv rt.fec hnbr₁
    rw [hrecv₁, if_pos hpeerid] at hme
    obtain ⟨me, hme, hmap⟩ := map_eq_some_iff.mp hme
    simp only [hln₁, hme, hmap]
    refine mapping_after hadded.sorted (by rw [Lib.nbr?, hadded.nbrs]; exact hnbr₁) ?_ hfn
      hnhs hlocal ?_ fun me' hme' => ?_
    · rw [hid]
      exact h.mapping
    · rw [ldeAddressFind, haddrs]
      exact (h.serves ln h.mem).mpr rfl
    · rw [hme] at hme'
      rw [← Option.some.inj hme', hmap]
  · refine .inr ⟨hfound, ?_⟩
    have hl₂ : rt.insert l₁ = l₂ := by
      rw [hinsert]
      split
      · rfl
      · rename_i ln₁ hln₁
        have hnbr₁ : l₁.nbr? ln₁.peerid = some ln₁ :=
          nbr?_of_mem (s := { s with lib := l₁ }) hpeers (mem_of_find?_eq_some hln₁)
        have hother : ln₁.peerid ≠ ln.peerid := by
          intro hpeerid
          have hln₁' : l₁.nbrFindByLsrid rt.fec.pwidLsrId = some ln₁ := hln₁
          rw [hln₁', map_some] at hview
          obtain ⟨ln', hln', hwho'⟩ := map_eq_some_iff.mp hview.symm
          have hln'peerid : ln'.peerid = ln₁.peerid := congrArg Prod.fst hwho'
          have hnbr' := nbr?_of_mem hs.peers (mem_of_find?_eq_some hln')
          rw [hln'peerid, hpeerid, h.nbr] at hnbr'
          rw [hln', ← Option.some.inj hnbr'] at hfound
          exact hfound rfl
        have hfind := fecFind_of_recv rt.fec hnbr₁
        rw [hrecv₁, if_neg hother, map_eq_none_iff] at hfind
        rw [hfind]
    rw [← hinsert, hl₂]
    exact rt.remoteLabel_eq hfn hnhs

/-- Two events in a row end in `s₂`, and `krs` is what the kernel is told by the messages of both. -/
def InOrder (r : Freed) (s : Engine) (e₁ e₂ : Event) (s₂ : Engine) (krs : List Kroute) : Prop :=
  ∃ s₁, (step r e₁).run s = .ok () s₁ ∧ (step r e₂).run s₁ = .ok () s₂ ∧
    krs = s₁.lib.klabels ++ s₂.lib.klabels

/-- In both orders the nexthop ends up with the label, and the kernel was told the same last. -/
def OrderIndependent (r : Freed) (s : Engine) (rt : Route) (map : Map) (peerid : UInt32) : Prop :=
  ∃ s₁ s₂ krs₁ krs₂,
    InOrder r s (mappingEvent map peerid) (.parent rt.event) s₁ krs₁ ∧
    InOrder r s (.parent rt.event) (mappingEvent map peerid) s₂ krs₂ ∧
    rt.remoteLabel s₁.lib = some map.label ∧ rt.remoteLabel s₂.lib = some map.label ∧
    rt.lastKlabel krs₁ = rt.lastKlabel krs₂

/-- The state after the route has come. -/
def Engine.routed (s : Engine) (rt : Route) : Engine :=
  { s.start true with lib := rt.insert (s.start true).lib }

/-- A mapping and a route by way of its neighbour may arrive in either order if and only if the
neighbour is the one with the LSR-id that the FEC holds in the place of a pseudowire's, and the
mapping stops the engine neither before nor after the route. -/
theorem order_independent_iff (r : Freed) (s : Engine) (rt : Route) (ln : LdeNbr) (map : Map)
    (hs : Reachable (step r) Engine.init s) (h : Arrives s rt ln map) :
    OrderIndependent r s rt map ln.peerid ↔
      s.lib.nbrFindByLsrid rt.fec.pwidLsrId = some ln ∧ s.BindingsLive ∧
        ¬AddsTwice s (mappingEvent map ln.peerid) ∧
        ¬AddsTwice (s.routed rt) (mappingEvent map ln.peerid) := by
  have hwf₀ := wf_of_reachable hs
  have hwf : (s.start true).Wf := ⟨hwf₀.table, hwf₀.routes, hwf₀.peers⟩
  have hlinked : (s.start true).lib.retained.Linked := retained_linked (s := s) hs
  have h₀ : Arrives (s.start true) rt ln map :=
    ⟨h.unknown, h.absent, h.nbr, h.serves, h.known, h.mapping, h.label⟩
  have hroute (t : Engine) : (step r (.parent rt.event)).run t = .ok () (t.routed rt) :=
    run_step_parent r rt.event t
  have hadded : Added rt (s.start true).lib (s.routed rt).lib := h₀.inserted hwf hlinked
  obtain ⟨hbefore, hchecked⟩ := run_mapping r hwf₀.routes h.nbr h.known
    (h.mapping.symm ▸ h.absent)
  have hnbr : (s.routed rt).lib.nbr? ln.peerid = some ln := by
    rw [Lib.nbr?, hadded.nbrs]
    exact h.nbr
  obtain ⟨hafter, hchecked'⟩ := run_mapping (s := s.routed rt) r hadded.sorted hnbr h.known
    (h.mapping.symm ▸ h.absent)
  have hlive : (s.routed rt).BindingsLive ↔ s.BindingsLive := by
    simp only [Engine.BindingsLive, Lib.nbr?, hadded.nbrs]
    rfl
  rw [hlive] at hafter
  constructor
  · rintro ⟨s₁, s₂, krs₁, krs₂, ⟨m₁, hm₁, hr₁, -⟩, ⟨m₂, hr₂, hm₂, -⟩, hlabel₁, -, -⟩
    rw [hroute] at hr₁ hr₂
    cases hr₁
    cases hr₂
    have hres := hchecked m₁ hm₁
    refine ⟨?_, (hbefore.mp ⟨m₁, hm₁⟩).2, (hbefore.mp ⟨m₁, hm₁⟩).1, (hafter.mp ⟨s₂, hm₂⟩).1⟩
    rcases h₀.mappingFirst hwf hlinked (m₁.start true).lib hres.ft hres.nbrs with
      ⟨hfound, -⟩ | ⟨-, hmissed⟩
    · exact hfound
    · exact absurd (Option.some.inj (hlabel₁.symm.trans hmissed)) h.label
  · rintro ⟨hfound, hlive, honce, honce'⟩
    obtain ⟨m₁, hm₁⟩ := hbefore.mpr ⟨honce, hlive⟩
    obtain ⟨s₂, hm₂⟩ := hafter.mpr ⟨honce', hlive⟩
    have hres := hchecked m₁ hm₁
    have hres' := hchecked' s₂ hm₂
    refine ⟨_, s₂, _, _, ⟨m₁, hm₁, hroute m₁, rfl⟩, ⟨_, hroute s, hm₂, rfl⟩, ?_⟩
    rcases h₀.mappingFirst hwf hlinked (m₁.start true).lib hres.ft hres.nbrs with
      ⟨-, hlabel, hklabels⟩ | ⟨hmissed, -⟩
    · obtain ⟨hlabel', hklabels'⟩ := h₀.routeFirst hwf hlinked
      refine ⟨hlabel, ?_, ?_⟩
      · rw [← hlabel', Route.remoteLabel, Lib.node?, hres'.ft]
        rfl
      · have hlast : s₂.lib.klabels = [rt.kroute map.label] := hres'.klabels.trans hklabels'
        have hfirst : (m₁.routed rt).lib.klabels = _ := hklabels
        rw [hlast, hfirst, ← append_assoc, rt.lastKlabel_append, rt.lastKlabel_append]
    · exact absurd hfound hmissed

end

/-- Neighbour 2 has the LSR-id 2.2.2.2 and the addresses 10.0.1.2 and fe80::2, and has joined an
LSP whose root is this router. -/
def rootNode : List Event :=
  [ .imsg true 2 (.neighborUp 0x02020202 true true),
    .imsg true 2 (.addressAdd ⟨.inet, .ofV4 0x0a000102⟩),
    .imsg true 2 (.addressAdd ⟨.inet6, ⟨0xfe800000, 0, 0, 2⟩⟩),
    .parent (.networkAdd .inet (.ofV4 0x0a000001) 32 0 (.ofV4 0) 10),
    mappingEvent { ldeFec2map (.ipv4 0x0a000001 40) with label := 100 } 2 ]

def rootState : Engine :=
  (play (step .lost) (fun _ _ => True) rootNode Engine.init).get (by decide +kernel)

def rootState.nbr : LdeNbr := (rootState.lib.nbr? 2).get (by decide +kernel)

theorem rootState_run : Run (step .lost) Engine.init (fun _ _ => True) rootNode rootState :=
  Run.of_play (by decide +kernel)

/-- 10.0.3.0/24 by way of 10.0.1.2 -/
def route4 : Route := ⟨.inet, .ofV4 0x0a000300, 24, 0, .ofV4 0x0a000102, 10⟩

/-- 2001:db8:0:0:202:202::/96 by way of fe80::2 -/
def route6 : Route := ⟨.inet6, ⟨0x20010db8, 0, 0x02020202, 0⟩, 96, 0, ⟨0xfe800000, 0, 0, 2⟩, 10⟩

/-- The mapping of the label 200 for a route. -/
def Route.map200 (rt : Route) : Map := { ldeFec2map rt.fec with label := 200 }

/-- For this prefix the lookup comes to neighbour 2 by chance. -/
theorem route6_order_independent :
    OrderIndependent .lost rootState route6 route6.map200 rootState.nbr.peerid := by
  have hroot (s : Engine) (hs : s.leaf = 2) (peerid : UInt32) :
      ¬AddsTwice s (mappingEvent route6.map200 peerid) := fun h => by
    obtain ⟨-, ln, -, -, -, hleaf, -⟩ := h
    exact hleaf hs
  have harrives : Arrives rootState route6 rootState.nbr route6.map200 := by
    constructor <;> decide +kernel
  refine (order_independent_iff .lost _ route6 _ _ rootState_run.reachable harrives).mpr
    ⟨by decide +kernel, ?_, hroot _ (by decide +kernel) _, hroot _ (by decide +kernel) _⟩
  unfold Engine.BindingsLive
  decide +kernel

theorem InOrder.play {e₁ e₂ : Event} {s₂ : Engine} {krs : List Kroute}
    (h : InOrder r s e₁ e₂ s₂ krs) : play (step r) (fun _ _ => True) [e₁, e₂] s = some s₂ := by
  obtain ⟨s₁, h₁, h₂, -⟩ := h
  simp [Kit.play, h₁, h₂]

/-- The mapping for an IPv4 route is retained and never installed. -/
theorem route4_mapping_lost : Arrives rootState route4 rootState.nbr route4.map200 ∧
    ¬OrderIndependent .lost rootState route4 route4.map200 rootState.nbr.peerid := by
  refine ⟨by constructor <;> decide +kernel, ?_⟩
  rintro ⟨s₁, s₂, krs₁, krs₂, hfirst, -, hlabel, -⟩
  have hlost : (play (step .lost) (fun _ _ => True)
      [mappingEvent route4.map200 rootState.nbr.peerid, .parent route4.event] rootState).map
        (fun s => route4.remoteLabel s.lib) = some (some noLabel) := by decide +kernel
  rw [hfirst.play, map_some, hlabel] at hlost
  cases hlost

end Mp2mp.Lde
