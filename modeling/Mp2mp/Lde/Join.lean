import Mp2mp.Lde.Invariants

/-!
# Mappings from downstream

What a label mapping from a neighbour that is not in the table for its LSP leads
to, in terms of the state before it.  `lde_check_mapping` puts the FEC of the LSP
into `ft`, and the route to the root is then the first node with the address of
the root: `Lib.rootRoute` says which node of the old `ft` that is, if any.

* `label_nbr_add_stops_iff`: when an event ends in the `fatalx` of `label_nbr_add`.
* `join_propagates_iff`: when a join is passed on towards the root.
-/

namespace Mp2mp.Lde

open Kit Ldpd List Option EStateM LdeNbr FecNode Engine

variable {r : Freed} {s s' : Engine} {l : Lib} {fec : Fec} {map : Map} {peerid : UInt32}
  {ln : LdeNbr} {q : UInt32} {root : InAddr} {x : LabelNbr} {ov : UInt8}

/-! ## The route to the root -/

/-- The node a mapping for `fec` takes as the route to the root: the first one
with the address, unless the FEC itself comes before it. -/
def Lib.rootRoute (l : Lib) (fec : Fec) : Option FecNode :=
  (firstRoute fec.ipv4Prefix l.ft).filter fun fn => fecCompare fec fn.fec != .lt

/-- The neighbour a mapping for `fec` is passed on to. -/
def Lib.upstream (l : Lib) (fec : Fec) : Option LdeNbr :=
  ((l.rootRoute fec).bind fun fn => fn.nexthops.head?).bind fun fnh =>
    l.nbrFindByAddr fnh.af fnh.nexthop

theorem firstRoute_fecAdd (hs : l.Sorted) (lsrIdView : InAddr) :
    firstRoute fec.ipv4Prefix (fecAdd fec lsrIdView l).ft =
      some ((l.rootRoute fec).getD ⟨fec, lsrIdView, [], [], [], noLabel, none⟩) := by
  have hfirst := hs.find?_insert (a := ⟨fec, lsrIdView, [], [], [], noLabel, none⟩)
    (p := fun k => k.ipv4Prefix == fec.ipv4Prefix) (fun k k' h => by rw [fecCompare_eq.mp h])
    (beq_self_eq_true _)
  rw [firstRoute, fecAdd, fecInsert, hfirst, Lib.rootRoute, firstRoute]
  cases l.ft.find? fun fn => fn.fec.ipv4Prefix == fec.ipv4Prefix with
  | none => rfl
  | some fn => cases h : fecCompare fec fn.fec <;> simp [Option.filter, h]

theorem upstream_mem {up : LdeNbr} (h : l.upstream fec = some up) : up ∈ l.nbrs := by
  obtain ⟨fnh, -, hfind⟩ := bind_eq_some_iff.mp h
  exact mem_of_find?_eq_some hfind

theorem FecNode.isLocal_eq {fn fn' : FecNode} (h : fn.route = fn'.route) :
    fn.isLocal = fn'.isLocal := by
  have hlocal (fn : FecNode) : fn.isLocal = fn.route.2.any fun nh => nh.2.1.v4 == 0 := by
    rw [route, List.any_map]
    rfl
  rw [hlocal, h, ← hlocal]

/-- The first node with the address of the root, after `lde_check_mapping`. -/
theorem firstRoute_ldeCheckMapping (map : Map) (hs : l.Sorted) (hln : l.nbr? peerid = some ln) :
    ∃ fn1, firstRoute (ldeMap2fec map ln.id).ipv4Prefix (ldeCheckMapping map peerid l).ft = some fn1 ∧
      fn1.isLocal = (l.rootRoute (ldeMap2fec map ln.id)).any isLocal := by
  have hsame : Same _ (ldeCheckMapping map peerid l) := ldeCheckMapping_same hln
  have hfirst := hsame.firstRoute (ldeMap2fec map ln.id).ipv4Prefix
  rw [firstRoute_fecAdd hs, map_some] at hfirst
  obtain ⟨fn1, hfn1, hroute⟩ := map_eq_some_iff.mp hfirst
  refine ⟨fn1, hfn1, (isLocal_eq hroute).trans ?_⟩
  cases l.rootRoute (ldeMap2fec map ln.id) <;> rfl

/-- The neighbour of the first nexthop, as the route has it. -/
def Lib.nexthopNbr (l : Lib) (route : Fec × List (Af × LdpdAddr × UInt8)) : Option LdeNbr :=
  route.2.head?.bind fun nh => l.nbrFindByAddr nh.1 nh.2.1

theorem Lib.nexthopNbr_route {l : Lib} {fn : FecNode} :
    l.nexthopNbr fn.route = fn.nexthops.head?.bind fun fnh => l.nbrFindByAddr fnh.af fnh.nexthop := by
  rw [nexthopNbr, route, head?_map, bind_map]
  rfl

theorem Same.nexthopNbr {l' : Lib} (h : Same l l') (route : Fec × List (Af × LdpdAddr × UInt8)) :
    (l'.nexthopNbr route).map view = (l.nexthopNbr route).map view := by
  unfold Lib.nexthopNbr
  cases route.2.head? with
  | none => rfl
  | some nh => exact h.nbrFindByAddr _ _

/-- The neighbour towards the root, after `lde_check_mapping`. -/
theorem towards_ldeCheckMapping (map : Map) (hs : l.Sorted) (hln : l.nbr? peerid = some ln) :
    ((ldeCheckMapping map peerid l).towards (ldeMap2fec map ln.id).ipv4Prefix).map view =
      (l.upstream (ldeMap2fec map ln.id)).map view := by
  have hsame : Same _ (ldeCheckMapping map peerid l) := ldeCheckMapping_same hln
  have hfirst := hsame.firstRoute (ldeMap2fec map ln.id).ipv4Prefix
  rw [firstRoute_fecAdd hs, map_some] at hfirst
  obtain ⟨fn1, hfn1, hroute⟩ := map_eq_some_iff.mp hfirst
  rw [Lib.towards, hfn1, bind_some, ← Lib.nexthopNbr_route, hroute, hsame.nexthopNbr, Lib.upstream]
  cases l.rootRoute (ldeMap2fec map ln.id) with
  | none => rfl
  | some fn =>
    rw [getD_some, bind_some, ← Lib.nexthopNbr_route]
    rfl

/-! ## The steps of a mapping -/

theorem run_step_labelMapping (r : Freed) (fresh : Bool) (hln : s.lib.nbr? peerid = some ln)
    (hmap : map.unknownAf = false) :
    (step r (.imsg fresh peerid (.labelMapping map))).run s =
      (labelMapping map ln).run (s.start fresh) := by
  have hln' : (s.start fresh).lib.nbr? peerid = some ln := hln
  rw [run_step_imsg, run_ldeDispatchImsg_nbr r peerid rfl, hln']
  dsimp only
  rw [if_neg]
  · rfl
  · rw [Imsg.unknownAf, hmap]
    exact Bool.false_ne_true

/-- The state once `lde_check_mapping` has seen the mapping. -/
def Engine.checked (s : Engine) (map : Map) (peerid : UInt32) : Engine :=
  { s with lib := ldeCheckMapping map peerid s.lib }

theorem run_labelMapping (map : Map) (ln : LdeNbr) (s : Engine) : (labelMapping map ln).run s = (do
        mldpMapping map ln.peerid (ldeMap2fec map ln.id)
        printWalk (← get).labelNbrs : LdeM Unit).run (s.checked map ln.peerid) := by
  rw [labelMapping, run_bind, run_modifyLib]
  rfl

theorem run_mldpMapping_new (hnew : s.Lacks peerid fec) :
    (mldpMapping map peerid fec).run s = (fromDownstream map peerid fec).run s := by
  simp only [mldpMapping, run_bind, run_get, hnew]

theorem run_mldpMapping_known {lnr : LabelNbr}
    (hlnr : labelNbrFind peerid fec s.labelNbrs = some lnr) :
    (mldpMapping map peerid fec).run s = (fromUpstream map lnr fec).run s := by
  simp only [mldpMapping, run_bind, run_get, hlnr]

/-! ## Keys that are in the table already -/

theorem mem_joined {leaf : Nat} {map : Map} (hnew : s.Lacks peerid fec) :
    x ∈ (s.joined leaf map peerid fec).labelNbrs ↔
      x = ⟨map.label, s.joinLabel fec, peerid, fec, .down⟩ ∨ x ∈ s.labelNbrs := by
  unfold Engine.Lacks at hnew
  rw [← s.withJoinLabel_labelNbrs fec] at hnew ⊢
  exact mem_withEntry hnew

/-- The key of the neighbour towards the root, once the one downstream is in the table. -/
theorem labelNbrFind_joined (leaf : Nat) (map : Map)
    (hnew : s.Lacks peerid fec) :
    (labelNbrFind q fec (s.joined leaf map peerid fec).labelNbrs).isSome ↔
      fec.type = .pwid ∨ q = peerid ∨ (labelNbrFind q fec s.labelNbrs).isSome := by
  simp only [labelNbrFind, Table.find_isSome, mem_joined hnew]
  constructor
  · rintro ⟨x, rfl | hx, hkey⟩
    · exact (labelNbrCompare_eq.mp hkey).2.imp_right .inl
    · exact .inr (.inr ⟨x, hx, hkey⟩)
  · rintro (htype | rfl | ⟨x, hx, hkey⟩)
    · exact ⟨_, .inl rfl, labelNbrCompare_eq.mpr ⟨rfl, .inl htype⟩⟩
    · exact ⟨_, .inl rfl, labelNbrCompare_eq.mpr ⟨rfl, .inr rfl⟩⟩
    · exact ⟨x, .inr hx, hkey⟩

theorem fault_fromDownstream (hnew : s.Lacks peerid fec) :
    fault (fromDownstream map peerid fec) s = some .labelNbrExists ↔
      (∃ fn1, firstRoute fec.ipv4Prefix s.lib.ft = some fn1 ∧ fn1.isLocal = false) ∧ s.leaf ≠ 2 ∧
        ∃ ln1, s.lib.towards fec.ipv4Prefix = some ln1 ∧ ln1.sent fec = false ∧
          (fec.type = .pwid ∨ ln1.peerid = peerid ∨
            (labelNbrFind ln1.peerid fec s.labelNbrs).isSome) := by
  simp only [← labelNbrFind_joined 0 map hnew]
  rw [fault, run_fromDownstream]
  cases firstRoute fec.ipv4Prefix s.lib.ft with
  | none => simp
  | some fn1 =>
    dsimp only
    by_cases hroot : fn1.isLocal = true ∨ s.leaf = 2
    · rw [if_pos hroot, run_joinAtRoot hnew]
      rcases hroot with hlocal | hleaf
      · simp [hlocal]
      · simp [hleaf]
    · rw [if_neg hroot, run_joinAtTransit hnew]
      push Not at hroot
      have hlocal : fn1.isLocal = false := Bool.eq_false_iff.mpr hroot.1
      simp only [Option.some.injEq, exists_eq_left', hlocal, ne_eq, hroot.2, not_false_eq_true,
        true_and]
      cases s.lib.towards fec.ipv4Prefix with
      | none => simp
      | some ln1 =>
        simp only [Option.some.injEq, exists_eq_left']
        by_cases hsent : ln1.sent fec = true
        · simp [hsent]
        · rw [if_neg hsent]
          by_cases hdup :
              (labelNbrFind ln1.peerid fec (s.joined 0 map peerid fec).labelNbrs).isSome = true
          · simp [hdup, hsent]
          · simp [hdup]

/-- The event makes `label_nbr_add` meet a key in the table: a command for an LSP the neighbour is
recorded for, or a join passed on to where it came from, or to a neighbour that is recorded but has
not been sent a mapping. -/
def AddsTwice (s : Engine) : Event → Prop
  | .imsg _ _ (.mldpAdd root ov) =>
    ∃ fn ∈ firstRoute root s.lib.ft, ∃ fnh ∈ fn.nexthops.getLast?,
      ∃ ln ∈ s.lib.nbrFindByAddr fnh.af fnh.nexthop,
        (labelNbrFind ln.peerid (Fec.ofV4 fn.fec.type root ov) s.labelNbrs).isSome
  | .imsg _ peerid (.labelMapping map) =>
    map.unknownAf = false ∧ ∃ ln ∈ s.lib.nbr? peerid,
      let fec := ldeMap2fec map ln.id
      labelNbrFind peerid fec s.labelNbrs = none ∧
        (s.lib.rootRoute fec).any FecNode.isLocal = false ∧ s.leaf ≠ 2 ∧
        ∃ up ∈ s.lib.upstream fec, up.sent fec = false ∧
          (fec.type = .pwid ∨ up.peerid = peerid ∨
            (labelNbrFind up.peerid fec s.labelNbrs).isSome)
  | _ => False

theorem emit_passive {o : Out} : Passive (modifyLib fun l => l.emit o) :=
  passive_modifyLib fun l => Keeps.emit (Keeps.refl l)

theorem Passive.fault_ne {x : LdeM Unit} (hx : Passive x) (s : Engine) :
    fault x s ≠ some .labelNbrExists := by
  intro h
  obtain ⟨s', hrun⟩ := fault_eq_some.mp h
  exact (hx s).of_error (Shrinks.refl s) hrun rfl

/-- What follows a program that does not stop in `label_nbr_add` decides. -/
theorem fault_bind_passive {α : Type} {x : LdeM α} {f : α → LdeM Unit} (hf : ∀ a, Passive (f a)) :
    fault (x >>= f) s = some .labelNbrExists ↔ fault x s = some .labelNbrExists := by
  rw [fault_eq_some, fault_eq_some]
  constructor
  · rintro ⟨s', hrun⟩
    rcases run_bind_error.mp hrun with hx | ⟨a, s₁, -, hrest⟩
    · exact ⟨s', hx⟩
    · exact absurd (fault_eq_some.mpr ⟨s', hrest⟩) ((hf a).fault_ne s₁)
  · rintro ⟨s', hx⟩
    exact ⟨s', run_bind_error.mpr (.inl hx)⟩

theorem fault_treeUp : fault (treeUp root ov) s = some .labelNbrExists ↔
      ∃ fn ∈ firstRoute root s.lib.ft, ∃ fnh ∈ fn.nexthops.getLast?,
        ∃ ln ∈ s.lib.nbrFindByAddr fnh.af fnh.nexthop,
          (labelNbrFind ln.peerid (Fec.ofV4 fn.fec.type root ov) s.labelNbrs).isSome := by
  rw [fault, run_treeUp]
  cases firstRoute root s.lib.ft with
  | none => simp
  | some fn =>
    simp only [mem_some_iff, exists_eq_left']
    cases fn.nexthops.getLast? with
    | none => simp
    | some fnh =>
      simp only [mem_some_iff, exists_eq_left']
      cases s.lib.nbrFindByAddr fnh.af fnh.nexthop with
      | none => simp
      | some ln =>
        simp only [mem_some_iff, exists_eq_left']
        by_cases hdup :
            (labelNbrFind ln.peerid (Fec.ofV4 fn.fec.type root ov) s.labelNbrs).isSome = true
        · simp [hdup]
        · simp [hdup]

/-- What the views say of the neighbour towards the root is so before and after
`lde_check_mapping`. -/
theorem exists_towards {p : NbrView → Prop} (map : Map)
    (hs : l.Sorted) (hln : l.nbr? peerid = some ln) :
    (∃ ln1, (ldeCheckMapping map peerid l).towards (ldeMap2fec map ln.id).ipv4Prefix = some ln1 ∧
      p ln1.view) ↔ ∃ up ∈ l.upstream (ldeMap2fec map ln.id), p up.view := by
  have hmap {o : Option LdeNbr} : (∃ ln1, o = some ln1 ∧ p ln1.view) ↔
      ∃ v, o.map view = some v ∧ p v := by
    cases o <;> simp
  simp only [mem_def]
  rw [hmap, towards_ldeCheckMapping map hs hln, hmap]

theorem fault_fromUpstream (map : Map) (lnr : LabelNbr) (fec : Fec) (s : Engine) :
    fault (fromUpstream map lnr fec) s ≠ some .labelNbrExists := by
  have hrun := run_fromUpstream map lnr fec s
  by_cases hleaf : s.leaf = 1
  · rw [fault, hrun]
    simp [hleaf]
  · dsimp only at hrun
    rw [if_neg hleaf] at hrun
    rw [fault_of_run_eq hrun]
    exact Passive.fault_ne (fun s₀ => (shrinks_carries s₀).fanOut _ _ _ _) _

theorem fault_labelMapping_mldp : fault (labelMapping map ln) s = some .labelNbrExists ↔
    fault (mldpMapping map ln.peerid (ldeMap2fec map ln.id)) (s.checked map ln.peerid) =
      some .labelNbrExists := by
  rw [fault_of_run_eq (run_labelMapping map ln s)]
  exact fault_bind_passive fun _ s₀ =>
    Carried.get fun a => (shrinks_carries s₀).printWalk a.labelNbrs

theorem fault_labelMapping (hs : s.RoutesSorted) (hln : s.lib.nbr? peerid = some ln) :
    fault (labelMapping map ln) s = some .labelNbrExists ↔
      let fec := ldeMap2fec map ln.id
      labelNbrFind peerid fec s.labelNbrs = none ∧
        (s.lib.rootRoute fec).any isLocal = false ∧ s.leaf ≠ 2 ∧
        ∃ up ∈ s.lib.upstream fec, up.sent fec = false ∧
          (fec.type = .pwid ∨ up.peerid = peerid ∨
            (labelNbrFind up.peerid fec s.labelNbrs).isSome) := by
  obtain ⟨-, rfl⟩ := Lib.peerid_of_nbr? hln
  rw [fault_labelMapping_mldp]
  cases hfind : labelNbrFind ln.peerid (ldeMap2fec map ln.id) s.labelNbrs with
  | some lnr =>
    rw [fault_of_run_eq (run_mldpMapping_known (s := s.checked map ln.peerid) hfind)]
    refine iff_of_false (fault_fromUpstream _ _ _ _) fun h => ?_
    exact some_ne_none lnr (hfind.symm.trans h.1)
  | none =>
    rw [fault_of_run_eq (run_mldpMapping_new (s := s.checked map ln.peerid) hfind),
      fault_fromDownstream (s := s.checked map ln.peerid) hfind]
    obtain ⟨fn1, hfn1, hlocal⟩ := firstRoute_ldeCheckMapping map hs hln
    have hroot : (∃ fn1, firstRoute (ldeMap2fec map ln.id).ipv4Prefix
        (s.checked map ln.peerid).lib.ft = some fn1 ∧ fn1.isLocal = false) ↔
        (s.lib.rootRoute (ldeMap2fec map ln.id)).any isLocal = false := by
      rw [← hlocal]
      constructor
      · rintro ⟨fn, hfn, h⟩
        cases hfn1.symm.trans hfn
        exact h
      · exact fun h => ⟨fn1, hfn1, h⟩
    have hup := exists_towards (p := fun v =>
      decide (ldeMap2fec map ln.id ∈ v.sentFecs) = false ∧
        ((ldeMap2fec map ln.id).type = .pwid ∨ v.peerid = ln.peerid ∨
          (labelNbrFind v.peerid (ldeMap2fec map ln.id) s.labelNbrs).isSome)) map hs hln
    simp only [← sent_eq] at hup
    rw [hroot]
    exact ⟨fun ⟨hl, hleaf, hex⟩ => ⟨hfind, hl, hleaf, hup.mp hex⟩,
      fun ⟨_, hl, hleaf, hex⟩ => ⟨hl, hleaf, hup.mpr hex⟩⟩

theorem fault_ldeNbrDel {r : Freed} {ln : LdeNbr} {s : Engine} :
    fault (ldeNbrDel r ln) s ≠ some .labelNbrExists := by
  intro h
  obtain ⟨s', hrun⟩ := fault_eq_some.mp h
  rcases run_bind_error.mp hrun with hfree | ⟨_, s₁, -, hrest⟩
  · cases hfree
  rcases run_bind_error.mp hrest with hsent | ⟨_, s₂, -, hdel⟩
  · have hmaps : Passive (ln.sentMap.forM (ldeMapDelSent r ln.peerid)) := fun s₀ =>
      .forM fun me _ => (shrinks_carries s₀).ldeMapDelSent r ln.peerid me
    exact hmaps.fault_ne s₁ (fault_eq_some.mpr ⟨s', hsent⟩)
  · cases hdel

theorem fault_dispatch_nbr {msg : Imsg} (hmsg : msg.forNbr) (hmap : ∀ map, msg ≠ .labelMapping map)
    (s : Engine) : fault (ldeDispatchImsg r peerid msg) s ≠ some .labelNbrExists := by
  have hrun := run_ldeDispatchImsg_nbr r peerid hmsg s
  cases hln : s.lib.nbr? peerid with
  | none =>
    rw [hln] at hrun
    rw [fault, hrun]
    simp
  | some ln =>
    rw [hln] at hrun
    dsimp only at hrun
    split at hrun
    · rw [fault, hrun]
      simp
    · rw [fault_of_run_eq hrun]
      by_cases hdown : msg = .neighborDown
      · rw [hdown]
        exact fault_ldeNbrDel
      · exact (nbrImsg_passive r ln hmap hdown).fault_ne s

theorem fault_dispatch_labelMapping (hs : s.RoutesSorted) :
    fault (ldeDispatchImsg r peerid (.labelMapping map)) s = some .labelNbrExists ↔
      AddsTwice s (.imsg true peerid (.labelMapping map)) := by
  have hmsg : (Imsg.labelMapping map).forNbr := rfl
  have hrun := run_ldeDispatchImsg_nbr r peerid hmsg s
  unfold AddsTwice
  cases hln : s.lib.nbr? peerid with
  | none =>
    rw [hln] at hrun
    rw [fault, hrun]
    simp [hln]
  | some ln =>
    rw [hln] at hrun
    simp only [hln, mem_some_iff, exists_eq_left']
    by_cases haf : map.unknownAf = true
    · rw [fault, hrun]
      simp [Imsg.unknownAf, haf]
    · dsimp only at hrun
      rw [if_neg (by exact haf)] at hrun
      rw [fault_of_run_eq hrun]
      exact (fault_labelMapping hs hln).trans (by simp [haf])

/-- An event ends in the `fatalx` of `label_nbr_add` in exactly these cases. -/
theorem label_nbr_add_stops_iff (r : Freed) (s : Engine) (e : Event)
    (hs : Reachable (step r) Engine.init s) :
    fault (step r e) s = some .labelNbrExists ↔ AddsTwice s e := by
  cases e with
  | parent e => exact iff_of_false nofun id
  | imsg fresh peerid msg =>
    rw [fault_of_run_eq (run_step_imsg r fresh peerid msg s)]
    cases msg with
    | labelMapping map =>
      exact fault_dispatch_labelMapping (s := s.start fresh) (wf_of_reachable hs).routes
    | mldpAdd root ov => exact (fault_bind_passive fun _ => emit_passive).trans fault_treeUp
    | mldpDel root ov =>
      refine iff_of_false (Passive.fault_ne (fun s₀ => ?_) _) id
      exact Carried.bind ((shrinks_carries s₀).treeDown r root ov) fun _ => emit_passive s₀
    | ctlShowLib =>
      refine iff_of_false (Passive.fault_ne (fun s₀ => Carried.get fun a => ?_) _) id
      exact Carried.bind ((shrinks_carries s₀).rtDump a.labelNbrs) fun _ => emit_passive s₀
    | neighborUp id v4 v6 =>
      refine iff_of_false (fun h => ?_) fun h => h
      unfold ldeDispatchImsg at h
      rw [fault, run_bind, run_get] at h
      dsimp only at h
      split at h
      · cases h
      · rename_i hstop
        split at hstop <;> cases hstop
        cases h
    | _ => exact iff_of_false (fault_dispatch_nbr rfl (by simp) _) id

/-- A leaf: neighbour 2 is the way to the root 10.0.0.1, and this router joins (10.0.0.1, 40). -/
def leafJoin : List Event :=
  [ .imsg true 2 (.neighborUp 0x02020202 true true),
    .imsg true 2 (.addressAdd ⟨.inet, .ofV4 0x0a000102⟩),
    .parent (.networkAdd .inet (.ofV4 0x0a000001) 32 0 (.ofV4 0x0a000102) 10),
    .imsg true 0 (.mldpAdd 0x0a000001 40) ]

/-- The same command again ends the process. -/
theorem leafJoin_again_stops : ∃ s, Run (step .lost) Engine.init (fun _ _ => True) leafJoin s ∧
      fault (step .lost (.imsg true 0 (.mldpAdd 0x0a000001 40))) s = some .labelNbrExists :=
  ⟨_, Run.of_play (by decide +kernel), by decide +kernel⟩

theorem leafJoin_again_addsTwice : ∃ s, Run (step .lost) Engine.init (fun _ _ => True) leafJoin s ∧
      AddsTwice s (.imsg true 0 (.mldpAdd 0x0a000001 40)) :=
  ⟨_, Run.of_play (by decide +kernel),
    (label_nbr_add_stops_iff .lost _ _ (Run.of_play (by decide +kernel)).reachable).mp
      (by decide +kernel)⟩

/-! ## Joins that are passed on -/

theorem nbr?_of_mem (hs : s.PeersDistinct) (hmem : ln ∈ s.lib.nbrs) :
    s.lib.nbr? ln.peerid = some ln := by
  cases hfind : s.lib.nbr? ln.peerid with
  | none =>
    have hlive : (s.lib.nbr? ln.peerid).isSome := Lib.nbr?_isSome.mpr (List.mem_map_of_mem hmem)
    rw [hfind] at hlive
    cases hlive
  | some ln' =>
    obtain ⟨hmem', hpeerid⟩ := Lib.peerid_of_nbr? hfind
    rw [inj_on_of_nodup_map hs hmem' hmem hpeerid]

theorem run_printWalk {t : List LabelNbr} :
    (printWalk t).run s = .ok () s' ↔ (∀ lnr ∈ t, (s.lib.nbr? lnr.peerid).isSome) ∧
      s' = { s with ln1 := t.foldl (fun _ lnr => some lnr.peerid) s.ln1 } := by
  induction t generalizing s with
  | nil =>
    rw [printWalk, run_pure]
    exact ⟨fun h => ⟨nofun, by cases h; rfl⟩, fun ⟨_, h⟩ => by rw [h]; rfl⟩
  | cons lnr rest ih =>
    rw [printWalk, run_bind, run_ldeNbrDeref]
    cases hln : s.lib.nbr? lnr.peerid with
    | none => simp [hln]
    | some ln =>
      simp only [run_bind, run_modify, ih, forall_mem_cons, hln, isSome_some, true_and, foldl_cons]

/-- A join of the LSP (root, ov) arrives from downstream, for the first time, and
`ft` has a route to the root through a neighbour that has not been sent a mapping. -/
structure JoinArrives (s : Engine) (root : InAddr) (ov : UInt8) (down up : LdeNbr) (map : Map) :
    Prop where
  map : MapFor map root ov
  nbr : s.lib.nbr? down.peerid = some down
  first : labelNbrFind down.peerid (.ipv4 root ov) s.labelNbrs = none
  route : ∃ fn fnh, s.lib.node? (.ipv4 root 32) = some fn ∧ fnh ∈ fn.nexthops ∧
    fnh.nexthop.v4 ≠ 0 ∧ s.lib.nbrFindByAddr fnh.af fnh.nexthop = some up
  enabled : up.v4Enabled = true
  unsent : up.sent (.ipv4 root ov) = false

/-- Both neighbours are recorded under one label, and the one mapping sent tells
it to the neighbour upstream. -/
def Propagated (s : Engine) (fec : Fec) (down up : LdeNbr) : Prop :=
  ∃ label map, ⟨label, down.peerid, fec, .down⟩ ∈ s.bindings ∧
    ⟨label, up.peerid, fec, .up⟩ ∈ s.bindings ∧
    s.lib.mappings = [(up.peerid, map)] ∧ ldeMap2fec map up.id = fec ∧ map.label = label

/-- The router is not a root, the first node that the join finds leads to the neighbour, which is
not where the join came from and has no entry yet, and the walk over the table finds every
neighbour. -/
structure WayOpen (s : Engine) (fec : Fec) (down up : LdeNbr) : Prop where
  role : s.leaf ≠ 2
  remote : (s.lib.rootRoute fec).any FecNode.isLocal = false
  upstream : s.lib.upstream fec = some up
  other : up.peerid ≠ down.peerid
  absent : labelNbrFind up.peerid fec s.labelNbrs = none
  live : s.BindingsLive

/-- How a mapping ends. -/
theorem run_labelMapping_ok : (labelMapping map ln).run s = .ok () s' ↔
      ∃ s₂, (mldpMapping map ln.peerid (ldeMap2fec map ln.id)).run (s.checked map ln.peerid) =
          .ok () s₂ ∧ s₂.BindingsLive ∧
        s' = { s₂ with ln1 := s₂.labelNbrs.foldl (fun _ lnr => some lnr.peerid) s₂.ln1 } := by
  rw [run_labelMapping, run_bind_ok]
  constructor
  · rintro ⟨_, s₂, hmldp, hprint⟩
    exact ⟨s₂, hmldp, run_printWalk.mp hprint⟩
  · rintro ⟨s₂, hmldp, hprint⟩
    exact ⟨(), s₂, hmldp, run_printWalk.mpr hprint⟩

theorem run_labelMapping_new (hnew : labelNbrFind ln.peerid (ldeMap2fec map ln.id) s.labelNbrs = none) :
    (labelMapping map ln).run s = .ok () s' ↔
      ∃ s₂, (fromDownstream map ln.peerid (ldeMap2fec map ln.id)).run (s.checked map ln.peerid) =
          .ok () s₂ ∧ s₂.BindingsLive ∧
        s' = { s₂ with ln1 := s₂.labelNbrs.foldl (fun _ lnr => some lnr.peerid) s₂.ln1 } := by
  rw [run_labelMapping_ok, run_mldpMapping_new (s := s.checked map ln.peerid) hnew]

section

theorem mappings_sendOnce {label : UInt32} {l : Lib} :
    ∃ sent, (sendOnce peerid (.ipv4 root ov) label l).mappings = l.mappings ++ sent ∧
      ∀ x ∈ sent, x.1 = peerid := by
  unfold sendOnce
  cases hln : l.nbr? peerid with
  | none => exact ⟨[], (append_nil _).symm, nofun⟩
  | some ln =>
    dsimp only
    split
    · exact ⟨[], (append_nil _).symm, nofun⟩
    · refine ⟨_, mappings_sendTemporary label .freed hln, ?_⟩
      cases ln.v4Enabled <;> simp

/-- The state once a join is passed on to `up`. -/
def Engine.passedOn (s : Engine) (map : Map) (peerid : UInt32) (fec : Fec) (up : UInt32) : Engine :=
  { (s.joined 0 map peerid fec).withEntry ⟨noLabel, s.joinLabel fec, up, fec, .up⟩ with
    lib := ldeSendLabelmapping up (temporaryNode fec (s.joinLabel fec)) true .freed s.lib }

theorem mem_passedOn {up : UInt32} (hnew : s.Lacks peerid fec)
    (habsent : labelNbrFind up fec (s.joined 0 map peerid fec).labelNbrs = none) :
    x ∈ (s.passedOn map peerid fec up).labelNbrs ↔
      x = ⟨noLabel, s.joinLabel fec, up, fec, .up⟩ ∨
        x = ⟨map.label, s.joinLabel fec, peerid, fec, .down⟩ ∨ x ∈ s.labelNbrs := by
  rw [← mem_joined hnew]
  exact mem_withEntry habsent

/-- A mapping from downstream is answered, or it is passed on. -/
theorem fromDownstream_cases (hnew : labelNbrFind peerid (.ipv4 root ov) s.labelNbrs = none)
    (hln : s.lib.nbr? peerid = some ln)
    (hrun : (fromDownstream map peerid (.ipv4 root ov)).run s = .ok () s') :
    (s'.labelNbrs = (s.joined 0 map peerid (.ipv4 root ov)).labelNbrs ∧
      ∃ sent, s'.lib.mappings = s.lib.mappings ++ sent ∧ ∀ x ∈ sent, x.1 = peerid) ∨
    ((∃ fn1, firstRoute root s.lib.ft = some fn1 ∧ fn1.isLocal = false) ∧ s.leaf ≠ 2 ∧
      ∃ ln1, s.lib.towards root = some ln1 ∧ ln1.sent (.ipv4 root ov) = false ∧
        labelNbrFind ln1.peerid (.ipv4 root ov) (s.joined 0 map peerid (.ipv4 root ov)).labelNbrs =
          none ∧
        s' = s.passedOn map peerid (.ipv4 root ov) ln1.peerid) := by
  rw [run_fromDownstream] at hrun
  split at hrun
  · cases hrun
  · rename_i fn1 hfn1
    split at hrun
    · rw [run_joinAtRoot hnew] at hrun
      cases hrun
      refine .inl ⟨?_, mappings_sendOnce⟩
      rw [joined_labelNbrs, joined_labelNbrs]
    · rename_i hroot
      push Not at hroot
      rw [run_joinAtTransit hnew] at hrun
      dsimp only at hrun
      split at hrun
      · cases hrun
        refine .inl ⟨rfl, [], ?_, nofun⟩
        rw [append_nil, joined_lib]
      · rename_i ln1 hln1
        split at hrun
        · cases hrun
          refine .inl ⟨rfl, _, mappings_sendTemporary _ .freed hln, ?_⟩
          cases ln.v4Enabled <;> simp
        · rename_i hsent
          split at hrun
          · cases hrun
          · rename_i hdup
            cases hrun
            exact .inr ⟨⟨fn1, hfn1, Bool.eq_false_iff.mpr hroot.1⟩, hroot.2, ln1, hln1,
              Bool.eq_false_iff.mpr hsent, not_isSome_iff_eq_none.mp hdup, rfl⟩

theorem run_fromDownstream_up (map : Map) {fn1 : FecNode} {ln1 : LdeNbr}
    (hnew : s.Lacks peerid fec)
    (hfn1 : firstRoute fec.ipv4Prefix s.lib.ft = some fn1) (hlocal : fn1.isLocal = false)
    (hleaf : s.leaf ≠ 2) (hln1 : s.lib.towards fec.ipv4Prefix = some ln1)
    (hsent : ln1.sent fec = false)
    (habsent : labelNbrFind ln1.peerid fec (s.joined 0 map peerid fec).labelNbrs = none) :
    (fromDownstream map peerid fec).run s = .ok () (s.passedOn map peerid fec ln1.peerid) := by
  rw [run_fromDownstream, hfn1]
  dsimp only
  rw [if_neg (by simp [hlocal, hleaf]), run_joinAtTransit hnew, hln1]
  simp only [hsent, Bool.false_eq_true, if_false, habsent, isSome_none, passedOn]

theorem checked_nbr? (map : Map) (hln : s.lib.nbr? peerid = some ln) (q : UInt32) :
    ((s.checked map peerid).lib.nbr? q).map view = (s.lib.nbr? q).map view :=
  (ldeCheckMapping_same hln).nbr? q

theorem checked_some (map : Map) (hln : s.lib.nbr? peerid = some ln) {ln' : LdeNbr}
    (hq : s.lib.nbr? q = some ln') :
    ∃ ln₁, (s.checked map peerid).lib.nbr? q = some ln₁ ∧ ln₁.view = ln'.view :=
  map_eq_some_iff.mp
    ((checked_nbr? map hln q).trans (congrArg (Option.map view) hq))

theorem checked_isSome (map : Map) (hln : s.lib.nbr? peerid = some ln) (q : UInt32) :
    ((s.checked map peerid).lib.nbr? q).isSome ↔ (s.lib.nbr? q).isSome := by
  rw [← isSome_map (f := view), checked_nbr? map hln, isSome_map]

/-- Every mapping that is sent after a join is passed on goes upstream. -/
theorem mappings_passedOn (map : Map) (peerid : UInt32) {up : UInt32} (hup : s.lib.nbr? up = some ln) :
    (s.passedOn map peerid (.ipv4 root ov) up).lib.mappings = s.lib.mappings ++
      if ln.v4Enabled then [(up, ln.mldpMap (.ipv4 root ov) (s.joinLabel (.ipv4 root ov)))] else [] :=
  mappings_sendTemporary _ _ hup

theorem nbr?_passedOn (up q : UInt32) :
    ((s.passedOn map peerid fec up).lib.nbr? q).isSome ↔ (s.lib.nbr? q).isSome := by
  rw [Lib.nbr?_isSome, Lib.nbr?_isSome, passedOn, (ldeSendLabelmapping_keeps _ _ _ _ _).peers]

variable {down up : LdeNbr}

theorem JoinArrives.up_mem (h : JoinArrives s root ov down up map) : up ∈ s.lib.nbrs := by
  obtain ⟨fn, fnh, -, -, -, hfind⟩ := h.route
  exact mem_of_find?_eq_some hfind

theorem JoinArrives.mappings (h : JoinArrives s root ov down up map) (hout : s.lib.mappings = []) :
    (s.checked map down.peerid).lib.mappings = [] :=
  (mappings_ldeCheckMapping h.nbr h.map).trans hout

theorem propagated_of_wayOpen (hs : s.Wf) (h : JoinArrives s root ov down up map)
    (hout : s.lib.mappings = []) (hway : WayOpen s (.ipv4 root ov) down up) :
    ∃ s', (labelMapping map down).run s = .ok () s' ∧ Propagated s' (.ipv4 root ov) down up := by
  have hfec : ldeMap2fec map down.id = .ipv4 root ov := h.map.fec down.id
  obtain ⟨fn1, hfn1, hlocal⟩ := firstRoute_ldeCheckMapping map hs.routes h.nbr
  obtain ⟨ln1, hln1, hview⟩ := (exists_towards (p := fun v => v = up.view) map hs.routes h.nbr).mpr
    ⟨up, by rw [hfec]; exact hway.upstream, rfl⟩
  rw [hfec] at hfn1 hlocal hln1
  have hpeerid : ln1.peerid = up.peerid := congrArg NbrView.peerid hview
  have hsent : ln1.sent (.ipv4 root ov) = false := by
    rw [sent_eq, hview, ← sent_eq]
    exact h.unsent
  have habsent : labelNbrFind ln1.peerid (.ipv4 root ov)
      ((s.checked map down.peerid).joined 0 map down.peerid (.ipv4 root ov)).labelNbrs = none := by
    rw [← not_isSome_iff_eq_none, hpeerid,
      labelNbrFind_joined (s := s.checked map down.peerid) 0 map h.first]
    rintro (htype | hself | hdup)
    · cases htype
    · exact hway.other hself
    · exact absurd hway.absent (isSome_iff_ne_none.mp hdup)
  have hrun := run_fromDownstream_up (s := s.checked map down.peerid) map h.first hfn1
    (hlocal.trans hway.remote) hway.role hln1 hsent habsent
  rw [hpeerid] at hrun habsent
  have hup : s.lib.nbr? up.peerid = some up := nbr?_of_mem hs.peers h.up_mem
  obtain ⟨up', hup', hview'⟩ := checked_some map h.nbr hup
  have hv4 : up'.v4Enabled = true := (congrArg NbrView.v4Enabled hview').trans h.enabled
  have hmem (x : LabelNbr) := mem_passedOn (x := x) (s := s.checked map down.peerid) h.first habsent
  refine ⟨_, (run_labelMapping_new (by rw [hfec]; exact h.first)).mpr
    ⟨_, by rw [hfec]; exact hrun, fun lnr hlnr => ?_, rfl⟩,
    (s.checked map down.peerid).joinLabel (.ipv4 root ov), up'.mldpMap (.ipv4 root ov) _,
    ?_, ?_, ?_, (up'.mldpMap_for root ov _).fec _, up'.mldpMap_label _ _⟩
  · rw [nbr?_passedOn, checked_isSome map h.nbr]
    rcases (hmem lnr).mp hlnr with rfl | rfl | hold
    · rw [hup]; rfl
    · rw [h.nbr]; rfl
    · exact hway.live lnr hold
  · exact List.mem_map.mpr ⟨_, (hmem _).mpr (.inr (.inl rfl)), rfl⟩
  · exact List.mem_map.mpr ⟨_, (hmem _).mpr (.inl rfl), rfl⟩
  · refine (mappings_passedOn map down.peerid hup').trans ?_
    rw [h.mappings hout, hv4]
    rfl

theorem wayOpen_of_propagated (hs : s.Wf) (h : JoinArrives s root ov down up map)
    (hout : s.lib.mappings = []) (hrun : (labelMapping map down).run s = .ok () s')
    (hprop : Propagated s' (.ipv4 root ov) down up) : WayOpen s (.ipv4 root ov) down up := by
  have hfec : ldeMap2fec map down.id = .ipv4 root ov := h.map.fec down.id
  obtain ⟨s₂, hdown, hlive, rfl⟩ := (run_labelMapping_new (by rw [hfec]; exact h.first)).mp hrun
  rw [hfec] at hdown
  obtain ⟨label, sentMap, -, hentry, hsent, -, -⟩ := hprop
  obtain ⟨lnr, hlnr, hbinding⟩ := List.mem_map.mp hentry
  obtain ⟨down', hdown', -⟩ := checked_some map h.nbr h.nbr
  rcases fromDownstream_cases (s := s.checked map down.peerid) h.first hdown' hdown with
    ⟨hnbrs, sent, hmaps, hback⟩ | ⟨⟨fn1, hfn1, hlocal⟩, hleaf, ln1, hln1, hunsent, habsent, rfl⟩
  · -- the mapping went back, so `up` would have to be the neighbour it came from
    exfalso
    have hself : up.peerid = down.peerid := by
      refine hback (up.peerid, sentMap) ?_
      have hsent' : s₂.lib.mappings = [(up.peerid, sentMap)] := hsent
      rw [hmaps, h.mappings hout, nil_append] at hsent'
      rw [hsent']
      exact mem_singleton_self _
    rw [hnbrs, mem_joined (s := s.checked map down.peerid) h.first] at hlnr
    rcases hlnr with rfl | hold
    · cases congrArg Binding.type hbinding
    · have hpeer : lnr.peerid = up.peerid := congrArg Binding.peerid hbinding
      have hlsp : lnr.fec = .ipv4 root ov := congrArg Binding.fec hbinding
      refine Table.find_eq_none.mp h.first lnr hold (labelNbrCompare_eq.mpr ⟨hlsp.symm, .inr ?_⟩)
      rw [hpeer, hself]
  · obtain ⟨fn1', hfn1', hlocal'⟩ := firstRoute_ldeCheckMapping map hs.routes h.nbr
    rw [hfec] at hfn1' hlocal'
    cases hfn1.symm.trans hfn1'
    obtain ⟨up₀, hup₀, hview⟩ :=
      (exists_towards (p := fun v => v = ln1.view) map hs.routes h.nbr).mp
        ⟨ln1, by rw [hfec]; exact hln1, rfl⟩
    rw [hfec] at hup₀
    obtain ⟨ln1', hln1', -⟩ := checked_some map h.nbr (nbr?_of_mem hs.peers (upstream_mem hup₀))
    have hpeer₀ : up₀.peerid = ln1.peerid := congrArg NbrView.peerid hview
    rw [hpeer₀] at hln1'
    have hpeer : ln1.peerid = up.peerid := by
      have hsent' := (mappings_passedOn map down.peerid hln1').symm.trans hsent
      rw [h.mappings hout, nil_append] at hsent'
      split at hsent'
      · exact congrArg Prod.fst (List.cons.inj hsent').1
      · cases hsent'
    have hup : up₀ = up :=
      inj_on_of_nodup_map hs.peers (upstream_mem hup₀) h.up_mem (hpeer₀.trans hpeer)
    have hfree := (labelNbrFind_joined (s := s.checked map down.peerid) 0 map h.first).not.mp
      (not_isSome_iff_eq_none.mpr habsent)
    push Not at hfree
    rw [hpeer] at hfree
    refine ⟨hleaf, hlocal'.symm.trans hlocal, hup ▸ hup₀, hfree.2.1,
      not_isSome_iff_eq_none.mp hfree.2.2, fun lnr hlnr => ?_⟩
    have hmem := (mem_passedOn (x := lnr) (s := s.checked map down.peerid) h.first habsent).mpr
      (.inr (.inr hlnr))
    exact (checked_isSome map h.nbr _).mp ((nbr?_passedOn _ _).mp (hlive lnr hmem))

end

/-- A join is passed on towards the root exactly when the way is open. -/
theorem join_propagates_iff (r : Freed) (s : Engine) (fresh : Bool) (root : InAddr) (ov : UInt8)
    (down up : LdeNbr) (map : Map) (hs : Reachable (step r) Engine.init s)
    (h : JoinArrives s root ov down up map) :
    (∃ s', (step r (.imsg fresh down.peerid (.labelMapping map))).run s = .ok () s' ∧
      Propagated s' (.ipv4 root ov) down up) ↔ WayOpen s (.ipv4 root ov) down up := by
  have hwf := wf_of_reachable hs
  have hwf₀ : (s.start fresh).Wf := ⟨hwf.table, hwf.routes, hwf.peers⟩
  have h₀ : JoinArrives (s.start fresh) root ov down up map :=
    ⟨h.map, h.nbr, h.first, h.route, h.enabled, h.unsent⟩
  rw [run_step_labelMapping r fresh h.nbr h.map.unknownAf]
  constructor
  · rintro ⟨s', hrun, hprop⟩
    obtain ⟨role, remote, upstream, other, absent, live⟩ :=
      wayOpen_of_propagated hwf₀ h₀ rfl hrun hprop
    exact ⟨role, remote, upstream, other, absent, live⟩
  · rintro ⟨role, remote, upstream, other, absent, live⟩
    exact propagated_of_wayOpen hwf₀ h₀ rfl ⟨role, remote, upstream, other, absent, live⟩

/-- The two neighbours of the transit node. -/
def transitDown : LdeNbr := ⟨1, 0x01010101, true, true, [], [], [], [], [], []⟩

def transitUp : LdeNbr :=
  ⟨2, 0x02020202, true, true, [], [], [], [], [], [⟨.inet, .ofV4 0x0a000102⟩]⟩

/-- The state the transit node is in before the first join. -/
def transitState : Engine :=
  (play (step .lost) (fun _ _ => True) transitNode Engine.init).get (by decide +kernel)

theorem transitState_run :
    Run (step .lost) init (fun _ _ => True) transitNode transitState :=
  Run.of_play _

theorem transitState_join :
    JoinArrives transitState 0x0a000001 ov transitDown transitUp
      { ldeFec2map (.ipv4 0x0a000001 ov) with label := 100 } where
  map := ⟨rfl, rfl, rfl, rfl⟩
  nbr := by decide +kernel
  first := rfl
  route :=
    ⟨⟨.ipv4 0x0a000001 32, 0, [⟨.inet, .ofV4 0x0a000102, noLabel, 10⟩], [], [], noLabel, none⟩,
      ⟨.inet, .ofV4 0x0a000102, noLabel, 10⟩, by decide +kernel, by decide +kernel,
      by decide +kernel, by decide +kernel⟩
  enabled := rfl
  unsent := rfl

/-- The join of (10.0.0.1, 40) is passed on to neighbour 2. -/
theorem transitState_propagates : ∃ s', (step .lost (joinFrom1 40)).run transitState = .ok () s' ∧
      Propagated s' (.ipv4 0x0a000001 40) transitDown transitUp :=
  (join_propagates_iff .lost transitState true _ 40 transitDown transitUp _
    transitState_run.reachable transitState_join).mpr
    ⟨by decide +kernel, by decide +kernel, by decide +kernel, by decide +kernel, by decide +kernel,
      by decide +kernel⟩

/-- The join of (10.0.0.1, 8) is not: its FEC comes before the route to the root. -/
theorem transitState_swallows_join : Reachable (step .lost) Engine.init transitState ∧
      JoinArrives transitState 0x0a000001 8 transitDown transitUp
        { ldeFec2map (.ipv4 0x0a000001 8) with label := 100 } ∧
      ∃ s', (step .lost (joinFrom1 8)).run transitState = .ok () s' ∧
        ¬Propagated s' (.ipv4 0x0a000001 8) transitDown transitUp := by
  refine ⟨transitState_run.reachable, transitState_join, _, run_eq_final (by decide +kernel), ?_⟩
  rintro ⟨label, map, -, -, hsent, -, -⟩
  have hnone : (final (step .lost (joinFrom1 8)) transitState).lib.mappings = [] := by decide +kernel
  rw [hnone] at hsent
  cases hsent

end Mp2mp.Lde
