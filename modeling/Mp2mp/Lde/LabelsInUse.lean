import Mp2mp.Lde.Retention

/-!
# Labels in use

A nexthop of a route carries the label the neighbour it belongs to has sent for the
route.  The label is written down twice, at the nexthop and among the received maps of
the neighbour, and every event has to keep the two in step.

* `step_retained`: what an event does to the retained mappings.
* `no_stale_label`: in a run in which no wildcard withdraw is for a label in use and no
  address of a nexthop in use is withdrawn, every label in use is one that a
  neighbour has sent and not withdrawn.
-/

namespace Mp2mp.Lde

open Kit Ldpd List Option Retained Table

variable {r : Freed} {s s' : Engine} {a b : Retained} {l : Lib} {ln : LdeNbr} {af : Af} {e : Event}
  {nh : FecNh} {peerid label : UInt32} {addr : LdpdAddr} {fec : Fec}

/-! ## Programs that retain what was retained -/

def Engine.Retains (a : Retained) (s : Engine) : Prop := s.lib.retained = a

theorem retains_modifyLib {f : Lib → Lib} (h : ∀ l, (f l).retained = l.retained) :
    Stable (Engine.Retains a) (modifyLib f) :=
  .modify fun s hs => (h s.lib).trans hs

/-- Neighbours that differ in their sent maps only retain the same. -/
theorem retained_relink {prev : MapPrev} {l : Lib} :
    (relink peerid fec prev l).retained = l.retained := by
  let f (ln : LdeNbr) : LdeNbr :=
    { ln with
      sentMap := ln.sentMap.map fun me =>
        if me.fec = fec ∧ me.prev = .entry peerid then { me with prev := prev } else me }
  have hnbr (q : UInt32) : (relink peerid fec prev l).nbr? q = (l.nbr? q).map f := by
    rw [Lib.nbr?_eq, Lib.nbr?_eq]
    exact find?_map
  refine Retained.ext (funext₂ fun q g => ?_) (funext₃ fun q af addr => ?_) rfl rfl
  all_goals
    simp only [Lib.retained, hnbr]
    cases l.nbr? q <;> rfl

theorem retained_releaseWdraw {map : Map} {l : Lib} :
    (releaseWdraw map peerid fec l).retained = l.retained := by
  unfold releaseWdraw
  split
  · rfl
  · split
    · exact retained_modNbr fun _ => ⟨rfl, rfl, rfl⟩
    · rfl

theorem Engine.Retains.withLib (hs : s.Retains a) (hl : l.retained = s.lib.retained) :
    Engine.Retains a { s with lib := l } :=
  hl.trans hs

theorem retains_onLib {a : Retained} : OnLib (Engine.Retains a) where
  fault _ _ := trivial
  emit _ _ _ hs := hs
  withdraw s peerid label hs := by
    refine hs.withLib (Eq.trans (retained_modNbr ?_) rfl)
    exact fun _ => ⟨rfl, rfl, rfl⟩
  release _ _ _ hs := hs
  del _ _ hs := hs
  leaf _ _ hs := hs
  ln1 _ _ hs := hs
  unsend _ _ _ hs := hs.withLib (retained_modNbr fun _ => ⟨rfl, rfl, rfl⟩)
  upstream _ _ _ hs := hs.withLib (retained_modNode fun _ => ⟨rfl, rfl, rfl⟩)
  relink s _ _ _ hs := hs.withLib retained_relink
  releaseWdraw s _ _ _ hs := hs.withLib retained_releaseWdraw
  mapping s _ _ hs := hs.withLib (retained_ldeSendLabelmapping _ _ _ _ s.lib)
  link _ _ _ _ hs := hs.withLib (retained_modNbr fun _ => ⟨rfl, rfl, rfl⟩)
  only _ _ hlib hs := (congrArg Lib.retained hlib).trans hs

/-! ## What an event does -/

theorem retained_readdress {f : LdeNbr → LdeNbr}
    (hln : l.nbr? peerid = some ln) (hpeerid : ∀ ln, (f ln).peerid = ln.peerid)
    (hrecv : ∀ ln, (f ln).recvMap = ln.recvMap) :
    (l.modNbr peerid f).retained =
      l.retained.readdress peerid fun af addr => (ldeAddressFind (f ln) af addr).isSome := by
  refine Retained.ext (funext₂ fun q g => ?_) (funext₃ fun q af addr => ?_) rfl rfl
  all_goals
    simp only [Lib.retained, l.nbr?_modNbr_eq peerid q hpeerid, readdress]
    by_cases hq : q = peerid
    · subst hq
      simp only [if_true, hln, map_some, bind_some, any_some, hrecv]
    · simp only [if_neg hq]

theorem ldeAddressFind_add {x : LdeAddr} (h : (ldeAddressFind ln af addr).isSome) :
    (ldeAddressFind (ldeAddressAdd x ln) af addr).isSome := by
  unfold ldeAddressAdd
  split
  · exact h
  · simp only [ldeAddressFind, find?_append] at h ⊢
    rw [isSome_or, h]
    rfl

theorem ldpAddrcmp_trans {x y z : LdpdAddr} (hx : ldpAddrcmp af y x = .eq)
    (hz : ldpAddrcmp af y z = .eq) : ldpAddrcmp af x z = .eq := by
  cases af with
  | inet =>
    simp only [ldpAddrcmp, Std.LawfulEqCmp.compare_eq_iff_eq] at hx hz ⊢
    exact hx.symm.trans hz
  | inet6 =>
    simp only [ldpAddrcmp, memcmp16_eq] at hx hz ⊢
    exact hx.symm.trans hz

theorem ldeAddressFind_del {x : LdeAddr} (h : (ldeAddressFind ln af addr).isSome) :
    (ldeAddressFind (ldeAddressDel x ln) af addr).isSome ∨
      af = x.af ∧ ldpAddrcmp af addr x.addr = .eq := by
  obtain ⟨y, hy⟩ := isSome_iff_exists.mp h
  have hmem := mem_of_find?_eq_some hy
  have hfound := find?_some hy
  simp only [Bool.and_eq_true, beq_iff_eq] at hfound
  unfold ldeAddressDel
  split
  · exact .inl h
  · rename_i z hz
    by_cases hyz : y = z
    · subst hyz
      have hdel := find?_some hz
      simp only [Bool.and_eq_true, beq_iff_eq] at hdel
      have haf : af = x.af := hfound.1.symm.trans hdel.1
      refine .inr ⟨haf, ldpAddrcmp_trans hfound.2 ?_⟩
      rw [haf]
      exact hdel.2
    · refine .inl (find?_isSome.mpr ⟨y, (mem_erase_of_ne hyz).mpr hmem, ?_⟩)
      simpa using hfound

theorem retained_freeRecvMaps (hln : l.nbr? ln.peerid = some ln) : (freeRecvMaps ln l).retained =
      l.retained.clear ln.peerid (l.ft.map FecNode.fec) (ln.recvMap.map LdeMap.fec) := by
  have huninstall (fec : Fec) (l : Lib) (hreads : ReadsAs ln l.retained) :
      (l.eachNh fec (uninstallNbr ln)).retained = l.retained.relabel ln.peerid fec noLabel := by
    refine retained_walk hreads (fun hroute fn fnh l hfn => ?_) fun hpw fn fnh l hfn => ?_
    · subst hfn
      unfold uninstallNbr
      split
      · rename_i heq
        rw [heq] at hroute
        cases hroute
      · split
        · exact retained_uninstallNh fn fnh l
        · rfl
    · subst hfn
      have hnh (l : Lib) : (uninstallNh fn fnh l).retained = l.retained := by
        rw [retained_uninstallNh, relabelIf_of_nil (nexthops_of_not_route hpw l)]
      unfold uninstallNbr
      split
      · split
        · rw [hnh]
          split <;> rfl
        · rfl
      · split
        · exact hnh l
        · rfl
  have hroutes (fecs : List Fec) (l : Lib) (hreads : ReadsAs ln l.retained) :
      (fecs.foldl (fun l fec => l.eachNh fec (uninstallNbr ln)) l).retained =
        fecs.foldl (fun a fec => a.relabel ln.peerid fec noLabel) l.retained := by
    induction fecs generalizing l with
    | nil => rfl
    | cons fec fecs ih =>
      have heq := huninstall fec l hreads
      rw [foldl_cons, ih, heq, foldl_cons]
      rw [heq]
      exact hreads.relabel fec noLabel
  have hmaps (fecs : List Fec) (l : Lib) :
      (fecs.foldl (fun l fec => ldeMapDelRecv ln.peerid fec l) l).retained =
        fecs.foldl (fun a fec => a.forget ln.peerid fec) l.retained := by
    induction fecs generalizing l with
    | nil => rfl
    | cons fec fecs ih => rw [foldl_cons, ih, retained_ldeMapDelRecv, foldl_cons]
  unfold freeRecvMaps clear
  rw [hmaps, hroutes _ l (ReadsAs.of_nbr? hln)]

theorem nbr?_removeNbr (peerid : UInt32) (l : Lib) (q : UInt32) :
    ({ l with nbrs := remove ldeNbrCompare LdeNbr.peerid peerid l.nbrs } : Lib).nbr? q =
      if q = peerid then none else l.nbr? q := by
  split
  · rename_i hq
    rw [hq]
    exact find_remove_self peerid l.nbrs
  · rename_i hq
    refine find_remove_of_ne (fun ln h h' => hq ?_) l.nbrs
    exact (ldeNbrCompare_eq.mp h').trans (ldeNbrCompare_eq.mp h).symm

theorem retained_removeNbr (peerid : UInt32) (l : Lib) :
    ({ l with nbrs := remove ldeNbrCompare LdeNbr.peerid peerid l.nbrs } : Lib).retained =
      l.retained.drop peerid := by
  refine Retained.ext (funext₂ fun q g => ?_) (funext₃ fun q af addr => ?_) rfl rfl
  all_goals
    simp only [Lib.retained, nbr?_removeNbr, Retained.drop]
    split <;> rfl

theorem retained_ldeNbrDel (hln : s.lib.nbr? ln.peerid = some ln)
    (hrun : (ldeNbrDel r ln).run s = .ok () s') :
    s'.lib.retained = (s.lib.retained.clear ln.peerid (s.lib.ft.map FecNode.fec)
      (ln.recvMap.map LdeMap.fec)).drop ln.peerid := by
  unfold ldeNbrDel at hrun
  obtain ⟨_, s₁, hfree, hrest⟩ := run_bind_ok.mp hrun
  obtain ⟨_, s₂, hsent, hdel⟩ := run_bind_ok.mp hrest
  have hs₁ : s₁.lib.retained = s.lib.retained.clear ln.peerid (s.lib.ft.map FecNode.fec)
      (ln.recvMap.map LdeMap.fec) := by
    cases hfree
    exact retained_freeRecvMaps hln
  have hs₂ : s₂.lib.retained = s₁.lib.retained :=
    (Triple.forM fun me _ => (retains_onLib).ldeMapDelSent r ln.peerid me).of_ok rfl hsent
  cases hdel
  rw [← hs₁, ← hs₂]
  exact retained_removeNbr ln.peerid s₂.lib

/-- What an event does to the retained mappings. -/
inductive RetainedEffect (a : Retained) : Event → Retained → Prop
  | upkeep {e : Event} {b : Retained} : Upkeep a b → RetainedEffect a e b
  | wildcard {fresh : Bool} {peerid : UInt32} {map : Map} (fecs : List Fec) :
    map.type = .wildcard →
    RetainedEffect a (.imsg fresh peerid (.labelWithdraw map))
      (fecs.foldl (Retained.withdraw peerid map.label) a)
  | addressAdd {fresh : Bool} {peerid : UInt32} {x : LdeAddr} (f : Af → LdpdAddr → Bool) :
    (∀ af addr, a.serves peerid af addr → f af addr) →
    RetainedEffect a (.imsg fresh peerid (.addressAdd x)) (a.readdress peerid f)
  | addressDel {fresh : Bool} {peerid : UInt32} {x : LdeAddr} (f : Af → LdpdAddr → Bool) :
    (∀ af addr, a.serves peerid af addr →
      f af addr ∨ af = x.af ∧ ldpAddrcmp af addr x.addr = .eq) →
    RetainedEffect a (.imsg fresh peerid (.addressDel x)) (a.readdress peerid f)
  | neighborDown {fresh : Bool} {peerid : UInt32} (routes maps : List Fec) :
    (∀ fec, a.nexthops fec ≠ [] → fec ∈ routes) →
    (∀ fec, (a.recv peerid fec).isSome → fec ∈ maps) →
    RetainedEffect a (.imsg fresh peerid .neighborDown) ((a.clear peerid routes maps).drop peerid)

theorem RetainedEffect.of_eq (h : b = a) : RetainedEffect a e b := by
  rw [h]
  exact .upkeep (.refl a)

/-- A program that retains what was retained. -/
theorem RetainedEffect.of_stable {x : LdeM Unit}
    (hx : ∀ a, Stable (Engine.Retains a) x) (hrun : x.run s = .ok () s') :
    RetainedEffect s.lib.retained e s'.lib.retained :=
  .of_eq ((hx s.lib.retained).of_ok rfl hrun)

theorem nbrImsg_retained {fresh : Bool} {msg : Imsg}
    (hs : s.RoutesSorted) (hln : s.lib.nbr? peerid = some ln)
    (hrun : (nbrImsg r ln msg).run s = .ok () s') :
    RetainedEffect s.lib.retained (.imsg fresh peerid msg) s'.lib.retained := by
  obtain ⟨-, rfl⟩ := Lib.peerid_of_nbr? hln
  cases msg with
  | labelMappingFull =>
    cases hrun
    refine .of_eq (fecSnap_of _ (I := (·.retained = s.lib.retained)) rfl (fun _ _ => id) ?_)
    exact fun l' _ _ hl' => (retained_ldeSendLabelmapping _ _ _ _ l').trans hl'
  | labelMapping map =>
    obtain ⟨_, s₁, hcheck, hrest⟩ := run_bind_ok.mp hrun
    obtain ⟨_, s₂, hmldp, hprint⟩ := run_bind_ok.mp hrest
    have hs₂ : s₂.lib.retained = s₁.lib.retained := ((retains_onLib).mldpMapping _ _ _).of_ok rfl hmldp
    have hs' : s'.lib.retained = s₂.lib.retained :=
      (Stable.get fun s => (retains_onLib).printWalk s.labelNbrs).of_ok rfl hprint
    rw [hs', hs₂]
    cases hcheck
    exact .upkeep (ldeCheckMapping_upkeep _ _ hs)
  | labelRequest map =>
    cases hrun
    refine .of_eq (ldeCheckRequest_of (I := (·.retained = s.lib.retained)) map ln.peerid s.lib rfl
      (fun _ => rfl) fun _ _ _ _ => ?_)
    rw [retained_ldeSendLabelmapping]
    exact retained_modNbr fun _ => ⟨rfl, rfl, rfl⟩
  | labelRelease map =>
    exact .of_stable (fun a => (retains_onLib).labelRelease r map ln) hrun
  | labelWithdraw map =>
    simp only [nbrImsg] at hrun
    split at hrun
    · rename_i hwildcard
      obtain ⟨_, s₁, hcheck, hrest⟩ := run_bind_ok.mp hrun
      have hs' : s'.lib.retained = s₁.lib.retained := by
        obtain ⟨_, s₂, hdel, htear⟩ := run_bind_ok.mp hrest
        have hs₂ : s₂.lib = s₁.lib := by
          cases hdel
          rfl
        rw [← hs₂]
        have hstable : ∀ a, Stable (Engine.Retains a) (do
            let s ← get
            if s.leaf ≠ 2 ∧ (s.labelNbrs.all fun lnr => lnr.type == .up) then
              teardownWalk r s.labelNbrs
            else pure ()) := fun a =>
          .get fun s => .ite ((retains_onLib).teardownWalk _ _) (.pure _)
        exact (hstable s₂.lib.retained).of_ok rfl htear
      rw [hs']
      cases hcheck
      show RetainedEffect _ _ (ldeCheckWithdrawWcard map ln.peerid s.lib).retained
      rw [retained_ldeCheckWithdrawWcard]
      exact .wildcard _ hwildcard
    · cases hrun
      exact .upkeep (ldeCheckWithdraw_upkeep _ _ hs)
  | addressAdd x =>
    cases hrun
    show RetainedEffect _ _ (s.lib.modNbr ln.peerid (ldeAddressAdd x)).retained
    rw [retained_readdress hln (ldeAddressAdd_peerid x)]
    · refine .addressAdd _ fun af addr h => ldeAddressFind_add ?_
      rwa [← (ReadsAs.of_nbr? hln).serves]
    · intro ln
      unfold ldeAddressAdd
      split <;> rfl
  | addressDel x =>
    cases hrun
    show RetainedEffect _ _ (s.lib.modNbr ln.peerid (ldeAddressDel x)).retained
    rw [retained_readdress hln (ldeAddressDel_peerid x)]
    · refine .addressDel _ fun af addr h => ldeAddressFind_del ?_
      rwa [← (ReadsAs.of_nbr? hln).serves]
    · intro ln
      unfold ldeAddressDel
      split <;> rfl
  | notification nm =>
    refine .of_stable (fun a => .ite (retains_modifyLib fun l => ?_) (.pure _)) hrun
    exact (l2vpnRecvPwStatus_installs ln nm l).retained
  | neighborDown =>
    rw [retained_ldeNbrDel hln hrun]
    refine .neighborDown _ _ (fun fec hfec => ?_) fun fec hfec => ?_
    · cases hfn : s.lib.node? fec with
      | none => simp [Lib.retained, hfn] at hfec
      | some fn =>
        obtain ⟨hmem, rfl⟩ := Lib.fec_of_node? hfn
        exact List.mem_map_of_mem hmem
    · rw [(ReadsAs.of_nbr? hln).recv, isSome_map] at hfec
      obtain ⟨me, hme⟩ := isSome_iff_exists.mp hfec
      obtain ⟨hmem, heq⟩ := mem_of_find hme
      rw [fecCompare_eq.mp heq]
      exact List.mem_map_of_mem hmem
  | _ =>
    cases hrun
    exact .of_eq rfl

theorem step_retained (hs : s.RoutesSorted) (hrun : (step r e).run s = .ok () s') :
    RetainedEffect s.lib.retained e s'.lib.retained := by
  have hstart (fresh : Bool) : (s.start fresh).Retains s.lib.retained := rfl
  cases step_handled hrun with
  | parent e => exact .upkeep (ldeDispatchParent_upkeep (l := (s.start true).lib) e hs)
  | unknown fresh => exact .of_eq rfl
  | nbr fresh _ hln hnbr => exact nbrImsg_retained (s := s.start fresh) hs hln hnbr
  | neighborUp fresh id v4 v6 hnone => exact .of_eq (retained_ldeNbrNew id v4 v6 hnone)
  | ctlShowLib fresh peerid hwalk =>
    have hdump := ((retains_onLib).rtDump _).of_ok (hstart fresh) hwalk
    exact .of_eq hdump
  | mldpAdd fresh peerid hwalk =>
    have hup := ((retains_onLib).treeUp _ _).of_ok (hstart fresh) hwalk
    exact .of_eq hup
  | mldpDel fresh peerid hwalk =>
    have hdown := ((retains_onLib).treeDown r _ _).of_ok (hstart fresh) hwalk
    exact .of_eq hdown

/-! ## No stale label -/

/-- The neighbour is the reason why a nexthop of the FEC has its label. -/
structure Retained.Backs (a : Retained) (fec : Fec) (nh : FecNh) (peerid : UInt32) : Prop where
  serves : a.serves peerid nh.af nh.nexthop
  recv : ∃ map, a.recv peerid fec = some map ∧ map.label = nh.remoteLabel

/-- Every label in use is backed by a neighbour. -/
def Retained.Backed (a : Retained) : Prop :=
  ∀ fec, ∀ nh ∈ a.nexthops fec, nh.remoteLabel ≠ noLabel → ∃ peerid, a.Backs fec nh peerid

section

/-- What relabelling makes of a nexthop. -/
theorem Retained.mem_relabel {g : Fec} (h : nh ∈ (a.relabel peerid fec label).nexthops g) :
    (g = fec ∧ nh.remoteLabel = label ∧ a.serves peerid nh.af nh.nexthop) ∨
      nh ∈ a.nexthops g ∧ (g = fec → a.serves peerid nh.af nh.nexthop = false) := by
  simp only [relabel, relabelIf] at h
  split at h
  · rename_i hg
    obtain ⟨nh', hmem, rfl⟩ := List.mem_map.mp h
    split
    · exact .inl ⟨hg, rfl, ‹_›⟩
    · exact .inr ⟨hmem, fun _ => Bool.eq_false_iff.mpr ‹_›⟩
  · exact .inr ⟨h, fun hg => absurd hg ‹_›⟩

theorem Retained.Backed.mapping (h : a.Backed) (peerid : UInt32) (fec : Fec) (map : Map) :
    ((a.relabel peerid fec map.label).record peerid fec map).Backed := by
  intro g nh hnh hlabel
  rcases mem_relabel hnh with ⟨rfl, hnew, hserves⟩ | ⟨hmem, hserves⟩
  · exact ⟨peerid, hserves, map, by simp [record], hnew.symm⟩
  · obtain ⟨q, hq⟩ := h g nh hmem hlabel
    obtain ⟨map', hrecv, hmap'⟩ := hq.recv
    refine ⟨q, hq.serves, map', ?_, hmap'⟩
    simp only [record]
    rw [if_neg]
    · exact hrecv
    · rintro ⟨rfl, rfl⟩
      have hqserves := hq.serves
      rw [hserves rfl] at hqserves
      cases hqserves

theorem Retained.Backed.relabel (h : a.Backed) (peerid : UInt32) (fec : Fec) :
    (a.relabel peerid fec noLabel).Backed := by
  intro g nh hnh hlabel
  rcases mem_relabel hnh with ⟨-, hnone, -⟩ | ⟨hmem, -⟩
  · exact absurd hnone hlabel
  · obtain ⟨q, hq⟩ := h g nh hmem hlabel
    exact ⟨q, hq.serves, hq.recv⟩

theorem Retained.Backed.forget (h : a.Backed)
    (hfree : ∀ nh ∈ a.nexthops fec, nh.remoteLabel ≠ noLabel → ¬a.Backs fec nh peerid) :
    (a.forget peerid fec).Backed := by
  intro g nh hnh hlabel
  obtain ⟨q, hq⟩ := h g nh hnh hlabel
  obtain ⟨map, hrecv, hmap⟩ := hq.recv
  refine ⟨q, hq.serves, map, ?_, hmap⟩
  simp only [Retained.forget]
  rw [if_neg]
  · exact hrecv
  · rintro ⟨rfl, rfl⟩
    exact hfree nh hnh hlabel hq

theorem Retained.Backed.withdraw (h : a.Backed)
    (hfree : ∀ nh ∈ a.nexthops fec, nh.remoteLabel ≠ noLabel → a.Backs fec nh peerid →
      label ≠ noLabel ∧ label ≠ nh.remoteLabel) :
    (a.withdraw peerid label fec).Backed := by
  unfold Retained.withdraw
  split
  · rename_i map hmap
    split
    · rename_i hmatch
      refine h.forget fun nh hnh hlabel hbacks => ?_
      obtain ⟨hno, hne⟩ := hfree nh hnh hlabel hbacks
      obtain ⟨map', hmap', hequal⟩ := hbacks.recv
      cases hmap.symm.trans hmap'
      rcases hmatch with heq | heq
      · exact hno heq
      · exact hne (heq.trans hequal)
    · exact h
  · exact h

theorem Retained.not_backs_relabel
    (hnh : nh ∈ (a.relabel peerid fec noLabel).nexthops fec) (hlabel : nh.remoteLabel ≠ noLabel) :
    (a.relabel peerid fec noLabel).serves peerid nh.af nh.nexthop = false := by
  rcases mem_relabel hnh with ⟨-, hnone, -⟩ | ⟨-, hserves⟩
  · exact absurd hnone hlabel
  · exact hserves rfl

theorem Upkeep.backed (h : Upkeep a b) (ha : a.Backed) : b.Backed := by
  induction h with
  | refl => exact ha
  | mapping a peerid fec map => exact ha.mapping peerid fec map
  | withdraw a peerid fec label =>
    refine (ha.relabel peerid fec).withdraw fun nh hnh hlabel hbacks => ?_
    have hserves := hbacks.serves
    rw [not_backs_relabel hnh hlabel] at hserves
    cases hserves
  | reroute a fec f hf =>
    intro g nh hnh hlabel
    have hmem : nh ∈ a.nexthops g := by
      simp only [Retained.reroute] at hnh
      split at hnh
      · rename_i hg
        subst hg
        exact (hf nh hnh).resolve_right hlabel
      · exact hnh
    obtain ⟨q, hq⟩ := ha g nh hmem hlabel
    exact ⟨q, hq.serves, hq.recv⟩
  | trans _ _ ih ih' => exact ih' (ih ha)

end

/-- A wildcard withdraw is not for a label the neighbour backs, and no address through which it
backs one is withdrawn. -/
def TakesBackUnused (s : Engine) : Event → Prop
  | .imsg _ peerid (.labelWithdraw map) => map.type = .wildcard →
    ∀ fn ∈ s.lib.ft, ∀ nh ∈ fn.nexthops, isRoute fn.fec → nh.remoteLabel ≠ noLabel →
      s.lib.retained.Backs fn.fec nh peerid → map.label ≠ noLabel ∧ map.label ≠ nh.remoteLabel
  | .imsg _ peerid (.addressDel x) =>
    ∀ fn ∈ s.lib.ft, ∀ nh ∈ fn.nexthops, isRoute fn.fec → nh.remoteLabel ≠ noLabel →
      s.lib.retained.Backs fn.fec nh peerid →
        ¬(nh.af = x.af ∧ ldpAddrcmp nh.af nh.nexthop x.addr = .eq)
  | _ => True

instance (a : Retained) (fec : Fec) (nh : FecNh) (peerid : UInt32) :
    Decidable (a.Backs fec nh peerid) :=
  decidable_of_iff (a.serves peerid nh.af nh.nexthop ∧
      (a.recv peerid fec).any fun map => map.label == nh.remoteLabel)
    ⟨fun h => ⟨h.1, by simpa [Option.any_eq_true] using h.2⟩,
      fun h => ⟨h.serves, by simpa [Option.any_eq_true] using h.recv⟩⟩

instance (s : Engine) (e : Event) : Decidable (TakesBackUnused s e) := by
  unfold TakesBackUnused
  split <;> infer_instance

theorem Lib.mem_nexthops (h : nh ∈ l.retained.nexthops fec) :
    isRoute fec ∧ ∃ fn ∈ l.ft, fn.fec = fec ∧ nh ∈ fn.nexthops := by
  simp only [Lib.retained] at h
  split at h
  · rename_i hroute
    cases hfn : l.node? fec with
    | none =>
      rw [hfn] at h
      cases h
    | some fn =>
      rw [hfn] at h
      obtain ⟨hmem, hfec⟩ := Lib.fec_of_node? hfn
      exact ⟨hroute, fn, hmem, hfec, h⟩
  · cases h

/-- The walk of a wildcard withdraw, FEC by FEC. -/
theorem Retained.Backed.withdraws (fecs : List Fec) (h : a.Backed)
    (hfree : ∀ fec, ∀ nh ∈ a.nexthops fec, nh.remoteLabel ≠ noLabel → a.Backs fec nh peerid →
      label ≠ noLabel ∧ label ≠ nh.remoteLabel) :
    (fecs.foldl (Retained.withdraw peerid label) a).Backed := by
  induction fecs generalizing a with
  | nil => exact h
  | cons fec fecs ih =>
    refine ih (h.withdraw (hfree fec)) fun g nh hnh hlabel hbacks => ?_
    -- what is retained after one FEC was retained before
    have hsub : (a.withdraw peerid label fec).nexthops = a.nexthops ∧
        (a.withdraw peerid label fec).serves = a.serves ∧
        ∀ p g map, (a.withdraw peerid label fec).recv p g = some map → a.recv p g = some map := by
      unfold Retained.withdraw
      split
      · split
        · refine ⟨rfl, rfl, fun p g map hmap => ?_⟩
          simp only [Retained.forget] at hmap
          split at hmap
          · cases hmap
          · exact hmap
        · exact ⟨rfl, rfl, fun _ _ _ => id⟩
      · exact ⟨rfl, rfl, fun _ _ _ => id⟩
    obtain ⟨hnexthops, hserves, hrecv⟩ := hsub
    rw [hnexthops] at hnh
    obtain ⟨map, hmap, heq⟩ := hbacks.recv
    exact hfree g nh hnh hlabel ⟨hserves ▸ hbacks.serves, map, hrecv _ _ _ hmap, heq⟩

theorem Retained.Backed.clear_drop {routes maps : List Fec} (h : a.Backed)
    (hroutes : ∀ fec, a.nexthops fec ≠ [] → fec ∈ routes) :
    ((a.clear peerid routes maps).drop peerid).Backed := by
  -- after the walk over the routes, no labelled nexthop of them is the neighbour's
  have hwalk (fecs : List Fec) (b : Retained) (hb : b.Backed) :
      (fecs.foldl (fun a fec => a.relabel peerid fec noLabel) b).Backed ∧
        (fecs.foldl (fun a fec => a.relabel peerid fec noLabel) b).serves = b.serves ∧
        ∀ g nh, nh ∈ (fecs.foldl (fun a fec => a.relabel peerid fec noLabel) b).nexthops g →
          nh.remoteLabel ≠ noLabel →
            nh ∈ b.nexthops g ∧ (g ∈ fecs → b.serves peerid nh.af nh.nexthop = false) := by
    induction fecs generalizing b with
    | nil => exact ⟨hb, rfl, fun g nh hnh _ => ⟨hnh, nofun⟩⟩
    | cons fec fecs ih =>
      obtain ⟨hbacked, hserves, hclear⟩ := ih (b.relabel peerid fec noLabel) (hb.relabel peerid fec)
      refine ⟨hbacked, hserves, fun g nh hnh hlabel => ?_⟩
      obtain ⟨hmem, hfecs⟩ := hclear g nh hnh hlabel
      rcases mem_relabel hmem with ⟨-, hnone, -⟩ | ⟨hmem, hfec⟩
      · exact absurd hnone hlabel
      · refine ⟨hmem, fun hg => ?_⟩
        rcases mem_cons.mp hg with hg | hg
        · exact hfec hg
        · exact hfecs hg
  have hmaps (fecs : List Fec) (b : Retained) :
      (fecs.foldl (fun a fec => a.forget peerid fec) b).serves = b.serves ∧
        (fecs.foldl (fun a fec => a.forget peerid fec) b).nexthops = b.nexthops ∧
        ∀ q g, q ≠ peerid → (fecs.foldl (fun a fec => a.forget peerid fec) b).recv q g = b.recv q g := by
    induction fecs generalizing b with
    | nil => exact ⟨rfl, rfl, fun _ _ _ => rfl⟩
    | cons fec fecs ih =>
      obtain ⟨hserves, hnexthops, hrecv⟩ := ih (b.forget peerid fec)
      refine ⟨hserves, hnexthops, fun q g hq => (hrecv q g hq).trans ?_⟩
      simp only [Retained.forget, hq, false_and, if_false]
  obtain ⟨hbacked, hserves, hclear⟩ := hwalk routes a h
  obtain ⟨hserves', hnexthops, hrecv⟩ :=
    hmaps maps (routes.foldl (fun a fec => a.relabel peerid fec noLabel) a)
  intro g nh hnh hlabel
  have hnh' : nh ∈ (routes.foldl (fun a fec => a.relabel peerid fec noLabel) a).nexthops g := by
    rw [← hnexthops]
    exact hnh
  obtain ⟨q, hq⟩ := hbacked g nh hnh' hlabel
  obtain ⟨hmem, hfree⟩ := hclear g nh hnh' hlabel
  have hne : q ≠ peerid := by
    rintro rfl
    have hqserves := hq.serves
    rw [hserves, hfree (hroutes g (ne_nil_of_mem hmem))] at hqserves
    cases hqserves
  obtain ⟨map, hmap, heq⟩ := hq.recv
  refine ⟨q, ?_, map, ?_, heq⟩
  · simp only [drop, if_neg hne, clear, hserves']
    exact hq.serves
  · simp only [drop, if_neg hne, clear, hrecv q g hne]
    exact hmap

theorem RetainedEffect.backed (h : RetainedEffect s.lib.retained e b)
    (hs : s.lib.retained.Backed) (hgood : TakesBackUnused s e) : b.Backed := by
  cases h with
  | upkeep h => exact h.backed hs
  | wildcard fecs hwildcard =>
    refine hs.withdraws fecs fun fec nh hnh hlabel hbacks => ?_
    obtain ⟨hroute, fn, hfn, rfl, hmem⟩ := Lib.mem_nexthops hnh
    exact hgood hwildcard fn hfn nh hmem hroute hlabel hbacks
  | @addressAdd _ peerid _ f hf =>
    intro fec nh hnh hlabel
    obtain ⟨q, hq⟩ := hs fec nh hnh hlabel
    refine ⟨q, ?_, hq.recv⟩
    simp only [readdress]
    split
    · rename_i heq
      subst heq
      exact hf _ _ hq.serves
    · exact hq.serves
  | @addressDel _ peerid _ f hf =>
    intro fec nh hnh hlabel
    obtain ⟨q, hq⟩ := hs fec nh hnh hlabel
    refine ⟨q, ?_, hq.recv⟩
    simp only [readdress]
    split
    · rename_i heq
      subst heq
      obtain ⟨hroute, fn, hfn, rfl, hmem⟩ := Lib.mem_nexthops hnh
      exact (hf _ _ hq.serves).resolve_right (hgood fn hfn nh hmem hroute hlabel hq)
    · exact hq.serves
  | neighborDown routes maps hroutes _ => exact hs.clear_drop hroutes

/-- Every nexthop of a route with a label has it from a neighbour that has sent it. -/
def Engine.NoStaleLabel (s : Engine) : Prop :=
  ∀ fn ∈ s.lib.ft, isRoute fn.fec → ∀ nh ∈ fn.nexthops, nh.remoteLabel ≠ noLabel →
    ∃ ln ∈ s.lib.nbrs, ∃ me ∈ ln.recvMap, me.fec = fn.fec ∧ me.map.label = nh.remoteLabel

theorem Engine.noStaleLabel_of_backed (hs : s.RoutesSorted) (h : s.lib.retained.Backed) :
    s.NoStaleLabel := by
  intro fn hfn hroute nh hnh hlabel
  have hnode : s.lib.node? fn.fec = some fn := hs.find_eq_some hfn
  have hmem : nh ∈ s.lib.retained.nexthops fn.fec := by
    simp only [Lib.retained, hroute, if_true, hnode, elim_some]
    exact hnh
  obtain ⟨peerid, hbacks⟩ := h fn.fec nh hmem hlabel
  obtain ⟨map, hrecv, heq⟩ := hbacks.recv
  simp only [Lib.retained, bind_eq_some_iff, map_eq_some_iff] at hrecv
  obtain ⟨ln, hln, me, hme, rfl⟩ := hrecv
  obtain ⟨hmem, hfec⟩ := mem_of_find hme
  exact ⟨ln, (Lib.peerid_of_nbr? hln).1, me, hmem, (fecCompare_eq.mp hfec).symm, heq⟩

/-- In a run in which labels in use are not taken back, no label in use is stale. -/
theorem no_stale_label (r : Freed) (tr : List Event) (s : Engine)
    (h : Run (step r) Engine.init TakesBackUnused tr s) : s.NoStaleLabel := by
  obtain ⟨hs, hbacked⟩ : s.Wf ∧ s.lib.retained.Backed := by
    refine h.invariant (I := fun s => s.Wf ∧ s.lib.retained.Backed)
      ⟨Engine.Wf.init, fun fec nh hnh => ?_⟩ ?_
    · simp [Lib.retained, Engine.init, Lib.node?, find] at hnh
    · rintro s e s' ⟨hs, hbacked⟩ hgood hrun
      exact ⟨(step_effect hrun).wf hs, (step_retained hs.routes hrun).backed hbacked hgood⟩
  exact Engine.noStaleLabel_of_backed hs.routes hbacked

instance : Decidable s.NoStaleLabel := by unfold Engine.NoStaleLabel; infer_instance

/-- A transit node of the LSP (10.0.0.1, 32), also the FEC of the route to the root: neighbour 1 has
joined, and neighbour 2, the way to the root, has sent the label 200. -/
def transitInUse : List Event :=
  transitNode ++ [joinFrom1 32,
    .imsg true 2 (.labelMapping { ldeFec2map (.ipv4 0x0a000001 32) with label := 200 })]

theorem transitInUse_no_stale_label :
    ∃ s, Run (step .lost) Engine.init TakesBackUnused transitInUse s ∧
      (∃ fn ∈ s.lib.ft, ∃ nh ∈ fn.nexthops, nh.remoteLabel = 200) ∧ s.NoStaleLabel :=
  ⟨_, Run.of_play (by decide +kernel), by decide +kernel,
    no_stale_label .lost transitInUse _ (Run.of_play (by decide +kernel))⟩

/-- Neighbour 2 withdraws all its labels, and the nexthop keeps the label 200. -/
theorem wildcardWithdraw_leaves_label : ∃ s, Run (step .lost) Engine.init (fun _ _ => True)
      (transitInUse ++ [.imsg true 2 (.labelWithdraw (wildcardMap noLabel))]) s ∧
      ¬s.NoStaleLabel :=
  ⟨_, Run.of_play (by decide +kernel), by decide +kernel⟩

end Mp2mp.Lde
