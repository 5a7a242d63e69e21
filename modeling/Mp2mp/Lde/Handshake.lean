import Mp2mp.Lde.Withdraws

/-!
# The handshake of withdraw and release

The engine together with the withdraws that its neighbours have not answered yet.  A neighbour
answers with the release that the same code sends.

* `withdraws_released`: as long as the collector spares the nodes that a withdraw is recorded for,
  and pseudowires are removed where their FEC says, a neighbour that has answered every withdraw
  has no record left.
* `collected_unreleased`: a node that the collector removed too early leaves its record behind.
-/

namespace Mp2mp.Lde

open Kit Ldpd List Table

variable {peerid q : UInt32} {rel map : Map} {fresh : Bool} {label : UInt32}
  {pending : List (UInt32 × Map)} {t : List LdeWdraw} {ln : LdeNbr} {h' : Handshake} {l : Lib}

variable {r : Freed} {s s' : Engine} {l' : Lib}

/-! ## Answers -/

/-- `IMSG_LABEL_WITHDRAW` in the neighbour, as far as the release goes. -/
def answerWithdraw (map : Map) (peerid : UInt32) (l : Lib) : Lib :=
  if map.type = .wildcard then ldeCheckWithdrawWcard map peerid l else ldeCheckWithdraw map peerid l

/-- A neighbour running this code may answer the withdraw `map` with the release `rel`. -/
def Answers (map rel : Map) : Prop :=
  ∃ l peerid, l.out = [] ∧ Out.releaseAdd peerid rel ∈ (answerWithdraw map peerid l).out

theorem out_withdrawRecv (map : Map) (peerid : UInt32) (fec : Fec) (l : Lib) :
    (withdrawRecv map peerid fec l).out = l.out := by
  unfold withdrawRecv
  split
  · split <;> rfl
  · rfl

theorem mem_toPeers {o : Out} (ho : o.peer?.isSome) : o ∈ l.out ↔ o ∈ l.toPeers := by
  simp [Lib.toPeers, ho]

theorem release_of_ldeSendLabelrelease {fn : FecNode}
    (hold : Out.releaseAdd q rel ∉ l.out)
    (h : Out.releaseAdd q rel ∈ (ldeSendLabelrelease peerid fn label l).out) :
    rel = { l.fecMap fn with label := label } := by
  unfold ldeSendLabelrelease at h
  split at h
  · exact absurd h hold
  · split at h
    · simp only [Lib.emit, mem_append, mem_singleton, reduceCtorEq, or_false,
        Out.releaseAdd.injEq] at h
      rcases h with h | ⟨-, h⟩
      · exact absurd h hold
      · exact h
    · exact absurd h hold

/-- A FEC that went to the neighbour and back is the same to whoever reads it. -/
theorem ldeMap2fec_again (map : Map) (id id' : InAddr) :
    ldeMap2fec (ldeFec2map (ldeMap2fec map id')) id = ldeMap2fec map id := by
  unfold ldeMap2fec
  cases map.type with
  | prefixElm =>
    by_cases hv6 : map.fec.half = afIpv6
    · simp only [if_pos hv6]
      rfl
    · simp only [if_neg hv6]
      rfl
  | pwid => simp [ldeFec2map, MapFec.setPwid, MapFec.setGroupId, MapFec.pwid, bswap32_bswap32]
  | wildcard => rfl
  | none => rfl

theorem Answers.wildcard (h : Answers map rel) (htype : map.type = .wildcard) :
    rel = wildcardMap map.label := by
  obtain ⟨l, peerid, hout, hrel⟩ := h
  rw [answerWithdraw, if_pos htype, ldeCheckWithdrawWcard] at hrel
  have hfold : ∀ (fecs : List Fec) (l : Lib),
      (fecs.foldl (fun l fec => withdrawRecv map peerid fec l) l).out = l.out := by
    intro fecs l
    exact foldlRecOn (motive := fun l' => l'.out = l.out) fecs _ rfl
      fun l' h fec _ => (out_withdrawRecv map peerid fec l').trans h
  rw [hfold] at hrel
  simpa [ldeSendLabelreleaseWcard, Lib.emit, hout] using hrel

theorem Answers.fec (h : Answers map rel) (htype : map.type ≠ .wildcard) :
    rel.label = map.label ∧ rel.type ≠ .wildcard ∧ rel.unknownAf = false ∧
      (rel.type = .pwid → hasFlag rel.flags fMapPwId = true) ∧
      ∀ id, ldeMap2fec rel id = ldeMap2fec map id := by
  obtain ⟨l, peerid, hout, hrel⟩ := h
  rw [answerWithdraw, if_neg htype, ldeCheckWithdraw] at hrel
  split at hrel
  · rw [hout] at hrel
    cases hrel
  · rename_i ln hln
    dsimp only at hrel
    split at hrel
    · rw [hout] at hrel
      cases hrel
    · split at hrel
      · rw [show (fecAdd (ldeMap2fec map ln.id) (ldeMap2fec map ln.id).pwidLsrId l).out = [] from hout]
          at hrel
        cases hrel
      · rename_i fn hfn
        obtain ⟨hfec, -⟩ := fec_of_node? hfn
        rw [out_withdrawRecv] at hrel
        have hold : ∀ q, Out.releaseAdd q rel ∉
            ((fecAdd (ldeMap2fec map ln.id) (ldeMap2fec map ln.id).pwidLsrId l).eachNh
              (ldeMap2fec map ln.id) (uninstallMapping ln)).out := by
          intro q hmem
          rw [mem_toPeers rfl, (Relabels.eachNh (uninstallMapping_relabels ln)).toPeers,
            ← mem_toPeers rfl]
            at hmem
          rw [show (fecAdd (ldeMap2fec map ln.id) (ldeMap2fec map ln.id).pwidLsrId l).out = [] from hout]
            at hmem
          cases hmem
        have heq := release_of_ldeSendLabelrelease (hold _) hrel
        subst heq
        generalize Lib.eachNh _ _ _ = l₁ at *
        obtain ⟨hmtype, hmfec, hflag⟩ := fecMap_spec l₁ fn
        refine ⟨rfl, ?_, ?_, ?_, fun id => ?_⟩
        · exact fun hw => type_ldeFec2map fn.fec (hmtype.symm.trans hw)
        · have haf := unknownAf_ldeFec2map fn.fec
          simpa only [Map.unknownAf, hmtype, hmfec] using haf
        · exact fun hpwid => hflag (pwid_of_type (hmtype.symm.trans hpwid))
        · rw [← ldeMap2fec_again map id ln.id, ← hfec]
          exact ldeMap2fec_congr hmtype hmfec id

/-! ## The record and the release -/

def Lib.wdraws (l : Lib) (peerid : UInt32) : List LdeWdraw :=
  ((l.nbr? peerid).map LdeNbr.sentWdraw).getD []

/-- What a release with this label leaves of the records. -/
def sweep (label : UInt32) (t : List LdeWdraw) (fec : Fec) : List LdeWdraw :=
  match fecFind LdeWdraw.fec fec t with
  | none => t
  | some lw =>
    if label = noLabel ∨ (lw.label ≠ noLabel ∧ label = lw.label) then fecRemove LdeWdraw.fec fec t
    else t

theorem sweep_sublist (label : UInt32) (t : List LdeWdraw) (fec : Fec) :
    (sweep label t fec).Sublist t := by
  unfold sweep
  split
  · exact .refl t
  · split
    · exact filter_sublist
    · exact .refl t

/-- There is only one record of the FEC, so it is the one whose label is compared. -/
theorem label_of_mem_sweep {lw : LdeWdraw}
    (hdist : (t.map LdeWdraw.fec).Nodup) (h : lw ∈ sweep label t lw.fec) : lw.label ≠ label := by
  intro hlabel
  have hmem := (sweep_sublist label t lw.fec).subset h
  unfold sweep at h
  split at h
  · rename_i hnone
    exact find_eq_none.mp hnone lw hmem (fecCompare_eq.mpr rfl)
  · rename_i lw' hfind
    obtain ⟨hmem', hcmp⟩ := mem_of_find hfind
    obtain rfl : lw' = lw :=
      inj_on_of_nodup_map hdist hmem' hmem (fecCompare_eq.mp hcmp).symm
    have hfits : label = noLabel ∨ (lw'.label ≠ noLabel ∧ label = lw'.label) := by
      by_cases hno : label = noLabel
      · exact .inl hno
      · exact .inr ⟨hlabel ▸ hno, hlabel.symm⟩
    rw [if_pos hfits] at h
    have hne := of_mem_filter h
    simp at hne

theorem sweepAll_spec {fecs : List Fec} (hdist : (t.map LdeWdraw.fec).Nodup) :
    (fecs.foldl (sweep label) t).Sublist t ∧
      ∀ lw ∈ fecs.foldl (sweep label) t, lw.fec ∈ fecs → lw.label ≠ label := by
  induction fecs generalizing t with
  | nil => exact ⟨.refl t, nofun⟩
  | cons fec rest ih =>
    have hsub := sweep_sublist label t fec
    obtain ⟨hrest, hlabel⟩ := ih (hdist.sublist (hsub.map _))
    refine ⟨hrest.trans hsub, fun lw hlw hfec => ?_⟩
    rcases mem_cons.mp hfec with rfl | hfec
    · exact label_of_mem_sweep hdist (hrest.subset hlw)
    · exact hlabel lw hlw hfec

theorem wdraws_modNbr {f : LdeNbr → LdeNbr}
    (hpeer : ∀ ln, (f ln).peerid = ln.peerid) (hrec : ∀ ln, (f ln).sentWdraw = ln.sentWdraw) :
    (l.modNbr q f).wdraws peerid = l.wdraws peerid := by
  rw [Lib.wdraws, l.nbr?_modNbr_eq q peerid hpeer]
  split
  · rename_i hq
    rw [hq, Lib.wdraws]
    cases l.nbr? q with
    | none => rfl
    | some ln => exact hrec ln
  · rfl

theorem wdraws_relink {fec : Fec} {prev : MapPrev} :
    (relink q fec prev l).wdraws peerid = l.wdraws peerid := by
  simp only [Lib.wdraws, Lib.nbr?_eq, relink, find?_map, Function.comp_def, Option.map_map]

theorem wdraws_releaseWdraw {map : Map} {fec : Fec} :
    (releaseWdraw map peerid fec l).wdraws peerid = sweep map.label (l.wdraws peerid) fec := by
  unfold releaseWdraw sweep
  cases hln : l.nbr? peerid with
  | none => simp [Lib.wdraws, hln, fecFind, find]
  | some ln =>
    have hrec : l.wdraws peerid = ln.sentWdraw := by simp [Lib.wdraws, hln]
    rw [hrec]
    simp only [Option.bind_some]
    cases fecFind LdeWdraw.fec fec ln.sentWdraw with
    | none => exact hrec
    | some lw =>
      dsimp only
      split
      · rw [Lib.wdraws, l.nbr?_modNbr peerid (by intro; rfl), hln]
        rfl
      · exact hrec

theorem wdraws_unlinks {t : List LdeWdraw} :
    Unlinks (fun s => s.lib.wdraws peerid = t) fun _ => True where
  fault _ _ := trivial
  unsend _ _ _ hs := (wdraws_modNbr (by intro; rfl) (by intro; rfl)).trans hs
  upstream _ _ _ hs := hs
  relink _ _ _ _ hs := (wdraws_relink).trans hs

theorem releaseSent_wdraws (r : Freed) (map : Map) (peerid : UInt32) (fec : Fec)
    (t : List LdeWdraw) :
    Triple (fun s => s.lib.wdraws peerid = t) (releaseSent r map peerid fec)
      (fun _ s => s.lib.wdraws peerid = sweep map.label t fec) fun _ _ => True := by
  refine .bind (Q := fun _ s => s.lib.wdraws peerid = sweep map.label t fec)
    (.modify fun s hs => ?_) fun _ => .get fun s => ?_
  · change (releaseWdraw map peerid fec s.lib).wdraws peerid = _
    rw [wdraws_releaseWdraw, hs]
  · split
    · exact Stable.pure _
    · exact Stable.ite ((wdraws_unlinks).ldeMapDelSent _ _ _) (Stable.pure _)

theorem releaseAll_wdraws (r : Freed) (map : Map) (peerid : UInt32) (fecs : List Fec)
    (t : List LdeWdraw) :
    Triple (fun s => s.lib.wdraws peerid = t) (fecs.forM (releaseSent r map peerid))
      (fun _ s => s.lib.wdraws peerid = fecs.foldl (sweep map.label) t) fun _ _ => True := by
  induction fecs generalizing t with
  | nil => exact .pure fun _ h => h
  | cons fec rest ih => exact .bind (releaseSent_wdraws r map peerid fec t) fun _ => ih _

/-- After the release no record is left that the withdraw was for. -/
theorem release_clears
    (hln : s.lib.nbr? peerid = some ln) (hdist : ln.Distinct) (hrel : Answers map rel)
    (hrun : (step r (.imsg fresh peerid (.labelRelease rel))).run s = .ok () s') :
    ∀ lw ∈ s'.lib.wdraws peerid, lw.fec ∈ s.lib.fecs → ¬Covers ln.id map lw := by
  intro lw hlw hfec hcov
  obtain ⟨-, hpeer⟩ := Lib.peerid_of_nbr? hln
  have hrec : (s.start fresh).lib.wdraws ln.peerid = ln.sentWdraw := by
    rw [hpeer]
    change ((s.lib.nbr? peerid).map LdeNbr.sentWdraw).getD [] = _
    rw [hln]
    rfl
  have hlw' : lw ∈ s'.lib.wdraws ln.peerid := by rwa [hpeer]
  have hln' : (s.start fresh).lib.nbr? peerid = some ln := hln
  rw [run_step_imsg, run_ldeDispatchImsg_nbr r peerid rfl, hln'] at hrun
  dsimp only at hrun
  split at hrun
  · cases hrun
  · by_cases htype : map.type = .wildcard
    · have heq := hrel.wildcard htype
      have hwild : rel.type = .wildcard := by rw [heq]; rfl
      have hlabel : rel.label = map.label := by rw [heq]; rfl
      rw [nbrImsg, if_pos hwild] at hrun
      obtain ⟨_, s₁, hget, hall⟩ := run_bind_ok.mp hrun
      cases hget
      have hswept := (releaseAll_wdraws r rel ln.peerid _ _).of_ok hrec hall
      rw [hswept] at hlw'
      exact (sweepAll_spec hdist).2 lw hlw' hfec (hcov.label.symm.trans hlabel.symm)
    · obtain ⟨hlabel, hnot, -, hflag, hback⟩ := hrel.fec htype
      obtain ⟨-, -, hmapfec⟩ := hcov.fec htype
      have hkey : ldeMap2fec rel ln.id = lw.fec := (hback ln.id).trans hmapfec
      rw [nbrImsg, if_neg hnot] at hrun
      obtain ⟨_, s₁, hget, hone⟩ := run_bind_ok.mp hrun
      cases hget
      have hnode : (s.start fresh).lib.node? (ldeMap2fec rel ln.id) ≠ none := by
        intro hnone
        obtain ⟨fn, hfn, heq⟩ := mem_map.mp hfec
        exact find_eq_none.mp hnone fn hfn (fecCompare_eq.mpr (hkey.trans heq.symm))
      rw [if_neg (by
        intro h
        rcases h with ⟨hpwid, hno⟩ | hnone
        · exact hno (hflag hpwid)
        · exact hnode hnone)] at hone
      have hswept := (releaseSent_wdraws r rel ln.peerid _ _).of_ok hrec hone
      rw [hswept, hkey] at hlw'
      exact label_of_mem_sweep hdist hlw' (hcov.label.symm.trans hlabel.symm)

/-! ## The system -/

/-- The engine, and for each neighbour the withdraws it has not answered. -/
structure Handshake where
  engine : Engine
  pending : List (UInt32 × Map)

open Handshake

def Handshake.init : Handshake := ⟨Engine.init, []⟩

inductive HandshakeEvent
  | event (e : Event)
  /-- the release that answers the withdraw `map` arrives -/
  | answer (fresh : Bool) (peerid : UInt32) (map rel : Map)

/-- What the engine handles. -/
def HandshakeEvent.toEvent : HandshakeEvent → Event
  | .event e => e
  | .answer fresh peerid _ rel => .imsg fresh peerid (.labelRelease rel)

/-- The withdraws that are still to be answered; those to a neighbour that goes down are lost. -/
def HandshakeEvent.remaining (pending : List (UInt32 × Map)) : HandshakeEvent → List (UInt32 × Map)
  | .event (.imsg _ peerid .neighborDown) => pending.filter fun x => x.1 != peerid
  | .event _ => pending
  | .answer _ peerid map _ => pending.erase (peerid, map)

def handshakeStep (r : Freed) (e : HandshakeEvent) : EStateM Fault Handshake Unit := fun h =>
  match (step r e.toEvent).run h.engine with
  | .ok _ s => .ok () ⟨s, e.remaining h.pending ++ s.lib.withdraws⟩
  | .error f s => .error f ⟨s, h.pending⟩

/-- An answer is one to a withdraw that was sent. -/
def Lawful (h : Handshake) : HandshakeEvent → Prop
  | .event _ => True
  | .answer _ peerid map rel => (peerid, map) ∈ h.pending ∧ Answers map rel

/-- The node is one that `lde_gc_timer` removes. -/
def FecNode.unused (fn : FecNode) : Bool :=
  fn.nexthops.isEmpty && fn.downstream.isEmpty && fn.upstream.isEmpty

/-- The collector finds no node that a withdraw is recorded for, and a pseudowire is removed from
a node that has it with the router of the FEC. -/
def Spares (l : Lib) : Event → Prop
  | .parent .gcTimer =>
    ∀ fn ∈ l.ft, fn.unused → ∀ ln ∈ l.nbrs, ∀ lw ∈ ln.sentWdraw, lw.fec ≠ fn.fec
  | .parent (.pwExit uid) =>
    ∀ pw, l.pwOf uid = some pw → ∀ fn, l.node? (l2vpnPwFec pw) = some fn → l.Aimed fn
  | _ => True

/-- A neighbour that has answered every withdraw has no record of one. -/
def Handshake.Released (h : Handshake) : Prop :=
  ∀ ln ∈ h.engine.lib.nbrs, (∀ map, (ln.peerid, map) ∉ h.pending) → ln.sentWdraw = []

/-! ## The invariant -/

/-- Every record is for a FEC of the table and a withdraw on its way. -/
structure Awaited (l : Lib) (pending : List (UInt32 × Map)) (ln : LdeNbr) : Prop where
  distinct : ln.Distinct
  fec : ∀ lw ∈ ln.sentWdraw, lw.fec ∈ l.fecs
  covered : ∀ lw ∈ ln.sentWdraw, ∃ map, (ln.peerid, map) ∈ pending ∧ Covers ln.id map lw

open Awaited

theorem Awaited.append (h : Awaited l pending ln)
    (later : List (UInt32 × Map)) : Awaited l (pending ++ later) ln := by
  refine ⟨h.distinct, h.fec, fun lw hlw => ?_⟩
  obtain ⟨map, hmap, hcov⟩ := h.covered lw hlw
  exact ⟨map, mem_append_left later hmap, hcov⟩

structure Handshake.Inv (h : Handshake) : Prop where
  wf : h.engine.Wf
  awaited : ∀ ln ∈ h.engine.lib.nbrs, Awaited h.engine.lib h.pending ln

variable {h : Handshake}

theorem Handshake.Inv.released (hinv : h.Inv) : h.Released := by
  intro ln hln hnone
  rw [eq_nil_iff_forall_not_mem]
  intro lw hlw
  obtain ⟨map, hmap, -⟩ := (hinv.awaited ln hln).covered lw hlw
  exact hnone map hmap

/-- What `Drawn` says of the records, once the withdraws of the event are on their way too. -/
theorem Drawn.awaited {rest : List (UInt32 × Map)} (hdrawn : Drawn { l with out := [] } l')
    (h : ∀ ln ∈ l.nbrs, Awaited l pending ln)
    (hrest : ∀ ln ∈ l.nbrs, ∀ ln' ∈ l'.nbrs, ln'.peerid = ln.peerid → ∀ lw ∈ ln'.sentWdraw,
      lw ∈ ln.sentWdraw → ∃ map, (ln.peerid, map) ∈ rest ∧ Covers ln.id map lw) :
    ∀ ln' ∈ l'.nbrs, Awaited l' (rest ++ l'.withdraws) ln' := by
  intro ln' hln'
  obtain ⟨ln, hln, hpeer, hid, hdist, hrec⟩ := hdrawn.records ln' hln'
  have haw := h ln hln
  refine ⟨hdist haw.distinct, fun lw hlw => ?_, fun lw hlw => ?_⟩
  · rcases hrec lw hlw with hold | ⟨hfec, -⟩
    · exact hdrawn.fecs _ (haw.fec lw hold)
    · exact hfec
  · rw [hpeer, hid]
    rcases hrec lw hlw with hold | ⟨-, map, hmap, hcov⟩
    · obtain ⟨map, hmap, hcov⟩ := hrest ln hln ln' hln' hpeer lw hlw hold
      exact ⟨map, mem_append_left _ hmap, hcov⟩
    · exact ⟨map, mem_append_right _ hmap, hcov⟩

variable {e : HandshakeEvent}

theorem run_handshakeStep (hrun : (handshakeStep r e).run h = .ok () h') :
    ∃ s', (step r e.toEvent).run h.engine = .ok () s' ∧
      h' = ⟨s', e.remaining h.pending ++ s'.lib.withdraws⟩ := by
  change handshakeStep r e h = _ at hrun
  unfold handshakeStep at hrun
  split at hrun
  · rename_i s' hstep
    cases hrun
    exact ⟨s', hstep, rfl⟩
  · cases hrun

theorem Drawn.removeNbr (h : Drawn l l') (peerid : UInt32) :
    Drawn l { l' with nbrs := remove ldeNbrCompare LdeNbr.peerid peerid l'.nbrs } :=
  ⟨h.fecs, h.grows, fun ln' hln' => h.records ln' (mem_of_mem_filter hln')⟩

/-- A neighbour that goes down takes its records with it. -/
theorem neighborDown_drawn (hrun : (step r (.imsg fresh peerid .neighborDown)).run s = .ok () s') :
    Drawn { s.lib with out := [] } s'.lib ∧ ∀ ln ∈ s'.lib.nbrs, ln.peerid ≠ peerid := by
  rw [run_step_imsg, run_ldeDispatchImsg_nbr r peerid rfl] at hrun
  split at hrun
  · rename_i hnone
    cases hrun
    refine ⟨.refl _, fun ln hln heq => ?_⟩
    have hsome : (s.lib.nbr? peerid).isSome :=
      Lib.nbr?_isSome.mpr (mem_map.mpr ⟨ln, hln, heq⟩)
    rw [show s.lib.nbr? peerid = none from hnone] at hsome
    cases hsome
  · rename_i ln hln
    obtain ⟨-, rfl⟩ := Lib.peerid_of_nbr? hln
    obtain ⟨_, s₁, hfree, hrest⟩ := run_bind_ok.mp hrun
    obtain ⟨_, s₂, hsent, hdel⟩ := run_bind_ok.mp hrest
    have hfreed := (draws_modifyLib fun l => (freeRecvMaps_receives ln l).drawn).of_ok hfree
    have hmaps : Draws (ln.sentMap.forM (ldeMapDelSent r ln.peerid)) := fun l₀ =>
      .forM fun me _ => (drawn_onLib l₀).ldeMapDelSent r ln.peerid me
    have hdrawn := hfreed.trans (hmaps.of_ok hsent)
    cases hdel
    refine ⟨hdrawn.removeNbr ln.peerid, fun ln' hln' heq => ?_⟩
    have hne := of_mem_filter hln'
    simp only [bne_iff_ne, ne_eq, ldeNbrCompare_eq] at hne
    exact hne heq.symm

theorem Awaited.neighborUp {v4 v6 : Bool} {id : InAddr}
    (h : ∀ ln ∈ s.lib.nbrs, Awaited s.lib pending ln)
    (hrun : (step r (.imsg fresh peerid (.neighborUp id v4 v6))).run s = .ok () s') :
    ∀ ln ∈ s'.lib.nbrs, Awaited s'.lib pending ln := by
  cases step_handled hrun with
  | unknown _ hmsg => cases hmsg
  | nbr _ hmsg => cases hmsg
  | neighborUp fresh id v4 v6 hnone =>
    intro ln hln
    rcases mem_of_mem_insert hln with rfl | hln
    · exact ⟨nodup_nil, nofun, nofun⟩
    · obtain ⟨hdist, hfec, hcov⟩ := h ln hln
      exact ⟨hdist, hfec, hcov⟩

theorem Awaited.gcTimer (h : ∀ ln ∈ l.nbrs, Awaited l pending ln)
    (hspares : Spares l (.parent .gcTimer)) :
    ∀ ln ∈ (ldeGcTimer l).nbrs, Awaited (ldeGcTimer l) pending ln := by
  intro ln hln
  obtain ⟨hdist, hfec, hcov⟩ := h ln hln
  refine ⟨hdist, fun lw hlw => ?_, hcov⟩
  obtain ⟨fn, hfn, heq⟩ := mem_map.mp (hfec lw hlw)
  refine mem_map.mpr ⟨fn, mem_filter.mpr ⟨hfn, ?_⟩, heq⟩
  -- a node that the collector removes has no record
  cases hunused : fn.unused with
  | false => exact congrArg not hunused
  | true => exact absurd heq.symm (hspares fn hfn hunused ln hln lw hlw)

theorem Awaited.settled {e : Event}
    (h : ∀ ln ∈ s.lib.nbrs, Awaited s.lib pending ln) (hsettled : e.Settled s.lib)
    (hrun : (step r e).run s = .ok () s') :
    ∀ ln ∈ s'.lib.nbrs, Awaited s'.lib (pending ++ s'.lib.withdraws) ln :=
  (step_drawn hrun hsettled).awaited h fun ln hln _ _ _ lw _ hold => (h ln hln).covered lw hold

theorem Handshake.Inv.answer (hinv : h.Inv) (hrel : Answers map rel)
    (hrun : (step r (.imsg fresh peerid (.labelRelease rel))).run h.engine = .ok () s') :
    ∀ ln ∈ s'.lib.nbrs, Awaited s'.lib (h.pending.erase (peerid, map) ++ s'.lib.withdraws) ln := by
  have hwf' := (step_effect hrun).wf hinv.wf
  apply (step_drawn hrun trivial).awaited hinv.awaited
  intro ln hln ln' hln' hpeer lw hlw hold
  have haw := hinv.awaited ln hln
  obtain ⟨map', hmap', hcov⟩ := haw.covered lw hold
  by_cases heq : (ln.peerid, map') = (peerid, map)
  · obtain ⟨rfl, rfl⟩ := Prod.mk.inj heq
    have hrec : lw ∈ s'.lib.wdraws ln.peerid := by
      rw [← hpeer, Lib.wdraws, nbr?_of_mem hwf'.peers hln']
      exact hlw
    have hfind := nbr?_of_mem hinv.wf.peers hln
    exact absurd hcov (release_clears hfind haw.distinct hrel hrun lw hrec (haw.fec lw hold))
  · exact ⟨map', (mem_erase_of_ne heq).mpr hmap', hcov⟩

theorem Handshake.Inv.event {e : Event} (hinv : h.Inv)
    (hspares : Spares h.engine.lib e) (hrun : (step r e).run h.engine = .ok () s') :
    ∀ ln ∈ s'.lib.nbrs,
      Awaited s'.lib ((HandshakeEvent.event e).remaining h.pending ++ s'.lib.withdraws) ln := by
  have haw := hinv.awaited
  cases e with
  | imsg fresh peerid msg =>
    cases msg with
    | neighborUp id v4 v6 =>
      intro ln hln
      exact (neighborUp haw hrun ln hln).append _
    | neighborDown =>
      obtain ⟨hdrawn, hgone⟩ := neighborDown_drawn hrun
      apply hdrawn.awaited haw
      intro ln hln ln' hln' hpeer lw _ hold
      obtain ⟨map, hmap, hcov⟩ := (haw ln hln).covered lw hold
      refine ⟨map, mem_filter.mpr ⟨hmap, ?_⟩, hcov⟩
      exact bne_iff_ne.mpr (hpeer ▸ hgone ln' hln')
    | _ => exact settled haw (by trivial) hrun
  | parent e =>
    cases e with
    | gcTimer =>
      rw [run_step_parent] at hrun
      cases hrun
      intro ln hln
      obtain ⟨hdist, hfec, hcov⟩ := gcTimer haw hspares ln hln
      have hkept : Awaited (ldeDispatchParent .gcTimer (h.engine.start true).lib) h.pending ln :=
        ⟨hdist, hfec, hcov⟩
      exact hkept.append _
    | pwExit uid => exact settled (e := .parent (.pwExit uid)) haw hspares hrun
    | _ => exact settled haw (by trivial) hrun

theorem Handshake.Inv.step (hinv : h.Inv)
    (hlaw : Lawful h e) (hspares : Spares h.engine.lib e.toEvent)
    (hrun : (handshakeStep r e).run h = .ok () h') : h'.Inv := by
  obtain ⟨s', hstep, rfl⟩ := run_handshakeStep hrun
  refine ⟨(step_effect hstep).wf hinv.wf, ?_⟩
  cases e with
  | event e => exact hinv.event hspares hstep
  | answer fresh peerid map rel => exact hinv.answer hlaw.2 hstep

theorem Handshake.Inv.init : init.Inv := ⟨Engine.Wf.init, nofun⟩

/-! ## Runs -/

/-- In every run in which the collector spares what is recorded and pseudowires are removed where
their FEC says, whoever has answered every withdraw has no record left. -/
theorem withdraws_released (r : Freed) (tr : List HandshakeEvent) (h : Handshake)
    (hrun : Run (handshakeStep r) Handshake.init
      (fun h e => Lawful h e ∧ Spares h.engine.lib e.toEvent) tr h) : h.Released := by
  apply Handshake.Inv.released
  refine hrun.invariant (I := Handshake.Inv) Handshake.Inv.init ?_
  intro h e h' hinv hgood hstep
  exact hinv.step hgood.1 hgood.2 hstep

/-! ### A route that goes away -/

/-- A neighbour that knows us, and nothing else. -/
def otherSide : Lib := ⟨[⟨9, 0x01010101, true, true, [], [], [], [], [], []⟩], [], [], []⟩

/-- The answers are those of `otherSide`. -/
def answersOtherSide (h : Handshake) : HandshakeEvent → Bool
  | .event _ => true
  | .answer _ peerid map rel =>
    (peerid, map) ∈ h.pending ∧ Out.releaseAdd 9 rel ∈ (answerWithdraw map 9 otherSide).out

theorem lawful_of_otherSide (hans : answersOtherSide h e) : Lawful h e := by
  cases e with
  | event e => trivial
  | answer fresh peerid map rel =>
    obtain ⟨hmap, hrel⟩ := of_decide_eq_true hans
    exact ⟨hmap, otherSide, 9, rfl, hrel⟩

/-- No pseudowire is removed, and the collector finds no node with a record. -/
def sparesRecorded (l : Lib) : Event → Bool
  | .parent .gcTimer =>
    decide (∀ fn ∈ l.ft, fn.unused → ∀ ln ∈ l.nbrs, ∀ lw ∈ ln.sentWdraw, lw.fec ≠ fn.fec)
  | .parent (.pwExit _) => false
  | _ => true

theorem spares_of_recorded {e : Event} (h : sparesRecorded l e) : Spares l e := by
  cases e with
  | imsg fresh peerid msg => trivial
  | parent e =>
    cases e with
    | gcTimer =>
      have hgc : ∀ fn ∈ l.ft, fn.unused → ∀ ln ∈ l.nbrs, ∀ lw ∈ ln.sentWdraw, lw.fec ≠ fn.fec :=
        of_decide_eq_true h
      exact hgc
    | pwExit uid => cases h
    | _ => trivial

/-- The withdraw and the release of the route `10.0.0.0/8`. -/
def routeGone : Map := { ldeFec2map (.ipv4 0x0a000000 8) with label := noLabel }

/-- A neighbour comes up, and a route comes and goes. -/
def routeComesAndGoes : List HandshakeEvent :=
  [.event (.imsg true 5 (.neighborUp 0x02020202 true true)),
    .event (.parent (.networkAdd .inet (.ofV4 0x0a000000) 8 0 (.ofV4 0x0a0b0c0d) 0)),
    .event (.parent (.networkDel .inet (.ofV4 0x0a000000) 8 (.ofV4 0x0a0b0c0d) 0))]

def answeredFirst : List HandshakeEvent :=
  routeComesAndGoes ++ [.answer true 5 routeGone routeGone, .event (.parent .gcTimer)]

def collectedFirst : List HandshakeEvent :=
  routeComesAndGoes ++ [.event (.parent .gcTimer), .answer true 5 routeGone routeGone]

abbrev answeredGood (h : Handshake) (e : HandshakeEvent) : Prop :=
  answersOtherSide h e ∧ sparesRecorded h.engine.lib e.toEvent

theorem answeredFirst_plays :
    (play (handshakeStep .lost) answeredGood answeredFirst init).isSome := by
  decide +kernel

theorem answeredFirst_released : ∃ h, Run (handshakeStep .lost) Handshake.init
      (fun h e => Lawful h e ∧ Spares h.engine.lib e.toEvent) answeredFirst h ∧
    h.engine.lib.nbrs ≠ [] ∧ h.pending = [] ∧ h.Released := by
  have hrun : Run (handshakeStep .lost) init
      (fun h e => Lawful h e ∧ Spares h.engine.lib e.toEvent) answeredFirst _ :=
    (Run.of_play answeredFirst_plays).weaken fun h e hgood =>
      ⟨lawful_of_otherSide hgood.1, spares_of_recorded hgood.2⟩
  exact ⟨_, hrun, by decide +kernel, by decide +kernel, withdraws_released .lost _ _ hrun⟩

theorem collectedFirst_plays :
    (play (handshakeStep .lost) (fun h e => answersOtherSide h e) collectedFirst
      init).isSome := by
  decide +kernel

/-- The collector was faster than the neighbour: the release finds no node, and the record stays. -/
theorem collected_unreleased : ∃ h, Run (handshakeStep .lost) Handshake.init Lawful collectedFirst h ∧
    h.pending = [] ∧ ¬h.Released := by
  have hrun := (Run.of_play collectedFirst_plays).weaken fun h e hgood => lawful_of_otherSide hgood
  refine ⟨_, hrun, by decide +kernel, fun hrel => ?_⟩
  have hall : ∀ ln ∈ ((play (handshakeStep .lost) (fun h e => answersOtherSide h e) collectedFirst
      init).get collectedFirst_plays).engine.lib.nbrs, ln.sentWdraw = [] := by
    intro ln hln
    apply hrel ln hln
    intro map
    rw [show ((play (handshakeStep .lost) (fun h e => answersOtherSide h e) collectedFirst
      init).get collectedFirst_plays).pending = [] by decide +kernel]
    exact not_mem_nil
  revert hall
  decide +kernel

end Mp2mp.Lde
