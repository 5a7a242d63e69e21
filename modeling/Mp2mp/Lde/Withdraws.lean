import Mp2mp.Lde.CrossLinks

/-!
# Withdraws and their releases

A withdraw that is sent to a neighbour is recorded there until the neighbour has released the
label.  The release is only looked at if the FEC is in the table, from which the garbage collector
may have removed it.

* `Drawn`: what every operation but the collector does to the records: they are kept, or there is
  a withdraw on its way whose release will find them.
* `step_drawn`: the same for an event of the engine.
-/

namespace Mp2mp.Lde

open Kit Ldpd List Table

variable {fec : Fec} {peerid : UInt32} {map : Map} {fn : FecNode} {label : UInt32}
  {f : FecNode → FecNode} {t : List LdeWdraw} {ln : LdeNbr} {l : Lib} {prev : MapPrev}
  {st : Option MapStatus} {nexthop : LdpdAddr} {priority : UInt8}

variable {r : Freed} {s s' : Engine} {l' l'' : Lib}

/-! ## Records and messages -/

def Out.withdraw? : Out → Option (UInt32 × Map)
  | .withdrawAdd peerid map => some (peerid, map)
  | _ => none

/-- The withdraws of the current event. -/
def Lib.withdraws (l : Lib) : List (UInt32 × Map) := l.out.filterMap Out.withdraw?

def Lib.fecs (l : Lib) : List Fec := l.ft.map FecNode.fec

/-- The release of a withdraw will find the record: it has the label, and the FEC unless it is a
wildcard. -/
structure Covers (id : InAddr) (map : Map) (lw : LdeWdraw) : Prop where
  label : map.label = lw.label
  fec : map.type ≠ .wildcard → map.unknownAf = false ∧
    (map.type = .pwid → hasFlag map.flags fMapPwId = true) ∧ ldeMap2fec map id = lw.fec

/-- There is one record for each FEC. -/
def LdeNbr.Distinct (ln : LdeNbr) : Prop := (ln.sentWdraw.map LdeWdraw.fec).Nodup

/-- Records are kept, or are for a withdraw of the current event; the table only grows. -/
structure Drawn (l l' : Lib) : Prop where
  fecs : ∀ fec ∈ l.fecs, fec ∈ l'.fecs
  grows : ∀ x ∈ l.withdraws, x ∈ l'.withdraws
  records : ∀ ln' ∈ l'.nbrs, ∃ ln ∈ l.nbrs, ln'.peerid = ln.peerid ∧ ln'.id = ln.id ∧
    (ln.Distinct → ln'.Distinct) ∧
    ∀ lw ∈ ln'.sentWdraw, lw ∈ ln.sentWdraw ∨
      (lw.fec ∈ l'.fecs ∧ ∃ map, (ln.peerid, map) ∈ l'.withdraws ∧ Covers ln.id map lw)

open Drawn

theorem Drawn.of_nbrs (hnbrs : l'.nbrs = l.nbrs) (hfecs : ∀ fec ∈ l.fecs, fec ∈ l'.fecs)
    (hgrows : ∀ x ∈ l.withdraws, x ∈ l'.withdraws) : Drawn l l' := by
  refine ⟨hfecs, hgrows, fun ln' hln => ?_⟩
  rw [hnbrs] at hln
  exact ⟨ln', hln, rfl, rfl, id, fun lw hlw => .inl hlw⟩

theorem Drawn.refl (l : Lib) : Drawn l l := of_nbrs rfl (fun _ h => h) fun _ h => h

theorem Drawn.trans (h : Drawn l l') (h' : Drawn l' l'') : Drawn l l'' := by
  refine ⟨fun fec hfec => h'.fecs fec (h.fecs fec hfec), fun x hx => h'.grows x (h.grows x hx), ?_⟩
  intro ln'' hln''
  obtain ⟨ln', hln', hpeer', hid', hdist', hrec'⟩ := h'.records ln'' hln''
  obtain ⟨ln, hln, hpeer, hid, hdist, hrec⟩ := h.records ln' hln'
  refine ⟨ln, hln, hpeer'.trans hpeer, hid'.trans hid, fun hd => hdist' (hdist hd), ?_⟩
  intro lw hlw
  rcases hrec' lw hlw with hold | ⟨hfec, map, hmap, hcov⟩
  · rcases hrec lw hold with hold | ⟨hfec, map, hmap, hcov⟩
    · exact .inl hold
    · exact .inr ⟨h'.fecs _ hfec, map, h'.grows _ hmap, hcov⟩
  · rw [hpeer] at hmap
    rw [hid] at hcov
    exact .inr ⟨hfec, map, hmap, hcov⟩

theorem withdraws_offers : l.withdraws = (l.out.filter Out.offers).filterMap Out.withdraw? := by
  rw [Lib.withdraws, filterMap_filter]
  apply filterMap_congr
  intro o _
  cases o <;> rfl

/-- Receiving leaves the records and the withdraws alone. -/
theorem Receives.drawn (h : Receives l l') : Drawn l l' := by
  have hfecs : l'.fecs = l.fecs := map_eq_of_view h.ft Prod.fst fun _ => rfl
  have hdraws : l'.withdraws = l.withdraws := by rw [withdraws_offers, h.offers, withdraws_offers]
  refine ⟨fun _ hfec => hfecs ▸ hfec, fun _ hx => hdraws ▸ hx, fun ln' hln' => ?_⟩
  have hmem := mem_map_of_mem (f := LdeNbr.sending) hln'
  rw [h.nbrs] at hmem
  obtain ⟨ln, hln, hsame⟩ := mem_map.mp hmem
  simp only [LdeNbr.sending, LdeNbr.mk.injEq] at hsame
  obtain ⟨hpeerid, hid, -, -, -, -, -, -, hwdraw, -⟩ := hsame
  refine ⟨ln, hln, hpeerid.symm, hid.symm, ?_, ?_⟩
  · rw [LdeNbr.Distinct, LdeNbr.Distinct, hwdraw]
    exact id
  · exact fun lw hlw => .inl (hwdraw ▸ hlw)

theorem withdraws_emit {o : Out} : (l.emit o).withdraws = l.withdraws ++ o.withdraw?.toList := by
  simp only [Lib.withdraws, Lib.emit, filterMap_append]
  cases h : o.withdraw? with
  | none => simp [h]
  | some x => simp [h]

theorem Drawn.emit (l : Lib) (o : Out) : Drawn l (l.emit o) := by
  refine .of_nbrs rfl (fun _ h => h) fun x hx => ?_
  rw [withdraws_emit]
  exact mem_append_left _ hx

theorem fecs_modNode (hfec : ∀ fn, (f fn).fec = fn.fec) :
    (l.modNode fec f).fecs = l.fecs := l.ft_map_modNode fec hfec

theorem Drawn.modNode (hfec : ∀ fn, (f fn).fec = fn.fec) : Drawn l (l.modNode fec f) :=
  .of_nbrs rfl (fun g hg => by rwa [fecs_modNode hfec]) fun _ h => h

/-- The neighbour is rewritten; records that are new are for a withdraw of this event. -/
theorem Drawn.records_of {f : LdeNbr → LdeNbr}
    (hpeer : ∀ ln, (f ln).peerid = ln.peerid) (hid : ∀ ln, (f ln).id = ln.id)
    (hdist : ∀ ln, ln.Distinct → (f ln).Distinct)
    (hrec : ∀ ln, l.nbr? peerid = some ln → ∀ lw ∈ (f ln).sentWdraw, lw ∈ ln.sentWdraw ∨
      (lw.fec ∈ l.fecs ∧ ∃ map, (peerid, map) ∈ l.withdraws ∧ Covers ln.id map lw)) :
    Drawn l (l.modNbr peerid f) := by
  refine ⟨fun _ h => h, fun _ h => h, fun ln' hln' => ?_⟩
  rcases mem_modify_find hln' with hln | ⟨ln, hfind, rfl⟩
  · exact ⟨ln', hln, rfl, rfl, id, fun lw hlw => .inl hlw⟩
  · obtain ⟨hln, hp⟩ := Lib.peerid_of_nbr? hfind
    refine ⟨ln, hln, hpeer ln, hid ln, hdist ln, fun lw hlw => ?_⟩
    rw [hp]
    exact hrec ln hfind lw hlw

theorem Drawn.modNbr {f : LdeNbr → LdeNbr} (same : ∀ ln, (f ln).peerid = ln.peerid ∧
      (f ln).id = ln.id ∧ (f ln).sentWdraw = ln.sentWdraw) : Drawn l (l.modNbr peerid f) := by
  refine .records_of (fun ln => (same ln).1) (fun ln => (same ln).2.1) (fun ln hd => ?_)
    fun ln _ lw hlw => .inl ((same ln).2.2 ▸ hlw)
  rwa [LdeNbr.Distinct, (same ln).2.2]

theorem Drawn.fecAdd (fec : Fec) (lsrIdView : InAddr) (l : Lib) :
    Drawn l (fecAdd fec lsrIdView l) := by
  refine .of_nbrs rfl (fun g hg => ?_) fun _ h => h
  obtain ⟨fn, hfn, rfl⟩ := mem_map.mp hg
  exact mem_map.mpr ⟨fn, subset_insert _ _ fn hfn, rfl⟩

/-! ## Sending withdraws -/

theorem mem_recordWdraw {lw : LdeWdraw}
    (h : lw ∈ recordWdraw fec label t) : lw ∈ t ∨ lw = ⟨fec, label⟩ := by
  unfold recordWdraw at h
  split at h
  · rcases mem_modify_find h with h | ⟨y, hy, rfl⟩
    · exact .inl h
    · have hkey := fecCompare_eq.mp (mem_of_find hy).2
      right
      rw [hkey]
  · rcases mem_of_mem_insert h with rfl | h
    · exact .inr rfl
    · exact .inl h

theorem distinct_recordWdraw
    (h : (t.map LdeWdraw.fec).Nodup) : ((recordWdraw fec label t).map LdeWdraw.fec).Nodup := by
  unfold recordWdraw
  split
  · have hmap : (modify fecCompare LdeWdraw.fec fec (fun lw => { lw with label := label }) t).map
        LdeWdraw.fec = t.map LdeWdraw.fec := map_modify fun _ _ => rfl
    rwa [hmap]
  · rename_i hnone
    have hperm := (insert_perm (a := (⟨fec, label⟩ : LdeWdraw)) hnone).map LdeWdraw.fec
    refine hperm.nodup_iff.mpr (nodup_cons.mpr ⟨fun hmem => ?_, h⟩)
    obtain ⟨lw, hlw, heq⟩ := mem_map.mp hmem
    exact find_eq_none.mp hnone lw hlw (fecCompare_eq.mpr heq.symm)

theorem recordAll_spec (ft : List FecNode) (t : List LdeWdraw) :
    (∀ lw ∈ ft.foldl (fun t fn => recordWdraw fn.fec label t) t,
      lw ∈ t ∨ (lw.fec ∈ ft.map FecNode.fec ∧ lw.label = label)) ∧ ((t.map LdeWdraw.fec).Nodup →
      ((ft.foldl (fun t fn => recordWdraw fn.fec label t) t).map LdeWdraw.fec).Nodup) := by
  induction ft generalizing t with
  | nil => exact ⟨fun lw hlw => .inl hlw, id⟩
  | cons fn rest ih =>
    obtain ⟨hmem, hdist⟩ := ih (recordWdraw fn.fec label t)
    refine ⟨fun lw hlw => ?_, fun h => hdist (distinct_recordWdraw h)⟩
    rcases hmem lw hlw with h | ⟨hfec, hlabel⟩
    · rcases mem_recordWdraw h with h | rfl
      · exact .inl h
      · exact .inr ⟨mem_cons_self, rfl⟩
    · exact .inr ⟨mem_cons_of_mem _ hfec, hlabel⟩

/-! ### Maps of a FEC -/

theorem ldeMap2fec_congr {map' : Map} (htype : map'.type = map.type) (hfec : map'.fec = map.fec)
    (id : InAddr) : ldeMap2fec map' id = ldeMap2fec map id := by
  simp only [ldeMap2fec, htype, hfec]

/-- The FEC comes back, for a pseudowire if the other end is the one asked for. -/
theorem ldeMap2fec_ldeFec2map {id : InAddr}
    (hid : ∀ t i lsrId, fec = .pwid t i lsrId → lsrId = id) :
    ldeMap2fec (ldeFec2map fec) id = fec := by
  cases fec with
  | ipv4 p len => rfl
  | ipv6 p len => rfl
  | pwid t i lsrId =>
    obtain rfl := hid t i lsrId rfl
    simp [ldeFec2map, ldeMap2fec, MapFec.setPwid, MapFec.setGroupId, MapFec.pwid, bswap32_bswap32]

theorem unknownAf_ldeFec2map (fec : Fec) : (ldeFec2map fec).unknownAf = false := by
  cases fec <;> rfl

theorem type_ldeFec2map (fec : Fec) : (ldeFec2map fec).type ≠ .wildcard := by
  cases fec <;> nofun

theorem hasFlag_or {a f : UInt8} {b : UInt8} (h : hasFlag a f = true) : hasFlag (a ||| b) f = true := by
  simp only [hasFlag, bne_iff_ne, ne_eq] at *
  intro hzero
  apply h
  have habsorb : (a ||| b) &&& a = a := by
    rw [← UInt8.toBitVec_inj]
    ext i hi
    simp +contextual
  calc a &&& f = ((a ||| b) &&& a) &&& f := by rw [habsorb]
    _ = ((a ||| b) &&& f) &&& a := by rw [UInt8.and_assoc, UInt8.and_comm a f, ← UInt8.and_assoc]
    _ = 0 := by rw [hzero, UInt8.zero_and]

theorem fecMap_spec (l : Lib) (fn : FecNode) :
    (l.fecMap fn).type = (ldeFec2map fn.fec).type ∧ (l.fecMap fn).fec = (ldeFec2map fn.fec).fec ∧
      (fn.fec.type = .pwid → hasFlag (l.fecMap fn).flags fMapPwId = true) := by
  have hflag : fn.fec.type = .pwid → hasFlag (ldeFec2map fn.fec).flags fMapPwId = true := by
    intro htype
    cases hfec : fn.fec with
    | ipv4 p len => rw [hfec] at htype; cases htype
    | ipv6 p len => rw [hfec] at htype; cases htype
    | pwid t i lsrId =>
      change hasFlag fMapPwId fMapPwId = true
      decide
  unfold Lib.fecMap
  cases l.pw? fn with
  | none => exact ⟨rfl, rfl, hflag⟩
  | some pw =>
    dsimp only
    split
    · exact ⟨rfl, rfl, fun htype => hasFlag_or (hflag htype)⟩
    · exact ⟨rfl, rfl, hflag⟩

theorem pwid_of_type (h : (ldeFec2map fec).type = .pwid) : fec.type = .pwid := by
  cases fec with
  | ipv4 p len => cases h
  | ipv6 p len => cases h
  | pwid t i lsrId => rfl

theorem Covers.of_fecMap {id : InAddr}
    (hid : ldeMap2fec (ldeFec2map fn.fec) id = fn.fec) (htype : map.type = (l.fecMap fn).type)
    (hfec : map.fec = (l.fecMap fn).fec) (hflags : ∃ b, map.flags = (l.fecMap fn).flags ||| b) :
    Covers id map ⟨fn.fec, map.label⟩ := by
  obtain ⟨htype', hfec', hflag⟩ := fecMap_spec l fn
  obtain ⟨b, hb⟩ := hflags
  refine ⟨rfl, fun _ => ⟨?_, fun hpwid => ?_, ?_⟩⟩
  · have haf := unknownAf_ldeFec2map fn.fec
    simpa only [Map.unknownAf, htype, hfec, htype', hfec'] using haf
  · rw [hb]
    exact hasFlag_or (hflag (pwid_of_type ((htype.trans htype').symm.trans hpwid)))
  · rw [ldeMap2fec_congr (htype.trans htype') (hfec.trans hfec') id, hid]

theorem withStatus_spec (map : Map) (st : Option MapStatus) :
    (withStatus map st).type = map.type ∧ (withStatus map st).fec = map.fec ∧
      (withStatus map st).label = map.label ∧ ∃ b, (withStatus map st).flags = map.flags ||| b := by
  cases st with
  | none => exact ⟨rfl, rfl, rfl, 0, (UInt8.or_zero).symm⟩
  | some st => exact ⟨rfl, rfl, rfl, _, rfl⟩

/-! ### One neighbour, all neighbours, all FECs -/

/-- A withdraw is sent, and what it is recorded for is what its release will find. -/
theorem Drawn.withdraw {f : List LdeWdraw → List LdeWdraw}
    (hdist : ∀ t, (t.map LdeWdraw.fec).Nodup → ((f t).map LdeWdraw.fec).Nodup)
    (hmem : ∀ t, ∀ lw ∈ f t, lw ∈ t ∨
      (lw.fec ∈ l.fecs ∧ ∀ ln, l.nbr? peerid = some ln → Covers ln.id map lw)) :
    Drawn l (((l.emit (.withdrawAdd peerid map)).emit (.withdrawAddEnd peerid)).modNbr peerid
      fun ln => { ln with sentWdraw := f ln.sentWdraw }) := by
  have hsent : Drawn l ((l.emit (.withdrawAdd peerid map)).emit (.withdrawAddEnd peerid)) :=
    (emit l _).trans (emit _ _)
  apply hsent.trans
  refine .records_of ?_ ?_ ?_ ?_
  · exact fun _ => rfl
  · exact fun _ => rfl
  · exact fun ln hd => hdist _ hd
  · intro ln hln lw hlw
    rcases hmem _ lw hlw with h | ⟨hfec, hcov⟩
    · exact .inl h
    · refine .inr ⟨hfec, map, ?_, hcov ln hln⟩
      simp [withdraws_emit, Out.withdraw?]

theorem ldeSendLabelwithdraw_drawn (hfec : fn.fec ∈ l.fecs)
    (hid : ∀ ln, l.nbr? peerid = some ln → l.concerns ln fn = true →
      ldeMap2fec (ldeFec2map fn.fec) ln.id = fn.fec) :
    Drawn l (ldeSendLabelwithdraw peerid fn st l) := by
  unfold ldeSendLabelwithdraw
  cases hln : l.nbr? peerid with
  | none => exact .refl l
  | some ln =>
    dsimp only
    split
    · rename_i hconcerns
      obtain ⟨htype, hmfec, -, hflags⟩ :=
        withStatus_spec { l.fecMap fn with label := fn.localLabel } st
      have hcov := Covers.of_fecMap (hid ln hln hconcerns) htype hmfec hflags
      apply withdraw (fun t hd => distinct_recordWdraw hd)
      intro t lw hlw
      rcases mem_recordWdraw hlw with h | rfl
      · exact .inl h
      · refine .inr ⟨hfec, fun ln' hln' => ?_⟩
        cases hln.symm.trans hln'
        exact hcov
    · exact .refl l

theorem ldeSendLabelwithdrawWcard_drawn {label : UInt32} :
    Drawn l (ldeSendLabelwithdrawWcard peerid label l) := by
  apply withdraw (fun t hd => (recordAll_spec l.ft t).2 hd)
  intro t lw hlw
  rcases (recordAll_spec l.ft t).1 lw hlw with h | ⟨hfec, hlabel⟩
  · exact .inl h
  · exact .inr ⟨hfec, fun ln _ => ⟨hlabel.symm, fun h => absurd rfl h⟩⟩

/-- The pseudowire of the node is with the router that the FEC names. -/
def Lib.Aimed (l : Lib) (fn : FecNode) : Prop :=
  ∀ pw, l.pw? fn = some pw → ∀ t i lsrId, fn.fec = .pwid t i lsrId → pw.lsrId = lsrId

theorem Lib.Aimed.round_trip (h : l.Aimed fn)
    (hconcerns : l.concerns ln fn = true) : ldeMap2fec (ldeFec2map fn.fec) ln.id = fn.fec := by
  apply ldeMap2fec_ldeFec2map
  intro t i lsrId hfec
  rw [Lib.concerns, hfec] at hconcerns
  dsimp only at hconcerns
  split at hconcerns
  · cases hconcerns
  · rename_i pw hpw
    rw [← h pw hpw t i lsrId hfec]
    exact beq_iff_eq.mp hconcerns

theorem pws_ldeSendLabelwithdraw : (ldeSendLabelwithdraw peerid fn st l).pws = l.pws := by
  unfold ldeSendLabelwithdraw
  split
  · rfl
  · dsimp only
    split <;> rfl

theorem ldeSendLabelwithdrawAll_drawn (hfec : fn.fec ∈ l.fecs) (haim : l.Aimed fn) :
    Drawn l (ldeSendLabelwithdrawAll fn l) := by
  have hall : Drawn l (ldeSendLabelwithdrawAll fn l) ∧
      (ldeSendLabelwithdrawAll fn l).pws = l.pws := by
    refine foldlRecOn (motive := fun l' => Drawn l l' ∧ l'.pws = l.pws) _ _ ⟨.refl l, rfl⟩ ?_
    intro l' h peerid _
    obtain ⟨hdrawn, hpws⟩ := h
    refine ⟨hdrawn.trans ?_, (pws_ldeSendLabelwithdraw).trans hpws⟩
    apply ldeSendLabelwithdraw_drawn (hdrawn.fecs _ hfec)
    intro ln _ hconcerns
    have hpw : l'.pw? fn = l.pw? fn := by
      have hof : l'.pwOf = l.pwOf := funext fun uid => by rw [Lib.pwOf, Lib.pwOf, hpws]
      rw [Lib.pw?, Lib.pw?, hof]
    have haim' : l'.Aimed fn := by rwa [Lib.Aimed, hpw]
    exact haim'.round_trip hconcerns
  exact hall.1

/-! ## The other operations -/

theorem recordSent_drawn {ln : LdeNbr} {map : Map}
    : Drawn l (recordSent peerid ln fec map prev l) := by
  unfold recordSent
  have hnbr : Drawn l (l.modNbr peerid fun ln =>
      { ln with sentMap := recordMap fec map prev ln.sentMap }) :=
    .modNbr fun _ => ⟨rfl, rfl, rfl⟩
  dsimp only
  split
  · exact hnbr.trans (.modNode fun _ => rfl)
  · exact hnbr

theorem ldeSendLabelmapping_drawn {single : Bool}
    : Drawn l (ldeSendLabelmapping peerid fn single prev l) := by
  unfold ldeSendLabelmapping
  split
  · exact .refl l
  · dsimp only
    split
    · have hreq : Drawn l (l.modNbr peerid fun ln =>
          { ln with recvReq := fecRemove LdeReq.fec fn.fec ln.recvReq }) :=
        .modNbr fun _ => ⟨rfl, rfl, rfl⟩
      apply hreq.trans
      apply (emit _ _).trans
      split
      · exact (emit _ _).trans recordSent_drawn
      · exact recordSent_drawn
    · exact .refl l

/-- The withdraw of the negotiation is for a FEC made with the identifier of the neighbour. -/
theorem negotiate_drawn (hfec : fn.fec ∈ l.fecs)
    (hln : ∀ ln', l.nbr? ln.peerid = some ln' → ln'.id = ln.id)
    (hmap : fn.fec = ldeMap2fec map ln.id) : Drawn l (negotiate ln fn map l).2 := by
  refine negotiate_of (.refl l) (fun _ _ hi hl => hl.trans hi.receives.drawn) fun htype _ uid st f => ?_
  refine (trans ?_ (Installs.modPw (.refl _)).receives.drawn).trans
    ldeSendLabelmapping_drawn
  apply ldeSendLabelwithdraw_drawn hfec
  intro ln' hln' _
  apply ldeMap2fec_ldeFec2map
  intro t i lsrId hpwid
  rw [hmap, ldeMap2fec, htype] at hpwid
  cases hpwid
  exact (hln ln' hln').symm

theorem fec_of_node? (h : l.node? fec = some fn) : fn.fec = fec ∧ fec ∈ l.fecs := by
  obtain ⟨hmem, hcmp⟩ := mem_of_find h
  obtain rfl := fecCompare_eq.mp hcmp
  exact ⟨rfl, mem_map_of_mem hmem⟩

section

variable (map : Map) (peerid : UInt32) (l : Lib)

theorem ldeCheckMapping_drawn : Drawn l (ldeCheckMapping map peerid l) := by
  unfold ldeCheckMapping
  cases hln : l.nbr? peerid with
  | none => exact .refl l
  | some ln =>
    dsimp only
    obtain ⟨-, hpeer⟩ := Lib.peerid_of_nbr? hln
    have hadd := Drawn.fecAdd (ldeMap2fec map ln.id) (ldeMap2fec map ln.id).pwidLsrId l
    have hln₁ : (fecAdd (ldeMap2fec map ln.id) (ldeMap2fec map ln.id).pwidLsrId l).nbr? peerid =
      some ln := hln
    generalize fecAdd (ldeMap2fec map ln.id) (ldeMap2fec map ln.id).pwidLsrId l = l₁ at *
    apply hadd.trans
    split
    · exact .refl _
    · rename_i fn hfn
      obtain ⟨hfec, hmem⟩ := fec_of_node? hfn
      have hreq := (ldeReqDelSent_receives peerid (ldeMap2fec map ln.id) l₁).drawn
      have hln₂ : ∀ ln', (ldeReqDelSent peerid (ldeMap2fec map ln.id) l₁).nbr? ln.peerid = some ln' →
          ln'.id = ln.id := by
        intro ln' hln'
        have hfind : (ldeReqDelSent peerid (ldeMap2fec map ln.id) l₁).nbr? peerid =
            (l₁.nbr? peerid).map _ := l₁.nbr?_modNbr peerid fun _ => rfl
        rw [hpeer, hfind, hln₁] at hln'
        cases hln'
        rfl
      have hneg := negotiate_drawn (hfec.symm ▸ hreq.fecs _ hmem) hln₂ hfec
      apply hreq.trans
      split
      · exact hneg
      · exact hneg.trans (acceptMapping_receives _ _ _ _ _).drawn

theorem ldeCheckRequest_drawn : Drawn l (ldeCheckRequest map peerid l) := by
  refine ldeCheckRequest_of map peerid l (.refl l) (.emit l) fun _ _ lre _ => ?_
  refine .trans ?_ ldeSendLabelmapping_drawn
  exact .modNbr fun _ => ⟨rfl, rfl, rfl⟩

theorem ldeCheckWithdraw_drawn : Drawn l (ldeCheckWithdraw map peerid l) := by
  rcases ldeCheckWithdraw_receives map peerid l with h | ⟨fec, lsrIdView, h⟩
  · exact h.drawn
  · exact (Drawn.fecAdd fec lsrIdView l).trans h.drawn

end

theorem ldeKernelInsert_drawn {lsrIdView : InAddr} {af : Af} {data : Option Nat} :
    Drawn l (ldeKernelInsert fec lsrIdView af nexthop priority data l) := by
  have hadd := Drawn.fecAdd fec lsrIdView l
  refine ldeKernelInsert_of af nexthop priority data hadd (fun fn data => ?_) fun map peerid l hl => ?_
  · refine (hadd.trans (.modNode ?_)).trans (addNh_installs _ fec fn data _).receives.drawn
    exact fun _ => rfl
  · exact hl.trans (ldeCheckMapping_drawn map peerid l)

theorem pwOf_modPw {uid : Nat} {f : L2vpnPw → L2vpnPw} (hf : ∀ pw, pw.uid = uid → (f pw).uid = uid)
    (l : Lib) (v : Nat) :
    (l.modPw uid f).pwOf v = (l.pwOf v).map fun pw => if pw.uid = uid then f pw else pw := by
  have huid : ∀ pw : L2vpnPw, (if pw.uid = uid then f pw else pw).uid = pw.uid := by
    intro pw
    split
    · rename_i h
      rw [hf pw h, h]
    · rfl
  simp only [Lib.pwOf, Lib.modPw, find?_map, Function.comp_def, huid]

/-- What the kernel is told of a pseudowire leaves it with its router. -/
theorem Lib.Aimed.ldeSendDeleteKlabel (h : l.Aimed fn) (fnh : FecNh) :
    (ldeSendDeleteKlabel fn fnh l).Aimed fn := by
  intro pw' hpw' t i lsrId hfec
  have hklabel : Lde.ldeSendDeleteKlabel fn fnh l = deleteKpwlabel fn fnh l := by
    simp only [Lde.ldeSendDeleteKlabel, hfec, Fec.type]
  rw [hklabel, deleteKpwlabel] at hpw'
  cases hpw : l.pw? fn with
  | none =>
    rw [hpw] at hpw'
    rw [hpw] at hpw'
    cases hpw'
  | some pw =>
    have haim := h pw hpw t i lsrId hfec
    rw [hpw] at hpw'
    dsimp only at hpw'
    split at hpw'
    · obtain ⟨uid, hdata, hof⟩ := Option.bind_eq_some_iff.mp hpw
      have hmod : (l.modPw pw.uid fun _ => { pw with flags := pw.flags &&& ~~~fPwStatusUp }).pwOf uid =
          (l.pwOf uid).map _ := pwOf_modPw (by intro _ _; rfl) l uid
      rw [hof, Option.map_some, if_pos rfl] at hmod
      have hnew : some { pw with flags := pw.flags &&& ~~~fPwStatusUp } = some pw' := by
        rw [← hpw', ← hmod, Lib.pw?, hdata]
        rfl
      cases hnew
      exact haim
    · rw [hpw] at hpw'
      cases hpw'
      exact haim

theorem ldeKernelRemove_drawn {af : Af} (haim : ∀ fn, l.node? fec = some fn → l.Aimed fn) :
    Drawn l (ldeKernelRemove fec af nexthop priority l) := by
  unfold ldeKernelRemove
  cases hfn : l.node? fec with
  | none => exact .refl l
  | some fn =>
    dsimp only
    split
    · exact .refl l
    · rename_i fnh hfnh
      obtain ⟨hfec, hmem⟩ := fec_of_node? hfn
      generalize hrest : fn.nexthops.erase fnh = rest
      have hdel : Drawn l ((ldeSendDeleteKlabel { fn with nexthops := rest } fnh l).modNode fec
          fun n => { n with nexthops := rest }) := by
        refine (ldeSendDeleteKlabel_installs _ _ l).receives.drawn.trans (.modNode ?_)
        exact fun _ => rfl
      -- the node that is withdrawn has the data and the FEC of the one in the tree
      have haim' : l.Aimed { fn with nexthops := rest } := haim fn hfn
      split
      · apply hdel.trans
        refine (ldeSendLabelwithdrawAll_drawn ?_ ?_).trans (.modNode ?_)
        · exact hdel.fecs _ (hfec ▸ hmem)
        · exact haim'.ldeSendDeleteKlabel fnh
        · exact fun _ => rfl
      · exact hdel

theorem Lib.Aimed.of_route (h : fn.fec.type ≠ .pwid) : l.Aimed fn := by
  intro pw _ t i lsrId hfec
  rw [hfec] at h
  exact absurd rfl h

theorem fecSnap_drawn (peerid : UInt32) (l : Lib) : Drawn l (fecSnap peerid l) :=
  fecSnap_of _ (.refl l) (fun l' o hl => hl.trans (.emit l' o)) fun _ _ _ hl =>
    hl.trans ldeSendLabelmapping_drawn

theorem releaseWdraw_drawn {map : Map} : Drawn l (releaseWdraw map peerid fec l) := by
  unfold releaseWdraw
  split
  · exact .refl l
  · split
    · refine .records_of ?_ ?_ ?_ ?_
      · exact fun _ => rfl
      · exact fun _ => rfl
      · exact fun ln hd => List.Nodup.sublist (filter_sublist.map _) hd
      · exact fun ln _ lw hlw => .inl (mem_of_mem_filter hlw)
    · exact .refl l

theorem relink_drawn : Drawn l (relink peerid fec prev l) := by
  refine ⟨fun _ h => h, fun _ h => h, fun ln' hln' => ?_⟩
  obtain ⟨ln, hln, rfl⟩ := mem_map.mp hln'
  exact ⟨ln, hln, rfl, rfl, id, fun lw hlw => .inl hlw⟩

/-! ## Programs -/

/-- A program that keeps to what `Drawn` allows. -/
abbrev Draws {α : Type} (x : LdeM α) : Prop := ∀ l₀, Stable (fun s => Drawn l₀ s.lib) x

theorem draws_modifyLib {f : Lib → Lib} (h : ∀ l, Drawn l (f l)) : Draws (modifyLib f) :=
  fun _ => .modify fun s hs => hs.trans (h s.lib)

theorem Draws.of_ok {α : Type} {x : LdeM α} {a : α} (hx : Draws x) (hrun : x.run s = .ok a s') :
    Drawn s.lib s'.lib :=
  (hx s.lib).of_ok (s := s) (.refl s.lib) hrun

theorem drawn_onLib (l₀ : Lib) : OnLib fun s => Drawn l₀ s.lib where
  fault _ _ := trivial
  emit s o _ hs := hs.trans (.emit s.lib o)
  withdraw _ _ _ hs := hs.trans ldeSendLabelwithdrawWcard_drawn
  release s _ _ hs := hs.trans (ldeSendLabelreleaseWcard_receives _ _ s.lib).drawn
  del _ _ hs := hs
  leaf _ _ hs := hs
  ln1 _ _ hs := hs
  unsend _ _ _ hs := hs.trans (.modNbr fun _ => ⟨rfl, rfl, rfl⟩)
  upstream _ _ _ hs := hs.trans (.modNode fun _ => rfl)
  relink _ _ _ _ hs := hs.trans relink_drawn
  releaseWdraw _ _ _ _ hs := hs.trans releaseWdraw_drawn
  mapping _ _ _ hs := hs.trans ldeSendLabelmapping_drawn
  link _ _ _ _ hs := hs.trans (.modNbr fun _ => ⟨rfl, rfl, rfl⟩)
  only _ _ hlib hs := hlib ▸ hs

theorem labelMapping_draws (map : Map) (ln : LdeNbr) : Draws (labelMapping map ln) := by
  intro l₀
  refine .bind (draws_modifyLib (ldeCheckMapping_drawn _ _) l₀) fun _ => ?_
  refine .bind ((drawn_onLib l₀).mldpMapping _ _ _) fun _ => .get fun s => ?_
  exact (drawn_onLib l₀).printWalk _

theorem ldeAddressAdd_drawn (peerid : UInt32) (a : LdeAddr) (l : Lib) :
    Drawn l (l.modNbr peerid (ldeAddressAdd a)) := by
  refine .modNbr fun ln => ?_
  unfold ldeAddressAdd
  split <;> exact ⟨rfl, rfl, rfl⟩

theorem ldeAddressDel_drawn (peerid : UInt32) (a : LdeAddr) (l : Lib) :
    Drawn l (l.modNbr peerid (ldeAddressDel a)) := by
  refine .modNbr fun ln => ?_
  unfold ldeAddressDel
  split <;> exact ⟨rfl, rfl, rfl⟩

/-- Every message about a neighbour that stays. -/
theorem nbrImsg_draws {r : Freed} {ln : LdeNbr} {msg : Imsg} (hdown : msg ≠ .neighborDown) :
    Draws (nbrImsg r ln msg) := by
  intro l₀
  cases msg with
  | labelMappingFull => exact draws_modifyLib (fecSnap_drawn _) l₀
  | labelMapping map => exact labelMapping_draws map ln l₀
  | labelRequest map => exact draws_modifyLib (ldeCheckRequest_drawn _ _) l₀
  | labelRelease map => exact (drawn_onLib l₀).labelRelease r map ln
  | labelWithdraw map =>
    refine .ite ((drawn_onLib l₀).labelWithdrawWcard r map ln fun s hs => ?_)
      (draws_modifyLib (ldeCheckWithdraw_drawn _ _) l₀)
    exact hs.trans (ldeCheckWithdrawWcard_receives _ _ s.lib).drawn
  | addressAdd a => exact draws_modifyLib (ldeAddressAdd_drawn _ a) l₀
  | addressDel a => exact draws_modifyLib (ldeAddressDel_drawn _ a) l₀
  | notification nm =>
    exact .ite (draws_modifyLib (fun l => (l2vpnRecvPwStatus_installs _ _ l).receives.drawn) l₀)
      (.pure _)
  | neighborDown => exact absurd rfl hdown
  | labelAbort map => exact .pure _
  | neighborUp id v4 v6 => exact .pure _
  | ctlShowLib => exact .pure _
  | mldpAdd root ov => exact .pure _
  | mldpDel root ov => exact .pure _

/-! ## Steps -/

/-- No neighbour comes or goes, the collector does not run, and a pseudowire that is removed is
with the router its FEC names. -/
def Event.Settled (l : Lib) : Event → Prop
  | .imsg _ _ (.neighborUp ..) => False
  | .imsg _ _ .neighborDown => False
  | .imsg .. => True
  | .parent .gcTimer => False
  | .parent (.pwExit uid) =>
    ∀ pw, l.pwOf uid = some pw → ∀ fn, l.node? (l2vpnPwFec pw) = some fn → l.Aimed fn
  | .parent _ => True

theorem ldeDispatchParent_drawn {e : ParentEvent} (h : (Event.parent e).Settled l) :
    Drawn l (ldeDispatchParent e l) := by
  cases e with
  | networkAdd af addr len lsrIdView nexthop priority => exact ldeKernelInsert_drawn
  | networkDel af addr len nexthop priority =>
    apply ldeKernelRemove_drawn
    intro fn hfn
    apply Lib.Aimed.of_route
    rw [(fec_of_node? hfn).1]
    cases af <;> nofun
  | pwInit pw =>
    have hpws : Drawn l { l with pws := l2vpnPwReset pw :: l.pws.filter fun p => p.uid != pw.uid } :=
      .of_nbrs rfl (fun _ h => h) fun _ h => h
    exact hpws.trans ldeKernelInsert_drawn
  | pwExit uid =>
    change Drawn l (l2vpnPwExit uid l)
    unfold l2vpnPwExit
    split
    · exact .refl l
    · rename_i pw hpw
      apply (ldeKernelRemove_drawn (h pw hpw)).trans
      exact .of_nbrs rfl (fun _ h => h) fun _ h => h
  | egressLabel af expnull =>
    refine ldeChangeEgressLabel_of af expnull (.refl l) (fun l' _ hl => hl.trans (.emit l' _)) ?_ ?_
    · exact fun _ _ _ hl => hl.trans ldeSendLabelwithdrawWcard_drawn
    · intro _ _ _ _ _ _ _ _ hl
      refine .trans ?_ ldeSendLabelmapping_drawn
      exact hl.trans (.modNode fun _ => rfl)
  | gcTimer => exact h.elim

/-- The records once the messages of the event before are gone. -/
theorem step_drawn {e : Event} (hrun : (step r e).run s = .ok () s') (h : e.Settled s.lib) :
    Drawn { s.lib with out := [] } s'.lib := by
  cases step_handled hrun with
  | parent e => exact ldeDispatchParent_drawn (l := { s.lib with out := [] }) (by cases e <;> exact h)
  | unknown fresh => exact .refl _
  | nbr fresh _ _ hnbr =>
    refine (nbrImsg_draws ?_).of_ok hnbr
    rintro rfl
    exact h
  | neighborUp => exact h.elim
  | ctlShowLib fresh peerid hwalk =>
    have hdump := ((drawn_onLib _).rtDump _).of_ok (.refl _) hwalk
    exact hdump.trans (.emit _ _)
  | mldpAdd fresh peerid hwalk =>
    have hup := ((drawn_onLib _).treeUp _ _).of_ok (.refl _) hwalk
    exact hup.trans (.emit _ _)
  | mldpDel fresh peerid hwalk =>
    have hdown := ((drawn_onLib _).treeDown r _ _).of_ok (.refl _) hwalk
    exact hdown.trans (.emit _ _)

end Mp2mp.Lde
