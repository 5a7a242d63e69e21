import Mp2mp.Lde.CrossLinks
import Mp2mp.Ldpe.LabelMessage

/-!
# Advertised labels

Which label mappings the engine composes.  The label of a FEC node is never set, so a
mapping from a node of `ft` carries `NO_LABEL`, which the decoder of the peer rejects;
such a mapping answers a label request.  The mappings of the MP2MP code carry labels from
a counter that nothing bounds.

* `tlvDecodeLabel_accepts_iff`: the labels that a peer accepts.
* `advertised_acceptable`: in a run in which no request is answered and the counter stays
  within the labels, the peer accepts every mapping.
-/

namespace Mp2mp.Lde

open Kit Ldpd Ldpe List Table

variable {map : Map} {label peerid : UInt32} {fec : Fec} {ln : LdeNbr} {fn : FecNode}
  {lnr : LabelNbr} {o : Out} {f : LdeNbr → LdeNbr}

variable {r : Freed} {s s' : Engine} {l l' : Lib}

/-! ## What a peer accepts -/

/-- A generic label TLV is decoded if and only if its label is legal. -/
theorem tlvDecodeLabel_accepts_iff (mem : Mem) (msg : LdpMsg) (buf len : Nat)
    (hlen : labelTlvSize ≤ len) (htype : num mem buf 2 = tlvTypeGenericlabel)
    (hsize : num mem (buf + 2) 2 = labelTlvLen) (t : Trace) :
    (∃ x t', (tlvDecodeLabel mem msg buf len).run t = .ok x t') ↔
      LegalLabel (UInt32.ofNat (num mem (buf + 4) 4)) := by
  have hgeneric : ¬tlvTypeGenericlabel &&& tlvTypeGenericlabel = 0 := by decide
  have hcode : TlvType.ofCode tlvTypeGenericlabel = .genericlabel := by decide
  have hvalue : ¬labelTlvLen ≠ labelTlvSize - tlvHdrSize := by decide
  unfold tlvDecodeLabel
  rw [if_neg (by omega), htype, hsize, EStateM.run_bind, run_touch, if_neg hgeneric, if_pos hcode,
    if_neg hvalue]
  generalize UInt32.ofNat (num mem (buf + 4) 4) = label
  dsimp only
  rw [legalLabel_iff]
  split
  · rename_i hbad
    exact iff_of_false (by rintro ⟨x, t', h⟩; cases h) fun hlegal => hlegal hbad
  · rename_i hgood
    exact iff_of_true ⟨_, _, rfl⟩ hgood

/-- The label can be decoded and is one for the address family, and a pseudowire is identified. -/
def Acceptable (map : Map) : Prop :=
  LegalLabel map.label ∧
    match map.type with
    | .prefixElm =>
      (map.fec.half = afIpv4 ∧ map.label ≠ mplsLabelIpv6null) ∨
        (map.fec.half = afIpv6 ∧ map.label ≠ mplsLabelIpv4null)
    | .pwid => hasFlag map.flags fMapPwId ∧ mplsLabelReservedMax < map.label
    | _ => False

/-- A peer that uses both address families hands such a mapping on, and nothing else happens. -/
theorem notifyLde_acceptable {nbr : Nbr} {opts : Options} (msg : LdpMsg)
    (h : Acceptable map) (h4 : nbr.v4Enabled) (h6 : nbr.v6Enabled)
    (hlabel : opts.label = map.label) (t : Trace) :
    ∃ map', map'.label = map.label ∧ (notifyLde nbr msg .mapping opts [map]).run t =
      .ok () { t with out := t.out ++ [.labelImsg .mapping map'] } := by
  obtain ⟨-, hfec⟩ := h
  simp only [notifyLde]
  cases htype : map.type with
  | prefixElm =>
    simp only [htype] at hfec
    rcases hfec with ⟨hhalf, hnull⟩ | ⟨hhalf, hnull⟩
    · simp only [hhalf, if_true, hlabel, if_neg hnull, h4, composeLabelImsg]
      refine ⟨_, ?_, rfl⟩
      rfl
    · have hne : ¬afIpv6 = afIpv4 := by decide
      simp only [hhalf, if_neg hne, if_true, hlabel, if_neg hnull, h6, composeLabelImsg]
      refine ⟨_, ?_, rfl⟩
      rfl
  | pwid =>
    simp only [htype] at hfec
    simp only [hlabel, if_neg (UInt32.not_le.mpr hfec.2), composeLabelImsg]
    refine ⟨_, ?_, rfl⟩
    rfl
  | wildcard =>
    simp only [htype] at hfec
  | none =>
    simp only [htype] at hfec

/-- The label is one that the counter hands out. -/
def Assigned (label : UInt32) : Prop := mplsLabelReservedMax < label ∧ label ≤ mplsLabelMax

theorem Assigned.ne_reserved {reserved : UInt32} (h : Assigned label)
    (hreserved : reserved ≤ mplsLabelReservedMax) : label ≠ reserved := by
  rintro rfl
  exact absurd hreserved (UInt32.not_le.mpr h.1)

/-- The map for a route, with a label of the counter. -/
theorem labelmapping_acceptable (ln : LdeNbr) (hroute : isRoute fn.fec)
    (hlabel : Assigned fn.localLabel) : Acceptable (l.labelmapping ln fn) := by
  have hlegal : LegalLabel fn.localLabel := ⟨hlabel.2, .inl hlabel.1⟩
  have h4 : fn.localLabel ≠ mplsLabelIpv4null := hlabel.ne_reserved (by decide)
  have h6 : fn.localLabel ≠ mplsLabelIpv6null := hlabel.ne_reserved (by decide)
  have hmap : (l.mappingMap fn).type = .prefixElm ∧
      ((l.mappingMap fn).fec.half = afIpv4 ∨ (l.mappingMap fn).fec.half = afIpv6) := by
    unfold Lib.mappingMap Lib.fecMap
    cases hfec : fn.fec with
    | pwid =>
      rw [hfec] at hroute
      cases hroute
    | ipv4 p len => cases hpw : l.pw? fn <;> simp [ldeFec2map, Fec.type]
    | ipv6 p len => cases hpw : l.pw? fn <;> simp [ldeFec2map, Fec.type]
  have hhalf (half : UInt16) (h : half = afIpv4 ∨ half = afIpv6) :
      (half = afIpv4 ∧ fn.localLabel ≠ mplsLabelIpv6null) ∨
        (half = afIpv6 ∧ fn.localLabel ≠ mplsLabelIpv4null) :=
    h.imp (fun h => ⟨h, h6⟩) fun h => ⟨h, h4⟩
  unfold Lib.labelmapping Acceptable
  dsimp only
  split
  · exact ⟨hlegal, by simpa only [hmap.1] using hhalf _ hmap.2⟩
  · exact ⟨hlegal, by simpa only [hmap.1] using hhalf _ hmap.2⟩

/-! ## What the label information base advertises -/

/-- No node has a label, no mapping for a pseudowire has been sent, and the mappings that the
current event has sent are acceptable. -/
structure Lib.Lawful (l : Lib) : Prop where
  nodes : ∀ fn ∈ l.ft, fn.localLabel = noLabel
  sent : ∀ ln ∈ l.nbrs, ∀ me ∈ ln.sentMap, isRoute me.fec
  out : ∀ peerid map, .mappingAdd peerid map ∈ l.out → Acceptable map

namespace Lib.Lawful

variable (h : l.Lawful)

include h

theorem of_receives (hr : Receives l l') : l'.Lawful := by
  refine ⟨fun fn hfn => ?_, fun ln hln => ?_, fun p map hmem => ?_⟩
  · have hmem := mem_map_of_mem (f := FecNode.sending) hfn
    rw [hr.rest] at hmem
    obtain ⟨fn', hfn', hsame⟩ := mem_map.mp hmem
    simp only [FecNode.sending, FecNode.rest, FecNode.mk.injEq] at hsame
    obtain ⟨-, -, -, -, -, hlabel, -⟩ := hsame
    exact hlabel ▸ h.nodes fn' hfn'
  · have hmem := mem_map_of_mem (f := LdeNbr.sending) hln
    rw [hr.nbrs] at hmem
    obtain ⟨ln', hln', hsame⟩ := mem_map.mp hmem
    simp only [LdeNbr.sending, LdeNbr.mk.injEq] at hsame
    obtain ⟨-, -, -, -, -, -, -, hsent, -⟩ := hsame
    exact hsent ▸ h.sent ln' hln'
  · have hoffer : .mappingAdd p map ∈ l'.out.filter Out.offers := mem_filter.mpr ⟨hmem, rfl⟩
    rw [hr.offers] at hoffer
    exact h.out p map (mem_of_mem_filter hoffer)

theorem emit (ho : ∀ p map, o = .mappingAdd p map → Acceptable map) : (l.emit o).Lawful := by
  refine ⟨h.nodes, h.sent, fun p map hmem => ?_⟩
  rcases mem_append.mp hmem with hmem | hmem
  · exact h.out p map hmem
  · exact ho p map (mem_singleton.mp hmem).symm

theorem emit_other (ho : ∀ p map, o ≠ .mappingAdd p map) : (l.emit o).Lawful :=
  h.emit fun p map heq => absurd heq (ho p map)

theorem modNbr
    (hf : ∀ ln, ∀ me ∈ (f ln).sentMap, isRoute me.fec ∨ me.fec ∈ ln.sentMap.map LdeMap.fec) :
    (l.modNbr peerid f).Lawful := by
  refine ⟨h.nodes, fun ln hln me hme => ?_, h.out⟩
  rcases mem_of_mem_modify hln with hln | ⟨ln', hln', rfl⟩
  · exact h.sent ln hln me hme
  · rcases hf ln' me hme with hroute | hold
    · exact hroute
    · obtain ⟨me', hme', heq⟩ := mem_map.mp hold
      rw [← heq]
      exact h.sent ln' hln' me' hme'

/-- What a neighbour has been sent stays what it is. -/
theorem modNbr_same (hf : ∀ ln, (f ln).sentMap.Sublist ln.sentMap) : (l.modNbr peerid f).Lawful :=
  h.modNbr fun ln _ hme => .inr (mem_map_of_mem ((hf ln).mem hme))

theorem modNode {f : FecNode → FecNode}
    (hf : ∀ fn, fn.localLabel = noLabel → (f fn).localLabel = noLabel) :
    (l.modNode fec f).Lawful := by
  refine ⟨fun fn hfn => ?_, h.sent, h.out⟩
  rcases mem_of_mem_modify hfn with hfn | ⟨fn', hfn', rfl⟩
  · exact h.nodes fn hfn
  · exact hf fn' (h.nodes fn' hfn')

theorem fecAdd (fec : Fec) (lsrIdView : InAddr) : (fecAdd fec lsrIdView l).Lawful := by
  refine ⟨fun fn hfn => ?_, h.sent, h.out⟩
  rcases mem_of_mem_insert hfn with rfl | hfn
  · rfl
  · exact h.nodes fn hfn

omit h in
theorem foldl {α : Type} {f : Lib → α → Lib} (xs : List α) (h : l.Lawful)
    (hf : ∀ l x, l.Lawful → (f l x).Lawful) : (xs.foldl f l).Lawful :=
  foldlRecOn xs _ h fun l' hl' x _ => hf l' x hl'

/-! ### Label messages -/

theorem ldeSendLabelwithdraw (peerid : UInt32) (fn : FecNode)
    (st : Option MapStatus) : (ldeSendLabelwithdraw peerid fn st l).Lawful := by
  unfold Lde.ldeSendLabelwithdraw
  split
  · exact h
  · split
    · refine ((h.emit_other ?_).emit_other ?_).modNbr_same fun _ => .refl _
      · exact nofun
      · exact nofun
    · exact h

theorem ldeSendNotification (peerid statusCode msgId : UInt32) (msgType : UInt16) :
    (ldeSendNotification peerid statusCode msgId msgType l).Lawful :=
  h.emit_other nofun

section

variable (peerid : UInt32)

theorem recordSent (ln : LdeNbr) (map : Map)
    (prev : MapPrev) (hroute : isRoute fec) : (recordSent peerid ln fec map prev l).Lawful := by
  have hnbr : (l.modNbr peerid fun ln =>
      { ln with sentMap := recordMap fec map prev ln.sentMap }).Lawful := by
    refine h.modNbr fun ln me hme => ?_
    have hfec := mem_map_of_mem (f := LdeMap.fec) hme
    cases hfind : fecFind LdeMap.fec fec ln.sentMap with
    | some _ =>
      rw [map_fec_recordMap (Option.isSome_of_eq_some hfind)] at hfec
      exact .inr hfec
    | none =>
      simp only [recordMap, hfind] at hme
      rcases mem_of_mem_insert hme with rfl | hmem
      · exact .inl hroute
      · exact .inr (mem_map_of_mem hmem)
  unfold Lde.recordSent
  dsimp only
  split
  · exact hnbr.modNode fun _ hfn => hfn
  · exact hnbr

/-- A mapping for a route, with a label that is legal. -/
theorem ldeSendLabelmapping (single : Bool)
    (prev : MapPrev) (hroute : isRoute fn.fec) (hlabel : Assigned fn.localLabel) :
    (ldeSendLabelmapping peerid fn single prev l).Lawful := by
  unfold Lde.ldeSendLabelmapping
  split
  · exact h
  rename_i ln hln
  split
  · have hmap := labelmapping_acceptable (l := l) ln hroute hlabel
    generalize l.labelmapping ln fn = map at hmap
    dsimp only
    refine recordSent ?_ peerid ln map prev hroute
    have hreq : (l.modNbr peerid fun ln =>
        { ln with recvReq := fecRemove LdeReq.fec fn.fec ln.recvReq }).Lawful :=
      h.modNbr_same fun _ => .refl _
    have hadd := hreq.emit (o := .mappingAdd peerid map) fun p map' heq => by
      cases heq
      exact hmap
    split
    · exact hadd.emit_other nofun
    · exact hadd
  · exact h

/-- A mapping from a temporary node.  Without a pseudowire there is none to send for one. -/
theorem sendTemporary (fec : Fec) (single : Bool) (prev : MapPrev) (hlabel : Assigned label) :
    (Lde.ldeSendLabelmapping peerid (temporaryNode fec label) single prev l).Lawful := by
  cases hroute : isRoute fec with
  | true => exact h.ldeSendLabelmapping peerid single prev hroute hlabel
  | false =>
    rw [ldeSendLabelmapping_of_not fun ln _ => ?_]
    · exact h
    · rw [concerns_temporaryNode]
      cases fec with
      | pwid => rfl
      | ipv4 => cases hroute
      | ipv6 => cases hroute

theorem sendOnce (fec : Fec) (hlabel : Assigned label) : (sendOnce peerid fec label l).Lawful :=
  sendOnce_of (I := Lib.Lawful) h (h.sendTemporary peerid fec true .freed hlabel)

theorem fanOutSend (fec : Fec) (head : Option UInt32) (hlabel : Assigned label) :
    (fanOutSend peerid fec label head l).1.Lawful := by
  refine fanOutSend_of (I := Lib.Lawful) head h (h.sendTemporary peerid fec true .freed hlabel) ?_
  refine fun l q hl => hl.modNbr fun ln me hme => .inr ?_
  have hfecs : (modify fecCompare LdeMap.fec fec
      (fun me => { me with prev := .entry peerid }) ln.sentMap).map LdeMap.fec =
      ln.sentMap.map LdeMap.fec := map_modify fun _ _ => rfl
  rw [← hfecs]
  exact mem_map_of_mem hme

end

theorem sendAll (fec : Fec) (visited : List UInt32)
    (head : Option UInt32) (hlabel : Assigned label) :
    (sendAll fec label visited head l).Lawful := by
  induction visited generalizing head l with
  | nil => exact h
  | cons q rest ih => exact ih (h.fanOutSend q fec head hlabel) _

/-! ### Received label messages -/

/-- The negotiation never sends the mapping again, since none has been sent. -/
theorem negotiate {lsrId : InAddr}
    (hfec : fn.fec = ldeMap2fec map lsrId) (hsent : ∀ me ∈ ln.sentMap, isRoute me.fec) :
    (negotiate ln fn map l).2.Lawful := by
  refine negotiate_of h (fun _ _ hi hl => hl.of_receives hi.receives) fun htype hagain => ?_
  obtain ⟨me, hme⟩ := Option.isSome_iff_exists.mp hagain
  obtain ⟨hmem, hkey⟩ := mem_of_find hme
  have hroute := hsent me hmem
  rw [← fecCompare_eq.mp hkey, hfec, ldeMap2fec, htype] at hroute
  cases hroute

theorem ldeCheckMapping (map : Map) (peerid : UInt32) : (ldeCheckMapping map peerid l).Lawful := by
  unfold Lde.ldeCheckMapping
  split
  · exact h
  rename_i ln hln
  dsimp only
  split
  · exact h.fecAdd _ _
  rename_i fn hfn
  obtain ⟨-, hfec⟩ := Lib.fec_of_node? hfn
  have hreq := (h.fecAdd (ldeMap2fec map ln.id) (ldeMap2fec map ln.id).pwidLsrId).of_receives
    (ldeReqDelSent_receives peerid (ldeMap2fec map ln.id) _)
  have hnegotiate := hreq.negotiate hfec (h.sent ln (Lib.peerid_of_nbr? hln).1)
  split
  · exact hnegotiate
  · exact hnegotiate.of_receives (acceptMapping_receives ln fn map _ _)

theorem ldeCheckWithdraw (map : Map) (peerid : UInt32) :
    (ldeCheckWithdraw map peerid l).Lawful := by
  rcases ldeCheckWithdraw_receives map peerid l with hr | ⟨fec, lsrIdView, hr⟩
  · exact h.of_receives hr
  · exact (h.fecAdd fec lsrIdView).of_receives hr

/-! ### Routes, pseudowires and neighbours -/

theorem ldeKernelInsert (fec : Fec) (lsrIdView : InAddr) (af : Af)
    (nexthop : LdpdAddr) (priority : UInt8) (data : Option Nat) :
    (ldeKernelInsert fec lsrIdView af nexthop priority data l).Lawful := by
  have hadd := h.fecAdd fec lsrIdView
  refine ldeKernelInsert_of af nexthop priority data hadd (fun fn data => ?_) fun map peerid l hl => ?_
  · refine of_receives (hadd.modNode ?_) (addNh_installs _ fec fn data _).receives
    exact fun _ hfn => hfn
  · exact hl.ldeCheckMapping map peerid

section

variable (peerid : UInt32) (fec : Fec)

theorem ldeKernelRemove (af : Af) (nexthop : LdpdAddr)
    (priority : UInt8) : (ldeKernelRemove fec af nexthop priority l).Lawful := by
  unfold Lde.ldeKernelRemove
  split
  · exact h
  rename_i fn hfn
  split
  · exact h
  rename_i fnh hfnh
  dsimp only
  have hdelete (fn : FecNode) (nhs : List FecNh) :
      ((Lde.ldeSendDeleteKlabel fn fnh l).modNode fec fun n => { n with nexthops := nhs }).Lawful :=
    (h.of_receives (ldeSendDeleteKlabel_installs fn fnh l).receives).modNode fun _ hn => hn
  split
  · refine modNode (foldl _ (hdelete _ _) fun l peerid hl => ?_) fun _ _ => rfl
    exact hl.ldeSendLabelwithdraw peerid _ none
  · exact hdelete _ _

theorem ldeDispatchParent (e : ParentEvent) : (ldeDispatchParent e l).Lawful := by
  cases e with
  | networkAdd => exact h.ldeKernelInsert _ _ _ _ _ _
  | networkDel => exact h.ldeKernelRemove _ _ _ _
  | pwInit pw =>
    refine ldeKernelInsert (l := { l with pws := _ }) ?_ _ _ _ _ _ _
    exact ⟨h.nodes, h.sent, h.out⟩
  | pwExit uid =>
    unfold Lde.ldeDispatchParent l2vpnPwExit
    dsimp only
    split
    · exact h
    · rename_i pw hpw
      have hremove := h.ldeKernelRemove (l2vpnPwFec pw) .inet (.ofV4 pw.lsrId) 0
      exact ⟨hremove.nodes, hremove.sent, hremove.out⟩
  | egressLabel af expnull =>
    -- no node has a label to be changed
    refine ldeChangeEgressLabel_of af expnull h ?_ ?_
      fun l₁ l peerid label fn hfn hreserved hl₁ _ => ?_
    · exact fun _ _ hl => hl.emit_other nofun
    · intro _ _ _ hl
      refine ((hl.emit_other ?_).emit_other ?_).modNbr_same fun _ => .refl _
      · exact nofun
      · exact nofun
    · rw [hl₁.nodes fn hfn] at hreserved
      exact absurd hreserved (by decide)
  | gcTimer =>
    exact ⟨fun fn hfn => h.nodes fn (mem_of_mem_filter hfn), h.sent, h.out⟩

/-- The snapshot for a new session is empty: no node has a label. -/
theorem fecSnap : (fecSnap peerid l).Lawful := by
  have hnone : l.ft.foldl (fun l fn => if fn.localLabel = noLabel then l
      else Lde.ldeSendLabelmapping peerid fn false .node l) l = l := by
    refine foldlRecOn (motive := fun l' => l' = l) l.ft _ rfl fun l' hl' fn hfn => ?_
    rw [if_pos (h.nodes fn hfn)]
    exact hl'
  unfold Lde.fecSnap
  rw [hnone]
  exact h.emit_other nofun

theorem ldeNbrNew (id : InAddr) (v4 v6 : Bool) : (ldeNbrNew peerid id v4 v6 l).Lawful := by
  refine ⟨h.nodes, fun ln hln => ?_, h.out⟩
  rcases mem_of_mem_insert hln with rfl | hln
  · exact nofun
  · exact h.sent ln hln

theorem removeNbr :
    ({ l with nbrs := remove ldeNbrCompare LdeNbr.peerid peerid l.nbrs } : Lib).Lawful :=
  ⟨h.nodes, fun ln hln => h.sent ln (mem_of_mem_filter hln), h.out⟩

theorem relink (prev : MapPrev) : (relink peerid fec prev l).Lawful := by
  refine ⟨h.nodes, fun ln hln me hme => ?_, h.out⟩
  obtain ⟨ln', hln', rfl⟩ := mem_map.mp hln
  obtain ⟨me', hme', rfl⟩ := mem_map.mp hme
  have hroute := h.sent ln' hln' me' hme'
  split
  · exact hroute
  · exact hroute

end

end Lib.Lawful

/-! ## The engine -/

/-- The labels of the table and the counter are within the labels. -/
structure Engine.Lawful (s : Engine) : Prop where
  lib : s.lib.Lawful
  table : ∀ b ∈ s.bindings, Assigned b.localLabel
  counter : mplsLabelReservedMax ≤ s.label ∧ s.label ≤ mplsLabelMax

/-- The neighbour that asks for a label is answered with a mapping. -/
def Lib.answers (l : Lib) (map : Map) (ln : LdeNbr) : Prop :=
  ∃ fn ∈ l.node? (ldeMap2fec map ln.id), fn.nexthops ≠ [] ∧
    ¬(isRoute fn.fec ∧ fn.nexthops.any fun fnh => (ldeAddressFind ln fnh.af fnh.nexthop).isSome) ∧
    fecFind LdeReq.fec fn.fec ln.recvReq = none ∧ l.concerns ln fn

/-- No label request is answered, and a label is taken from the counter only if there is one
left. -/
def LabelsLeft (s : Engine) : Event → Prop
  | .imsg _ peerid (.labelRequest map) => ∀ ln ∈ s.lib.nbr? peerid, ¬s.lib.answers map ln
  | .imsg _ peerid (.labelMapping map) =>
    ∀ ln ∈ s.lib.nbr? peerid,
      s.label < mplsLabelMax ∨ ∃ lnr ∈ s.labelNbrs, sameLsp lnr.fec (ldeMap2fec map ln.id)
  | .imsg _ _ (.mldpAdd root _) => (firstRoute root s.lib.ft).isSome → s.label < mplsLabelMax
  | _ => True

instance (l : Lib) (map : Map) (ln : LdeNbr) : Decidable (l.answers map ln) := by
  unfold Lib.answers
  infer_instance

instance (s : Engine) : (e : Event) → Decidable (LabelsLeft s e)
  | .parent _ => .isTrue trivial
  | .imsg _ peerid msg => match msg with
    | .labelRequest _ => inferInstanceAs (Decidable (∀ ln ∈ s.lib.nbr? peerid, _))
    | .labelMapping _ => inferInstanceAs (Decidable (∀ ln ∈ s.lib.nbr? peerid, _))
    | .mldpAdd .. => inferInstanceAs (Decidable (_ → _))
    | .labelMappingFull | .labelRelease _ | .labelWithdraw _ | .labelAbort _ | .addressAdd _
    | .addressDel _ | .notification _ | .neighborUp .. | .neighborDown | .ctlShowLib
    | .mldpDel .. => .isTrue trivial

/-- A request that is not answered sends no mapping. -/
theorem Lib.Lawful.ldeCheckRequest (h : l.Lawful)
    (hln : l.nbr? peerid = some ln) (hno : ¬l.answers map ln) :
    (ldeCheckRequest map peerid l).Lawful := by
  unfold Lde.ldeCheckRequest
  rw [hln]
  dsimp only
  split
  · exact h.ldeSendNotification _ _ _ _
  rename_i fn hfn
  obtain ⟨-, hfec⟩ := Lib.fec_of_node? hfn
  split
  · exact h.ldeSendNotification _ _ _ _
  rename_i hnexthops
  split
  · exact h.ldeSendNotification _ _ _ _
  rename_i hloop
  split
  · exact h
  rename_i hpending
  have hreq (lre : LdeReq) : (l.modNbr peerid fun ln =>
      { ln with recvReq := fecInsert LdeReq.fec lre ln.recvReq }).Lawful :=
    h.modNbr_same fun _ => .refl _
  have hconcerns : l.concerns ln fn = false := by
    refine Bool.eq_false_iff.mpr fun hc => hno ⟨fn, hfn, hnexthops, ?_, ?_, hc⟩
    · rw [hfec]
      intro hboth
      refine hloop ⟨fun hpw => ?_, hboth.2⟩
      cases hfec' : ldeMap2fec map ln.id with
      | pwid =>
        rw [hfec'] at hboth
        exact Bool.false_ne_true hboth.1
      | ipv4 =>
        rw [hfec'] at hpw
        cases hpw
      | ipv6 =>
        rw [hfec'] at hpw
        cases hpw
    · rw [hfec]
      exact Option.not_isSome_iff_eq_none.mp hpending
  rw [ldeSendLabelmapping_of_not fun ln' hln' => ?_]
  · exact hreq _
  · rw [Lib.nbr?_modNbr _ _ (by intro; rfl), hln] at hln'
    cases hln'
    exact hconcerns

theorem Engine.Lawful.of_lib {s : Engine} (h : s.Lawful) {l : Lib} (hl : l.Lawful) :
    Engine.Lawful { s with lib := l } :=
  ⟨hl, h.table, h.counter⟩

theorem lawful_inert : Inert Engine.Lawful where
  emit _ _ ho h := h.of_lib (h.lib.emit_other ho)
  wdraw _ _ _ h := h.of_lib (h.lib.modNbr_same fun _ => .refl _)
  del s lnr h := ⟨h.lib, fun b hb => h.table b (((labelNbrDel_sublist lnr s.labelNbrs).map _).mem hb),
    h.counter⟩
  leaf _ _ h := ⟨h.lib, h.table, h.counter⟩
  ln1 _ _ h := ⟨h.lib, h.table, h.counter⟩

theorem lawful_modifyLib {f : Lib → Lib} (hf : ∀ l, l.Lawful → (f l).Lawful) :
    Stable Engine.Lawful (modifyLib f) :=
  .modify fun _ h => h.of_lib (hf _ h.lib)

theorem lawful_releases : Releases Engine.Lawful fun _ => True where
  fault _ _ := trivial
  unsend _ _ _ h := h.of_lib (h.lib.modNbr_same fun _ => filter_sublist)
  upstream _ _ _ h := h.of_lib (h.lib.modNode fun _ hfn => hfn)
  relink _ peerid fec _ h := h.of_lib (h.lib.relink peerid fec _)
  releaseWdraw s map peerid fec h := by
    refine h.of_lib ?_
    unfold releaseWdraw
    split
    · exact h.lib
    · split
      · exact h.lib.modNbr_same fun _ => .refl _
      · exact h.lib

theorem ldeNbrDel_lawful (r : Freed) (ln : LdeNbr) : Stable Engine.Lawful (ldeNbrDel r ln) := by
  refine .bind (lawful_modifyLib fun l hl => hl.of_receives (freeRecvMaps_receives ln l)) fun _ => ?_
  refine .bind (.forM fun me _ => lawful_releases.ldeMapDelSent r ln.peerid me) fun _ => ?_
  exact .modify fun s h => ⟨h.lib.removeNbr ln.peerid, h.table, h.counter⟩

/-! ## Labels of the counter -/

section

variable (h : s.Lawful)

include h

theorem Engine.Lawful.next (hleft : s.label < mplsLabelMax) : Assigned (s.label + 1) := by
  have hlow := UInt32.le_iff_toNat_le.mp h.counter.1
  have hhigh := UInt32.lt_iff_toNat_lt.mp hleft
  have hmax : mplsLabelMax.toNat = 1048575 := rfl
  have hsucc : (s.label + 1).toNat = s.label.toNat + 1 := by
    rw [UInt32.toNat_add, UInt32.toNat_one]
    omega
  refine ⟨UInt32.lt_iff_toNat_lt.mpr ?_, UInt32.le_iff_toNat_le.mpr ?_⟩
  · omega
  · omega

theorem Engine.Lawful.mem_table (hlnr : lnr ∈ s.labelNbrs) : Assigned lnr.localLabel :=
  h.table lnr.binding (mem_map_of_mem hlnr)

/-- The label of a join, and the state with it. -/
theorem Engine.Lawful.join
    (hleft : s.label < mplsLabelMax ∨ ∃ lnr ∈ s.labelNbrs, sameLsp lnr.fec fec) :
    Assigned (s.joinLabel fec) ∧ (s.withJoinLabel fec).Lawful := by
  unfold Engine.joinLabel Engine.withJoinLabel
  cases hfind : s.labelNbrs.find? fun lnr => sameLsp lnr.fec fec with
  | some lnr => exact ⟨h.mem_table (mem_of_find?_eq_some hfind), h⟩
  | none =>
    have hnext := h.next (hleft.resolve_right fun ⟨lnr, hlnr, hsame⟩ => ?_)
    · exact ⟨hnext, h.lib, h.table, UInt32.le_of_lt hnext.1, hnext.2⟩
    · exact absurd hsame (find?_eq_none.mp hfind lnr hlnr)

theorem Engine.Lawful.fanOut (hknown : ∃ b ∈ s.bindings, sameLsp b.fec fec) :
    Assigned (s.fanOutLabel fec) ∧ s.withFanOutLabel fec = s := by
  unfold Engine.fanOutLabel Engine.withFanOutLabel
  cases hfind : s.labelNbrs.find? fun lnr => sameLsp lnr.fec fec with
  | some lnr =>
    have hlabel := h.mem_table (mem_of_find?_eq_some hfind)
    have hne : lnr.localLabel ≠ noLabel := by
      intro heq
      rw [heq] at hlabel
      exact absurd hlabel.2 (by decide)
    dsimp only
    rw [if_neg hne, if_neg hne]
    exact ⟨hlabel, rfl⟩
  | none =>
    obtain ⟨b, hb, hsame⟩ := hknown
    obtain ⟨lnr, hlnr, rfl⟩ := mem_map.mp hb
    exact absurd hsame (find?_eq_none.mp hfind lnr hlnr)

theorem Engine.Lawful.withEntry (hlabel : Assigned lnr.localLabel) : (s.withEntry lnr).Lawful := by
  refine ⟨h.lib, fun b hb => ?_, h.counter⟩
  obtain ⟨lnr', hlnr', rfl⟩ := mem_map.mp hb
  rcases mem_of_mem_insert hlnr' with rfl | hmem
  · exact hlabel
  · exact h.mem_table hmem

theorem fromDownstream_lawful (hnew : s.Lacks peerid fec)
    (hleft : s.label < mplsLabelMax ∨ ∃ lnr ∈ s.labelNbrs, sameLsp lnr.fec fec)
    (hrun : (fromDownstream map peerid fec).run s = .ok () s') : s'.Lawful := by
  obtain ⟨hlabel, hjoin⟩ := h.join hleft
  have hjoined (leaf : Nat) : (s.joined leaf map peerid fec).Lawful :=
    lawful_inert.leaf _ leaf (hjoin.withEntry hlabel)
  rw [run_fromDownstream] at hrun
  split at hrun
  · cases hrun
  split at hrun
  · rw [run_joinAtRoot hnew] at hrun
    cases hrun
    exact (hjoined 2).of_lib (h.lib.sendOnce peerid fec hlabel)
  · rw [run_joinAtTransit hnew] at hrun
    dsimp only at hrun
    split at hrun
    · cases hrun
      exact hjoined 0
    · split at hrun
      · cases hrun
        exact (hjoined 0).of_lib (h.lib.sendTemporary peerid fec true .freed hlabel)
      · split at hrun
        · cases hrun
        · cases hrun
          refine Engine.Lawful.of_lib ((hjoined 0).withEntry ?_)
            (h.lib.sendTemporary _ fec true .freed hlabel)
          exact hlabel

theorem fromUpstream_lawful (hfind : labelNbrFind peerid fec s.labelNbrs = some lnr)
    (hrun : (fromUpstream map lnr fec).run s = .ok () s') : s'.Lawful := by
  have hrelabelled : (s.relabelled lnr map.label).Lawful := by
    refine ⟨h.lib, ?_, h.counter⟩
    rw [s.relabelled_bindings]
    exact h.table
  by_cases hleaf : s.leaf = 1
  · rw [fromUpstream_leaf hleaf] at hrun
    cases hrun
    exact hrelabelled
  · obtain ⟨-, -, rfl⟩ := (fromUpstream_transit hleaf).mp hrun
    have hknown : ∃ b ∈ s.bindings, sameLsp b.fec fec := by
      obtain ⟨hmem, hkey⟩ := mem_of_find hfind
      have hfec : fec = lnr.fec := (labelNbrCompare_eq.mp hkey).1
      exact ⟨lnr.binding, mem_map_of_mem hmem, hfec ▸ sameLsp_refl fec⟩
    obtain ⟨hlabel, -⟩ := h.fanOut hknown
    rw [← s.relabelled_bindings lnr map.label] at hknown
    refine lawful_inert.ln1 _ _ (Engine.Lawful.of_lib ?_ (h.lib.sendAll fec _ none hlabel))
    rw [(hrelabelled.fanOut hknown).2]
    exact hrelabelled

theorem labelMapping_lawful (hleft : s.label < mplsLabelMax ∨
      ∃ lnr ∈ s.labelNbrs, sameLsp lnr.fec (ldeMap2fec map ln.id))
    (hrun : (labelMapping map ln).run s = .ok () s') : s'.Lawful := by
  obtain ⟨s₂, hmldp, -, rfl⟩ := run_labelMapping_ok.mp hrun
  refine lawful_inert.ln1 s₂ _ ?_
  have hchecked : (s.checked map ln.peerid).Lawful := h.of_lib (h.lib.ldeCheckMapping map ln.peerid)
  cases hfind : labelNbrFind ln.peerid (ldeMap2fec map ln.id) s.labelNbrs with
  | none =>
    rw [run_mldpMapping_new (s := s.checked map ln.peerid) hfind] at hmldp
    exact fromDownstream_lawful hchecked hfind hleft hmldp
  | some lnr =>
    rw [run_mldpMapping_known (s := s.checked map ln.peerid) hfind] at hmldp
    exact fromUpstream_lawful hchecked hfind hmldp

theorem treeUp_lawful {root : InAddr} {ov : UInt8}
    (hleft : (firstRoute root s.lib.ft).isSome → s.label < mplsLabelMax)
    (hrun : (treeUp root ov).run s = .ok () s') : s'.Lawful := by
  rcases treeUp_cases hrun with ⟨-, rfl⟩ | ⟨fn, fnh, ln, hfn, -, -, rfl⟩
  · exact lawful_inert.leaf s 1 h
  · have hnext := h.next (hleft (Option.isSome_of_eq_some hfn))
    have hcount : Engine.Lawful { s with leaf := 1, label := s.label + 1 } :=
      ⟨h.lib, h.table, UInt32.le_of_lt hnext.1, hnext.2⟩
    refine Engine.Lawful.of_lib (hcount.withEntry ?_) (h.lib.sendTemporary _ _ true .freed hnext)
    exact hnext

theorem nbrImsg_lawful {fresh : Bool} {msg : Imsg}
    (hln : s.lib.nbr? ln.peerid = some ln) (hgood : LabelsLeft s (.imsg fresh ln.peerid msg))
    (hrun : (nbrImsg r ln msg).run s = .ok () s') : s'.Lawful := by
  cases msg with
  | labelMappingFull =>
    cases hrun
    exact h.of_lib (h.lib.fecSnap ln.peerid)
  | labelMapping map => exact labelMapping_lawful h (hgood ln hln) hrun
  | labelRequest map =>
    cases hrun
    exact h.of_lib (h.lib.ldeCheckRequest hln (hgood ln hln))
  | labelRelease map => exact (lawful_releases.labelRelease r map ln).of_ok h hrun
  | labelWithdraw map =>
    simp only [nbrImsg] at hrun
    split at hrun
    · refine (lawful_inert.tears.labelWithdrawWcard r map ln fun s hs => ?_).of_ok h hrun
      exact hs.of_lib (hs.lib.of_receives (ldeCheckWithdrawWcard_receives map ln.peerid s.lib))
    · cases hrun
      exact h.of_lib (h.lib.ldeCheckWithdraw map ln.peerid)
  | addressAdd x =>
    cases hrun
    refine h.of_lib (h.lib.modNbr_same fun ln => ?_)
    unfold ldeAddressAdd
    split <;> exact .refl _
  | addressDel x =>
    cases hrun
    refine h.of_lib (h.lib.modNbr_same fun ln => ?_)
    unfold ldeAddressDel
    split <;> exact .refl _
  | notification nm =>
    refine (Stable.ite (lawful_modifyLib fun l hl => ?_) (Stable.pure _)).of_ok h hrun
    exact hl.of_receives (l2vpnRecvPwStatus_installs ln nm l).receives
  | neighborDown => exact (ldeNbrDel_lawful r ln).of_ok h hrun
  | _ =>
    cases hrun
    exact h

theorem step_lawful {e : Event} (hgood : LabelsLeft s e)
    (hrun : (step r e).run s = .ok () s') : s'.Lawful := by
  have hstart (fresh : Bool) : (s.start fresh).Lawful :=
    ⟨⟨h.lib.nodes, h.lib.sent, nofun⟩, h.table, h.counter⟩
  refine lawful_inert.step hstart ?_ ?_ ?_ ?_ hrun
  · rintro event rfl
    exact (hstart true).of_lib ((hstart true).lib.ldeDispatchParent event)
  · rintro fresh ln msg rfl hln hrun
    have hgood' : LabelsLeft (s.start fresh) (.imsg fresh ln.peerid msg) := by
      cases msg <;> exact hgood
    exact nbrImsg_lawful (hstart fresh) hln hgood' hrun
  · intro fresh peerid id v4 v6 _
    exact (hstart fresh).of_lib ((hstart fresh).lib.ldeNbrNew peerid id v4 v6)
  · rintro fresh peerid root ov s₁ rfl hup
    exact treeUp_lawful (hstart fresh) hgood hup

end

theorem lawful_init : Engine.init.Lawful :=
  ⟨⟨nofun, nofun, nofun⟩, nofun, by decide⟩

/-- In a run in which no label request is answered and the counter stays within the labels,
a peer accepts every mapping that is sent to it. -/
theorem advertised_acceptable (r : Freed) (tr : List Event) (s : Engine)
    (h : Run (step r) Engine.init LabelsLeft tr s) : ∀ m ∈ s.lib.mappings, Acceptable m.2 := by
  have hlawful : s.Lawful := by
    refine h.invariant (I := Engine.Lawful) lawful_init ?_
    intro s e s' hs hgood hrun
    exact step_lawful hs hgood hrun
  intro m hm
  obtain ⟨o, ho, hmap⟩ := mem_filterMap.mp hm
  cases o with
  | mappingAdd peerid map =>
    cases hmap
    exact hlawful.lib.out peerid map (mem_of_mem_filter ho)
  | _ => cases hmap

/-- The join that is passed on to neighbour 2 is advertised with the label 16. -/
theorem transitJoin_advertised_acceptable :
    ∃ s, Run (step .lost) Engine.init LabelsLeft transitJoin s ∧
      (∃ m ∈ s.lib.mappings, m.1 = 2 ∧ m.2.label = 16) ∧ ∀ m ∈ s.lib.mappings, Acceptable m.2 :=
  ⟨_, .of_play (by decide +kernel), by decide +kernel,
    advertised_acceptable .lost transitJoin _ (.of_play (by decide +kernel))⟩

/-- The request of neighbour 1 is answered with `NO_LABEL`. -/
theorem requestAnswered_advertises_no_label :
    ∃ s, Run (step .lost) Engine.init (fun _ _ => True) requestAnswered s ∧
      ∃ m ∈ s.lib.mappings, m.2.label = noLabel ∧ ¬LegalLabel m.2.label :=
  ⟨_, .of_play (by decide +kernel), by decide +kernel⟩

end Mp2mp.Lde
