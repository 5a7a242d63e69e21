import Mp2mp.Lde.Join

/-!
# Mappings from upstream

A label from the neighbour upstream is passed on downstream in one walk over the
whole table.  The neighbour to send to is assigned only at a `down` entry of the
LSP, but the send follows at every entry: `visits` is the sequence of neighbours
the walk comes to, and `run_fanOut` says that the walk sends to them, once to
each, unless one of them cannot be found or none is assigned yet.

`fan_out_iff`: when the mappings reach the neighbours downstream, and no other.
-/

namespace Mp2mp.Lde

open Kit Ldpd List Engine Option LabelNbr LdeNbr EStateM

variable {r : Freed} {s s' : Engine} {l : Lib} {fec : Fec} {map : Map} {peerid label q : UInt32}
  {ln : LdeNbr} {o : Out} {ln1 head : Option UInt32} {lnr : LabelNbr} {root : InAddr}
  {visited : List UInt32}

/-! ## Sending once -/

/-- The messages by which a neighbour hears of the LSP, if it still has to. -/
def Lib.dueMessages (l : Lib) (fec : Fec) (label peerid : UInt32) : List Out :=
  match l.nbr? peerid with
  | none => []
  | some ln =>
    if ln.sent fec = false ∧ ln.v4Enabled then
      [.mappingAdd peerid (ln.mldpMap fec label), .mappingAddEnd peerid]
    else []

/-- Whether there are any depends on the views only. -/
def Lib.Due (l : Lib) (fec : Fec) (peerid : UInt32) : Prop :=
  ∃ ln ∈ l.nbr? peerid, ln.sent fec = false ∧ ln.v4Enabled = true

theorem mem_dueMessages : o ∈ l.dueMessages fec label peerid ↔
      ∃ ln ∈ l.nbr? peerid, (ln.sent fec = false ∧ ln.v4Enabled = true) ∧
        (o = .mappingAdd peerid (ln.mldpMap fec label) ∨ o = .mappingAddEnd peerid) := by
  unfold Lib.dueMessages
  cases l.nbr? peerid with
  | none => simp
  | some ln =>
    simp only [mem_some_iff, exists_eq_left']
    split
    · rename_i h
      simp [h]
    · rename_i h
      simp only [not_mem_nil, false_iff, not_and]
      exact fun h' => absurd h' h

section

variable {ov : UInt8} (label : UInt32)

theorem nbr?_modNbr_of_ne {f : LdeNbr → LdeNbr} (hf : ∀ ln, (f ln).peerid = ln.peerid)
    (hq : q ≠ peerid) : (l.modNbr peerid f).nbr? q = l.nbr? q := by
  refine Table.find_modify_of_ne hf (fun ln h h' => hq ?_) _
  rw [ldeNbrCompare_eq.mp h', ldeNbrCompare_eq.mp h]

section

variable (l : Lib) (peerid q : UInt32)

theorem toPeers_sendOnce : (sendOnce peerid (.ipv4 root ov) label l).toPeers =
      l.toPeers ++ l.dueMessages (.ipv4 root ov) label peerid := by
  unfold sendOnce Lib.dueMessages
  cases hln : l.nbr? peerid with
  | none => exact (append_nil _).symm
  | some ln =>
    dsimp only
    cases hsent : ln.sent (.ipv4 root ov) with
    | true => simp
    | false =>
      simp only [Bool.false_eq_true, if_false, true_and]
      exact toPeers_sendTemporary label .freed hln

/-- The neighbour a mapping was due to has its entry after the send. -/
theorem nbr?_sendOnce : (sendOnce peerid (.ipv4 root ov) label l).nbr? q = if q = peerid then
        (l.nbr? peerid).map fun ln =>
          if ln.sent (.ipv4 root ov) = false ∧ ln.v4Enabled then
            ln.withSent (.ipv4 root ov) (ln.mldpMap (.ipv4 root ov) label) .freed
          else ln
      else l.nbr? q := by
  have hkeep (h : sendOnce peerid (.ipv4 root ov) label l = l) (g : LdeNbr → LdeNbr)
      (hg : ∀ ln, l.nbr? peerid = some ln → g ln = ln) :
      (sendOnce peerid (.ipv4 root ov) label l).nbr? q =
        if q = peerid then (l.nbr? peerid).map g else l.nbr? q := by
    rw [h]
    split
    · rename_i hq
      rw [hq]
      cases hln : l.nbr? peerid with
      | none => rfl
      | some ln => rw [map_some, hg ln hln]
    · rfl
  by_cases hdue : ∃ ln, l.nbr? peerid = some ln ∧ ln.sent (.ipv4 root ov) = false ∧
      ln.v4Enabled = true
  · obtain ⟨ln, hln, hsent, hv4⟩ := hdue
    have hc : l.concerns ln (temporaryNode (.ipv4 root ov) label) = true := hv4
    have hnbrs := (ldeSendLabelmapping_eq true .freed hln hc).1
    have hsend : sendOnce peerid (.ipv4 root ov) label l =
        ldeSendLabelmapping peerid (temporaryNode (.ipv4 root ov) label) true .freed l := by
      simp only [sendOnce, hln, hsent, Bool.false_eq_true, if_false]
    have hmod : (sendOnce peerid (.ipv4 root ov) label l).nbr? q =
        (l.modNbr peerid (withSent (.ipv4 root ov) (ln.mldpMap (.ipv4 root ov) label)
          .freed)).nbr? q := by
      rw [hsend, Lib.nbr?, hnbrs]
      rfl
    rw [hmod]
    split
    · rename_i hq
      rw [hq, Lib.nbr?_modNbr _ _ (by intro; rfl), hln]
      simp [hsent, hv4]
    · rename_i hq
      exact nbr?_modNbr_of_ne (by intro; rfl) hq
  · refine hkeep ?_ _ fun ln hln => if_neg fun h => hdue ⟨ln, hln, h⟩
    unfold sendOnce
    cases hln : l.nbr? peerid with
    | none => rfl
    | some ln =>
      dsimp only
      split
      · rfl
      · rename_i hsent
        refine ldeSendLabelmapping_of_not fun ln' hln' => Bool.eq_false_iff.mpr fun hc => hdue ?_
        cases hln.symm.trans hln'
        exact ⟨ln, hln, Bool.eq_false_iff.mpr hsent, hc⟩

/-- After the send the neighbour has heard of the LSP, or it never will. -/
theorem dueMessages_sendOnce :
    (sendOnce peerid (.ipv4 root ov) label l).dueMessages (.ipv4 root ov) label q =
      if q = peerid then [] else l.dueMessages (.ipv4 root ov) label q := by
  unfold Lib.dueMessages
  rw [nbr?_sendOnce]
  split_ifs with hq
  · subst hq
    cases l.nbr? q with
    | none => rfl
    | some ln =>
      rw [map_some]
      dsimp only
      by_cases hdue : ln.sent (.ipv4 root ov) = false ∧ ln.v4Enabled = true
      · have hsent : (ln.withSent (.ipv4 root ov) (ln.mldpMap (.ipv4 root ov) label) .freed).sent
            (.ipv4 root ov) = true := fecFind_recordMap _ _ _ _
        rw [if_pos hdue, hsent]
        simp
      · rw [if_neg hdue, if_neg hdue]
  · rfl

end

theorem dueMessages_linkBehind {q p peerid : UInt32} {l : Lib} :
    (linkBehind q p fec l).dueMessages fec label peerid = l.dueMessages fec label peerid := by
  unfold Lib.dueMessages
  by_cases hq : peerid = q
  · subst hq
    rw [linkBehind, Lib.nbr?_modNbr _ _ (by intro; rfl)]
    cases l.nbr? peerid with
    | none => rfl
    | some ln =>
      rw [map_some]
      dsimp only
      have hview : ({ ln with
          sentMap := Table.modify fecCompare LdeMap.fec fec (fun me => { me with prev := .entry p })
            ln.sentMap } : LdeNbr).view = ln.view := by
        simp only [view, NbrView.mk.injEq, true_and]
        exact Table.map_modify (by intros; rfl)
      rw [sent_eq, hview, ← sent_eq]
      rfl
  · rw [linkBehind, nbr?_modNbr_of_ne (by intro; rfl) hq]

section

variable (l : Lib) (peerid : UInt32) (head : Option UInt32)

theorem toPeers_fanOutSend : (fanOutSend peerid (.ipv4 root ov) label head l).1.toPeers =
      l.toPeers ++ l.dueMessages (.ipv4 root ov) label peerid := by
  rw [← toPeers_sendOnce]
  simp only [fanOutSend]
  split
  · rfl
  · split <;> rfl

theorem dueMessages_fanOutSend {q : UInt32} :
    (fanOutSend peerid (.ipv4 root ov) label head l).1.dueMessages (.ipv4 root ov) label q =
      if q = peerid then [] else l.dueMessages (.ipv4 root ov) label q := by
  rw [← dueMessages_sendOnce]
  simp only [fanOutSend]
  split
  · rfl
  · split
    · rfl
    · rw [dueMessages_linkBehind]

end

/-- The sends of the fan-out, to one neighbour after the other. -/
def sendAll (fec : Fec) (label : UInt32) : List UInt32 → Option UInt32 → Lib → Lib
  | [], _, l => l
  | peerid :: rest, head, l =>
    sendAll fec label rest (fanOutSend peerid fec label head l).2 (fanOutSend peerid fec label head l).1

/-- What they send: each neighbour hears of the LSP once. -/
def Lib.fanMessages (l : Lib) (fec : Fec) (label : UInt32) : List UInt32 → List UInt32 → List Out
  | _, [] => []
  | served, peerid :: rest =>
    (if peerid ∈ served then [] else l.dueMessages fec label peerid) ++
      l.fanMessages fec label (peerid :: served) rest

/-- `served` are the neighbours that have been sent to since `l`. -/
theorem toPeers_sendAll {l' : Lib} (visited : List UInt32) (head : Option UInt32)
    (served : List UInt32) (hserved : ∀ q, l'.dueMessages (.ipv4 root ov) label q =
      if q ∈ served then [] else l.dueMessages (.ipv4 root ov) label q) :
    (sendAll (.ipv4 root ov) label visited head l').toPeers =
      l'.toPeers ++ l.fanMessages (.ipv4 root ov) label served visited := by
  induction visited generalizing l' head served with
  | nil => exact (append_nil _).symm
  | cons p rest ih =>
    rw [sendAll, Lib.fanMessages, ih, toPeers_fanOutSend, hserved p, append_assoc]
    intro q
    rw [dueMessages_fanOutSend, hserved q]
    by_cases hq : q = p <;> simp [hq]

theorem toPeers_sendAll_start {l : Lib} :
    (sendAll (.ipv4 root ov) label visited head l).toPeers =
      l.toPeers ++ l.fanMessages (.ipv4 root ov) label [] visited :=
  toPeers_sendAll label visited head [] fun q => by simp

theorem mem_fanMessages :
    o ∈ l.fanMessages fec label [] visited ↔ ∃ q ∈ visited, o ∈ l.dueMessages fec label q := by
  have hgeneral (served : List UInt32) : o ∈ l.fanMessages fec label served visited ↔
      ∃ q ∈ visited, q ∉ served ∧ o ∈ l.dueMessages fec label q := by
    induction visited generalizing served with
    | nil => simp [Lib.fanMessages]
    | cons p rest ih =>
      rw [Lib.fanMessages, mem_append, ih, exists_mem_cons_iff]
      by_cases hp : p ∈ served
      · simp only [hp, if_true, not_mem_nil, false_or, not_true_eq_false, false_and,
          mem_cons, not_or]
        refine ⟨fun ⟨q, hq, ⟨_, hns⟩, ho⟩ => ⟨q, hq, hns, ho⟩, fun ⟨q, hq, hns, ho⟩ => ?_⟩
        exact ⟨q, hq, ⟨fun h => hns (h ▸ hp), hns⟩, ho⟩
      · simp only [hp, if_false, not_false_eq_true, true_and, mem_cons, not_or]
        refine or_congr_right' fun hnot => ?_
        refine ⟨fun ⟨q, hq, ⟨_, hns⟩, ho⟩ => ⟨q, hq, hns, ho⟩, fun ⟨q, hq, hns, ho⟩ => ?_⟩
        exact ⟨q, hq, ⟨fun h => hnot (h ▸ ho), hns⟩, ho⟩
  simpa using hgeneral []

theorem fanOutSend_keeps (peerid : UInt32) (fec : Fec) (head : Option UInt32) (l : Lib) :
    Keeps l (fanOutSend peerid fec label head l).1 :=
  fanOutSend_of (I := Keeps l) head (Keeps.refl l) (ldeSendLabelmapping_keeps _ _ _ _ l) fun _ _ hl =>
    Keeps.modNbr hl fun _ => rfl

theorem sendAll_keeps (fec : Fec) (visited : List UInt32) (head : Option UInt32) (l : Lib) :
    Keeps l (sendAll fec label visited head l) := by
  induction visited generalizing head l with
  | nil => exact Keeps.refl l
  | cons p rest ih => exact (fanOutSend_keeps label p fec head l).trans (ih _ _)

end

/-! ## The walk -/

def Binding.isTarget (fec : Fec) (b : Binding) : Bool := b.type == .down && sameLsp b.fec fec

/-- The neighbours the walk comes to, one at each entry once one is assigned. -/
def visits (fec : Fec) : List Binding → Option UInt32 → List UInt32
  | [], _ => []
  | b :: rest, ln1 =>
    let ln1 := if b.isTarget fec then some b.peerid else ln1
    ln1.toList ++ visits fec rest ln1

theorem mem_visits {t : List Binding} :
    q ∈ visits fec t ln1 ↔ (∃ b ∈ t, b.isTarget fec ∧ b.peerid = q) ∨
      (ln1 = some q ∧ ∃ b ∈ t.head?, ¬b.isTarget fec) := by
  induction t generalizing ln1 with
  | nil => simp [visits]
  | cons b rest ih =>
    rw [visits]
    simp only [mem_append, mem_toList, ih, exists_mem_cons_iff, head?_cons,
      mem_some_iff, exists_eq_left']
    by_cases hb : b.isTarget fec = true
    · simp only [hb, if_true, some.injEq, true_and, not_true_eq_false, and_false, or_false]
      constructor
      · rintro (h | h | ⟨h, -⟩)
        · exact .inl h
        · exact .inr h
        · exact .inl h
      · exact fun h => h.imp_right .inl
    · simp only [hb, if_false, Bool.false_eq_true, false_and, false_or, not_false_eq_true, and_true]
      constructor
      · rintro (h | h | ⟨h, -⟩)
        · exact .inr h
        · exact .inl h
        · exact .inr h
      · exact fun h => h.symm.imp_right .inl

/-- A neighbour is assigned before the first send. -/
def Startable (fec : Fec) (t : List Binding) (ln1 : Option UInt32) : Prop :=
  ∀ b ∈ t.head?, b.isTarget fec ∨ ln1.isSome

/-- The neighbour that is assigned after the walk. -/
def lastTarget (fec : Fec) (t : List Binding) (ln1 : Option UInt32) : Option UInt32 :=
  t.foldl (fun ln1 b => if b.isTarget fec then some b.peerid else ln1) ln1

theorem run_fanOut {t : List LabelNbr} :
    (fanOut fec label t head).run s = .ok () s' ↔
      (∀ lnr ∈ t, (s.lib.nbr? lnr.peerid).isSome) ∧ Startable fec (t.map binding) s.ln1 ∧
        s' = { s with
          lib := sendAll fec label (visits fec (t.map binding) s.ln1) head s.lib
          ln1 := lastTarget fec (t.map binding) s.ln1 } := by
  induction t generalizing s head with
  | nil =>
    rw [fanOut, run_pure]
    constructor
    · intro h
      cases h
      exact ⟨nofun, nofun, rfl⟩
    · rintro ⟨-, -, rfl⟩
      rfl
  | cons lnr rest ih =>
    have htarget : (lnr.type = .down ∧ sameLsp lnr.fec fec = true) ↔
        lnr.binding.isTarget fec = true := by
      simp [Binding.isTarget, binding]
    rw [fanOut, run_bind, run_ldeNbrDeref]
    cases hln : s.lib.nbr? lnr.peerid with
    | none => simp [hln]
    | some ln =>
      have hmod : (if lnr.binding.isTarget fec = true then { s with ln1 := some lnr.peerid } else s) =
          ({ s with
            ln1 := if lnr.binding.isTarget fec = true then some lnr.peerid else s.ln1 } : Engine) := by
        split <;> rfl
      have hstart : Startable fec (lnr.binding :: rest.map binding) s.ln1 ↔
          (if lnr.binding.isTarget fec = true then some lnr.peerid else s.ln1).isSome := by
        simp only [Startable, head?_cons, mem_some_iff, forall_eq']
        split <;> simp_all
      simp only [htarget, run_bind, run_modify, run_get, hmod, hstart,
        map_cons, visits, lastTarget, foldl_cons]
      have hpeerid : lnr.binding.peerid = lnr.peerid := rfl
      rw [hpeerid]
      generalize (if lnr.binding.isTarget fec = true then some lnr.peerid else s.ln1) = ln1
      cases ln1 with
      | none => simp [assigned, throw, throwThe, MonadExceptOf.throw, EStateM.throw, EStateM.run]
      | some q =>
        simp only [assigned, run_pure, run_modifyLib, ih, forall_mem_cons, hln,
          isSome_some, true_and, toList_some, singleton_append, sendAll,
          lastTarget]
        have hkeep (p : UInt32) : ((fanOutSend q fec label head s.lib).1.nbr? p).isSome ↔
            (s.lib.nbr? p).isSome := by
          rw [Lib.nbr?_isSome, Lib.nbr?_isSome, (fanOutSend_keeps label q fec head s.lib).peers]
        have hstart' : Startable fec (rest.map binding) (some q) := fun _ _ => .inr rfl
        simp only [hkeep, hstart', true_and]

/-! ## Mappings from upstream -/

theorem Engine.fanOutLabel_eq {s : Engine} : s.fanOutLabel fec =
      match s.bindings.find? fun b => sameLsp b.fec fec with
      | some b => if b.localLabel = noLabel then s.label + 1 else b.localLabel
      | none => 0 := by
  unfold fanOutLabel bindings
  rw [find?_map]
  cases h : s.labelNbrs.find? fun lnr1 => sameLsp lnr1.fec fec with
  | none =>
    have h' : s.labelNbrs.find? ((fun b => sameLsp b.fec fec) ∘ binding) = none := h
    rw [h']
    rfl
  | some lnr =>
    have h' : s.labelNbrs.find? ((fun b => sameLsp b.fec fec) ∘ binding) = some lnr := h
    rw [h']
    rfl

theorem bindingsLive_congr (hbindings : s'.bindings = s.bindings) (hlib : Keeps s.lib s'.lib) :
    s'.BindingsLive ↔ s.BindingsLive := by
  rw [bindingsLive_iff, bindingsLive_iff, hbindings]
  exact forall₂_congr fun b _ => hlib.live b.peerid

def Engine.fannedOut (s : Engine) (map : Map) (lnr : LabelNbr) (fec : Fec) : Engine :=
  { (s.relabelled lnr map.label).withFanOutLabel fec with
    lib := sendAll fec (s.fanOutLabel fec) (visits fec s.bindings s.ln1) none s.lib
    ln1 := lastTarget fec s.bindings s.ln1 }

theorem Engine.fannedOut_bindings {s : Engine} {map : Map} {lnr : LabelNbr} :
    (s.fannedOut map lnr fec).bindings = s.bindings := by
  rw [← s.relabelled_bindings lnr map.label, fannedOut, withFanOutLabel_eq]
  rfl

theorem fromUpstream_leaf (hleaf : s.leaf = 1) :
    (fromUpstream map lnr fec).run s = .ok () (s.relabelled lnr map.label) := by
  rw [run_fromUpstream]
  exact if_pos hleaf

theorem fromUpstream_transit (hleaf : s.leaf ≠ 1) : (fromUpstream map lnr fec).run s = .ok () s' ↔
      s.BindingsLive ∧ Startable fec s.bindings s.ln1 ∧ s' = s.fannedOut map lnr fec := by
  have hbindings : (s.relabelled lnr map.label).labelNbrs.map binding = s.bindings :=
    s.relabelled_bindings lnr map.label
  have hlive : (∀ e ∈ (s.relabelled lnr map.label).labelNbrs, (s.lib.nbr? e.peerid).isSome) ↔
      s.BindingsLive :=
    show (s.relabelled lnr map.label).BindingsLive ↔ s.BindingsLive from
      bindingsLive_congr hbindings (Keeps.refl _)
  have hlabel : (s.relabelled lnr map.label).fanOutLabel fec = s.fanOutLabel fec := by
    rw [fanOutLabel_eq, fanOutLabel_eq, s.relabelled_bindings]
    rfl
  have hrun := run_fromUpstream map lnr fec s
  dsimp only at hrun
  rw [if_neg hleaf, withFanOutLabel_eq] at hrun
  rw [hrun, run_fanOut, hbindings, hlabel]
  refine and_congr hlive (and_congr_right fun _ => ?_)
  rw [fannedOut, withFanOutLabel_eq]
  rfl

/-- The mapping arrives from the neighbour recorded as upstream for the LSP. -/
structure FromUpstream (s : Engine) (root : InAddr) (ov : UInt8) (up : LdeNbr) (map : Map) :
    Prop where
  map : MapFor map root ov
  nbr : s.lib.nbr? up.peerid = some up
  entry : ∃ lnr, labelNbrFind up.peerid (.ipv4 root ov) s.labelNbrs = some lnr ∧ lnr.type = .up

/-- The neighbour has a `down` entry of the LSP and has not been sent a mapping for it. -/
def Engine.Awaits (s : Engine) (fec : Fec) (peerid : UInt32) : Prop :=
  (∃ b ∈ s.bindings, b.fec = fec ∧ b.peerid = peerid ∧ b.type = .down) ∧
    ∃ ln ∈ s.lib.nbr? peerid, ln.sent fec = false

instance : Decidable (s.Awaits fec peerid) := by unfold Engine.Awaits; infer_instance

/-- Every neighbour that awaits a mapping is sent one with the label of the LSP, and nobody else is
sent anything; a label that the mapping replaces is released. -/
structure FannedOut (s s' : Engine) (root : InAddr) (ov : UInt8) (up : LdeNbr) (map : Map) :
    Prop where
  reached : ∀ q, s.Awaits (.ipv4 root ov) q → ∃ sent, .mappingAdd q sent ∈ s'.lib.toPeers ∧
    MapFor sent root ov ∧ ∀ b ∈ s.bindings, b.fec = .ipv4 root ov → b.localLabel = sent.label
  others : ∀ o ∈ s'.lib.toPeers, ∀ q, o.peer? = some q →
    s.Awaits (.ipv4 root ov) q ∨ o ∈ replacedRelease up (.ipv4 root ov) map

/-- The walk over the table reaches the neighbours that await a mapping and no others: `ln1` is
assigned at the first entry, or was left at a neighbour that may be sent to; no FEC that only looks
like the LSP leads elsewhere; IPv4 is enabled where it has to be; the entries of the LSP have the
label that is sent. -/
structure WalkClean (s : Engine) (fec : Fec) (ln1 : Option UInt32) : Prop where
  role : s.leaf ≠ 1
  first : ∀ b ∈ s.bindings.head?, b.isTarget fec ∨
    ∃ q, ln1 = some q ∧ (s.lib.Due fec q → s.Awaits fec q)
  alike : ∀ b ∈ s.bindings, b.isTarget fec → s.lib.Due fec b.peerid → s.Awaits fec b.peerid
  enabled : ∀ q, s.Awaits fec q → s.lib.Due fec q
  label : ∀ q, s.Awaits fec q → ∀ b ∈ s.bindings, b.fec = fec → b.localLabel = s.fanOutLabel fec

/-- Whether a neighbour is to hear of the LSP does not change in `lde_check_mapping`. -/
theorem due_checked {map : Map} (hln : s.lib.nbr? peerid = some ln) (fec : Fec) (q : UInt32) :
    (s.checked map peerid).lib.Due fec q ↔ s.lib.Due fec q := by
  have hview (l : Lib) : l.Due fec q ↔ ∃ v, (l.nbr? q).map view = some v ∧
      decide (fec ∈ v.sentFecs) = false ∧ v.v4Enabled = true := by
    unfold Lib.Due
    cases l.nbr? q with
    | none => simp
    | some ln => simp [sent_eq, view]
  rw [hview, hview, checked_nbr? map hln]

section

variable {ov : UInt8} {up : LdeNbr}

theorem replacedRelease_not_mapping {sent : Map} :
    .mappingAdd q sent ∉ replacedRelease up (.ipv4 root ov) map := by
  unfold replacedRelease
  split
  · split <;> simp
  · simp

theorem Binding.isTarget_of_down {b : Binding} (hfec : b.fec = fec) (hdown : b.type = .down) :
    b.isTarget fec = true := by
  simp [Binding.isTarget, hfec, hdown, sameLsp_refl]

theorem due_iff_dueMessages :
    l.Due fec peerid ↔ ∃ sent, .mappingAdd peerid sent ∈ l.dueMessages fec label peerid := by
  simp only [mem_dueMessages]
  constructor
  · rintro ⟨ln, hln, hdue⟩
    exact ⟨_, ln, hln, hdue, .inl rfl⟩
  · rintro ⟨sent, ln, hln, hdue, -⟩
    exact ⟨ln, hln, hdue⟩

theorem WalkClean.startable (h : WalkClean s fec ln1) : Startable fec s.bindings ln1 := by
  intro b hb
  rcases h.first b hb with htarget | ⟨q, hq, -⟩
  · exact .inl htarget
  · exact .inr (by rw [hq]; rfl)

variable (h : FromUpstream s root ov up map)

include h

theorem run_labelMapping_known
    (hlnr : labelNbrFind up.peerid (.ipv4 root ov) s.labelNbrs = some lnr) :
    (labelMapping map up).run s = .ok () s' ↔
      ∃ s₂, (fromUpstream map lnr (.ipv4 root ov)).run (s.checked map up.peerid) = .ok () s₂ ∧
        s₂.BindingsLive ∧
        s' = { s₂ with ln1 := s₂.labelNbrs.foldl (fun _ lnr => some lnr.peerid) s₂.ln1 } := by
  rw [run_labelMapping_ok, h.map.fec, run_mldpMapping_known (s := s.checked map up.peerid) hlnr]

variable (hout : s.lib.toPeers = [])

include hout

theorem toPeers_checked :
    (s.checked map up.peerid).lib.toPeers = replacedRelease up (.ipv4 root ov) map := by
  rw [checked, toPeers_ldeCheckMapping h.nbr h.map, hout, nil_append]

section

variable (hs' : s'.lib = sendAll (.ipv4 root ov) (s.fanOutLabel (.ipv4 root ov))
  (visits (.ipv4 root ov) s.bindings s.ln1) none (s.checked map up.peerid).lib)

include hs'

/-- What the fan-out sends: the messages to the neighbours of the walk. -/
theorem mem_toPeers_fannedOut (o : Out) : o ∈ s'.lib.toPeers ↔
      o ∈ replacedRelease up (.ipv4 root ov) map ∨
        ∃ q ∈ visits (.ipv4 root ov) s.bindings s.ln1,
          o ∈ (s.checked map up.peerid).lib.dueMessages (.ipv4 root ov)
            (s.fanOutLabel (.ipv4 root ov)) q := by
  rw [hs', toPeers_sendAll_start, mem_append, mem_fanMessages, toPeers_checked h hout]

theorem fannedOut_of_walkClean (hwalk : WalkClean s (.ipv4 root ov) s.ln1) :
    FannedOut s s' root ov up map := by
  have hmem := mem_toPeers_fannedOut h hout hs'
  constructor
  · intro q hq
    obtain ⟨b, hb, hfec, hpeer, hdown⟩ := hq.1
    have hvisit : q ∈ visits (.ipv4 root ov) s.bindings s.ln1 :=
      mem_visits.mpr (.inl ⟨b, hb, Binding.isTarget_of_down hfec hdown, hpeer⟩)
    obtain ⟨ln, hln, hdue⟩ := (due_checked h.nbr _ q).mpr (hwalk.enabled q hq)
    refine ⟨ln.mldpMap (.ipv4 root ov) (s.fanOutLabel (.ipv4 root ov)), (hmem _).mpr
      (.inr ⟨q, hvisit, mem_dueMessages.mpr ⟨ln, hln, hdue, .inl rfl⟩⟩),
      ln.mldpMap_for root ov _, fun b' hb' hfec' => ?_⟩
    rw [mldpMap_label]
    exact hwalk.label q hq b' hb' hfec'
  · intro o ho q hpeer
    rcases (hmem o).mp ho with hrel | ⟨p, hvisit, hmsg⟩
    · exact .inr hrel
    · obtain ⟨ln, hln, hdue, hmap⟩ := mem_dueMessages.mp hmsg
      have hp : p = q := by
        rcases hmap with rfl | rfl <;> exact some.inj hpeer
      subst hp
      have hdue' := (due_checked h.nbr _ p).mp ⟨ln, hln, hdue⟩
      refine .inl ?_
      rcases mem_visits.mp hvisit with ⟨b, hb, htarget, rfl⟩ | ⟨hln1, b, hb, hnot⟩
      · exact hwalk.alike b hb htarget hdue'
      · rcases hwalk.first b hb with htarget | ⟨q, hq, hfirst⟩
        · exact absurd htarget hnot
        · cases hln1.symm.trans hq
          exact hfirst hdue'

theorem walkClean_of_fannedOut (hleaf : s.leaf ≠ 1)
    (hstart : Startable (.ipv4 root ov) s.bindings s.ln1)
    (hfan : FannedOut s s' root ov up map) : WalkClean s (.ipv4 root ov) s.ln1 := by
  have hmem := mem_toPeers_fannedOut h hout hs'
  have hvisited (q : UInt32) (hvisit : q ∈ visits (.ipv4 root ov) s.bindings s.ln1)
      (hdue : s.lib.Due (.ipv4 root ov) q) : s.Awaits (.ipv4 root ov) q := by
    obtain ⟨sent, hsent⟩ := due_iff_dueMessages.mp ((due_checked h.nbr _ q).mpr hdue)
    rcases hfan.others _ ((hmem _).mpr (.inr ⟨q, hvisit, hsent⟩)) q rfl with hq | hrel
    · exact hq
    · exact absurd hrel replacedRelease_not_mapping
  have hawaits (q : UInt32) (hq : s.Awaits (.ipv4 root ov) q) :
      s.lib.Due (.ipv4 root ov) q ∧
        ∀ b ∈ s.bindings, b.fec = .ipv4 root ov → b.localLabel = s.fanOutLabel (.ipv4 root ov) := by
    obtain ⟨sent, hsent, -, hlabel⟩ := hfan.reached q hq
    rcases (hmem _).mp hsent with hrel | ⟨p, -, hmsg⟩
    · exact absurd hrel replacedRelease_not_mapping
    · obtain ⟨ln, hln, hdue, hmap | hmap⟩ := mem_dueMessages.mp hmsg
      · cases hmap
        refine ⟨(due_checked h.nbr _ q).mp ⟨ln, hln, hdue⟩, fun b hb hfec => ?_⟩
        rw [hlabel b hb hfec, mldpMap_label]
      · cases hmap
  refine ⟨hleaf, fun b hb => ?_, fun b hb htarget => ?_, fun q hq => (hawaits q hq).1,
    fun q hq => (hawaits q hq).2⟩
  · by_cases htarget : b.isTarget (.ipv4 root ov) = true
    · exact .inl htarget
    · rcases hstart b hb with htarget' | hsome
      · exact absurd htarget' htarget
      · obtain ⟨q, hq⟩ := isSome_iff_exists.mp hsome
        exact .inr ⟨q, hq, hvisited q (mem_visits.mpr (.inr ⟨hq, b, hb, htarget⟩))⟩
  · exact hvisited b.peerid (mem_visits.mpr (.inl ⟨b, hb, htarget, rfl⟩))

end

theorem fan_out_leaf (hleaf : s.leaf = 1) :
    (∃ s', (labelMapping map up).run s = .ok () s' ∧ FannedOut s s' root ov up map) ↔
      s.BindingsLive ∧ ∀ q, ¬s.Awaits (.ipv4 root ov) q := by
  obtain ⟨lnr, hlnr, -⟩ := h.entry
  have hlive : ((s.checked map up.peerid).relabelled lnr map.label).BindingsLive ↔ s.BindingsLive :=
    bindingsLive_congr ((s.checked map up.peerid).relabelled_bindings lnr map.label)
      (ldeCheckMapping_keeps map up.peerid s.lib)
  simp only [run_labelMapping_known h hlnr, fromUpstream_leaf (s := s.checked map up.peerid) hleaf]
  constructor
  · rintro ⟨_, ⟨s₂, hs₂, hlive₂, rfl⟩, hfan⟩
    cases hs₂
    refine ⟨hlive.mp hlive₂, fun q hq => ?_⟩
    obtain ⟨sent, hsent, -⟩ := hfan.reached q hq
    exact replacedRelease_not_mapping (toPeers_checked h hout ▸ hsent)
  · rintro ⟨hlive₁, hnone⟩
    refine ⟨_, ⟨_, rfl, hlive.mpr hlive₁, rfl⟩, fun q hq => absurd hq (hnone q), fun o ho _ _ => ?_⟩
    exact .inr (toPeers_checked h hout ▸ ho)

theorem fan_out_transit (hleaf : s.leaf ≠ 1) :
    (∃ s', (labelMapping map up).run s = .ok () s' ∧ FannedOut s s' root ov up map) ↔
      s.BindingsLive ∧ WalkClean s (.ipv4 root ov) s.ln1 := by
  obtain ⟨lnr, hlnr, -⟩ := h.entry
  have hlive₁ : (s.checked map up.peerid).BindingsLive ↔ s.BindingsLive :=
    bindingsLive_congr rfl (ldeCheckMapping_keeps map up.peerid s.lib)
  have hlive₂ : ((s.checked map up.peerid).fannedOut map lnr (.ipv4 root ov)).BindingsLive ↔
      s.BindingsLive :=
    (bindingsLive_congr fannedOut_bindings (sendAll_keeps _ _ _ _ _)).trans hlive₁
  simp only [run_labelMapping_known h hlnr,
    fromUpstream_transit (s := s.checked map up.peerid)
      (show (s.checked map up.peerid).leaf ≠ 1 from hleaf)]
  constructor
  · rintro ⟨_, ⟨s₂, ⟨hlive, hstart, rfl⟩, -, rfl⟩, hfan⟩
    exact ⟨hlive₁.mp hlive, walkClean_of_fannedOut h hout rfl hleaf hstart hfan⟩
  · rintro ⟨hlive, hwalk⟩
    refine ⟨_, ⟨_, ⟨hlive₁.mpr hlive, hwalk.startable, rfl⟩, hlive₂.mpr hlive, rfl⟩, ?_⟩
    exact fannedOut_of_walkClean h hout rfl hwalk

end

/-- A label from upstream reaches the neighbours downstream and no others exactly
when every binding is live and the walk is clean, or there is nobody to reach and
the router's role is leaf. -/
theorem fan_out_iff (r : Freed) (s : Engine) (fresh : Bool) (root : InAddr) (ov : UInt8)
    (up : LdeNbr) (map : Map) (h : FromUpstream s root ov up map) :
    (∃ s', (step r (.imsg fresh up.peerid (.labelMapping map))).run s = .ok () s' ∧
      FannedOut s s' root ov up map) ↔
      s.BindingsLive ∧
        (s.leaf = 1 ∧ (∀ q, ¬s.Awaits (.ipv4 root ov) q) ∨
          WalkClean s (.ipv4 root ov) (if fresh then none else s.ln1)) := by
  have h₀ : FromUpstream (s.start fresh) root ov up map := ⟨h.map, h.nbr, h.entry⟩
  have hfan (s' : Engine) : FannedOut s s' root ov up map ↔
      FannedOut (s.start fresh) s' root ov up map :=
    ⟨fun ⟨reached, others⟩ => ⟨reached, others⟩, fun ⟨reached, others⟩ => ⟨reached, others⟩⟩
  simp only [run_step_labelMapping r fresh h.nbr h.map.unknownAf, hfan]
  by_cases hleaf : s.leaf = 1
  · refine (fan_out_leaf h₀ rfl hleaf).trans (and_congr_right fun _ => ?_)
    exact ⟨fun hnone => .inl ⟨hleaf, hnone⟩,
      fun h => h.elim And.right fun hwalk => absurd hleaf hwalk.role⟩
  · refine (fan_out_transit h₀ rfl hleaf).trans (and_congr_right fun _ => ?_)
    constructor
    · rintro ⟨role, first, alike, enabled, label⟩
      exact .inr ⟨role, first, alike, enabled, label⟩
    · rintro (⟨hleaf', -⟩ | ⟨role, first, alike, enabled, label⟩)
      · exact absurd hleaf' hleaf
      · exact ⟨role, first, alike, enabled, label⟩

/-- The transit node after the join of neighbour 1. -/
def joinedState : Engine :=
  (play (step .lost) (fun _ _ => True) transitJoin Engine.init).get (by decide +kernel)

/-- The mapping for (10.0.0.1, 40) that comes back from upstream. -/
def upstreamMap : Map := { ldeFec2map (.ipv4 0x0a000001 40) with label := 200 }

/-- The label from upstream reaches neighbour 1. -/
theorem joinedState_fans_out :
    ∃ up s', (step .lost (.imsg true 2 (.labelMapping upstreamMap))).run joinedState = .ok () s' ∧
      joinedState.Awaits (.ipv4 0x0a000001 40) 1 ∧
      FannedOut joinedState s' 0x0a000001 40 up upstreamMap := by
  let up := (joinedState.lib.nbr? 2).get (by decide +kernel)
  have hup : FromUpstream joinedState 0x0a000001 40 up upstreamMap :=
    ⟨⟨rfl, rfl, rfl, rfl⟩, by decide +kernel,
      (labelNbrFind 2 (.ipv4 0x0a000001 40) joinedState.labelNbrs).get (by decide +kernel),
      by decide +kernel, by decide +kernel⟩
  have hdue : ∀ b ∈ joinedState.bindings, b.fec = .ipv4 0x0a000001 40 → b.type = .down →
      ∃ ln ∈ joinedState.lib.nbr? b.peerid,
        ln.sent (.ipv4 0x0a000001 40) = false ∧ ln.v4Enabled = true := by decide +kernel
  have hfirst : ∀ b ∈ joinedState.bindings.head?, b.isTarget (.ipv4 0x0a000001 40) := by
    decide +kernel
  have htarget : ∀ b ∈ joinedState.bindings, b.isTarget (.ipv4 0x0a000001 40) →
      b.fec = .ipv4 0x0a000001 40 ∧ b.type = .down := by decide +kernel
  have hlabel : ∀ b ∈ joinedState.bindings, b.fec = .ipv4 0x0a000001 40 →
      b.localLabel = joinedState.fanOutLabel (.ipv4 0x0a000001 40) := by decide +kernel
  have hwalk : WalkClean joinedState (.ipv4 0x0a000001 40) none := by
    refine ⟨by decide +kernel, fun b hb => .inl (hfirst b hb), fun b hb ht hd => ?_,
      fun q hq => ?_, fun _ _ => hlabel⟩
    · obtain ⟨hfec, hdown⟩ := htarget b hb ht
      obtain ⟨ln, hln, hsent, -⟩ := hd
      exact ⟨⟨b, hb, hfec, rfl, hdown⟩, ln, hln, hsent⟩
    · obtain ⟨⟨b, hb, hfec, rfl, hdown⟩, -⟩ := hq
      exact hdue b hb hfec hdown
  obtain ⟨s', hrun, hfan⟩ := (fan_out_iff .lost joinedState true _ 40 up upstreamMap hup).mpr
    ⟨by decide +kernel, .inr hwalk⟩
  exact ⟨up, s', hrun, by decide +kernel, hfan⟩

/-- Neighbour 1 is the way to the root 10.0.0.1.  Neighbour 2 joins the LSP
(10.0.0.1, 40) and then neighbour 3 the LSP (10.0.0.1, ov). -/
def twoJoins (ov : UInt8) : List Event :=
  [ .imsg true 1 (.neighborUp 0x01010101 true true),
    .imsg true 2 (.neighborUp 0x02020202 true true),
    .imsg true 3 (.neighborUp 0x03030303 true true),
    .imsg true 1 (.addressAdd ⟨.inet, .ofV4 0x0a000102⟩),
    .parent (.networkAdd .inet (.ofV4 0x0a000001) 32 0 (.ofV4 0x0a000102) 10),
    .imsg true 2 (.labelMapping { ldeFec2map (.ipv4 0x0a000001 40) with label := 100 }),
    .imsg true 3 (.labelMapping { ldeFec2map (.ipv4 0x0a000001 ov) with label := 101 }) ]

/-- Two LSPs with one leaf each. -/
def twoLspsState : Engine :=
  (play (step .lost) (fun _ _ => True) (twoJoins 50) Engine.init).get (by decide +kernel)

/-- If the label for (10.0.0.1, 40) comes in the same call, `ln1` is still
neighbour 3 at the first entry, and neighbour 3 is told of an LSP it is not part of. -/
theorem twoLspsState_leaks : Reachable (step .lost) Engine.init twoLspsState ∧
      ∃ up s', FromUpstream twoLspsState 0x0a000001 40 up upstreamMap ∧
        (step .lost (.imsg false 1 (.labelMapping upstreamMap))).run twoLspsState = .ok () s' ∧
        ¬FannedOut twoLspsState s' 0x0a000001 40 up upstreamMap := by
  let up := (twoLspsState.lib.nbr? 1).get (by decide +kernel)
  let e : Event := .imsg false 1 (.labelMapping upstreamMap)
  have hmsg : ∃ o ∈ (final (step .lost e) twoLspsState).lib.toPeers, o.peer? = some 3 ∧
      o ∉ replacedRelease up (.ipv4 0x0a000001 40) upstreamMap := by decide +kernel
  refine ⟨(Run.of_play _).reachable, up, _, ⟨⟨rfl, rfl, rfl, rfl⟩, by decide +kernel,
    (labelNbrFind 1 (.ipv4 0x0a000001 40) twoLspsState.labelNbrs).get (by decide +kernel),
    by decide +kernel, by decide +kernel⟩, run_eq_final (by decide +kernel), fun hfan => ?_⟩
  obtain ⟨o, ho, hpeer, hrel⟩ := hmsg
  rcases hfan.others o ho 3 hpeer with hawaits | hrel'
  · exact absurd hawaits.1 (by decide +kernel)
  · exact hrel hrel'

end Mp2mp.Lde
