import Mp2mp.Lde.FanOut
import Mp2mp.Lde.LabelsInUse

/-!
# Mappings and their FEC nodes

A mapping is held by the neighbour it is from or to and by the node of its FEC, which
lists it as downstream or upstream.  Label release, withdraw, the loss of a neighbour and
the garbage collector all rely on the two agreeing.

* `Retained.Linked`: the received mappings always agree.
* `Sent.Linked`: the sent mappings agree as long as every one of them is sent from the node of
  its FEC.  The MP2MP code sends from temporary nodes, which it frees after the send.
* `cross_linked`: in a run in which no mapping is recorded at a temporary node, both agree and
  the garbage collector keeps every node that a mapping refers to.
-/

namespace Mp2mp.Lde

open Kit Ldpd List Option LdeNbr LdeMap Retained Kit.Linked Table EStateM Engine

variable {fec : Fec} {ln : LdeNbr} {e : Event} {f : LdeNbr → LdeNbr} {fn : FecNode}
  {map : Map} {fresh single : Bool} {msg : Imsg} {peerid : UInt32} {prev : MapPrev} {r : Freed}
  {l : Lib} {ms : List LdeMap}

variable {s s' : Engine} {l' : Lib}

/-! ## Received mappings -/

/-- The received mappings are those that the nodes list as downstream. -/
def Retained.Linked (a : Retained) : Prop :=
  Kit.Linked (fun peerid fec => (a.recv peerid fec).isSome) a.downstream

namespace Retained.Linked

variable {a b : Retained}

theorem record (h : a.Linked) (peerid : UInt32) (fec : Fec) (map : Map) :
    (a.record peerid fec map).Linked := by
  by_cases hnew : (a.recv peerid fec).isNone
  · refine add (k := peerid) (i := fec) h ?_ (fun q g => ?_) fun g => ?_
    · simpa using hnew
    · simp only [Retained.record]
      split <;> simp [*]
    · simp only [Retained.record, hnew, and_true]
  · refine congr h (fun q g => ?_) fun g => ?_
    · simp only [Retained.record]
      split
      · rename_i hq
        rw [hq.1, hq.2]
        simpa [isSome_iff_ne_none] using hnew
      · rfl
    · simp only [Retained.record, hnew, Bool.false_eq_true, and_false, if_false]

theorem forget (h : a.Linked) (peerid : UInt32) (fec : Fec) : (a.forget peerid fec).Linked := by
  refine del (k := peerid) (i := fec) h (fun q g => ?_) fun g => rfl
  simp only [Retained.forget]
  split <;> simp [*]

theorem withdraw (h : a.Linked) (peerid label : UInt32) (fec : Fec) :
    (a.withdraw peerid label fec).Linked := by
  unfold Retained.withdraw
  split
  · split
    · exact h.forget peerid fec
    · exact h
  · exact h

theorem upkeep (h : a.Linked) (hup : Upkeep a b) : b.Linked := by
  induction hup with
  | refl a => exact h
  | mapping a peerid fec map =>
    have hrelabel : (a.relabel peerid fec map.label).Linked := h
    exact hrelabel.record peerid fec map
  | withdraw a peerid fec label =>
    have hrelabel : (a.relabel peerid fec noLabel).Linked := h
    exact hrelabel.withdraw peerid label fec
  | reroute a fec f _ => exact h
  | trans _ _ ih ih' => exact ih' (ih h)

theorem relabelAll (h : a.Linked) (peerid label : UInt32) (fecs : List Fec) :
    (fecs.foldl (fun a fec => a.relabel peerid fec label) a).Linked :=
  foldlRecOn (motive := Retained.Linked) fecs _ h fun _ hb _ _ => hb

end Retained.Linked

/-- What a neighbour has sent is forgotten for every FEC of the list. -/
theorem Retained.recv_forgetAll {fecs : List Fec} {a : Retained} {p : UInt32}
    {g : Fec} : (fecs.foldl (fun a fec => a.forget peerid fec) a).recv p g =
      if p = peerid ∧ g ∈ fecs then none else a.recv p g := by
  induction fecs generalizing a with
  | nil => simp
  | cons fec fecs ih =>
    rw [foldl_cons, ih]
    simp only [forget, mem_cons]
    split <;> split <;> simp_all

theorem Retained.Linked.effect {a b : Retained} (h : a.Linked)
    (heff : RetainedEffect a e b) : b.Linked := by
  cases heff with
  | upkeep hup => exact h.upkeep hup
  | wildcard fecs _ =>
    exact foldlRecOn (motive := Retained.Linked) fecs _ h fun _ hb fec _ => hb.withdraw _ _ fec
  | addressAdd f _ => exact h
  | addressDel f _ => exact h
  | @neighborDown fresh peerid routes maps _ hmaps =>
    have hroutes := h.relabelAll peerid noLabel routes
    have hclear : (a.clear peerid routes maps).Linked :=
      foldlRecOn (motive := Retained.Linked) maps _ hroutes fun _ hb fec _ =>
        hb.forget peerid fec
    -- nothing is left of the neighbour when it is removed
    have hnone (fec : Fec) : (a.clear peerid routes maps).recv peerid fec = none := by
      have hrecv : (routes.foldl (fun a fec => a.relabel peerid fec noLabel) a).recv = a.recv :=
        foldlRecOn (motive := fun b : Retained => b.recv = a.recv) routes _ rfl
          fun _ hb _ _ => hb
      rw [clear, recv_forgetAll, hrecv]
      split
      · rfl
      · rename_i hfec
        by_contra hsome
        exact hfec ⟨rfl, hmaps fec (isSome_iff_ne_none.mpr hsome)⟩
    refine congr hclear (fun p fec => ?_) fun _ => rfl
    simp only [drop]
    split
    · rename_i hp
      rw [hp, hnone]
    · rfl

/-! ## Sent mappings -/

/-- The neighbour is to hear of a FEC without a pseudowire. -/
def LdeNbr.uses (ln : LdeNbr) : Fec → Bool
  | .ipv4 .. => ln.v4Enabled
  | .ipv6 .. => ln.v6Enabled
  | .pwid .. => false

/-- The FEC of an entry and where it points back to. -/
def LdeMap.link (me : LdeMap) : Fec × MapPrev := (me.fec, me.prev)

def LdeNbr.links (ln : LdeNbr) : List (Fec × MapPrev) := ln.sentMap.map LdeMap.link

/-- The mappings sent: where the entry of each points back to, the address families the neighbours
use, and the neighbours a node lists as upstream. -/
@[ext]
structure Sent where
  link : UInt32 → Fec → MapPrev → Prop
  uses : UInt32 → Fec → Bool
  upstream : Fec → List UInt32

/-- What a label information base keeps of the mappings sent. -/
def Lib.sentMaps (l : Lib) : Sent where
  link peerid fec prev := ∃ ln, l.nbr? peerid = some ln ∧ (fec, prev) ∈ ln.links
  uses peerid fec := (l.nbr? peerid).any fun ln => ln.uses fec
  upstream fec := (l.node? fec).elim [] FecNode.upstream

/-- A mapping of the FEC has been sent to the neighbour. -/
def Sent.Has (a : Sent) (peerid : UInt32) (fec : Fec) : Prop := ∃ prev, a.link peerid fec prev

/-- The sent mappings are those that the nodes list as upstream, and point back to them. -/
structure Sent.Linked (a : Sent) : Prop where
  links : Kit.Linked a.Has a.upstream
  node : ∀ peerid fec prev, a.link peerid fec prev → prev = .node

namespace Sent

def add (peerid : UInt32) (fec : Fec) (a : Sent) : Sent :=
  { a with
    link := fun p g prev => (p = peerid ∧ g = fec) ∧ prev = .node ∨ a.link p g prev
    upstream := fun g => if g = fec then peerid :: a.upstream g else a.upstream g }

def del (peerid : UInt32) (fec : Fec) (a : Sent) : Sent :=
  { a with
    link := fun p g prev => ¬(p = peerid ∧ g = fec) ∧ a.link p g prev
    upstream := fun g => if g = fec then (a.upstream g).erase peerid else a.upstream g }

variable {a : Sent}

theorem Linked.add (h : a.Linked) (hnew : ¬a.Has peerid fec) : (a.add peerid fec).Linked := by
  refine ⟨Kit.Linked.add (k := peerid) (i := fec) h.links hnew (fun p g => ?_) fun g => rfl, ?_⟩
  · simp only [Sent.Has, Sent.add, exists_or, exists_and_left, exists_eq, and_true]
  · intro p g prev hprev
    rcases hprev with ⟨-, hnode⟩ | hlink
    · exact hnode
    · exact h.node p g prev hlink

theorem Linked.del (h : a.Linked) (peerid : UInt32) (fec : Fec) : (a.del peerid fec).Linked := by
  refine ⟨Kit.Linked.del (k := peerid) (i := fec) h.links (fun p g => ?_) fun g => rfl, ?_⟩
  · simp only [Sent.Has, Sent.del, exists_and_left]
  · intro p g prev hprev
    exact h.node p g prev hprev.2

end Sent

/-! ## What leaves the sent mappings alone -/

theorem Receives.sent (h : Receives l l') : l'.sentMaps = l.sentMaps := by
  have hnbr (q : UInt32) : (l'.nbr? q).map sending = (l.nbr? q).map sending := by
    rw [l'.nbr?_eq, l.nbr?_eq]
    exact find?_view h.nbrs fun ln => ln.peerid == q
  have hnode (g : Fec) : (l'.node? g).map FecNode.sending = (l.node? g).map FecNode.sending :=
    find?_view h.rest fun fn => fecCompare g fn.fec == .eq
  have hsent (l : Lib) : l.sentMaps =
      ⟨fun q g prev => ∃ ln, (l.nbr? q).map sending = some ln ∧ (g, prev) ∈ ln.links,
        fun q g => ((l.nbr? q).map sending).any fun ln => ln.uses g,
        fun g => ((l.node? g).map FecNode.sending).elim [] FecNode.upstream⟩ := by
    refine Sent.ext (funext₃ fun q g prev => ?_) (funext₂ fun q g => ?_) (funext fun g => ?_)
    · cases hln : l.nbr? q <;> simp [Lib.sentMaps, hln, sending, links]
    · cases hln : l.nbr? q with
      | none => simp [Lib.sentMaps, hln]
      | some ln => cases g <;> simp [Lib.sentMaps, hln, sending, uses]
    · cases hfn : l.node? g <;> simp [Lib.sentMaps, hfn, FecNode.sending, FecNode.rest]
  simp only [hsent, hnbr, hnode]

/-- A neighbour whose sent maps keep their links. -/
theorem sent_modNbr_of
    (hpeerid : ∀ ln, (f ln).peerid = ln.peerid) (huses : ∀ ln fec, (f ln).uses fec = ln.uses fec)
    (hlinks : ∀ ln, l.nbr? peerid = some ln → (f ln).links = ln.links) :
    (l.modNbr peerid f).sentMaps = l.sentMaps := by
  refine Sent.ext (funext₃ fun q g prev => ?_) (funext₂ fun q g => ?_) rfl
  all_goals
    simp only [Lib.sentMaps, l.nbr?_modNbr_eq peerid q hpeerid]
    split
    · rename_i hq
      subst hq
      cases hln : l.nbr? q with
      | none => simp
      | some ln => simp [hlinks ln hln, huses]
    · rfl

theorem sent_modNbr
    (hpeerid : ∀ ln, (f ln).peerid = ln.peerid) (huses : ∀ ln fec, (f ln).uses fec = ln.uses fec)
    (hsent : ∀ ln, (f ln).sentMap = ln.sentMap) : (l.modNbr peerid f).sentMaps = l.sentMaps :=
  sent_modNbr_of hpeerid huses fun ln _ => by rw [links, hsent, links]

theorem sent_modNode {f : FecNode → FecNode} (hfec : ∀ fn, (f fn).fec = fn.fec)
    (hup : ∀ fn, (f fn).upstream = fn.upstream) : (l.modNode fec f).sentMaps = l.sentMaps :=
  Sent.ext rfl rfl (funext fun _ => (elim_modNode id hfec hup (.inl rfl)).trans (ite_self _))

theorem sent_fecAdd (fec : Fec) (lsrIdView : InAddr) (hs : l.Sorted) :
    (fecAdd fec lsrIdView l).sentMaps = l.sentMaps :=
  Sent.ext rfl rfl (funext fun g => elim_fecAdd fec lsrIdView hs rfl g)

theorem sent_ldeGcTimer (hs : l.Sorted) : (ldeGcTimer l).sentMaps = l.sentMaps :=
  Sent.ext rfl rfl (funext fun g => elim_ldeGcTimer hs (fun _ h => h.2.2) g)

theorem sent_foldl {α : Type} {f : Lib → α → Lib} {xs : List α}
    (h : ∀ l x, (f l x).sentMaps = l.sentMaps) : (xs.foldl f l).sentMaps = l.sentMaps :=
  foldlRecOn (motive := fun l' : Lib => l'.sentMaps = l.sentMaps) xs _ rfl
    fun l' hl' x _ => (h l' x).trans hl'

theorem sent_ldeSendLabelwithdraw {st : Option MapStatus}
    : (ldeSendLabelwithdraw peerid fn st l).sentMaps = l.sentMaps := by
  unfold ldeSendLabelwithdraw
  split
  · rfl
  · split
    · exact sent_modNbr (fun _ => rfl) (fun _ fec => by cases fec <;> rfl) fun _ => rfl
    · rfl

/-! ## Sending a mapping -/

theorem link_iff (hln : l.nbr? peerid = some ln)
    : l.sentMaps.link peerid fec prev ↔ (fec, prev) ∈ ln.links := by
  simp [Lib.sentMaps, hln]

theorem has_iff (hln : l.nbr? peerid = some ln) : l.sentMaps.Has peerid fec ↔ ln.sent fec := by
  simp only [Sent.Has, link_iff hln, links, link, List.mem_map, Prod.mk.injEq,
    sent, fecFind, find_isSome, fecCompare_eq]
  constructor
  · rintro ⟨prev, me, hme, rfl, -⟩
    exact ⟨me, hme, rfl⟩
  · rintro ⟨me, hme, rfl⟩
    exact ⟨me.prev, me, hme, rfl, rfl⟩

theorem sent_recordSent_again (hln : ln.sent fec) (hhas : l.sentMaps.Has peerid fec) :
    (recordSent peerid ln fec map prev l).sentMaps = l.sentMaps := by
  have hold : ¬((fecFind LdeMap.fec fec ln.sentMap).isNone ∧ prev = .node) := by
    intro h
    rw [sent, isNone_iff_eq_none.mp h.1] at hln
    cases hln
  simp only [recordSent, if_neg hold]
  refine sent_modNbr_of (fun _ => rfl) (fun _ fec => by cases fec <;> rfl) fun ln' hln' => ?_
  obtain ⟨me, hme⟩ := isSome_iff_exists.mp ((has_iff hln').mp hhas)
  simp only [links, recordMap, hme]
  exact map_modify fun _ _ => rfl

theorem sent_recordSent_new {ln' : LdeNbr}
    (hln : fecFind LdeMap.fec fec ln.sentMap = none) (hln' : l.nbr? peerid = some ln')
    (hsent : ln'.sentMap = ln.sentMap) (hnode : (l.node? fec).isSome) :
    (recordSent peerid ln fec map .node l).sentMaps = l.sentMaps.add peerid fec := by
  simp only [recordSent, hln, isNone_none, and_self, if_true]
  refine Sent.ext (funext₃ fun q g prev => propext ?_)
    (funext₂ fun q g => ?_) (funext fun g => ?_)
  · show (l.modNbr peerid _).sentMaps.link q g prev ↔ _
    simp only [Lib.sentMaps, Sent.add]
    rw [l.nbr?_modNbr_eq peerid q (by intro; rfl)]
    by_cases hq : q = peerid
    · let me : LdeMap := ⟨fec, map, .node⟩
      have hmem {me' : LdeMap} : me' ∈ fecInsert LdeMap.fec me ln'.sentMap ↔
          me' = me ∨ me' ∈ ln'.sentMap :=
        mem_insert (by rw [hsent]; exact hln)
      have hrecord : recordMap fec map .node ln'.sentMap = fecInsert LdeMap.fec me ln'.sentMap := by
        simp only [recordMap, hsent, hln, me]
      simp only [hq, if_true, hln', map_some, Option.some.injEq, exists_eq_left',
        links, hrecord, List.mem_map, hmem, or_and_right, exists_or, exists_eq_left, true_and,
        LdeMap.link, Prod.mk.injEq, me]
      rw [eq_comm (a := fec), eq_comm (a := MapPrev.node)]
    · simp only [hq, false_and, if_false, false_or]
  · show (l.modNbr peerid _).sentMaps.uses q g = l.sentMaps.uses q g
    simp only [Lib.sentMaps]
    rw [l.nbr?_modNbr_eq peerid q (by intro; rfl)]
    split
    · rename_i hq
      rw [hq, hln']
      cases g <;> rfl
    · rfl
  · exact elim_modNode (peerid :: ·) (by intro; rfl) (by intro; rfl) (.inr hnode)

/-- The state in which `lde_send_labelmapping` records the mapping. -/
theorem ldeSendLabelmapping_records (hln : l.nbr? peerid = some ln) (hc : l.concerns ln fn) :
    ∃ l₁ ln₁, ldeSendLabelmapping peerid fn single prev l =
        recordSent peerid ln fn.fec (l.labelmapping ln fn) prev l₁ ∧
      l₁.sentMaps = l.sentMaps ∧ l₁.nbr? peerid = some ln₁ ∧ ln₁.sentMap = ln.sentMap ∧
      l₁.ft = l.ft := by
  let l₁ := l.modNbr peerid fun ln => { ln with recvReq := fecRemove LdeReq.fec fn.fec ln.recvReq }
  have hl₁ : l₁.sentMaps = l.sentMaps :=
    sent_modNbr (fun _ => rfl) (fun _ fec => by cases fec <;> rfl) fun _ => rfl
  have hnbr : l₁.nbr? peerid =
      some { ln with recvReq := fecRemove LdeReq.fec fn.fec ln.recvReq } := by
    refine (l.nbr?_modNbr peerid (by intro; rfl)).trans ?_
    rw [hln]
    rfl
  simp only [ldeSendLabelmapping, hln, hc, if_true]
  cases single with
  | true => exact ⟨_, _, rfl, hl₁, hnbr, rfl, rfl⟩
  | false => exact ⟨_, _, rfl, hl₁, hnbr, rfl, rfl⟩

theorem sent_ldeSendLabelmapping_again (h : l.sentMaps.Has peerid fn.fec) :
    (ldeSendLabelmapping peerid fn single prev l).sentMaps = l.sentMaps := by
  by_cases hc : ∃ ln, l.nbr? peerid = some ln ∧ l.concerns ln fn
  · obtain ⟨ln, hln, hc⟩ := hc
    obtain ⟨l₁, ln₁, heq, hl₁, -, -, -⟩ := ldeSendLabelmapping_records hln hc
    rw [heq, sent_recordSent_again ((has_iff hln).mp h) (by rwa [hl₁]), hl₁]
  · rw [ldeSendLabelmapping_of_not fun ln hln => Bool.eq_false_iff.mpr fun hln' => hc ⟨ln, hln, hln'⟩]

/-- A mapping from a temporary node adds no entry. -/
def Sent.Known (a : Sent) (peerid : UInt32) (fec : Fec) : Prop :=
  a.uses peerid fec → a.Has peerid fec

theorem concerns_temporaryNode (ln : LdeNbr) (fec : Fec) (label : UInt32) :
    l.concerns ln (temporaryNode fec label) = ln.uses fec := by
  cases fec <;> rfl

theorem sent_sendTemporary {label : UInt32} (h : l.sentMaps.Known peerid fec) :
    (ldeSendLabelmapping peerid (temporaryNode fec label) single prev l).sentMaps = l.sentMaps := by
  by_cases huses : l.sentMaps.uses peerid fec
  · have hhas : l.sentMaps.Has peerid (temporaryNode fec label).fec := h huses
    exact sent_ldeSendLabelmapping_again hhas
  · rw [ldeSendLabelmapping_of_not fun ln hln => ?_]
    rw [concerns_temporaryNode]
    simpa [Lib.sentMaps, hln] using huses

/-- A mapping that is sent from a node of `ft` keeps the links. -/
theorem Sent.Linked.labelmapping (peerid : UInt32) (single : Bool)
    (h : l.sentMaps.Linked) (hnode : (l.node? fn.fec).isSome) :
    (ldeSendLabelmapping peerid fn single .node l).sentMaps.Linked := by
  by_cases hhas : l.sentMaps.Has peerid fn.fec
  · rw [sent_ldeSendLabelmapping_again hhas]
    exact h
  · by_cases hc : ∃ ln, l.nbr? peerid = some ln ∧ l.concerns ln fn
    · obtain ⟨ln, hln, hc⟩ := hc
      obtain ⟨l₁, ln₁, heq, hl₁, hln₁, hsent, hft⟩ :=
        ldeSendLabelmapping_records hln hc
      have hnone : fecFind fec fn.fec ln.sentMap = none := by
        rwa [has_iff hln, sent, not_isSome_iff_eq_none] at hhas
      have hnode₁ : (l₁.node? fn.fec).isSome := by rwa [Lib.node?, hft]
      rw [heq, sent_recordSent_new hnone hln₁ hsent hnode₁, hl₁]
      exact h.add hhas
    · rw [ldeSendLabelmapping_of_not fun ln hln =>
        Bool.eq_false_iff.mpr fun hln' => hc ⟨ln, hln, hln'⟩]
      exact h

/-! ## Received label messages -/

/-- The mapping of the negotiation is sent only to a neighbour that has been sent one. -/
theorem sent_negotiate (hln : ln.sent fn.fec → l.sentMaps.Has ln.peerid fn.fec) :
    (negotiate ln fn map l).2.sentMaps = l.sentMaps := by
  refine negotiate_of (I := fun l' => l'.sentMaps = l.sentMaps) rfl
    (fun _ _ hi hl => hi.receives.sent.trans hl) fun _ hsent uid st f => ?_
  have hcleared : ((ldeSendLabelwithdraw ln.peerid fn st l).modPw uid f).sentMaps = l.sentMaps :=
    sent_ldeSendLabelwithdraw
  rw [sent_ldeSendLabelmapping_again, hcleared]
  rw [hcleared]
  exact hln hsent

theorem sent_ldeCheckMapping (hs : l.Sorted) :
    (ldeCheckMapping map peerid l).sentMaps = l.sentMaps := by
  cases hln : l.nbr? peerid with
  | none => simp only [ldeCheckMapping, hln]
  | some ln =>
    obtain ⟨-, rfl⟩ := Lib.peerid_of_nbr? hln
    simp only [ldeCheckMapping, hln]
    have hadd := sent_fecAdd (ldeMap2fec map ln.id) (ldeMap2fec map ln.id).pwidLsrId hs
    split
    · exact hadd
    rename_i fn hfn
    obtain ⟨-, hfec⟩ := Lib.fec_of_node? hfn
    have hreq : (ldeReqDelSent ln.peerid (ldeMap2fec map ln.id)
        (fecAdd (ldeMap2fec map ln.id) (ldeMap2fec map ln.id).pwidLsrId l)).sentMaps =
        l.sentMaps :=
      (ldeReqDelSent_receives _ _ _).sent.trans hadd
    have hneg : (negotiate ln fn map (ldeReqDelSent ln.peerid (ldeMap2fec map ln.id)
        (fecAdd (ldeMap2fec map ln.id) (ldeMap2fec map ln.id).pwidLsrId l))).2.sentMaps =
        l.sentMaps := by
      rw [sent_negotiate, hreq]
      rw [hreq]
      exact (has_iff hln).mpr
    split
    · exact hneg
    · exact (acceptMapping_receives _ _ _ _ _).sent.trans hneg

theorem sent_ldeCheckWithdraw (hs : l.Sorted) :
    (ldeCheckWithdraw map peerid l).sentMaps = l.sentMaps := by
  rcases ldeCheckWithdraw_receives map peerid l with h | ⟨fec, lsrIdView, h⟩
  · exact h.sent
  · exact h.sent.trans (sent_fecAdd fec lsrIdView hs)

/-! ## Routes, pseudowires and the garbage collector -/

theorem sent_ldeKernelInsert (fec : Fec) (lsrIdView : InAddr) (af : Af) (nexthop : LdpdAddr)
    (priority : UInt8) (data : Option Nat) (hs : l.Sorted) :
    (ldeKernelInsert fec lsrIdView af nexthop priority data l).sentMaps = l.sentMaps := by
  have hadd := sent_fecAdd fec lsrIdView hs
  have hsadd := (fecAdd_keeps fec lsrIdView l).sorted hs
  have hboth := ldeKernelInsert_of (I := fun l' => l'.sentMaps = l.sentMaps ∧ l'.Sorted)
    af nexthop priority data ⟨hadd, hsadd⟩ (fun fn data => ?_) fun map peerid l hl => ?_
  · exact hboth.1
  · refine ⟨(addNh_installs _ fec fn data _).receives.sent.trans ?_,
      (addNh_keeps _ fec fn data _).sorted hsadd⟩
    exact Eq.trans (sent_modNode (fun _ => rfl) fun _ => rfl) hadd
  · exact ⟨(sent_ldeCheckMapping hl.2).trans hl.1, (ldeCheckMapping_keeps map peerid l).sorted hl.2⟩

theorem sent_ldeSendLabelwithdrawAll : (ldeSendLabelwithdrawAll fn l).sentMaps = l.sentMaps :=
  sent_foldl fun _ _ => sent_ldeSendLabelwithdraw

theorem sent_ldeKernelRemove (fec : Fec) (af : Af) (nexthop : LdpdAddr) (priority : UInt8)
    (l : Lib) : (ldeKernelRemove fec af nexthop priority l).sentMaps = l.sentMaps := by
  unfold ldeKernelRemove
  split
  · rfl
  split
  · rfl
  dsimp only
  have hdel (fn : FecNode) (fnh : FecNh) (nhs : List FecNh) : ((ldeSendDeleteKlabel fn fnh l).modNode
      fec fun n => { n with nexthops := nhs }).sentMaps = l.sentMaps :=
    Eq.trans (sent_modNode (fun _ => rfl) fun _ => rfl)
      (ldeSendDeleteKlabel_installs fn fnh l).receives.sent
  split
  · refine Eq.trans (sent_modNode (fun _ => rfl) fun _ => rfl) ?_
    rw [sent_ldeSendLabelwithdrawAll]
    exact hdel _ _ _
  · exact hdel _ _ _

/-! ## Taking sent mappings out -/

/-- `lde_map_del` of a mapping that was sent from the node of its FEC. -/
def unlinkSent (peerid : UInt32) (fec : Fec) (l : Lib) : Lib :=
  (l.modNbr peerid fun ln => { ln with sentMap := fecRemove LdeMap.fec fec ln.sentMap }).modNode fec
    fun fn => { fn with upstream := fn.upstream.erase peerid }

theorem run_ldeMapDelSent {me : LdeMap} (hprev : me.prev = .node) (s : Engine) :
    (ldeMapDelSent r peerid me).run s = .ok () { s with lib := unlinkSent peerid me.fec s.lib } := by
  simp only [ldeMapDelSent, hprev]
  rfl

theorem sent_unlinkSent (peerid : UInt32) (fec : Fec) (l : Lib) :
    (unlinkSent peerid fec l).sentMaps = l.sentMaps.del peerid fec := by
  unfold unlinkSent
  refine Sent.ext (funext₃ fun q g prev => propext ?_)
    (funext₂ fun q g => ?_) (funext fun g => ?_)
  · show (l.modNbr peerid _).sentMaps.link q g prev ↔ _
    simp only [Lib.sentMaps, Sent.del]
    rw [l.nbr?_modNbr_eq peerid q (by intro; rfl)]
    by_cases hq : q = peerid
    · have hmem {me : LdeMap} {t : List LdeMap} :
          me ∈ fecRemove LdeMap.fec fec t ↔ me ∈ t ∧ me.fec ≠ fec := by
        simp only [fecRemove, remove, mem_filter, bne_iff_ne, ne_eq, fecCompare_eq]
        rw [eq_comm (a := fec)]
      subst hq
      cases l.nbr? q with
      | none => simp
      | some ln =>
        simp only [if_true, map_some, Option.some.injEq, exists_eq_left', links,
          List.mem_map, hmem, link, Prod.mk.injEq, true_and]
        constructor
        · rintro ⟨me, ⟨hme, hne⟩, rfl, rfl⟩
          exact ⟨hne, me, hme, rfl, rfl⟩
        · rintro ⟨hne, me, hme, rfl, rfl⟩
          exact ⟨me, ⟨hme, hne⟩, rfl, rfl⟩
    · simp only [hq, false_and, if_false, not_false_eq_true, true_and]
  · show (l.modNbr peerid _).sentMaps.uses q g = l.sentMaps.uses q g
    simp only [Lib.sentMaps]
    rw [l.nbr?_modNbr_eq peerid q (by intro; rfl)]
    split
    · rename_i hq
      rw [hq]
      cases l.nbr? peerid with
      | none => rfl
      | some ln => cases g <;> rfl
    · rfl
  · exact elim_modNode (List.erase · peerid) (by intro; rfl) (by intro; rfl) (.inl rfl)

def Engine.SentLinked (s : Engine) : Prop := s.lib.sentMaps.Linked

theorem sentLinked_modifyLib {f : Lib → Lib} (h : ∀ l, (f l).sentMaps = l.sentMaps) :
    Stable Engine.SentLinked (modifyLib f) :=
  .modify fun s hs => by
    show (f s.lib).sentMaps.Linked
    rw [h]
    exact hs

theorem sent_releaseWdraw (map : Map) (peerid : UInt32) (fec : Fec) (l : Lib) :
    (releaseWdraw map peerid fec l).sentMaps = l.sentMaps := by
  unfold releaseWdraw
  split
  · rfl
  · split
    · exact sent_modNbr (fun _ => rfl) (fun _ fec => by cases fec <;> rfl) fun _ => rfl
    · rfl

theorem releaseSent_sentLinked {fec : Fec} :
    Stable Engine.SentLinked (releaseSent r map peerid fec) := by
  refine .bind (sentLinked_modifyLib (sent_releaseWdraw map peerid fec)) fun _ => ⟨?_⟩
  intro s hs
  rw [run_get_bind]
  cases hme : (s.lib.nbr? peerid).bind fun ln => fecFind LdeMap.fec fec ln.sentMap with
  | none => simpa using hs
  | some me =>
    have hlink : s.lib.sentMaps.link peerid me.fec me.prev := by
      obtain ⟨ln, hln, hfind⟩ := bind_eq_some_iff.mp hme
      exact (link_iff hln).mpr (List.mem_map_of_mem (mem_of_find hfind).1)
    by_cases hmatch : map.label = noLabel ∨ map.label = me.map.label
    · simp only [if_pos hmatch, run_ldeMapDelSent (hs.node peerid me.fec _ hlink)]
      show (unlinkSent peerid me.fec s.lib).sentMaps.Linked
      rw [sent_unlinkSent]
      exact hs.del peerid me.fec
    · simpa only [if_neg hmatch, run_pure] using hs

/-! ## The loss of a neighbour -/

theorem run_delAll (hprev : ∀ me ∈ ms, me.prev = .node) (s : Engine) :
    (ms.forM (ldeMapDelSent r peerid)).run s =
      .ok () { s with lib := ms.foldl (fun l me => unlinkSent peerid me.fec l) s.lib } := by
  induction ms generalizing s with
  | nil => rfl
  | cons me ms ih =>
    show (ldeMapDelSent r peerid me >>= fun _ => ms.forM (ldeMapDelSent r peerid)).run s = _
    rw [run_bind, run_ldeMapDelSent (hprev me mem_cons_self)]
    exact ih (forall_mem_cons.mp hprev).2 _

/-- The links of a neighbour after some of its mappings have been taken out. -/
theorem sent_delAll (h : l.sentMaps.Linked) :
    (ms.foldl (fun l me => unlinkSent peerid me.fec l) l).sentMaps.Linked ∧
      ∀ fec prev, (ms.foldl (fun l me => unlinkSent peerid me.fec l) l).sentMaps.link peerid fec prev →
        l.sentMaps.link peerid fec prev ∧ fec ∉ ms.map LdeMap.fec := by
  induction ms generalizing l with
  | nil => exact ⟨h, fun fec prev hlink => ⟨hlink, not_mem_nil⟩⟩
  | cons me ms ih =>
    have hdel := sent_unlinkSent peerid me.fec l
    obtain ⟨hlinked, hrest⟩ := ih (l := unlinkSent peerid me.fec l)
      (by rw [hdel]; exact h.del peerid me.fec)
    refine ⟨hlinked, fun fec prev hlink => ?_⟩
    obtain ⟨hbefore, hnot⟩ := hrest fec prev hlink
    rw [hdel] at hbefore
    refine ⟨hbefore.2, fun hmem => ?_⟩
    rcases mem_cons.mp hmem with heq | hmem
    · exact hbefore.1 ⟨rfl, heq⟩
    · exact hnot hmem

theorem Sent.Linked.removeNbr (h : l.sentMaps.Linked)
    (hnone : ∀ fec prev, ¬l.sentMaps.link peerid fec prev) :
    ({ l with nbrs := remove ldeNbrCompare LdeNbr.peerid peerid l.nbrs } : Lib).sentMaps.Linked := by
  have hlink : ({ l with
      nbrs := remove ldeNbrCompare LdeNbr.peerid peerid l.nbrs } : Lib).sentMaps.link =
      l.sentMaps.link := by
    funext q g prev
    have hnbr := nbr?_removeNbr peerid l q
    by_cases hq : q = peerid
    · subst hq
      rw [if_pos rfl] at hnbr
      refine propext (iff_of_false ?_ (hnone g prev))
      rintro ⟨ln, hln, -⟩
      rw [hnbr] at hln
      cases hln
    · rw [if_neg hq] at hnbr
      simp only [Lib.sentMaps, hnbr]
  refine ⟨h.links.congr (fun q g => by rw [Sent.Has, hlink, Sent.Has]) fun _ => rfl, ?_⟩
  rw [hlink]
  exact h.node

theorem ldeNbrDel_sentLinked (hs : s.SentLinked)
    (hln : s.lib.nbr? ln.peerid = some ln) (hrun : (ldeNbrDel r ln).run s = .ok () s') :
    s'.SentLinked := by
  have hprev (me : LdeMap) (hme : me ∈ ln.sentMap) : me.prev = .node :=
    hs.node ln.peerid me.fec _ ((link_iff hln).mpr (List.mem_map_of_mem hme))
  unfold ldeNbrDel at hrun
  rw [run_bind, run_modifyLib] at hrun
  dsimp only at hrun
  rw [run_bind, run_delAll hprev] at hrun
  cases hrun
  have hfree := (freeRecvMaps_receives ln s.lib).sent
  have hlinked : (freeRecvMaps ln s.lib).sentMaps.Linked := by
    rw [hfree]
    exact hs
  obtain ⟨hall, hlinks⟩ := sent_delAll hlinked
  refine hall.removeNbr fun fec prev hlink => ?_
  obtain ⟨hbefore, hnot⟩ := hlinks fec prev hlink
  rw [hfree, link_iff hln] at hbefore
  obtain ⟨me, hme, heq⟩ := List.mem_map.mp hbefore
  exact hnot (List.mem_map.mpr ⟨me, hme, congrArg Prod.fst heq⟩)

/-! ## Mappings from temporary nodes -/

section

variable (label : UInt32) (head : Option UInt32)

theorem sent_sendOnce (h : l.sentMaps.Known peerid fec) :
    (sendOnce peerid fec label l).sentMaps = l.sentMaps :=
  sendOnce_of (I := fun l' => l'.sentMaps = l.sentMaps) rfl (sent_sendTemporary h)

theorem any_sent {fec : Fec} :
    ((l.nbr? peerid).any fun ln => ln.sent fec) = true ↔ l.sentMaps.Has peerid fec := by
  cases hln : l.nbr? peerid with
  | none => simp [Sent.Has, Lib.sentMaps, hln]
  | some ln => rw [has_iff hln, any_some]

theorem sent_fanOutSend (h : l.sentMaps.Known peerid fec) :
    (fanOutSend peerid fec label head l).1.sentMaps = l.sentMaps := by
  have hsend := sent_sendOnce label h
  -- nothing was added, so nothing is linked behind it
  have hsame : ((l.nbr? peerid).any fun ln => ln.sent fec) =
      (((sendOnce peerid fec label l).nbr? peerid).any fun ln => ln.sent fec) := by
    rw [Bool.eq_iff_iff, any_sent, any_sent, hsend]
  simp only [fanOutSend, if_pos hsame]
  exact hsend

theorem sent_sendAll {visited : List UInt32} (h : ∀ q ∈ visited, l.sentMaps.Known q fec) :
    (sendAll fec label visited head l).sentMaps = l.sentMaps := by
  induction visited generalizing head l with
  | nil => rfl
  | cons q rest ih =>
    have hsend := sent_fanOutSend label head (h q mem_cons_self)
    refine Eq.trans (ih _ fun q' hq' => ?_) hsend
    rw [hsend]
    exact h q' (mem_cons_of_mem q hq')

end

/-- The neighbours that a mapping for `fec` from `peerid` makes the engine send to, from a
temporary node. -/
def Engine.temporaryTargets (s : Engine) (peerid : UInt32) (fec : Fec) (ln1 : Option UInt32) :
    List UInt32 :=
  match labelNbrFind peerid fec s.labelNbrs with
  | none =>
    if s.leaf = 2 ∨ (s.lib.rootRoute fec).any FecNode.isLocal then [peerid]
    else
      (s.lib.upstream fec).toList.map fun up => if up.sent fec then peerid else up.peerid
  | some _ => if s.leaf = 1 then [] else visits fec s.bindings ln1

/-- A neighbour that a mapping is sent to from a temporary node has been sent one before, or
does not use the address family. -/
def SendsKnown (s : Engine) : Event → Prop
  | .imsg _ _ (.mldpAdd root ov) =>
    ∀ fn ∈ firstRoute root s.lib.ft, ∀ fnh ∈ fn.nexthops.getLast?,
      ∀ ln ∈ s.lib.nbrFindByAddr fnh.af fnh.nexthop,
        s.lib.sentMaps.Known ln.peerid (Fec.ofV4 fn.fec.type root ov)
  | .imsg fresh peerid (.labelMapping map) =>
    ∀ ln ∈ s.lib.nbr? peerid,
      ∀ q ∈ s.temporaryTargets peerid (ldeMap2fec map ln.id) (if fresh then none else s.ln1),
        s.lib.sentMaps.Known q (ldeMap2fec map ln.id)
  | _ => True

instance (l : Lib) (peerid : UInt32) (fec : Fec) : Decidable (l.sentMaps.Known peerid fec) :=
  decidable_of_iff
    (l.sentMaps.uses peerid fec → ((l.nbr? peerid).any fun ln => ln.sent fec) = true)
    (imp_congr_right fun _ => any_sent)

instance (s : Engine) : (e : Event) → Decidable (SendsKnown s e)
  | .parent _ => .isTrue trivial
  | .imsg _ peerid msg => match msg with
    | .mldpAdd root _ => inferInstanceAs (Decidable (∀ fn ∈ firstRoute root s.lib.ft, ∀ _, _))
    | .labelMapping _ => inferInstanceAs (Decidable (∀ ln ∈ s.lib.nbr? peerid, ∀ q ∈ _, _))
    | .labelMappingFull | .labelRequest _ | .labelRelease _ | .labelWithdraw _ | .labelAbort _
    | .addressAdd _ | .addressDel _ | .notification _ | .neighborUp .. | .neighborDown
    | .ctlShowLib | .mldpDel .. => .isTrue trivial

theorem sent_fromDownstream (hnew : s.Lacks peerid fec)
    (hroot : ∀ fn1 ∈ firstRoute fec.ipv4Prefix s.lib.ft, fn1.isLocal ∨ s.leaf = 2 →
      s.lib.sentMaps.Known peerid fec)
    (htransit : ∀ fn1 ∈ firstRoute fec.ipv4Prefix s.lib.ft, ¬(fn1.isLocal ∨ s.leaf = 2) →
      ∀ ln1 ∈ s.lib.towards fec.ipv4Prefix,
        s.lib.sentMaps.Known (if ln1.sent fec then peerid else ln1.peerid) fec)
    (hrun : (fromDownstream map peerid fec).run s = .ok () s') :
    s'.lib.sentMaps = s.lib.sentMaps := by
  rw [run_fromDownstream] at hrun
  cases hfn1 : firstRoute fec.ipv4Prefix s.lib.ft with
  | none =>
    rw [hfn1] at hrun
    cases hrun
  | some fn1 =>
    simp only [hfn1] at hrun
    split at hrun
    · rename_i hlocal
      rw [run_joinAtRoot hnew] at hrun
      cases hrun
      exact sent_sendOnce _ (hroot fn1 hfn1 hlocal)
    · rename_i hremote
      rw [run_joinAtTransit hnew] at hrun
      cases hln1 : s.lib.towards fec.ipv4Prefix with
      | none =>
        rw [hln1] at hrun
        cases hrun
        rw [s.joined_lib]
      | some ln1 =>
        have hknown := htransit fn1 hfn1 hremote ln1 hln1
        simp only [hln1] at hrun
        split at hrun
        · rename_i hyes
          rw [if_pos hyes] at hknown
          cases hrun
          exact sent_sendTemporary hknown
        · rename_i hno
          rw [if_neg hno] at hknown
          split at hrun
          · cases hrun
          · cases hrun
            exact sent_sendTemporary hknown

theorem sent_fromUpstream {lnr : LabelNbr}
    (hknown : s.leaf ≠ 1 → ∀ q ∈ visits fec s.bindings s.ln1, s.lib.sentMaps.Known q fec)
    (hrun : (fromUpstream map lnr fec).run s = .ok () s') : s'.lib.sentMaps = s.lib.sentMaps := by
  by_cases hleaf : s.leaf = 1
  · rw [fromUpstream_leaf hleaf] at hrun
    cases hrun
    rfl
  · obtain ⟨-, -, rfl⟩ := (fromUpstream_transit hleaf).mp hrun
    exact sent_sendAll _ none (hknown hleaf)

/-- Under the condition a mapping changes nothing about the mappings sent. -/
theorem sent_labelMapping (hs : s.RoutesSorted) (hln : s.lib.nbr? ln.peerid = some ln)
    (hknown : ∀ q ∈ s.temporaryTargets ln.peerid (ldeMap2fec map ln.id) s.ln1,
      s.lib.sentMaps.Known q (ldeMap2fec map ln.id))
    (hrun : (labelMapping map ln).run s = .ok () s') : s'.lib.sentMaps = s.lib.sentMaps := by
  obtain ⟨s₂, hmldp, -, rfl⟩ := run_labelMapping_ok.mp hrun
  have hcheck : (s.checked map ln.peerid).lib.sentMaps = s.lib.sentMaps :=
    sent_ldeCheckMapping hs
  rw [← hcheck] at hknown ⊢
  show s₂.lib.sentMaps = _
  obtain ⟨fn1, hfn1, hlocal⟩ := firstRoute_ldeCheckMapping map hs hln
  have htowards := towards_ldeCheckMapping map hs hln
  generalize ldeMap2fec map ln.id = fec at hmldp hknown hfn1 hlocal htowards
  cases hfind : labelNbrFind ln.peerid fec s.labelNbrs with
  | none =>
    simp only [temporaryTargets, hfind] at hknown
    rw [run_mldpMapping_new (s := s.checked map ln.peerid) hfind] at hmldp
    refine sent_fromDownstream hfind (fun fn hfn hrole => ?_) (fun fn hfn hrole ln1 hln1 => ?_) hmldp
    · cases hfn1.symm.trans hfn
      rw [if_pos (by rw [← hlocal, or_comm]; exact hrole)] at hknown
      exact hknown _ (mem_singleton.mpr rfl)
    · cases hfn1.symm.trans hfn
      rw [if_neg (by rw [← hlocal, or_comm]; exact hrole)] at hknown
      -- the neighbour towards the root is the one found before the mapping was recorded
      obtain ⟨up, hup, hview⟩ : ∃ up, s.lib.upstream fec = some up ∧ up.view = ln1.view := by
        have hln1' : (ldeCheckMapping map ln.peerid s.lib).towards fec.ipv4Prefix = some ln1 := hln1
        rw [hln1', map_some] at htowards
        exact map_eq_some_iff.mp htowards.symm
      have hpeerid : up.peerid = ln1.peerid := congrArg NbrView.peerid hview
      have hsent : up.sent fec = ln1.sent fec := by rw [up.sent_eq, hview, ← ln1.sent_eq]
      rw [← hsent, ← hpeerid]
      exact hknown _ (by simp [hup])
  | some lnr =>
    simp only [temporaryTargets, hfind] at hknown
    rw [run_mldpMapping_known (s := s.checked map ln.peerid) hfind] at hmldp
    refine sent_fromUpstream (fun hleaf => ?_) hmldp
    rw [if_neg (show s.leaf ≠ 1 from hleaf)] at hknown
    exact hknown

/-! ## Runs -/

theorem sentLinked_inert : Inert Engine.SentLinked where
  emit s o _ hs := hs
  wdraw s peerid f hs := by
    show (s.lib.modNbr peerid _).sentMaps.Linked
    rw [sent_modNbr ?_ ?_ ?_]
    · exact hs
    · exact fun _ => rfl
    · exact fun _ fec => by cases fec <;> rfl
    · exact fun _ => rfl
  del s lnr hs := hs
  leaf s leaf hs := hs
  ln1 s ln1 hs := hs

theorem Sent.Linked.newNbr (id : InAddr) (v4 v6 : Bool)
    (h : l.sentMaps.Linked) (hnew : l.nbr? peerid = none) :
    (ldeNbrNew peerid id v4 v6 l).sentMaps.Linked := by
  have hlink : (ldeNbrNew peerid id v4 v6 l).sentMaps.link = l.sentMaps.link := by
    funext q g prev
    simp only [Lib.sentMaps, nbr?_ldeNbrNew id v4 v6 hnew]
    split
    · rename_i hq
      subst hq
      simp [hnew, LdeNbr.links]
    · rfl
  refine ⟨h.links.congr (fun q g => by rw [Sent.Has, hlink, Sent.Has]) fun _ => rfl, ?_⟩
  rw [hlink]
  exact h.node

theorem route_ldeSendLabelmapping :
    (ldeSendLabelmapping peerid fn single prev l).ft.map FecNode.route = l.ft.map FecNode.route := by
  by_cases hc : ∃ ln, l.nbr? peerid = some ln ∧ l.concerns ln fn
  · obtain ⟨ln, hln, hc⟩ := hc
    exact (ldeSendLabelmapping_eq single prev hln hc).2.1
  · rw [ldeSendLabelmapping_of_not fun ln hln => Bool.eq_false_iff.mpr fun hln' => hc ⟨ln, hln, hln'⟩]

theorem fecSnap_sentLinked (h : l.sentMaps.Linked)
    (hs : l.Sorted) : (fecSnap peerid l).sentMaps.Linked := by
  have hboth := fecSnap_of peerid (I := fun l' => l'.sentMaps.Linked ∧
    ∀ fec, (l'.node? fec).isSome = (l.node? fec).isSome) ⟨h, fun _ => rfl⟩ (fun _ _ => id) ?_
  · exact hboth.1
  · intro l' fn hfn ⟨hl', hnode⟩
    have hself : (l.node? fn.fec).isSome := by
      rw [Lib.node?, hs.find_eq_some hfn]
      rfl
    refine ⟨hl'.labelmapping peerid false ((hnode fn.fec).trans hself), fun fec => ?_⟩
    rw [← hnode fec]
    exact node?_isSome_congr route_ldeSendLabelmapping fec

/-- The change of the egress labels sends mappings from nodes of `ft`. -/
theorem ldeChangeEgressLabel_sentLinked (af : Af) (expnull : Bool) (h : l.sentMaps.Linked)
    (hs : l.Sorted) : (ldeChangeEgressLabel af expnull l).sentMaps.Linked := by
  have hboth := ldeChangeEgressLabel_of af (I := fun l' => l'.sentMaps.Linked ∧ l'.Sorted ∧
    ∀ fec, (l'.node? fec).isSome = (l.node? fec).isSome) expnull ⟨h, hs, fun _ => rfl⟩
    (fun _ _ => id) ?_ ?_
  · exact hboth.1
  · rintro l' peerid label ⟨hl', hs', hnode⟩
    refine ⟨?_, hs', hnode⟩
    have hsent : (ldeSendLabelwithdrawWcard peerid label l').sentMaps = l'.sentMaps :=
      sent_modNbr (fun _ => rfl) (fun _ fec => by cases fec <;> rfl) fun _ => rfl
    rw [hsent]
    exact hl'
  · rintro l₁ l' peerid label fn hfn - ⟨-, hs₁, hnode₁⟩ ⟨hl', hs', hnode⟩
    set l₂ := l'.modNode fn.fec fun fn => { fn with localLabel := label }
    have hroutes : l₂.ft.map FecNode.route = l'.ft.map FecNode.route :=
      l'.ft_map_modNode fn.fec fun _ => rfl
    have hself : (l₂.node? fn.fec).isSome := by
      rw [node?_isSome_congr hroutes, hnode, ← hnode₁, Lib.node?, hs₁.find_eq_some hfn]
      rfl
    have hsent : l₂.sentMaps = l'.sentMaps := sent_modNode (fun _ => rfl) fun _ => rfl
    have hkeeps : Keeps l' l₂ := (Keeps.refl l').modNode fun _ => rfl
    rw [← hsent] at hl'
    refine ⟨hl'.labelmapping peerid false hself, ?_, fun fec => ?_⟩
    · exact (ldeSendLabelmapping_keeps _ _ _ _ _).sorted (hkeeps.sorted hs')
    · rw [← hnode fec, ← node?_isSome_congr hroutes]
      exact node?_isSome_congr route_ldeSendLabelmapping fec

theorem ldeDispatchParent_sentLinked (e : ParentEvent) (h : l.sentMaps.Linked) (hs : l.Sorted) :
    (ldeDispatchParent e l).sentMaps.Linked := by
  have hsame {l' : Lib} (heq : l'.sentMaps = l.sentMaps) : l'.sentMaps.Linked := heq ▸ h
  cases e with
  | networkAdd => exact hsame (sent_ldeKernelInsert _ _ _ _ _ _ hs)
  | networkDel => exact hsame (sent_ldeKernelRemove _ _ _ _ l)
  | pwInit pw => exact hsame (sent_ldeKernelInsert (l := { l with pws := _ }) _ _ _ _ _ _ hs)
  | pwExit uid =>
    show (l2vpnPwExit uid l).sentMaps.Linked
    unfold l2vpnPwExit
    split
    · exact h
    · exact hsame (sent_ldeKernelRemove _ _ _ _ l)
  | egressLabel af expnull => exact ldeChangeEgressLabel_sentLinked af expnull h hs
  | gcTimer => exact hsame (sent_ldeGcTimer hs)

theorem ldeCheckRequest_sentLinked (h : l.sentMaps.Linked) :
    (ldeCheckRequest map peerid l).sentMaps.Linked := by
  refine ldeCheckRequest_of (I := (·.sentMaps.Linked)) map peerid l h (fun _ => h)
    fun _ fn lre hfn => ?_
  obtain ⟨-, hfec⟩ := Lib.fec_of_node? hfn
  refine Sent.Linked.labelmapping _ true ?_ ?_
  · rw [(Receives.modNbr (.refl l) (by intro; rfl)).sent]
    exact h
  · rw [hfec]
    exact isSome_of_eq_some hfn

theorem nbrImsg_sentLinked (hs : s.RoutesSorted)
    (h : s.SentLinked) (hln : s.lib.nbr? ln.peerid = some ln) (hln1 : fresh → s.ln1 = none)
    (hgood : SendsKnown s (.imsg fresh ln.peerid msg))
    (hrun : (nbrImsg r ln msg).run s = .ok () s') : s'.SentLinked := by
  cases msg with
  | labelMappingFull =>
    cases hrun
    exact fecSnap_sentLinked h hs
  | labelMapping map =>
    have hknown := hgood ln hln
    have hstart : (if fresh then none else s.ln1) = s.ln1 := by
      cases fresh with
      | true => exact (hln1 rfl).symm
      | false => rfl
    rw [hstart] at hknown
    rw [Engine.SentLinked, sent_labelMapping hs hln hknown hrun]
    exact h
  | labelRequest map =>
    cases hrun
    exact ldeCheckRequest_sentLinked h
  | labelRelease map =>
    refine (Stable.ite ?_ ?_).of_ok h hrun
    · exact Stable.get fun _ => Triple.forM fun fec _ => releaseSent_sentLinked
    · exact .get fun _ => .ite (.pure _) releaseSent_sentLinked
  | labelWithdraw map =>
    simp only [nbrImsg] at hrun
    split at hrun
    · refine (sentLinked_inert.tears.labelWithdrawWcard r map ln fun s hs => ?_).of_ok h hrun
      show (ldeCheckWithdrawWcard map ln.peerid s.lib).sentMaps.Linked
      rw [(ldeCheckWithdrawWcard_receives _ _ _).sent]
      exact hs
    · cases hrun
      show (ldeCheckWithdraw map ln.peerid s.lib).sentMaps.Linked
      rw [sent_ldeCheckWithdraw hs]
      exact h
  | addressAdd x =>
    cases hrun
    show (s.lib.modNbr ln.peerid (ldeAddressAdd x)).sentMaps.Linked
    rw [sent_modNbr (ldeAddressAdd_peerid x)]
    · exact h
    · intro ln fec
      unfold ldeAddressAdd
      split
      · rfl
      · cases fec <;> rfl
    · intro ln
      unfold ldeAddressAdd
      split <;> rfl
  | addressDel x =>
    cases hrun
    show (s.lib.modNbr ln.peerid (ldeAddressDel x)).sentMaps.Linked
    rw [sent_modNbr (ldeAddressDel_peerid x)]
    · exact h
    · intro ln fec
      unfold ldeAddressDel
      split
      · rfl
      · cases fec <;> rfl
    · intro ln
      unfold ldeAddressDel
      split <;> rfl
  | notification nm =>
    refine (Stable.ite (sentLinked_modifyLib fun l => ?_) (Stable.pure _)).of_ok h hrun
    exact (l2vpnRecvPwStatus_installs ln nm l).receives.sent
  | neighborDown => exact ldeNbrDel_sentLinked h hln hrun
  | _ =>
    cases hrun
    exact h

theorem treeUp_sentLinked {root : InAddr} {ov : UInt8} (h : s.SentLinked)
    (hgood : ∀ fn ∈ firstRoute root s.lib.ft, ∀ fnh ∈ fn.nexthops.getLast?,
      ∀ ln ∈ s.lib.nbrFindByAddr fnh.af fnh.nexthop,
        s.lib.sentMaps.Known ln.peerid (Fec.ofV4 fn.fec.type root ov))
    (hrun : (treeUp root ov).run s = .ok () s') : s'.SentLinked := by
  rcases treeUp_cases hrun with ⟨-, rfl⟩ | ⟨fn, fnh, ln, hfn, hfnh, hln, rfl⟩
  · exact h
  · show (ldeSendLabelmapping _ _ true .freed s.lib).sentMaps.Linked
    rw [sent_sendTemporary (hgood fn hfn fnh hfnh ln hln)]
    exact h

theorem SendsKnown.start (h : SendsKnown s (.imsg fresh peerid msg)) :
    SendsKnown (s.start fresh) (.imsg fresh peerid msg) := by
  cases msg with
  | labelMapping map => cases fresh <;> exact h
  | _ => exact h

theorem step_sentLinked (hs : s.RoutesSorted) (h : s.SentLinked)
    (hgood : SendsKnown s e) (hrun : (step r e).run s = .ok () s') : s'.SentLinked := by
  have hstart (fresh : Bool) : (s.start fresh).SentLinked := h
  refine sentLinked_inert.step hstart ?_ ?_ ?_ ?_ hrun
  · rintro event rfl
    exact ldeDispatchParent_sentLinked (l := (s.start true).lib) event h hs
  · rintro fresh ln msg rfl hln hrun
    have hln1 : fresh → (s.start fresh).ln1 = none := by
      intro hfresh
      rw [hfresh]
      rfl
    exact nbrImsg_sentLinked (s := s.start fresh) hs (hstart fresh) hln hln1 hgood.start hrun
  · intro fresh peerid id v4 v6 hnone
    exact (hstart fresh).newNbr id v4 v6 hnone
  · rintro fresh peerid root ov s₁ rfl hup
    exact treeUp_sentLinked (hstart fresh) hgood hup

/-! ## Cross-linking -/

/-- The mapping entries that the neighbours hold are those on the lists of the nodes with the same
FEC, and the garbage collector leaves these nodes. -/
structure Engine.CrossLinked (s : Engine) : Prop where
  recv : ∀ peerid fec, (∃ ln ∈ s.lib.nbr? peerid, fec ∈ ln.recvMap.map LdeMap.fec) ↔
    ∃ fn ∈ s.lib.node? fec, peerid ∈ fn.downstream
  sent : ∀ peerid fec, (∃ ln ∈ s.lib.nbr? peerid, fec ∈ ln.sentMap.map LdeMap.fec) ↔
    ∃ fn ∈ s.lib.node? fec, peerid ∈ fn.upstream
  kept : ∀ peerid fec, (∃ ln ∈ s.lib.nbr? peerid, fec ∈ (ln.recvMap ++ ln.sentMap).map LdeMap.fec) →
    ∃ fn ∈ s.lib.node? fec, (ldeGcTimer s.lib).node? fec = some fn

theorem mem_elim {o : Option FecNode} {f : FecNode → List UInt32} :
    peerid ∈ o.elim [] f ↔ ∃ fn ∈ o, peerid ∈ f fn := by
  cases o <;> simp

theorem recv_isSome : (l.retained.recv peerid fec).isSome ↔
    ∃ ln ∈ l.nbr? peerid, fec ∈ ln.recvMap.map LdeMap.fec := by
  cases hln : l.nbr? peerid with
  | none => simp [Lib.retained, hln]
  | some ln =>
    simp only [Lib.retained, hln, bind_some, isSome_map, fecFind, find_isSome,
      fecCompare_eq, mem_some_iff, exists_eq_left', List.mem_map]
    simp only [eq_comm]

theorem has_iff_mem : l.sentMaps.Has peerid fec ↔
    ∃ ln ∈ l.nbr? peerid, fec ∈ ln.sentMap.map LdeMap.fec := by
  cases hln : l.nbr? peerid with
  | none => simp [Sent.Has, Lib.sentMaps, hln]
  | some ln =>
    rw [has_iff hln, ln.sent_eq, decide_eq_true_iff]
    simp [view]

theorem Engine.CrossLinked.of_linked (hs : s.RoutesSorted) (hrecv : s.lib.retained.Linked)
    (hsent : s.SentLinked) : s.CrossLinked := by
  have recv (peerid : UInt32) (fec : Fec) :
      (∃ ln ∈ s.lib.nbr? peerid, fec ∈ ln.recvMap.map LdeMap.fec) ↔
        ∃ fn ∈ s.lib.node? fec, peerid ∈ fn.downstream := by
    rw [← recv_isSome, ← hrecv.mem]
    exact mem_elim
  have sent (peerid : UInt32) (fec : Fec) :
      (∃ ln ∈ s.lib.nbr? peerid, fec ∈ ln.sentMap.map LdeMap.fec) ↔
        ∃ fn ∈ s.lib.node? fec, peerid ∈ fn.upstream := by
    rw [← has_iff_mem, ← hsent.links.mem]
    exact mem_elim
  refine ⟨recv, sent, ?_⟩
  rintro peerid fec ⟨ln, hln, hmem⟩
  -- the node has the neighbour on one of its lists, so it is not empty
  rw [map_append, mem_append] at hmem
  rcases hmem with hmem | hmem
  · obtain ⟨fn, hfn, hdown⟩ := (recv peerid fec).mp ⟨ln, hln, hmem⟩
    refine ⟨fn, hfn, ?_⟩
    rw [node?_ldeGcTimer hs, mem_def.mp hfn, filter_some_pos]
    cases hlist : fn.downstream with
    | nil => rw [hlist] at hdown; cases hdown
    | cons _ _ => simp
  · obtain ⟨fn, hfn, hup⟩ := (sent peerid fec).mp ⟨ln, hln, hmem⟩
    refine ⟨fn, hfn, ?_⟩
    rw [node?_ldeGcTimer hs, mem_def.mp hfn, filter_some_pos]
    cases hlist : fn.upstream with
    | nil => rw [hlist] at hup; cases hup
    | cons _ _ => simp

theorem retained_linked_init : init.lib.retained.Linked where
  mem _ _ := iff_of_false not_mem_nil nofun
  nodup _ := nodup_nil

/-- The received mappings are linked to their nodes in every reachable state. -/
theorem retained_linked (h : Reachable (step r) init s) : s.lib.retained.Linked := by
  refine And.right (h.invariant (I := fun s => s.Wf ∧ s.lib.retained.Linked)
    ⟨Engine.Wf.init, retained_linked_init⟩ ?_)
  rintro s e s' ⟨hs, hrecv⟩ hrun
  exact ⟨(step_effect hrun).wf hs, hrecv.effect (step_retained hs.routes hrun)⟩

theorem sentLinked_init : init.SentLinked := by
  have hlink (peerid : UInt32) (fec : Fec) (prev : MapPrev) :
      ¬init.lib.sentMaps.link peerid fec prev := by
    rintro ⟨ln, hln, -⟩
    cases hln
  refine ⟨⟨fun peerid fec => iff_of_false not_mem_nil ?_, fun _ => nodup_nil⟩, ?_⟩
  · rintro ⟨prev, hprev⟩
    exact hlink peerid fec prev hprev
  · intro peerid fec prev hprev
    exact absurd hprev (hlink peerid fec prev)

/-- In a run in which no mapping is recorded at a temporary node, the mappings are linked to the
nodes of their FECs. -/
theorem cross_linked (r : Freed) (tr : List Event) (s : Engine)
    (h : Run (step r) Engine.init SendsKnown tr s) : s.CrossLinked := by
  obtain ⟨hs, hrecv, hsent⟩ : s.Wf ∧ s.lib.retained.Linked ∧ s.SentLinked := by
    refine h.invariant (I := fun s => s.Wf ∧ s.lib.retained.Linked ∧ s.SentLinked)
      ⟨Engine.Wf.init, retained_linked_init, sentLinked_init⟩ ?_
    rintro s e s' ⟨hs, hrecv, hsent⟩ hgood hrun
    exact ⟨(step_effect hrun).wf hs, hrecv.effect (step_retained hs.routes hrun),
      step_sentLinked hs.routes hsent hgood hrun⟩
  exact .of_linked hs.routes hrecv hsent

/-- Neighbour 1 asks for a label for a route by way of neighbour 2. -/
def requestAnswered : List Event :=
  transitNode ++
    [ .parent (.networkAdd .inet (.ofV4 0x0a000301) 32 0 (.ofV4 0x0a000102) 10),
      .imsg true 1 (.labelRequest (ldeFec2map (.ipv4 0x0a000301 32))) ]

theorem requestAnswered_cross_linked :
    ∃ s, Run (step .lost) Engine.init SendsKnown requestAnswered s ∧
      (∃ ln ∈ s.lib.nbr? 1, ln.sentMap ≠ []) ∧ s.CrossLinked :=
  ⟨_, Run.of_play (by decide +kernel), by decide +kernel,
    cross_linked .lost requestAnswered _ (Run.of_play (by decide +kernel))⟩

/-- The mapping of a join that is passed on is in the sent maps of neighbour 2 and on no list. -/
theorem transitJoin_unlinked :
    ∃ s, Run (step .lost) Engine.init (fun _ _ => True) transitJoin s ∧ ¬s.CrossLinked :=
  ⟨_, Run.of_play (by decide +kernel), fun h =>
    absurd (h.sent 2 (.ipv4 0x0a000001 40)) (by decide +kernel)⟩

end Mp2mp.Lde
