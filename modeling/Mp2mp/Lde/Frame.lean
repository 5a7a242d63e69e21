import Mp2mp.Lde.Dispatch

/-!
# What the label information base leaves alone

The MP2MP code reads little of the label information base: the identity, the
addresses and the sent FECs of a neighbour (`LdeNbr.view`) and the nexthops of a
FEC node (`FecNode.route`).

* `Installs`, `Relabels`: only pseudowires, kernel messages and remote labels changed.
* `Receives`: only what comes of received messages changed, and no label is offered or taken back.
* `Same`: the views of all neighbours and nodes are what they were.
* `Keeps`: the neighbours are who they were, and `ft` stays in order.

Each function of `lde_lib.c` is put in the finest of them it belongs to; the invariants of the
later modules ask what these relations leave alone, not what each function does.
-/

namespace Mp2mp.Lde

open Kit Ldpd List FecNode Table

variable {ln : LdeNbr} {prev : MapPrev} {fn : FecNode} {f : LdeNbr → LdeNbr} {single : Bool}
  {map : Map} {β : Type} {l : Lib} {fnh : FecNh} {pw : L2vpnPw} {af : Af} {uid : Nat}
  {nexthop addr : LdpdAddr} {lsrIdView : InAddr} {priority : UInt8} {label : UInt32}

/-! ## Views -/

/-- What the MP2MP code reads of a neighbour. -/
structure NbrView where
  peerid : UInt32
  id : InAddr
  v4Enabled : Bool
  addrList : List LdeAddr
  sentFecs : List Fec
deriving DecidableEq, Repr

def LdeNbr.view (ln : LdeNbr) : NbrView :=
  ⟨ln.peerid, ln.id, ln.v4Enabled, ln.addrList, ln.sentMap.map LdeMap.fec⟩

def FecNh.key (fnh : FecNh) : Af × LdpdAddr × UInt8 := (fnh.af, fnh.nexthop, fnh.priority)

/-- What the MP2MP code reads of a FEC node. -/
def FecNode.route (fn : FecNode) : Fec × List (Af × LdpdAddr × UInt8) :=
  (fn.fec, fn.nexthops.map FecNh.key)

/-- The neighbour a message is for. -/
def Out.peer? : Out → Option UInt32
  | .mappingAdd p _ | .mappingAddEnd p | .withdrawAdd p _ | .withdrawAddEnd p | .releaseAdd p _
  | .releaseAddEnd p | .notificationSend p _ => some p
  | _ => none

/-- The message offers a label or takes one back. -/
def Out.offers : Out → Bool
  | .mappingAdd .. | .withdrawAdd .. => true
  | _ => false

/-- A FEC node without its nexthops. -/
def FecNode.rest (fn : FecNode) : FecNode := { fn with nexthops := [] }

/-- A FEC node without what it has from received mappings. -/
def FecNode.sending (fn : FecNode) : FecNode := { fn.rest with downstream := [] }

/-- A neighbour without its mappings and the requests. -/
def LdeNbr.sending (ln : LdeNbr) : LdeNbr := { ln with recvMap := [], recvReq := [], sentReq := [] }

/-- The messages of the current event for neighbours. -/
def Lib.toPeers (l : Lib) : List Out := l.out.filter fun o => o.peer?.isSome

theorem Lib.toPeers_emit (l : Lib) (o : Out) :
    (l.emit o).toPeers = l.toPeers ++ if o.peer?.isSome then [o] else [] := by
  simp only [toPeers, emit, filter_append, filter_singleton, Bool.cond_eq_ite]

/-- The nodes of `ft` are in the order of their FECs. -/
abbrev Lib.Sorted (l : Lib) : Prop := Table.Sorted fecCompare FecNode.fec l.ft

/-- Only pseudowires and kernel messages changed. -/
structure Installs (l l' : Lib) : Prop where
  nbrs : l'.nbrs = l.nbrs
  ft : l'.ft = l.ft
  toPeers : l'.toPeers = l.toPeers

/-- Only remote labels, pseudowires and kernel messages changed. -/
structure Quiet (l l' : Lib) : Prop where
  nbrs : l'.nbrs = l.nbrs
  ft : l'.ft.map FecNode.route = l.ft.map FecNode.route
  toPeers : l'.toPeers = l.toPeers

/-- Quiet, and of a node nothing but its nexthops changed. -/
structure Relabels (l l' : Lib) : Prop extends Quiet l l' where
  rest : l'.ft.map FecNode.rest = l.ft.map FecNode.rest

open Relabels

/-- Only what comes of received messages changed, and no label was offered or taken back. -/
structure Receives (l l' : Lib) : Prop where
  nbrs : l'.nbrs.map LdeNbr.sending = l.nbrs.map LdeNbr.sending
  ft : l'.ft.map FecNode.route = l.ft.map FecNode.route
  rest : l'.ft.map FecNode.sending = l.ft.map FecNode.sending
  offers : l'.out.filter Out.offers = l.out.filter Out.offers

/-- Everything the MP2MP code reads is what it was. -/
structure Same (l l' : Lib) : Prop where
  nbrs : l'.nbrs.map LdeNbr.view = l.nbrs.map LdeNbr.view
  ft : l'.ft.map FecNode.route = l.ft.map FecNode.route

/-- The neighbours are who they were, and `ft` stays in order. -/
structure Keeps (l l' : Lib) : Prop where
  peers : l'.nbrs.map LdeNbr.peerid = l.nbrs.map LdeNbr.peerid
  sorted : Table.Sorted fecCompare FecNode.fec l.ft → Table.Sorted fecCompare FecNode.fec l'.ft

variable {α : Type} {l' l'' : Lib} {peerid : UInt32} {I : Lib → Prop}

theorem Installs.refl (l : Lib) : Installs l l := ⟨rfl, rfl, rfl⟩

theorem Installs.trans (h : Installs l l') (h' : Installs l' l'') : Installs l l'' :=
  ⟨h'.nbrs.trans h.nbrs, h'.ft.trans h.ft, h'.toPeers.trans h.toPeers⟩

theorem Installs.relabels (h : Installs l l') : Relabels l l' :=
  ⟨⟨h.nbrs, by rw [h.ft], h.toPeers⟩, by rw [h.ft]⟩

theorem Relabels.refl (l : Lib) : Relabels l l := (Installs.refl l).relabels

theorem Relabels.trans (h : Relabels l l') (h' : Relabels l' l'') : Relabels l l'' :=
  ⟨⟨h'.nbrs.trans h.nbrs, h'.ft.trans h.ft, h'.toPeers.trans h.toPeers⟩, h'.rest.trans h.rest⟩

theorem Receives.refl (l : Lib) : Receives l l := ⟨rfl, rfl, rfl, rfl⟩

theorem Receives.trans (h : Receives l l') (h' : Receives l' l'') : Receives l l'' :=
  ⟨h'.nbrs.trans h.nbrs, h'.ft.trans h.ft, h'.rest.trans h.rest, h'.offers.trans h.offers⟩

theorem Same.refl (l : Lib) : Same l l := ⟨rfl, rfl⟩

theorem Same.trans (h : Same l l') (h' : Same l' l'') : Same l l'' :=
  ⟨h'.nbrs.trans h.nbrs, h'.ft.trans h.ft⟩

theorem Keeps.refl (l : Lib) : Keeps l l := ⟨rfl, id⟩

theorem Keeps.trans (h : Keeps l l') (h' : Keeps l' l'') : Keeps l l'' :=
  ⟨h'.peers.trans h.peers, h'.sorted ∘ h.sorted⟩

/-- A view that a finer one determines is what it was, if the finer one is. -/
theorem map_eq_of_view {γ : Type} {v : α → β} {w : α → γ} {xs ys : List α}
    (h : ys.map v = xs.map v) (f : β → γ) (hf : ∀ x, f (v x) = w x) : ys.map w = xs.map w := by
  have hmap := congrArg (List.map f) h
  simpa only [map_map, Function.comp_def, hf] using hmap

theorem filter_offers_toPeers : l.toPeers.filter Out.offers = l.out.filter Out.offers := by
  rw [Lib.toPeers, filter_filter]
  apply filter_congr
  intro o _
  cases o <;> rfl

theorem Relabels.receives (h : Relabels l l') : Receives l l' := by
  refine ⟨by rw [h.nbrs], h.ft, map_eq_of_view h.rest sending fun _ => rfl, ?_⟩
  rw [← filter_offers_toPeers, h.toPeers, filter_offers_toPeers]

theorem Installs.receives (h : Installs l l') : Receives l l' := h.relabels.receives

theorem Receives.same (h : Receives l l') : Same l l' :=
  ⟨map_eq_of_view h.nbrs LdeNbr.view fun _ => rfl, h.ft⟩

theorem sorted_of_fecs (h : l'.ft.map fec = l.ft.map fec) (hs : l.Sorted) : l'.Sorted := by
  have hfecs : (l.ft.map fec).Pairwise fun a b => fecCompare a b = .lt :=
    pairwise_map.mpr hs
  rw [← h] at hfecs
  exact pairwise_map.mp hfecs

theorem Same.keeps (h : Same l l') : Keeps l l' :=
  ⟨map_eq_of_view h.nbrs NbrView.peerid fun _ => rfl,
    sorted_of_fecs (map_eq_of_view h.ft Prod.fst fun _ => rfl)⟩

theorem Receives.keeps (h : Receives l l') : Keeps l l' := h.same.keeps

/-! ## Lookups -/

theorem ldeNbrCompare_eq {a b : UInt32} : ldeNbrCompare a b = .eq ↔ a = b := by
  unfold ldeNbrCompare
  split
  · rename_i h; exact ⟨fun _ => h, fun _ => rfl⟩
  · rename_i h
    split <;> exact ⟨nofun, fun heq => absurd heq h⟩

theorem Lib.nbr?_eq (l : Lib) (peerid : UInt32) :
    l.nbr? peerid = l.nbrs.find? fun ln => ln.peerid == peerid := by
  refine congrArg (fun p => List.find? p l.nbrs) (funext fun ln => ?_)
  rw [Bool.eq_iff_iff, beq_iff_eq, beq_iff_eq, ldeNbrCompare_eq, eq_comm]

theorem Lib.peerid_of_nbr? (h : l.nbr? peerid = some ln) : ln ∈ l.nbrs ∧ ln.peerid = peerid := by
  obtain ⟨hmem, heq⟩ := mem_of_find h
  exact ⟨hmem, (ldeNbrCompare_eq.mp heq).symm⟩

theorem Lib.nbr?_isSome : (l.nbr? peerid).isSome ↔ peerid ∈ l.nbrs.map LdeNbr.peerid := by
  simp [Lib.nbr?_eq]

theorem find?_view {v : α → β} {xs ys : List α} (h : xs.map v = ys.map v) (p : β → Bool) :
    (xs.find? fun x => p (v x)).map v = (ys.find? fun y => p (v y)).map v := by
  have hfind := congrArg (List.find? p) h
  rwa [find?_map, find?_map] at hfind

theorem Same.nbr? (h : Same l l') (peerid : UInt32) :
    (l'.nbr? peerid).map LdeNbr.view = (l.nbr? peerid).map LdeNbr.view := by
  simp only [Lib.nbr?_eq]
  exact find?_view h.nbrs fun v => v.peerid == peerid

theorem Same.nbrFindByAddr (h : Same l l') (af : Af) (addr : LdpdAddr) :
    (l'.nbrFindByAddr af addr).map LdeNbr.view = (l.nbrFindByAddr af addr).map LdeNbr.view :=
  find?_view h.nbrs fun v : NbrView =>
    (v.addrList.find? fun a : LdeAddr => a.af == af && ldpAddrcmp af a.addr addr == .eq).isSome

/-- The address is on the neighbour's list. -/
def LdeNbr.HasAddr (ln : LdeNbr) (af : Af) (addr : LdpdAddr) : Prop :=
  ∃ a ∈ ln.addrList, a.af = af ∧ ldpAddrcmp af a.addr addr = .eq

theorem hasAddr_iff {ln : LdeNbr} {af : Af} {addr : LdpdAddr} :
    (ldeAddressFind ln af addr).isSome ↔ ln.HasAddr af addr := by
  simp [ldeAddressFind, LdeNbr.HasAddr, find?_isSome]

/-- What can be found is unique. -/
theorem find?_iff_of_unique {α : Type} {p : α → Bool} {xs : List α} {x : α}
    (unique : ∀ x ∈ xs, ∀ y ∈ xs, p x → p y → x = y) : xs.find? p = some x ↔ x ∈ xs ∧ p x := by
  constructor
  · intro found
    exact ⟨mem_of_find?_eq_some found, find?_some found⟩
  · rintro ⟨mem, holds⟩
    cases found : xs.find? p with
    | none => exact absurd holds (find?_eq_none.mp found x mem)
    | some y => rw [unique x mem y (mem_of_find?_eq_some found) holds (find?_some found)]

theorem findId_iff {ln : LdeNbr} (ids : (l.nbrs.map LdeNbr.id).Nodup) (x : InAddr) :
    l.nbrs.find? (·.id == x) = some ln ↔ ln ∈ l.nbrs ∧ ln.id = x := by
  rw [find?_iff_of_unique, beq_iff_eq]
  intro a ha b hb eqa eqb
  exact inj_on_of_nodup_map ids ha hb ((beq_iff_eq.mp eqa).trans (beq_iff_eq.mp eqb).symm)

/-- A lookup of one id for another is exact if neither is in use. -/
theorem findId_exact_iff {x y : InAddr} (other : y ≠ x) (ids : (l.nbrs.map LdeNbr.id).Nodup) :
    (∀ ln, l.nbrs.find? (·.id == y) = some ln ↔ ln ∈ l.nbrs ∧ ln.id = x) ↔
      ∀ ln ∈ l.nbrs, ln.id ≠ x ∧ ln.id ≠ y := by
  simp only [findId_iff ids]
  constructor
  · intro exact ln mem
    exact ⟨fun id => other (((exact ln).mpr ⟨mem, id⟩).2.symm.trans id),
      fun id => other (id.symm.trans ((exact ln).mp ⟨mem, id⟩).2)⟩
  · intro free ln
    exact ⟨fun ⟨mem, id⟩ => absurd id (free ln mem).2, fun ⟨mem, id⟩ => absurd id (free ln mem).1⟩

/-- The lookups are exact unless the id is one of two that are looked up as others. -/
theorem nbrFind_exact_iff {l : Lib} (ids : (l.nbrs.map LdeNbr.id).Nodup)
    (addrs : ∀ ln ∈ l.nbrs, ∀ ln' ∈ l.nbrs, ∀ af addr,
      ln.HasAddr af addr → ln'.HasAddr af addr → ln = ln') (x : InAddr) :
    ((∀ ln, l.nbrFindByLsrid x = some ln ↔ ln ∈ l.nbrs ∧ ln.id = x) ∧
      ∀ af addr ln, l.nbrFindByAddr af addr = some ln ↔ ln ∈ l.nbrs ∧ ln.HasAddr af addr) ↔
      (x = 0xc0a8e486 → ∀ ln ∈ l.nbrs, ln.id ≠ x ∧ ln.id ≠ 0x09090909) ∧
        (x = 0xc0a8e480 → ∀ ln ∈ l.nbrs, ln.id ≠ x ∧ ln.id ≠ 0x08080808) := by
  have byAddr (af addr ln) :
      l.nbrFindByAddr af addr = some ln ↔ ln ∈ l.nbrs ∧ ln.HasAddr af addr := by
    rw [Lib.nbrFindByAddr, find?_iff_of_unique, hasAddr_iff]
    intro a ha b hb hasa hasb
    exact addrs a ha b hb af addr (hasAddr_iff.mp hasa) (hasAddr_iff.mp hasb)
  rw [and_iff_left byAddr]
  by_cases first : x = 0xc0a8e486
  · subst first
    simpa [Lib.nbrFindByLsrid] using findId_exact_iff (by decide) ids
  · by_cases second : x = 0xc0a8e480
    · subst second
      simpa [Lib.nbrFindByLsrid] using findId_exact_iff (by decide) ids
    · simp [Lib.nbrFindByLsrid, first, second, findId_iff ids]

/-- The neighbour with the id n.n.n.n and the address 10.0.1.n. -/
def addressedNbr (n : UInt32) : LdeNbr :=
  ⟨n, n * 0x01010101, true, true, [], [], [], [], [], [⟨.inet, .ofV4 (0x0a000100 + n)⟩]⟩

def addressedLib : Lib := ⟨[addressedNbr 1, addressedNbr 2], [], [], []⟩

theorem addressedNbr_hasAddr {n : UInt32} {af : Af} {addr : LdpdAddr}
    (h : (addressedNbr n).HasAddr af addr) : 0x0a000100 + n = addr.v4 := by
  obtain ⟨a, ha, rfl, same⟩ := h
  obtain rfl := List.mem_singleton.mp ha
  simpa [ldpAddrcmp, LdpdAddr.ofV4, LdpdAddr.v4] using same

theorem nbrFind_exact_second : addressedLib.nbrFindByLsrid 0x02020202 = some (addressedNbr 2) ∧
    addressedLib.nbrFindByAddr .inet (.ofV4 0x0a000102) = some (addressedNbr 2) := by
  have disjoint : ∀ ln ∈ addressedLib.nbrs, ∀ ln' ∈ addressedLib.nbrs, ∀ af addr,
      ln.HasAddr af addr → ln'.HasAddr af addr → ln = ln' := by
    intro ln hln ln' hln' af addr has has'
    simp only [addressedLib, List.mem_cons, List.not_mem_nil, or_false] at hln hln'
    obtain rfl | rfl := hln <;> obtain rfl | rfl := hln' <;> first
      | rfl
      | exact absurd ((addressedNbr_hasAddr has).trans (addressedNbr_hasAddr has').symm) (by decide)
  have exact := (nbrFind_exact_iff (by decide) disjoint 0x02020202).mpr (by decide)
  exact ⟨(exact.1 _).mpr (by decide), (exact.2 _ _ _).mpr ⟨by decide, _, .head _, rfl, by decide⟩⟩

/-- A neighbour with the id 192.168.228.134. -/
def aliasedLib : Lib := ⟨[⟨1, 0xc0a8e486, true, true, [], [], [], [], [], []⟩], [], [], []⟩

theorem aliased_missed : (∃ ln ∈ aliasedLib.nbrs, ln.id = 0xc0a8e486) ∧
    aliasedLib.nbrFindByLsrid 0xc0a8e486 = none := by
  decide

theorem Same.firstRoute (h : Same l l') (root : InAddr) :
    (firstRoute root l'.ft).map route = (firstRoute root l.ft).map route :=
  find?_view h.ft fun r => r.1.ipv4Prefix == root

theorem LdeNbr.sent_eq (ln : LdeNbr) (fec : Fec) : ln.sent fec = decide (fec ∈ ln.view.sentFecs) := by
  rw [Bool.eq_iff_iff, decide_eq_true_iff]
  simp only [LdeNbr.sent, fecFind, find, find?_isSome, LdeNbr.view, mem_map,
    beq_iff_eq, fecCompare_eq]
  simp only [eq_comm]

/-! ## Rewriting one neighbour or one node -/

theorem Lib.nbrs_map_modNbr {v : LdeNbr → β} (l : Lib)
    (peerid : UInt32) (hf : ∀ ln, v (f ln) = v ln) : (l.modNbr peerid f).nbrs.map v = l.nbrs.map v :=
  map_modify fun ln _ => hf ln

theorem Lib.ft_map_modNode {v : FecNode → β} {f : FecNode → FecNode} (l : Lib)
    (fec : Fec) (hf : ∀ fn, v (f fn) = v fn) : (l.modNode fec f).ft.map v = l.ft.map v :=
  map_modify fun fn _ => hf fn

theorem Lib.nbr?_modNbr (l : Lib) (peerid : UInt32)
    (hf : ∀ ln, (f ln).peerid = ln.peerid) : (l.modNbr peerid f).nbr? peerid = (l.nbr? peerid).map f :=
  find_modify hf _ _

theorem node?_fecAdd (fec : Fec) (lsrIdView : InAddr) (l : Lib) :
    ((fecAdd fec lsrIdView l).node? fec).isSome := by
  let fn : FecNode := ⟨fec, lsrIdView, [], [], [], noLabel, none⟩
  have h : (find fecCompare FecNode.fec fn.fec (insert fecCompare FecNode.fec fn l.ft)).isSome :=
    find_insert fn l.ft
  exact h

section

variable {o : Out} {fec : Fec}

theorem Installs.modPw {f : L2vpnPw → L2vpnPw} (h : Installs l l') : Installs l (l'.modPw uid f) :=
  h.trans ⟨rfl, rfl, rfl⟩

theorem Installs.emit (h : Installs l l') (ho : o.peer? = none) : Installs l (l'.emit o) := by
  refine h.trans ⟨rfl, rfl, ?_⟩
  rw [Lib.toPeers_emit, ho]
  exact append_nil _

theorem Relabels.modPw {f : L2vpnPw → L2vpnPw} (h : Relabels l l') : Relabels l (l'.modPw uid f) :=
  h.trans (Installs.modPw (.refl l')).relabels

theorem Relabels.modNh {f : FecNh → FecNh} (h : Relabels l l')
    (hf : ∀ nh, (f nh).key = nh.key) : Relabels l (l'.modNh fec fnh f) := by
  refine h.trans ⟨⟨rfl, l'.ft_map_modNode fec fun fn => ?_, rfl⟩, l'.ft_map_modNode fec fun _ => rfl⟩
  simp only [route, map_map, Prod.mk.injEq, true_and]
  refine map_congr_left fun nh _ => ?_
  simp only [Function.comp_apply]
  split
  · exact hf nh
  · rfl

theorem Relabels.foldl {f : Lib → α → Lib} (xs : List α)
    (h : ∀ l a, Relabels l (f l a)) : Relabels l (xs.foldl f l) :=
  foldlRecOn xs _ (.refl l) fun l' hl' a _ => hl'.trans (h l' a)

theorem Relabels.eachNh {body : FecNode → FecNh → Lib → Lib}
    (h : ∀ fn fnh l, Relabels l (body fn fnh l)) : Relabels l (l.eachNh fec body) := by
  unfold Lib.eachNh
  cases l.node? fec with
  | none => exact .refl l
  | some fn => exact .foldl _ fun l fnh => h fn fnh l

theorem Receives.modNbr (h : Receives l l')
    (hf : ∀ ln, (f ln).sending = ln.sending) : Receives l (l'.modNbr peerid f) :=
  h.trans ⟨l'.nbrs_map_modNbr peerid hf, rfl, rfl, rfl⟩

theorem Receives.modNode {f : FecNode → FecNode} (h : Receives l l')
    (hroute : ∀ fn, (f fn).route = fn.route) (hf : ∀ fn, (f fn).sending = fn.sending) :
    Receives l (l'.modNode fec f) :=
  h.trans ⟨rfl, l'.ft_map_modNode fec hroute, l'.ft_map_modNode fec hf, rfl⟩

theorem Receives.emit (h : Receives l l') (ho : o.offers = false) : Receives l (l'.emit o) := by
  refine h.trans ⟨rfl, rfl, rfl, ?_⟩
  rw [Lib.emit, filter_append, filter_singleton, ho]
  exact append_nil _

theorem Receives.foldl {f : Lib → α → Lib} (xs : List α)
    (h : ∀ l a, Receives l (f l a)) : Receives l (xs.foldl f l) :=
  foldlRecOn xs _ (.refl l) fun l' hl' a _ => hl'.trans (h l' a)

theorem Same.modNbr (h : Same l l') (hf : ∀ ln, (f ln).view = ln.view) :
    Same l (l'.modNbr peerid f) :=
  h.trans ⟨l'.nbrs_map_modNbr peerid hf, rfl⟩

theorem Same.emit (h : Same l l') : Same l (l'.emit o) := h.trans ⟨rfl, rfl⟩

theorem Same.foldl {f : Lib → α → Lib} (xs : List α) (h : ∀ l a, Same l (f l a)) :
    Same l (xs.foldl f l) :=
  foldlRecOn xs _ (.refl l) fun l' hl' a _ => hl'.trans (h l' a)

theorem Keeps.modNbr (h : Keeps l l')
    (hf : ∀ ln, (f ln).peerid = ln.peerid) : Keeps l (l'.modNbr peerid f) :=
  h.trans ⟨l'.nbrs_map_modNbr peerid hf, id⟩

theorem Keeps.modNode {f : FecNode → FecNode} (h : Keeps l l') (hf : ∀ fn, (f fn).fec = fn.fec) :
    Keeps l (l'.modNode fec f) :=
  h.trans ⟨rfl, sorted_of_fecs (l'.ft_map_modNode fec hf)⟩

theorem Keeps.emit (h : Keeps l l') : Keeps l (l'.emit o) := h.trans ⟨rfl, id⟩

end

/-! ## Kernel labels -/

theorem changeKpwlabel_installs : Installs l (changeKpwlabel fn fnh l) := by
  unfold changeKpwlabel
  split
  · exact .refl l
  · split
    · exact .refl l
    · exact .emit (.modPw (.refl l)) rfl

theorem deleteKpwlabel_installs : Installs l (deleteKpwlabel fn fnh l) := by
  unfold deleteKpwlabel
  split
  · exact .refl l
  · split
    · exact .emit (.modPw (.refl l)) rfl
    · exact .refl l

theorem setKpwlabel_installs : Installs l (setKpwlabel pw fn fnh l) := by
  unfold setKpwlabel
  split
  · exact changeKpwlabel_installs
  · exact deleteKpwlabel_installs

theorem l2vpnSyncPw_installs : Installs l (l2vpnSyncPw af addr l uid) := by
  unfold l2vpnSyncPw
  split
  · exact .refl l
  · split
    · exact .refl l
    · split
      · exact .refl l
      · split
        · exact .refl l
        · exact setKpwlabel_installs

theorem l2vpnSyncPws_installs : Installs l (l2vpnSyncPws af addr l) :=
  foldlRecOn _ _ (.refl l) fun _ hl' _ _ => hl'.trans l2vpnSyncPw_installs

theorem syncHostRoute_installs {fec : Fec} : Installs l (syncHostRoute fec l) := by
  unfold syncHostRoute
  split
  · split
    · exact l2vpnSyncPws_installs
    · exact .refl l
  · split
    · exact l2vpnSyncPws_installs
    · exact .refl l
  · exact .refl l

section

variable (fn : FecNode) (fnh : FecNh) (l : Lib)

theorem ldeSendChangeKlabel_installs : Installs l (ldeSendChangeKlabel fn fnh l) := by
  unfold ldeSendChangeKlabel
  split
  · exact changeKpwlabel_installs
  · exact (Installs.emit (.refl l) rfl).trans syncHostRoute_installs

theorem ldeSendDeleteKlabel_installs : Installs l (ldeSendDeleteKlabel fn fnh l) := by
  unfold ldeSendDeleteKlabel
  split
  · exact deleteKpwlabel_installs
  · exact (Installs.emit (.refl l) rfl).trans syncHostRoute_installs

theorem uninstallNh_relabels : Relabels l (uninstallNh fn fnh l) :=
  .modNh (ldeSendDeleteKlabel_installs fn fnh l).relabels fun _ => rfl

end

theorem installNh_relabels : Relabels l (installNh label fn fnh l) := by
  refine .trans ?_ (ldeSendChangeKlabel_installs _ _ _).relabels
  exact .modNh (.refl l) fun _ => rfl

/-! ## Label messages -/

section

variable (peerid : UInt32) (fn : FecNode)

theorem map_fec_recordMap {fec : Fec} {t : List LdeMap} (h : (fecFind LdeMap.fec fec t).isSome) :
    (recordMap fec map prev t).map LdeMap.fec = t.map LdeMap.fec := by
  obtain ⟨me, hme⟩ := Option.isSome_iff_exists.mp h
  simp only [recordMap, hme]
  exact map_modify (by intros; rfl)

theorem recordSent_keeps {fec : Fec} {prev : MapPrev}
    : Keeps l (recordSent peerid ln fec map prev l) := by
  unfold recordSent
  split
  · exact .modNode (.modNbr (.refl l) fun _ => rfl) fun _ => rfl
  · exact .modNbr (.refl l) fun _ => rfl

theorem ldeSendLabelmapping_keeps (single : Bool) (prev : MapPrev)
    (l : Lib) : Keeps l (ldeSendLabelmapping peerid fn single prev l) := by
  unfold ldeSendLabelmapping
  split
  · exact .refl l
  · split
    · refine .trans ?_ (recordSent_keeps _)
      split
      · exact .emit (.emit (.modNbr (.refl l) fun _ => rfl))
      · exact .emit (.modNbr (.refl l) fun _ => rfl)
    · exact .refl l

theorem ldeSendLabelwithdraw_same (st : Option MapStatus)
    (l : Lib) : Same l (ldeSendLabelwithdraw peerid fn st l) := by
  unfold ldeSendLabelwithdraw
  split
  · exact .refl l
  · split
    · exact .modNbr (.emit (.emit (.refl l))) fun _ => rfl
    · exact .refl l

theorem ldeSendLabelwithdrawWcard_same (label : UInt32) (l : Lib) :
    Same l (ldeSendLabelwithdrawWcard peerid label l) :=
  .modNbr (.emit (.emit (.refl l))) fun _ => rfl

end

section

variable (peerid : UInt32) (fn : FecNode) (label : UInt32) (l : Lib)

theorem ldeSendLabelwithdrawAll_same : Same l (ldeSendLabelwithdrawAll fn l) :=
  .foldl _ fun l peerid => ldeSendLabelwithdraw_same peerid fn none l

theorem ldeSendLabelrelease_receives : Receives l (ldeSendLabelrelease peerid fn label l) := by
  unfold ldeSendLabelrelease
  split
  · exact .refl l
  · split
    · exact .emit (.emit (.refl l) rfl) rfl
    · exact .refl l

theorem ldeSendLabelreleaseWcard_receives : Receives l (ldeSendLabelreleaseWcard peerid label l) :=
  .emit (.emit (.refl l) rfl) rfl

end

/-! ## Received label messages -/

theorem fecAdd_keeps (fec : Fec) (lsrIdView : InAddr) (l : Lib) :
    Keeps l (fecAdd fec lsrIdView l) :=
  ⟨rfl, fun h => h.insert⟩

theorem installMapping_relabels (ln : LdeNbr) (map : Map) (fn : FecNode) (fnh : FecNh) (l : Lib) :
    Relabels l (installMapping ln map fn fnh l) := by
  unfold installMapping
  split
  · split
    · exact .refl l
    · dsimp only
      split
      · refine .trans ?_ (ldeSendChangeKlabel_installs _ _ _).relabels
        exact .modNh (.modPw (.refl l)) fun _ => rfl
      · exact .modNh (.modPw (.refl l)) fun _ => rfl
  · split
    · exact installNh_relabels
    · exact .refl l

theorem replaceMapping_receives (ln : LdeNbr) (fn : FecNode) (me : LdeMap) (l : Lib) :
    Receives l (replaceMapping ln fn me l) := by
  refine (ldeSendLabelrelease_receives _ _ _ l).trans (eachNh fun fn fnh l => ?_).receives
  split
  · exact uninstallNh_relabels fn fnh l
  · exact .refl l

theorem recordRecv_receives {fec : Fec} : Receives l (recordRecv ln fec map l) := by
  unfold recordRecv
  split
  · exact .modNode (.modNbr (.refl l) fun _ => rfl) (fun _ => rfl) fun _ => rfl
  · exact .modNbr (.refl l) fun _ => rfl

theorem acceptMapping_receives (ln : LdeNbr) (fn : FecNode) (map : Map) (lre : Bool) (l : Lib) :
    Receives l (acceptMapping ln fn map lre l) := by
  unfold acceptMapping
  dsimp only
  refine .trans ?_ ((eachNh (installMapping_relabels ln map)).receives.trans
    recordRecv_receives)
  split
  · split
    · exact replaceMapping_receives _ _ _ l
    · exact .refl l
  · exact .refl l

theorem negotiateStatus_installs {fec : Fec} : Installs l (negotiateStatus ln fec map pw l) := by
  unfold negotiateStatus
  split
  · exact .modPw (.refl l)
  · exact .refl l

/-- The negotiation changes the pseudowire; if the control word is to be left out, the mapping of
the neighbour is withdrawn and sent again. -/
theorem negotiate_of (h : I l) (hinstalls : ∀ l l', Installs l l' → I l → I l')
    (hagain : map.type = .pwid → ln.sent fn.fec → ∀ uid st f, I (ldeSendLabelmapping ln.peerid fn
      true .node ((ldeSendLabelwithdraw ln.peerid fn st l).modPw uid f))) :
    I (negotiate ln fn map l).2 := by
  have hstatus (pw : L2vpnPw) (l : Lib) (hl : I l) : I (negotiateStatus ln fn.fec map pw l) :=
    hinstalls _ _ negotiateStatus_installs hl
  have hpw (uid : Nat) (f : L2vpnPw → L2vpnPw) : I (l.modPw uid f) :=
    hinstalls _ _ (.modPw (.refl l)) h
  unfold negotiate
  split
  · rename_i htype
    unfold l2vpnPwNegotiate
    split
    · exact h
    · dsimp only
      split
      · rename_i hsent
        split
        · exact h
        · split
          · exact hstatus _ _ (hagain htype hsent _ _ _)
          · exact hstatus _ _ h
      · split
        · split
          · exact hstatus _ _ (hpw _ _)
          · exact h
        · exact hstatus _ _ (hpw _ _)
  · exact h

/-! ## Sending a mapping -/

theorem fecFind_recordMap (fec : Fec) (map : Map) (prev : MapPrev) (t : List LdeMap) :
    (fecFind LdeMap.fec fec (recordMap fec map prev t)).isSome := by
  unfold recordMap
  cases h : fecFind LdeMap.fec fec t with
  | some me =>
    simp only [fecFind] at h ⊢
    rw [find_modify (by intro; rfl), h]
    rfl
  | none =>
    have hmem : ⟨fec, map, prev⟩ ∈ insert fecCompare LdeMap.fec ⟨fec, map, prev⟩ t :=
      mem_insert_self h
    simp only [fecFind, find, find?_isSome]
    exact ⟨_, hmem, by simp⟩

/-- The neighbour once a mapping has been sent to it. -/
def LdeNbr.withSent (fec : Fec) (map : Map) (prev : MapPrev) (ln : LdeNbr) : LdeNbr :=
  { ln with
    recvReq := fecRemove LdeReq.fec fec ln.recvReq
    sentMap := recordMap fec map prev ln.sentMap }

/-- The messages of one `lde_send_labelmapping`. -/
def mappingMessages (peerid : UInt32) (map : Map) (single : Bool) : List Out :=
  if single then [Out.mappingAdd peerid map, Out.mappingAddEnd peerid] else [Out.mappingAdd peerid map]

/-- What `lde_send_labelmapping` does when the neighbour is to hear of the FEC. -/
theorem ldeSendLabelmapping_eq (single : Bool)
    (prev : MapPrev) (hln : l.nbr? peerid = some ln) (hc : l.concerns ln fn) :
    (ldeSendLabelmapping peerid fn single prev l).nbrs =
        (l.modNbr peerid (LdeNbr.withSent fn.fec (l.labelmapping ln fn) prev)).nbrs ∧
      (ldeSendLabelmapping peerid fn single prev l).ft.map route =
        l.ft.map route ∧
      (ldeSendLabelmapping peerid fn single prev l).toPeers =
        l.toPeers ++ mappingMessages peerid (l.labelmapping ln fn) single := by
  have hnbrs (l : Lib) (map : Map) :
      (recordSent peerid ln fn.fec map prev l).nbrs = (l.modNbr peerid fun ln =>
        { ln with sentMap := recordMap fn.fec map prev ln.sentMap }).nbrs := by
    unfold recordSent
    split <;> rfl
  have hft (l : Lib) (map : Map) :
      (recordSent peerid ln fn.fec map prev l).ft.map route = l.ft.map route := by
    unfold recordSent
    split
    · exact Lib.ft_map_modNode _ _ fun _ => rfl
    · rfl
  have hout (l : Lib) (map : Map) :
      (recordSent peerid ln fn.fec map prev l).toPeers = l.toPeers := by
    unfold recordSent
    split <;> rfl
  unfold ldeSendLabelmapping
  simp only [hln, hc, if_true, hnbrs, hft, hout]
  have hmod (f g : LdeNbr → LdeNbr) (hf : ∀ ln, (f ln).peerid = ln.peerid) :
      ((l.modNbr peerid f).modNbr peerid g).nbrs = (l.modNbr peerid fun ln => g (f ln)).nbrs :=
    modify_modify hf _ _
  cases single with
  | true =>
    refine ⟨hmod _ _ fun _ => rfl, rfl, ?_⟩
    simp only [if_true, Lib.toPeers_emit, Out.peer?, Option.isSome_some, mappingMessages,
      append_assoc]
    rfl
  | false =>
    refine ⟨hmod _ _ fun _ => rfl, rfl, ?_⟩
    simp only [Bool.false_eq_true, if_false, Lib.toPeers_emit, Out.peer?, Option.isSome_some,
      if_true, mappingMessages]
    rfl

theorem ldeSendLabelmapping_of_not (h : ∀ ln, l.nbr? peerid = some ln → l.concerns ln fn = false) :
    ldeSendLabelmapping peerid fn single prev l = l := by
  unfold ldeSendLabelmapping
  cases hln : l.nbr? peerid with
  | none => rfl
  | some ln => simp only [h ln hln, Bool.false_eq_true, if_false]

theorem ldeSendLabelmapping_same (h : ∀ ln, l.nbr? peerid = some ln → ln.sent fn.fec) :
    Same l (ldeSendLabelmapping peerid fn single prev l) := by
  by_cases hc : ∃ ln, l.nbr? peerid = some ln ∧ l.concerns ln fn
  · obtain ⟨ln, hln, hc⟩ := hc
    obtain ⟨hnbrs, hft, -⟩ := ldeSendLabelmapping_eq single prev hln hc
    refine ⟨?_, hft⟩
    rw [hnbrs]
    refine map_modify fun ln' hln' => ?_
    simp only [LdeNbr.view, LdeNbr.withSent, map_fec_recordMap (h ln' hln')]
  · rw [ldeSendLabelmapping_of_not fun ln hln => ?_]
    · exact .refl l
    · exact Bool.eq_false_iff.mpr fun h => hc ⟨ln, hln, h⟩

theorem Same.sendAgain (h : Same l l') (hln : (l.nbr? ln.peerid).map LdeNbr.view = some ln.view)
    (hsent : ln.sent fn.fec) : Same l (ldeSendLabelmapping ln.peerid fn single prev l') := by
  refine h.trans (ldeSendLabelmapping_same fun ln' hln' => ?_)
  have hview := h.nbr? ln.peerid
  rw [hln', hln, Option.map_some, Option.some_inj] at hview
  rwa [LdeNbr.sent_eq, hview, ← LdeNbr.sent_eq]

theorem negotiate_same (fn : FecNode) (map : Map)
    (hln : (l.nbr? ln.peerid).map LdeNbr.view = some ln.view) :
    Same l (negotiate ln fn map l).2 := by
  refine negotiate_of (.refl l) (fun _ _ hi hl => hl.trans hi.receives.same) fun _ hsent uid st f => ?_
  refine .sendAgain ?_ hln hsent
  exact (ldeSendLabelwithdraw_same _ _ _ l).trans (Installs.modPw (.refl _)).receives.same

theorem ldeReqDelSent_receives (peerid : UInt32) (fec : Fec) (l : Lib) :
    Receives l (ldeReqDelSent peerid fec l) :=
  .modNbr (.refl l) fun _ => rfl

theorem ldeCheckMapping_same (hln : l.nbr? peerid = some ln) :
    Same (fecAdd (ldeMap2fec map ln.id) (ldeMap2fec map ln.id).pwidLsrId l)
      (ldeCheckMapping map peerid l) := by
  obtain ⟨-, rfl⟩ := Lib.peerid_of_nbr? hln
  simp only [ldeCheckMapping, hln]
  generalize hadd : fecAdd (ldeMap2fec map ln.id) (ldeMap2fec map ln.id).pwidLsrId l = l₁
  have hln₁ : l₁.nbr? ln.peerid = some ln := by rw [← hadd]; exact hln
  split
  · exact .refl l₁
  · rename_i fn _
    have hreq := (ldeReqDelSent_receives ln.peerid (ldeMap2fec map ln.id) l₁).same
    have hneg := hreq.trans (negotiate_same fn map (by rw [hreq.nbr?, hln₁, Option.map_some]))
    split
    · exact hneg
    · exact hneg.trans (acceptMapping_receives _ _ _ _ _).same

theorem ldeCheckMapping_keeps (map : Map) (peerid : UInt32) (l : Lib) :
    Keeps l (ldeCheckMapping map peerid l) := by
  cases hln : l.nbr? peerid with
  | none =>
    simp only [ldeCheckMapping, hln]
    exact .refl l
  | some ln => exact (fecAdd_keeps _ _ l).trans (ldeCheckMapping_same hln).keeps

/-! ## Messages about an LSP -/

/-- A label mapping for the LSP (root, ov). -/
structure MapFor (map : Map) (root : InAddr) (ov : UInt8) : Prop where
  type : map.type = .prefixElm
  family : map.fec.half = afIpv4
  root : map.fec.addr.v4 = root
  ov : map.fec.prefixlen = ov

section

variable {root : InAddr} {ov : UInt8}

theorem MapFor.fec (h : MapFor map root ov) (lsrId : InAddr) :
    ldeMap2fec map lsrId = .ipv4 root ov := by
  rw [← h.root, ← h.ov]
  simp [ldeMap2fec, h.type, h.family, afIpv4, afIpv6]

theorem MapFor.unknownAf (h : MapFor map root ov) : map.unknownAf = false := by
  simp [Map.unknownAf, h.family]

/-- The release of the label that a mapping for an LSP replaces. -/
def replacedRelease (ln : LdeNbr) (fec : Fec) (map : Map) : List Out :=
  match fecFind LdeMap.fec fec ln.recvMap with
  | some me =>
    if (me.map.label ≠ map.label ∧ (fecFind LdeReq.fec fec ln.sentReq).isSome = false) ∧
        ln.v4Enabled then
      [.releaseAdd ln.peerid { ldeFec2map fec with label := me.map.label },
        .releaseAddEnd ln.peerid]
    else []
  | none => []

theorem toPeers_ldeSendLabelrelease
    (hln : l.nbr? peerid = some ln) (hfec : fn.fec = .ipv4 root ov) :
    (ldeSendLabelrelease peerid fn label l).toPeers = l.toPeers ++
      if ln.v4Enabled then
        [.releaseAdd peerid { ldeFec2map fn.fec with label := label }, .releaseAddEnd peerid]
      else [] := by
  have hmap : l.fecMap fn = ldeFec2map fn.fec := by
    unfold Lib.fecMap
    cases l.pw? fn <;> simp [hfec, Fec.type]
  have hc : l.concerns ln fn = ln.v4Enabled := by simp [Lib.concerns, hfec]
  simp only [ldeSendLabelrelease, hln, hc, hmap]
  cases ln.v4Enabled with
  | true => simp [Lib.toPeers_emit, Out.peer?]
  | false => simp

theorem toPeers_recordRecv {fec : Fec} : (recordRecv ln fec map l).toPeers = l.toPeers := by
  unfold recordRecv
  split <;> rfl

theorem toPeers_acceptMapping {ln' : LdeNbr} {lre : Bool}
    (hln : l.nbr? ln.peerid = some ln') (hv4 : ln'.v4Enabled = ln.v4Enabled)
    (hfec : fn.fec = .ipv4 root ov) :
    (acceptMapping ln fn map lre l).toPeers = l.toPeers ++
      match fecFind LdeMap.fec fn.fec ln.recvMap with
      | some me =>
        if (me.map.label ≠ map.label ∧ lre = false) ∧ ln.v4Enabled then
          [.releaseAdd ln.peerid { ldeFec2map fn.fec with label := me.map.label },
            .releaseAddEnd ln.peerid]
        else []
      | none => [] := by
  have hinstall (l : Lib) : (recordRecv ln fn.fec map
      (l.eachNh fn.fec (installMapping ln map))).toPeers = l.toPeers := by
    rw [toPeers_recordRecv, (eachNh (installMapping_relabels ln map)).toPeers]
  unfold acceptMapping
  rw [hinstall]
  cases fecFind LdeMap.fec fn.fec ln.recvMap with
  | none => exact (append_nil _).symm
  | some me =>
    dsimp only
    by_cases hnew : me.map.label ≠ map.label ∧ lre = false
    · have hquiet : Relabels (ldeSendLabelrelease ln.peerid fn me.map.label l)
          (replaceMapping ln fn me l) := by
        refine .eachNh fun fn fnh l => ?_
        split
        · exact uninstallNh_relabels fn fnh l
        · exact .refl l
      rw [if_pos hnew, hquiet.toPeers, toPeers_ldeSendLabelrelease hln hfec, hv4]
      simp only [hnew, ne_eq, not_false_eq_true, true_and]
    · rw [if_neg hnew, if_neg fun h => hnew h.1, append_nil]

/-- What neighbours hear of a mapping for an LSP from `lde_check_mapping`. -/
theorem toPeers_ldeCheckMapping (hln : l.nbr? peerid = some ln) (hmap : MapFor map root ov) :
    (ldeCheckMapping map peerid l).toPeers =
      l.toPeers ++ replacedRelease ln (.ipv4 root ov) map := by
  obtain ⟨-, rfl⟩ := Lib.peerid_of_nbr? hln
  simp only [ldeCheckMapping, hln, hmap.fec]
  generalize hadd : fecAdd (.ipv4 root ov) (Fec.ipv4 root ov).pwidLsrId l = l₁
  have hout : l₁.toPeers = l.toPeers := by rw [← hadd]; rfl
  have hln₁ : l₁.nbr? ln.peerid = some ln := by rw [← hadd]; exact hln
  have hnode : (l₁.node? (.ipv4 root ov)).isSome := by
    rw [← hadd]
    exact node?_fecAdd _ _ l
  obtain ⟨fn, hfn⟩ := Option.isSome_iff_exists.mp hnode
  have hfec : fn.fec = .ipv4 root ov := (fecCompare_eq.mp (mem_of_find hfn).2).symm
  have hln₂ : (ldeReqDelSent ln.peerid (.ipv4 root ov) l₁).nbr? ln.peerid =
      some { ln with sentReq := fecRemove LdeReq.fec (.ipv4 root ov) ln.sentReq } := by
    rw [ldeReqDelSent, Lib.nbr?_modNbr _ _ (by intro; rfl), hln₁, Option.map_some]
  simp only [hfn, negotiate, hmap.type, reduceCtorEq, if_false, Bool.false_eq_true]
  rw [toPeers_acceptMapping hln₂ rfl hfec, hfec, ← hout]
  rfl

/-- The mapping message for an LSP, a pending request of the neighbour taken into account. -/
def LdeNbr.mldpMap (ln : LdeNbr) (fec : Fec) (label : UInt32) : Map :=
  let map := { ldeFec2map fec with label := label }
  match fecFind LdeReq.fec fec ln.recvReq with
  | some lre => { map with requestid := lre.msgId, flags := fMapReqId }
  | none => map

theorem LdeNbr.mldpMap_label (ln : LdeNbr) (fec : Fec) (label : UInt32) :
    (ln.mldpMap fec label).label = label := by
  unfold mldpMap
  cases fecFind LdeReq.fec fec ln.recvReq <;> rfl

theorem LdeNbr.mldpMap_for (ln : LdeNbr) (root : InAddr) (ov : UInt8) (label : UInt32) :
    MapFor (ln.mldpMap (.ipv4 root ov) label) root ov := by
  unfold mldpMap
  cases fecFind LdeReq.fec (.ipv4 root ov) ln.recvReq <;> exact ⟨rfl, rfl, rfl, rfl⟩

/-- What is sent from a temporary node for an LSP. -/
theorem toPeers_sendTemporary (label : UInt32) (prev : MapPrev) (hln : l.nbr? peerid = some ln) :
    (ldeSendLabelmapping peerid (temporaryNode (.ipv4 root ov) label) true prev l).toPeers =
      l.toPeers ++
        if ln.v4Enabled then
          [.mappingAdd peerid (ln.mldpMap (.ipv4 root ov) label), .mappingAddEnd peerid]
        else [] := by
  have hmap : l.labelmapping ln (temporaryNode (.ipv4 root ov) label) =
      ln.mldpMap (.ipv4 root ov) label := rfl
  cases hv4 : ln.v4Enabled with
  | true =>
    have hc : l.concerns ln (temporaryNode (.ipv4 root ov) label) = true := hv4
    rw [(ldeSendLabelmapping_eq true prev hln hc).2.2, hmap]
    rfl
  | false =>
    rw [ldeSendLabelmapping_of_not fun ln' hln' => ?_]
    · exact (append_nil _).symm
    · cases hln.symm.trans hln'
      exact hv4

def Out.mapping? : Out → Option (UInt32 × Map)
  | .mappingAdd peerid map => some (peerid, map)
  | _ => none

/-- The label mappings the current event has sent. -/
def Lib.mappings (l : Lib) : List (UInt32 × Map) := l.toPeers.filterMap Out.mapping?

theorem mappings_ldeCheckMapping (hln : l.nbr? peerid = some ln)
    (hmap : MapFor map root ov) : (ldeCheckMapping map peerid l).mappings = l.mappings := by
  have hnone : (replacedRelease ln (.ipv4 root ov) map).filterMap Out.mapping? = [] := by
    unfold replacedRelease
    split
    · split <;> rfl
    · rfl
  rw [Lib.mappings, toPeers_ldeCheckMapping hln hmap, filterMap_append, hnone,
    append_nil, Lib.mappings]

theorem mappings_sendTemporary (label : UInt32) (prev : MapPrev) (hln : l.nbr? peerid = some ln) :
    (ldeSendLabelmapping peerid (temporaryNode (.ipv4 root ov) label) true prev l).mappings =
      l.mappings ++ if ln.v4Enabled then [(peerid, ln.mldpMap (.ipv4 root ov) label)] else [] := by
  rw [Lib.mappings, toPeers_sendTemporary label prev hln, filterMap_append, Lib.mappings]
  cases ln.v4Enabled <;> rfl

end

/-! ## Requests, withdraws and releases -/

section

variable (map : Map) (peerid : UInt32) (fec : Fec) (l : Lib)

/-- A request is answered by a notification, or recorded and answered by a mapping. -/
theorem ldeCheckRequest_of (h : I l) (hnotify : ∀ o, I (l.emit o))
    (hsend : ∀ fec fn lre, l.node? fec = some fn →
      I (ldeSendLabelmapping peerid fn true .node (l.modNbr peerid fun ln' =>
        { ln' with recvReq := fecInsert LdeReq.fec lre ln'.recvReq }))) :
    I (ldeCheckRequest map peerid l) := by
  unfold ldeCheckRequest
  split
  · exact h
  dsimp only
  split
  · exact hnotify _
  rename_i hfn
  split
  · exact hnotify _
  split
  · exact hnotify _
  split
  · exact h
  · exact hsend _ _ _ hfn

theorem ldeCheckRequest_keeps : Keeps l (ldeCheckRequest map peerid l) := by
  refine ldeCheckRequest_of map peerid l (.refl l) (fun _ => .emit (.refl l)) fun _ _ _ _ => ?_
  refine .trans ?_ (ldeSendLabelmapping_keeps _ _ _ _ _)
  exact .modNbr (.refl l) fun _ => rfl

theorem ldeMapDelRecv_receives : Receives l (ldeMapDelRecv peerid fec l) :=
  .modNode (.modNbr (.refl l) fun _ => rfl) (fun _ => rfl) fun _ => rfl

theorem withdrawRecv_receives : Receives l (withdrawRecv map peerid fec l) := by
  unfold withdrawRecv
  split
  · split
    · exact ldeMapDelRecv_receives _ _ l
    · exact .refl l
  · exact .refl l

end

theorem uninstallMapping_relabels (ln : LdeNbr) (fn : FecNode) (fnh : FecNh) (l : Lib) :
    Relabels l (uninstallMapping ln fn fnh l) := by
  unfold uninstallMapping
  split
  · split
    · exact uninstallNh_relabels fn fnh l
    · exact .refl l
  · split
    · exact uninstallNh_relabels fn fnh l
    · exact .refl l

section

variable (map : Map) (peerid : UInt32) (l : Lib)

/-- A withdraw adds at most the node of its FEC; the rest is receiving. -/
theorem ldeCheckWithdraw_receives : Receives l (ldeCheckWithdraw map peerid l) ∨
      ∃ fec lsrIdView, Receives (fecAdd fec lsrIdView l) (ldeCheckWithdraw map peerid l) := by
  unfold ldeCheckWithdraw
  split
  · exact .inl (.refl l)
  · rename_i ln hln
    split
    · exact .inl (.refl l)
    · refine .inr ⟨ldeMap2fec map ln.id, (ldeMap2fec map ln.id).pwidLsrId, ?_⟩
      dsimp only
      split
      · exact .refl _
      · refine .trans ?_ (withdrawRecv_receives _ _ _ _)
        exact (eachNh (uninstallMapping_relabels _)).receives.trans
          (ldeSendLabelrelease_receives _ _ _ _)

theorem ldeCheckWithdraw_keeps : Keeps l (ldeCheckWithdraw map peerid l) := by
  rcases ldeCheckWithdraw_receives map peerid l with h | ⟨fec, lsrIdView, h⟩
  · exact h.keeps
  · exact (fecAdd_keeps fec lsrIdView l).trans h.keeps

theorem ldeCheckWithdrawWcard_receives : Receives l (ldeCheckWithdrawWcard map peerid l) :=
  (ldeSendLabelreleaseWcard_receives _ _ l).trans
    (.foldl _ fun l fec => withdrawRecv_receives map peerid fec l)

end

theorem releaseWdraw_same (map : Map) (peerid : UInt32) (fec : Fec) (l : Lib) :
    Same l (releaseWdraw map peerid fec l) := by
  unfold releaseWdraw
  split
  · exact .refl l
  · split
    · exact .modNbr (.refl l) fun _ => rfl
    · exact .refl l

theorem relink_keeps (peerid : UInt32) (fec : Fec) (prev : MapPrev) (l : Lib) :
    Keeps l (relink peerid fec prev l) :=
  ⟨by simp only [relink, map_map]; rfl, id⟩

/-! ## Routes, neighbours and the garbage collector -/

/-- A node with one more nexthop, which the kernel is told of. -/
def Lib.addNh (l : Lib) (fec : Fec) (fn : FecNode) (data : Option Nat) (fnh : FecNh) : Lib :=
  ldeSendChangeKlabel { fn with data := data } fnh
    (l.modNode fec fun fn => { fn with data := data, nexthops := fnh :: fn.nexthops })

section

variable (l : Lib) (fec : Fec) (fn : FecNode) (data : Option Nat) (fnh : FecNh)

theorem addNh_installs : Installs (l.modNode fec fun fn =>
    { fn with data := data, nexthops := fnh :: fn.nexthops }) (l.addNh fec fn data fnh) :=
  ldeSendChangeKlabel_installs _ _ _

theorem addNh_keeps : Keeps l (l.addNh fec fn data fnh) := by
  refine .trans (.modNode (.refl l) ?_) (addNh_installs l fec fn data fnh).receives.keeps
  exact fun _ => rfl

end

/-- A new route adds its node and a nexthop, and takes the mapping retained for it once more. -/
theorem ldeKernelInsert_of {fec : Fec} (af : Af)
    (nexthop : LdpdAddr) (priority : UInt8) (data : Option Nat) (hadd : I (fecAdd fec lsrIdView l))
    (hnh : ∀ fn data, I ((fecAdd fec lsrIdView l).addNh fec fn data ⟨af, nexthop, noLabel, priority⟩))
    (hmapping : ∀ map peerid l, I l → I (ldeCheckMapping map peerid l)) :
    I (ldeKernelInsert fec lsrIdView af nexthop priority data l) := by
  unfold ldeKernelInsert
  dsimp only
  split
  · exact hadd
  · split
    · exact hadd
    · split
      · exact hnh _ _
      · split
        · exact hnh _ _
        · exact hmapping _ _ _ (hnh _ _)

theorem ldeKernelInsert_keeps {fec : Fec} {data : Option Nat} :
    Keeps l (ldeKernelInsert fec lsrIdView af nexthop priority data l) := by
  have hadd := fecAdd_keeps fec lsrIdView l
  refine ldeKernelInsert_of af nexthop priority data hadd (fun fn data => ?_) fun map peerid l hl => ?_
  · exact hadd.trans (addNh_keeps _ fec fn data _)
  · exact hl.trans (ldeCheckMapping_keeps map peerid l)

theorem ldeKernelRemove_keeps {fec : Fec}
    : Keeps l (ldeKernelRemove fec af nexthop priority l) := by
  unfold ldeKernelRemove
  split
  · exact .refl l
  · split
    · exact .refl l
    · dsimp only
      have hdel (fn : FecNode) (fnh : FecNh) (nhs : List FecNh) :
          Keeps l ((ldeSendDeleteKlabel fn fnh l).modNode fec fun n => { n with nexthops := nhs }) :=
        .modNode (ldeSendDeleteKlabel_installs fn fnh l).receives.keeps fun _ => rfl
      split
      · refine .modNode ?_ fun _ => rfl
        exact (hdel _ _ _).trans (ldeSendLabelwithdrawAll_same _ _).keeps
      · exact hdel _ _ _

theorem l2vpnPwInit_keeps : Keeps l (l2vpnPwInit pw l) := by
  refine .trans ?_ ldeKernelInsert_keeps
  exact ⟨rfl, id⟩

theorem l2vpnPwExit_keeps : Keeps l (l2vpnPwExit uid l) := by
  unfold l2vpnPwExit
  split
  · exact .refl l
  · exact (ldeKernelRemove_keeps).trans ⟨rfl, id⟩

theorem l2vpnRecvPwStatus_installs (ln : LdeNbr) (nm : NotifyMsg) (l : Lib) :
    Installs l (l2vpnRecvPwStatus ln nm l) := by
  unfold l2vpnRecvPwStatus
  split
  · exact .refl l
  · split
    · exact .refl l
    · split
      · split
        · exact .refl l
        · exact (Installs.modPw (.refl l)).trans setKpwlabel_installs
      · exact .refl l

theorem fecSnap_of (peerid : UInt32) (h : I l) (hemit : ∀ l o, I l → I (l.emit o))
    (hsend : ∀ l' fn, fn ∈ l.ft → I l' → I (ldeSendLabelmapping peerid fn false .node l')) :
    I (fecSnap peerid l) := by
  refine hemit _ _ (foldlRecOn _ _ h fun l' hl' fn hfn => ?_)
  split
  · exact hl'
  · exact hsend l' fn hfn hl'

theorem fecSnap_keeps (peerid : UInt32) (l : Lib) : Keeps l (fecSnap peerid l) :=
  fecSnap_of _ (.refl l) (fun _ _ => .emit) fun _ _ _ hl =>
    hl.trans (ldeSendLabelmapping_keeps _ _ _ _ _)

/-- What the messages and the new labels of the change keep is kept by the change. -/
theorem ldeChangeEgressLabel_of (af : Af) (expnull : Bool) (h : I l)
    (hend : ∀ l peerid, I l → I (l.emit (.mappingAddEnd peerid)))
    (hwcard : ∀ l peerid label, I l → I (ldeSendLabelwithdrawWcard peerid label l))
    (hnode : ∀ l₁ l peerid label, ∀ fn ∈ l₁.ft, fn.localLabel ≤ mplsLabelReservedMax → I l₁ → I l →
      I (ldeSendLabelmapping peerid { fn with localLabel := label } false .node
        (l.modNode fn.fec fun fn => { fn with localLabel := label }))) :
    I (ldeChangeEgressLabel af expnull l) := by
  refine foldlRecOn _ _ h fun l hl ln _ => hend _ _ ?_
  have hwithdrawn : I (withdrawEgress expnull ln l) := by
    unfold withdrawEgress
    dsimp only
    repeat' split
    all_goals simp only [hwcard, hl]
  refine foldlRecOn _ _ hwithdrawn fun l' hl' fn hfn => ?_
  unfold advertiseEgress
  dsimp only
  split
  · exact hl'
  · rename_i hreserved
    rw [not_or, UInt32.not_lt] at hreserved
    exact hnode _ _ _ _ fn hfn hreserved.1 hwithdrawn hl'

theorem uninstallNbr_relabels (ln : LdeNbr) (fn : FecNode) (fnh : FecNh) (l : Lib) :
    Relabels l (uninstallNbr ln fn fnh l) := by
  unfold uninstallNbr
  split
  · split
    · refine .trans ?_ (uninstallNh_relabels fn fnh _)
      split
      · exact .modPw (.refl l)
      · exact .refl l
    · exact .refl l
  · split
    · exact uninstallNh_relabels fn fnh l
    · exact .refl l

theorem freeRecvMaps_receives (ln : LdeNbr) (l : Lib) : Receives l (freeRecvMaps ln l) :=
  (foldl _ fun _ _ => eachNh (uninstallNbr_relabels ln)).receives.trans
    (.foldl _ fun l fec => ldeMapDelRecv_receives ln.peerid fec l)

theorem ldeGcTimer_keeps : Keeps l (ldeGcTimer l) := ⟨rfl, fun h => h.filter _⟩

theorem ldeDispatchParent_keeps (e : ParentEvent) (l : Lib) : Keeps l (ldeDispatchParent e l) := by
  cases e with
  | networkAdd => exact ldeKernelInsert_keeps
  | networkDel => exact ldeKernelRemove_keeps
  | pwInit pw => exact l2vpnPwInit_keeps
  | pwExit uid => exact l2vpnPwExit_keeps
  | egressLabel af expnull =>
    refine ldeChangeEgressLabel_of af expnull (.refl l) (fun _ _ => .emit) ?_ ?_
    · exact fun _ _ _ hl => hl.trans (ldeSendLabelwithdrawWcard_same _ _ _).keeps
    · intro _ _ _ _ _ _ _ _ hl
      refine .trans ?_ (ldeSendLabelmapping_keeps _ _ _ _ _)
      exact hl.modNode fun _ => rfl
  | gcTimer => exact ldeGcTimer_keeps

end Mp2mp.Lde
