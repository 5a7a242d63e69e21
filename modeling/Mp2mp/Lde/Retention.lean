import Mp2mp.Lde.Invariants

/-!
# Liberal label retention

What the engine retains of received label mappings, as functions: the map each
neighbour has sent for a FEC, the addresses that are a neighbour's, the nexthops of
a route and the neighbours a node lists as downstream.  `Lib.retained` reads this
off the label information base, and each function of `lde_lib.c` is an operation
on it: it relabels the nexthops a neighbour serves, records a map or forgets it.

Pseudowires have no nexthop here; their labels are those of `l2vpn.c`.
-/

namespace Mp2mp.Lde

open Kit Ldpd List Option Table FecNode

variable {fec g : Fec} {label peerid : UInt32} {ln : LdeNbr} {p : FecNh → Bool}
  {f : FecNode → FecNode} {body : FecNode → FecNh → Lib → Lib} {fn : FecNode} {β : Type}
  {l : Lib} {a : Retained}

/-! ## The abstract state -/

/-- What is retained of the mappings that were received. -/
@[ext]
structure Retained where
  recv : UInt32 → Fec → Option Map
  serves : UInt32 → Af → LdpdAddr → Bool
  nexthops : Fec → List FecNh
  downstream : Fec → List UInt32

open Retained

/-- An IPv4 or IPv6 FEC. -/
def isRoute : Fec → Bool
  | .pwid .. => false
  | _ => true

def FecNh.withLabel (label : UInt32) (nh : FecNh) : FecNh := { nh with remoteLabel := label }

namespace Retained

/-- Set the remote label of some nexthops of a FEC. -/
def relabelIf (fec : Fec) (p : FecNh → Bool) (label : UInt32) (a : Retained) : Retained :=
  { a with
    nexthops := fun g =>
      if g = fec then (a.nexthops g).map fun nh => if p nh then nh.withLabel label else nh
      else a.nexthops g }

/-- Set the remote label of the nexthops of a FEC that belong to a neighbour. -/
def relabel (peerid : UInt32) (fec : Fec) (label : UInt32) (a : Retained) : Retained :=
  a.relabelIf fec (fun nh => a.serves peerid nh.af nh.nexthop) label

def reroute (fec : Fec) (f : List FecNh → List FecNh) (a : Retained) : Retained :=
  { a with nexthops := fun g => if g = fec then f (a.nexthops g) else a.nexthops g }

def record (peerid : UInt32) (fec : Fec) (map : Map) (a : Retained) : Retained :=
  { a with
    recv := fun p g => if p = peerid ∧ g = fec then some map else a.recv p g
    downstream := fun g =>
      if g = fec ∧ (a.recv peerid fec).isNone then peerid :: a.downstream g else a.downstream g }

def forget (peerid : UInt32) (fec : Fec) (a : Retained) : Retained :=
  { a with
    recv := fun p g => if p = peerid ∧ g = fec then none else a.recv p g
    downstream := fun g => if g = fec then (a.downstream g).erase peerid else a.downstream g }

/-- Forget the map of a neighbour for a FEC if a withdraw with the label is for it. -/
def withdraw (peerid : UInt32) (label : UInt32) (a : Retained) (fec : Fec) : Retained :=
  match a.recv peerid fec with
  | some map => if label = noLabel ∨ label = map.label then a.forget peerid fec else a
  | none => a

theorem relabelIf_of_nil (h : a.nexthops fec = []) : a.relabelIf fec p label = a := by
  refine Retained.ext rfl rfl (funext fun g => ?_) rfl
  simp only [relabelIf]
  split
  · rename_i hg
    rw [hg, h, map_nil]
  · rfl

/-- Relabelling twice is relabelling once, with the label of the second time. -/
theorem relabelIf_relabelIf {q : FecNh → Bool} {label' : UInt32}
    (hq : ∀ nh, q (nh.withLabel label) = q nh) (hpq : ∀ nh, p nh → label ≠ label' → q nh) :
    (a.relabelIf fec p label).relabelIf fec q label' =
      a.relabelIf fec (fun nh => p nh || q nh) label' := by
  refine Retained.ext rfl rfl (funext fun g => ?_) rfl
  simp only [relabelIf]
  split
  · rw [List.map_map]
    refine map_congr_left fun nh _ => ?_
    simp only [Function.comp_apply]
    by_cases hp : p nh
    · simp only [hp, if_true, hq, Bool.true_or]
      split
      · rfl
      · rename_i hnot
        by_cases hlabel : label = label'
        · rw [hlabel]
        · exact absurd (hpq nh hp hlabel) hnot
    · simp only [hp, Bool.false_eq_true, if_false, Bool.false_or]
  · rfl

end Retained

/-- What a label information base retains. -/
def Lib.retained (l : Lib) : Retained where
  recv peerid fec := (l.nbr? peerid).bind fun ln =>
    (fecFind LdeMap.fec fec ln.recvMap).map LdeMap.map
  serves peerid af addr := (l.nbr? peerid).any fun ln => (ldeAddressFind ln af addr).isSome
  nexthops fec := if isRoute fec then (l.node? fec).elim [] FecNode.nexthops else []
  downstream fec := (l.node? fec).elim [] FecNode.downstream

variable {l' : Lib}

/-! ## Rewriting one neighbour or one node -/

theorem Lib.nbr?_modNbr_eq {f : LdeNbr → LdeNbr} (l : Lib) (peerid q : UInt32)
    (hf : ∀ ln, (f ln).peerid = ln.peerid) :
    (l.modNbr peerid f).nbr? q = if q = peerid then (l.nbr? peerid).map f else l.nbr? q := by
  split
  · rename_i hq
    rw [hq]
    exact l.nbr?_modNbr peerid hf
  · rename_i hq
    refine find_modify_of_ne hf (fun ln h h' => hq ?_) _
    exact (ldeNbrCompare_eq.mp h').trans (ldeNbrCompare_eq.mp h).symm

theorem Lib.node?_modNode_eq (l : Lib) (fec g : Fec) (hf : ∀ fn, (f fn).fec = fn.fec) :
    (l.modNode fec f).node? g = if g = fec then (l.node? fec).map f else l.node? g := by
  split
  · rename_i hg
    rw [hg]
    exact find_modify hf _ _
  · rename_i hg
    refine find_modify_of_ne hf (fun fn h h' => hg ?_) _
    exact (fecCompare_eq.mp h').trans (fecCompare_eq.mp h).symm

theorem Lib.fec_of_node? (h : l.node? fec = some fn) : fn ∈ l.ft ∧ fn.fec = fec := by
  obtain ⟨hmem, heq⟩ := mem_of_find h
  exact ⟨hmem, (fecCompare_eq.mp heq).symm⟩

/-- Only the neighbours and the FEC nodes matter to what is retained. -/
theorem Installs.retained (h : Installs l l') : l'.retained = l.retained := by
  simp only [Lib.retained, Lib.nbr?, Lib.node?, h.nbrs, h.ft]

theorem retained_modPw {uid : Nat} (f : L2vpnPw → L2vpnPw) :
    (l.modPw uid f).retained = l.retained := rfl

theorem retained_modNbr {f : LdeNbr → LdeNbr} (same : ∀ ln, (f ln).peerid = ln.peerid ∧
      (f ln).recvMap = ln.recvMap ∧ (f ln).addrList = ln.addrList) :
    (l.modNbr peerid f).retained = l.retained := by
  refine Retained.ext (funext₂ fun q g => ?_) (funext₃ fun q af addr => ?_) rfl rfl
  all_goals
    simp only [Lib.retained, l.nbr?_modNbr_eq peerid q fun ln => (same ln).1]
    split
    · rename_i hq
      subst hq
      cases l.nbr? q with
      | none => rfl
      | some ln => simp only [map_some, bind_some, any_some, ldeAddressFind, (same ln).2]
    · rfl

theorem elim_modNode {view : FecNode → List β}
    (change : List β → List β) (hfec : ∀ fn, (f fn).fec = fn.fec)
    (hview : ∀ fn, view (f fn) = change (view fn)) (hnode : change [] = [] ∨ (l.node? fec).isSome) :
    ((l.modNode fec f).node? g).elim [] view =
      if g = fec then change ((l.node? g).elim [] view) else (l.node? g).elim [] view := by
  rw [l.node?_modNode_eq fec g hfec]
  split
  · rename_i hg
    subst hg
    cases hfn : l.node? g with
    | none =>
      rw [hfn] at hnode
      exact (hnode.resolve_right (by simp)).symm
    | some fn => exact hview fn
  · rfl

theorem nexthops_modNode (change : List FecNh → List FecNh) (hfec : ∀ fn, (f fn).fec = fn.fec)
    (hnexthops : ∀ fn, (f fn).nexthops = change fn.nexthops)
    (hnode : change [] = [] ∨ (l.node? fec).isSome) :
    (l.modNode fec f).retained.nexthops g =
      if g = fec ∧ isRoute fec then change (l.retained.nexthops g) else l.retained.nexthops g := by
  have helim := elim_modNode change hfec hnexthops hnode (g := g)
  by_cases hg : g = fec
  · subst hg
    cases hroute : isRoute g with
    | false => simp [Lib.retained, hroute]
    | true => simpa [Lib.retained, hroute] using helim
  · rw [if_neg hg] at helim
    simp [Lib.retained, helim, hg]

theorem retained_modNode (same : ∀ fn, (f fn).fec = fn.fec ∧ (f fn).nexthops = fn.nexthops ∧
      (f fn).downstream = fn.downstream) : (l.modNode fec f).retained = l.retained := by
  refine Retained.ext rfl rfl (funext fun g => ?_) (funext fun g => ?_)
  · rw [nexthops_modNode id (fun fn => (same fn).1) (fun fn => (same fn).2.1) (.inl rfl)]
    exact ite_self _
  · refine (elim_modNode id (fun fn => (same fn).1) (fun fn => (same fn).2.2) (.inl rfl)).trans ?_
    exact ite_self _

theorem retained_modNh {fnh : FecNh} : (l.modNh fec fnh (FecNh.withLabel label)).retained =
      l.retained.relabelIf fec (fun nh => nh.key = fnh.key) label := by
  let change : List FecNh → List FecNh := List.map fun nh =>
    if nh.af = fnh.af ∧ nh.nexthop = fnh.nexthop ∧ nh.priority = fnh.priority then
      nh.withLabel label
    else nh
  have hchange (nhs : List FecNh) :
      change nhs = nhs.map fun nh => if nh.key = fnh.key then nh.withLabel label else nh := by
    simp only [change, FecNh.key, Prod.mk.injEq]
  unfold Lib.modNh
  refine Retained.ext rfl rfl (funext fun g => ?_) (funext fun g => ?_)
  · rw [nexthops_modNode change ?_ ?_ (.inl rfl), hchange]
    rotate_left
    · exact fun _ => rfl
    · exact fun _ => rfl
    simp only [relabelIf, decide_eq_true_eq]
    by_cases hg : g = fec
    · subst hg
      cases hroute : isRoute g with
      | true => simp only [and_self, if_true]
      | false => simp [Lib.retained, hroute]
    · rw [if_neg fun h => hg h.1, if_neg hg]
  · exact (elim_modNode id (by intro; rfl) (by intro; rfl) (.inl rfl)).trans (ite_self _)

/-! ## Messages -/

section

variable (fn : FecNode) (fnh : FecNh) (l : Lib)

theorem retained_ldeSendChangeKlabel : (ldeSendChangeKlabel fn fnh l).retained = l.retained :=
  (ldeSendChangeKlabel_installs fn fnh l).retained

theorem retained_ldeSendDeleteKlabel : (ldeSendDeleteKlabel fn fnh l).retained = l.retained :=
  (ldeSendDeleteKlabel_installs fn fnh l).retained

theorem retained_uninstallNh : (uninstallNh fn fnh l).retained =
      l.retained.relabelIf fn.fec (fun nh => nh.key = fnh.key) noLabel := by
  rw [← retained_ldeSendDeleteKlabel fn fnh l]
  exact retained_modNh

end

theorem retained_installNh {fnh : FecNh} : (installNh label fn fnh l).retained =
      l.retained.relabelIf fn.fec (fun nh => nh.key = fnh.key) label :=
  (retained_ldeSendChangeKlabel _ _ _).trans retained_modNh

theorem retained_recordSent {ln : LdeNbr} {map : Map}
    {prev : MapPrev} : (recordSent peerid ln fec map prev l).retained = l.retained := by
  unfold recordSent
  split
  · refine Eq.trans (retained_modNode fun _ => ⟨rfl, rfl, rfl⟩) ?_
    exact retained_modNbr fun _ => ⟨rfl, rfl, rfl⟩
  · exact retained_modNbr fun _ => ⟨rfl, rfl, rfl⟩

section

variable (peerid : UInt32) (fn : FecNode)

theorem retained_ldeSendLabelmapping (single : Bool) (prev : MapPrev) (l : Lib) :
    (ldeSendLabelmapping peerid fn single prev l).retained = l.retained := by
  unfold ldeSendLabelmapping
  split
  · rfl
  · split
    · rw [retained_recordSent]
      cases single <;> exact retained_modNbr fun _ => ⟨rfl, rfl, rfl⟩
    · rfl

theorem retained_ldeSendLabelwithdraw (st : Option MapStatus)
    (l : Lib) : (ldeSendLabelwithdraw peerid fn st l).retained = l.retained := by
  unfold ldeSendLabelwithdraw
  split
  · rfl
  · split
    · exact retained_modNbr fun _ => ⟨rfl, rfl, rfl⟩
    · rfl

theorem retained_ldeSendLabelrelease (label : UInt32) (l : Lib) :
    (ldeSendLabelrelease peerid fn label l).retained = l.retained := by
  unfold ldeSendLabelrelease
  split
  · rfl
  · split <;> rfl

/-! ## Walks over the nexthops -/

end

theorem retained_eachNh (hp : ∀ nh nh' : FecNh, nh.key = nh'.key → p nh = p nh')
    (hbody : ∀ fn fnh l, fn.fec = fec → (body fn fnh l).retained =
      if p fnh then l.retained.relabelIf fec (fun nh => nh.key = fnh.key) label else l.retained) :
    (l.eachNh fec body).retained = l.retained.relabelIf fec p label := by
  -- the nexthops that have been walked over and meet the condition are relabelled
  have hfold (fn : FecNode) (hfn : fn.fec = fec) (fnhs : List FecNh) (l : Lib) :
      (fnhs.foldl (fun l fnh => body fn fnh l) l).retained =
        l.retained.relabelIf fec (fun nh => fnhs.any fun fnh => p fnh && nh.key = fnh.key) label := by
    induction fnhs generalizing l with
    | nil =>
      refine Retained.ext rfl rfl (funext fun g => ?_) rfl
      simp [Retained.relabelIf]
    | cons fnh fnhs ih =>
      rw [foldl_cons, ih, hbody fn fnh l hfn]
      cases hfnh : p fnh with
      | true =>
        simp only [if_true, any_cons, hfnh, Bool.true_and]
        exact relabelIf_relabelIf (fun _ => rfl) fun _ _ h => absurd rfl h
      | false => simp only [Bool.false_eq_true, if_false, any_cons, hfnh, Bool.false_and,
          Bool.false_or]
  unfold Lib.eachNh
  cases hfn : l.node? fec with
  | none =>
    have hnil : l.retained.nexthops fec = [] := by simp [Lib.retained, hfn]
    rw [relabelIf_of_nil hnil]
  | some fn =>
    rw [hfold fn (Lib.fec_of_node? hfn).2]
    refine Retained.ext rfl rfl (funext fun g => ?_) rfl
    simp only [Retained.relabelIf]
    split
    · rename_i hg
      subst hg
      refine map_congr_left fun nh hnh => ?_
      have hany : (fn.nexthops.any fun fnh => p fnh && nh.key = fnh.key) = p nh := by
        rw [Bool.eq_iff_iff, List.any_eq_true]
        constructor
        · rintro ⟨fnh, -, h⟩
          rw [Bool.and_eq_true, decide_eq_true_iff] at h
          rw [hp nh fnh h.2]
          exact h.1
        · intro h
          refine ⟨nh, ?_, by simp [h]⟩
          simp only [Lib.retained, hfn, elim_some] at hnh
          split at hnh
          · exact hnh
          · cases hnh
      simp only [hany]
    · rfl

/-- The neighbour has the received maps and the addresses of `ln`. -/
structure ReadsAs (ln : LdeNbr) (a : Retained) : Prop where
  recv : ∀ g, a.recv ln.peerid g = (fecFind LdeMap.fec g ln.recvMap).map LdeMap.map
  serves : ∀ af addr, a.serves ln.peerid af addr = (ldeAddressFind ln af addr).isSome

theorem ReadsAs.of_nbr? (h : l.nbr? ln.peerid = some ln) : ReadsAs ln l.retained := by
  refine ⟨fun g => ?_, fun af addr => ?_⟩
  · simp only [Lib.retained, h, bind_some]
  · simp only [Lib.retained, h, any_some]

theorem nexthops_of_not_route (h : isRoute fec = false) (l : Lib) :
    l.retained.nexthops fec = [] := by
  simp [Lib.retained, h]

/-- A walk over the nexthops that relabels those of a neighbour; a walk over the
nexthop of a pseudowire changes nothing that is retained. -/
theorem retained_walk (hreads : ReadsAs ln l.retained)
    (hroute : isRoute fec → ∀ fn fnh l, fn.fec = fec → (body fn fnh l).retained =
      if (ldeAddressFind ln fnh.af fnh.nexthop).isSome then
        l.retained.relabelIf fec (fun nh => nh.key = fnh.key) label
      else l.retained)
    (hpw : isRoute fec = false → ∀ fn fnh l, fn.fec = fec → (body fn fnh l).retained = l.retained) :
    (l.eachNh fec body).retained = l.retained.relabel ln.peerid fec label := by
  simp only [relabel, hreads.serves]
  refine retained_eachNh (fun nh nh' hkey => ?_) fun fn fnh l' hfn => ?_
  · simp only [FecNh.key, Prod.mk.injEq] at hkey
    rw [hkey.1, hkey.2.1]
  · cases h : isRoute fec with
    | true => exact hroute h fn fnh l' hfn
    | false =>
      rw [hpw h fn fnh l' hfn, relabelIf_of_nil (nexthops_of_not_route h l'), ite_self]

/-! ## Received mappings -/

theorem node?_fecAdd_eq (fec g : Fec) (lsrIdView : InAddr) (hs : l.Sorted) :
    (fecAdd fec lsrIdView l).node? g =
      if g = fec then some ((l.node? fec).getD ⟨fec, lsrIdView, [], [], [], noLabel, none⟩)
      else l.node? g := by
  let fn : FecNode := ⟨fec, lsrIdView, [], [], [], noLabel, none⟩
  split
  · rename_i hg
    subst hg
    cases hfn : l.node? g with
    | none => exact find_insert_self (a := fn) hfn
    | some fn' =>
      have hsome : (find fecCompare fec fn.fec l.ft).isSome := by
        rw [← Lib.node?, hfn]
        rfl
      have hft : (fecAdd g lsrIdView l).ft = l.ft := hs.insert_of_find hsome
      rw [Lib.node?, hft]
      exact hfn
  · rename_i hg
    refine find_insert_of_ne (a := fn) ?_ l.ft
    rw [Ne, fecCompare_eq]
    exact hg

theorem elim_fecAdd {f : FecNode → List β} (fec : Fec) (lsrIdView : InAddr)
    (hs : l.Sorted) (hf : f ⟨fec, lsrIdView, [], [], [], noLabel, none⟩ = []) (g : Fec) :
    ((fecAdd fec lsrIdView l).node? g).elim [] f = (l.node? g).elim [] f := by
  rw [node?_fecAdd_eq fec g lsrIdView hs]
  split
  · rename_i hg
    subst hg
    cases l.node? g with
    | none => exact hf
    | some fn => rfl
  · rfl

section

variable (fec g : Fec) (map : Map) (prev : MapPrev) (t : List LdeMap)

theorem retained_fecAdd (lsrIdView : InAddr) (hs : l.Sorted) :
    (fecAdd fec lsrIdView l).retained = l.retained := by
  refine Retained.ext rfl rfl (funext fun g => ?_) (funext fun g => ?_)
  all_goals
    simp only [Lib.retained]
    rw [elim_fecAdd fec lsrIdView hs rfl]

theorem fecFind_recordMap_eq : fecFind LdeMap.fec g (recordMap fec map prev t) = if g = fec then
        some ((fecFind LdeMap.fec fec t).elim ⟨fec, map, prev⟩ fun me => { me with map := map })
      else fecFind LdeMap.fec g t := by
  unfold recordMap
  split
  · rename_i me hme
    split
    · rename_i hg
      subst hg
      simp only [fecFind] at hme ⊢
      rw [find_modify (by intro; rfl), hme]
      rfl
    · rename_i hg
      simp only [fecFind]
      rw [find_modify_of_ne (by intro; rfl) fun x h h' => ?_]
      exact hg ((fecCompare_eq.mp h').trans (fecCompare_eq.mp h).symm)
  · rename_i hnone
    let me : LdeMap := ⟨fec, map, prev⟩
    split
    · rename_i hg
      subst hg
      rw [hnone]
      exact find_insert_self (a := me) hnone
    · rename_i hg
      refine find_insert_of_ne (a := me) ?_ t
      rw [Ne, fecCompare_eq]
      exact hg

/-- The map that is found is the one recorded last. -/
theorem map_recordMap : (fecFind LdeMap.fec g (recordMap fec map prev t)).map LdeMap.map =
      if g = fec then some map else (fecFind LdeMap.fec g t).map LdeMap.map := by
  rw [fecFind_recordMap_eq]
  split
  · cases fecFind LdeMap.fec fec t <;> rfl
  · rfl

end

theorem retained_recordRecv {map : Map} (hreads : ReadsAs ln l.retained)
    (hln : (l.nbr? ln.peerid).isSome) (hnode : (l.node? fec).isSome) :
    (recordRecv ln fec map l).retained = l.retained.record ln.peerid fec map := by
  let l₁ := l.modNbr ln.peerid fun ln => { ln with recvMap := recordMap fec map .node ln.recvMap }
  obtain ⟨ln', hln'⟩ := isSome_iff_exists.mp hln
  have hnbr (q : UInt32) : l₁.nbr? q = if q = ln.peerid then
      some { ln' with recvMap := recordMap fec map .node ln'.recvMap } else l.nbr? q := by
    refine (l.nbr?_modNbr_eq ln.peerid q ?_).trans ?_
    · exact fun _ => rfl
    · rw [hln']
      rfl
  have hrecv : l₁.retained.recv = (l.retained.record ln.peerid fec map).recv := by
    funext q g
    simp only [Lib.retained, hnbr, record]
    by_cases hq : q = ln.peerid
    · subst hq
      simp only [if_true, bind_some, map_recordMap, hln', true_and]
    · simp only [hq, false_and, if_false]
  have hserves : l₁.retained.serves = l.retained.serves := by
    funext q af addr
    simp only [Lib.retained, hnbr]
    split
    · rename_i hq
      rw [hq, hln']
      rfl
    · rfl
  have hnone : (fecFind LdeMap.fec fec ln.recvMap).isNone = (l.retained.recv ln.peerid fec).isNone := by
    rw [hreads.recv, isNone_map]
  unfold recordRecv
  rw [hnone]
  dsimp only
  split
  · rename_i h
    refine Retained.ext hrecv hserves (funext fun g => ?_) (funext fun g => ?_)
    · rw [nexthops_modNode id ?_ ?_ (.inl rfl)]
      · exact ite_self _
      · exact fun _ => rfl
      · exact fun _ => rfl
    · refine (elim_modNode (ln.peerid :: ·) (by intro; rfl) (by intro; rfl) (.inr hnode)).trans ?_
      simp only [record, h, and_true]
      rfl
  · rename_i h
    refine Retained.ext hrecv hserves rfl (funext fun g => ?_)
    simp only [Retained.record, h, Bool.false_eq_true, and_false, if_false]
    rfl

theorem retained_negotiate (ln : LdeNbr) (fn : FecNode) (map : Map) (l : Lib) :
    (negotiate ln fn map l).2.retained = l.retained := by
  refine negotiate_of (I := fun l' => l'.retained = l.retained) rfl
    (fun _ _ hi hl => hi.retained.trans hl) fun _ _ uid st f => ?_
  rw [retained_ldeSendLabelmapping, retained_modPw, retained_ldeSendLabelwithdraw]

theorem retained_install (fec : Fec) (map : Map) (hreads : ReadsAs ln l.retained) :
    (l.eachNh fec (installMapping ln map)).retained = l.retained.relabel ln.peerid fec map.label := by
  refine retained_walk hreads (fun hroute fn fnh l hfn => ?_) fun hpw fn fnh l hfn => ?_
  · subst hfn
    unfold installMapping
    split
    · rename_i heq
      rw [heq] at hroute
      cases hroute
    · split
      · exact retained_installNh
      · rfl
  · subst hfn
    unfold installMapping
    split
    · split
      · rfl
      · have hmod (l : Lib) : (l.modNh fn.fec fnh (FecNh.withLabel map.label)).retained =
            l.retained := by
          rw [retained_modNh, relabelIf_of_nil (nexthops_of_not_route hpw l)]
        dsimp only
        split
        · exact (retained_ldeSendChangeKlabel _ _ _).trans (hmod _)
        · exact hmod _
    · rename_i hne
      cases hfec : fn.fec with
      | pwid t i r => exact absurd hfec (hne t i r)
      | _ =>
        rw [hfec] at hpw
        cases hpw

theorem retained_replaceMapping (me : LdeMap) (hreads : ReadsAs ln l.retained) :
    (replaceMapping ln fn me l).retained = l.retained.relabel ln.peerid fn.fec noLabel := by
  have hrelease := retained_ldeSendLabelrelease ln.peerid fn me.map.label l
  have hwalk (fn' : FecNode) (fnh : FecNh) (l : Lib) (hfn : fn'.fec = fn.fec) :
      (if (ldeAddressFind ln fnh.af fnh.nexthop).isSome then uninstallNh fn' fnh l else l).retained =
        if (ldeAddressFind ln fnh.af fnh.nexthop).isSome then
          l.retained.relabelIf fn.fec (fun nh => nh.key = fnh.key) noLabel
        else l.retained := by
    split
    · rw [retained_uninstallNh, hfn]
    · rfl
  rw [← hrelease] at hreads ⊢
  refine retained_walk hreads (fun _ => hwalk) fun hpw fn' fnh l' hfn => ?_
  rw [hwalk fn' fnh l' hfn, relabelIf_of_nil (nexthops_of_not_route hpw l'), ite_self]

theorem Retained.relabel_relabel {label label' : UInt32} :
    (a.relabel peerid fec label).relabel peerid fec label' = a.relabel peerid fec label' := by
  refine (relabelIf_relabelIf (fun _ => rfl) fun _ h _ => h).trans ?_
  simp only [Bool.or_self]
  rfl

theorem ReadsAs.relabel (h : ReadsAs ln a) (fec : Fec)
    (label : UInt32) : ReadsAs ln (a.relabel ln.peerid fec label) :=
  ⟨h.recv, h.serves⟩

theorem node?_isSome_congr (h : l'.ft.map route = l.ft.map route) (fec : Fec) :
    (l'.node? fec).isSome = (l.node? fec).isSome := by
  have hft : l'.ft.map FecNode.fec = l.ft.map FecNode.fec := by
    have hroute := congrArg (List.map Prod.fst) h
    rwa [List.map_map, List.map_map] at hroute
  have hview := find?_view hft fun g => fecCompare fec g == .eq
  have hsome := congrArg Option.isSome hview
  rwa [isSome_map, isSome_map] at hsome

theorem Same.nbr?_isSome (h : Same l l') (peerid : UInt32) :
    (l'.nbr? peerid).isSome = (l.nbr? peerid).isSome := by
  have hsome := congrArg Option.isSome (h.nbr? peerid)
  rwa [isSome_map, isSome_map] at hsome

theorem retained_acceptMapping (map : Map) (lre : Bool)
    (hreads : ReadsAs ln l.retained) (hln : (l.nbr? ln.peerid).isSome)
    (hnode : (l.node? fn.fec).isSome) :
    (acceptMapping ln fn map lre l).retained =
      (l.retained.relabel ln.peerid fn.fec map.label).record ln.peerid fn.fec map := by
  -- an earlier label is uninstalled first; the new one is then installed all the same
  have hreplaced (l₁ : Lib) (hsame : Same l l₁) (hl₁ : l₁.retained = l.retained ∨
      l₁.retained = l.retained.relabel ln.peerid fn.fec noLabel) :
      (recordRecv ln fn.fec map (l₁.eachNh fn.fec (installMapping ln map))).retained =
        (l.retained.relabel ln.peerid fn.fec map.label).record ln.peerid fn.fec map := by
    have hreads₁ : ReadsAs ln l₁.retained := by
      rcases hl₁ with hl₁ | hl₁ <;> rw [hl₁]
      · exact hreads
      · exact hreads.relabel _ _
    have hinstall := retained_install fn.fec map hreads₁
    have hsame' : Same l (l₁.eachNh fn.fec (installMapping ln map)) :=
      hsame.trans (Relabels.eachNh (installMapping_relabels ln map)).receives.same
    rw [retained_recordRecv]
    · rw [hinstall]
      rcases hl₁ with hl₁ | hl₁ <;> rw [hl₁]
      rw [relabel_relabel]
    · rw [hinstall]
      exact hreads₁.relabel _ _
    · rw [hsame'.nbr?_isSome]
      exact hln
    · rw [node?_isSome_congr hsame'.ft]
      exact hnode
  unfold acceptMapping
  dsimp only
  split
  · rename_i me _
    split
    · exact hreplaced _ (replaceMapping_receives ln fn me l).same
        (.inr (retained_replaceMapping me hreads))
    · exact hreplaced l (Same.refl l) (.inl rfl)
  · exact hreplaced l (Same.refl l) (.inl rfl)

/-- `lde_check_mapping` relabels the nexthops of the neighbour and records the map, unless it
ignores a mapping for a pseudowire. -/
theorem retained_ldeCheckMapping (map : Map) (hs : l.Sorted) (hln : l.nbr? peerid = some ln) :
    ∃ ignored : Bool, (isRoute (ldeMap2fec map ln.id) → ignored = false) ∧
      (ldeCheckMapping map peerid l).retained =
        if ignored then l.retained
        else (l.retained.relabel peerid (ldeMap2fec map ln.id) map.label).record peerid
          (ldeMap2fec map ln.id) map := by
  obtain ⟨-, rfl⟩ := Lib.peerid_of_nbr? hln
  generalize hfec : ldeMap2fec map ln.id = fec
  have hadd := retained_fecAdd fec fec.pwidLsrId hs
  have hln₁ : (fecAdd fec fec.pwidLsrId l).nbr? ln.peerid = some ln := hln
  obtain ⟨fn, hfn⟩ := isSome_iff_exists.mp (node?_fecAdd fec fec.pwidLsrId l)
  obtain ⟨-, hfnfec⟩ := Lib.fec_of_node? hfn
  have hreq := (ldeReqDelSent_receives ln.peerid fec (fecAdd fec fec.pwidLsrId l)).same
  have hreq' : (ldeReqDelSent ln.peerid fec (fecAdd fec fec.pwidLsrId l)).retained = l.retained :=
    Eq.trans (retained_modNbr fun _ => ⟨rfl, rfl, rfl⟩) hadd
  have hsame := hreq.trans (negotiate_same fn map (by rw [hreq.nbr?, hln₁, map_some]))
  refine ⟨(negotiate ln fn map (ldeReqDelSent ln.peerid fec (fecAdd fec fec.pwidLsrId l))).1,
    fun hroute => ?_, ?_⟩
  · unfold negotiate
    split
    · rename_i hpw
      rw [← hfec, ldeMap2fec, hpw] at hroute
      cases hroute
    · rfl
  · simp only [ldeCheckMapping, hln, hfec, hfn]
    split
    · exact (retained_negotiate _ _ _ _).trans hreq'
    · have hneg := (retained_negotiate ln fn map _).trans hreq'
      rw [retained_acceptMapping]
      · rw [hneg, hfnfec]
      · rw [hneg]
        exact ReadsAs.of_nbr? hln
      · rw [hsame.nbr?_isSome, hln₁]
        rfl
      · rw [node?_isSome_congr hsame.ft, hfnfec, hfn]
        rfl

/-! ## Withdraws -/

theorem fecFind_fecRemove {t : List LdeMap} : fecFind LdeMap.fec g (fecRemove LdeMap.fec fec t) =
      if g = fec then none else fecFind LdeMap.fec g t := by
  split
  · rename_i hg
    rw [hg]
    exact find_remove_self fec t
  · rename_i hg
    refine find_remove_of_ne (fun me h h' => hg ?_) t
    exact (fecCompare_eq.mp h').trans (fecCompare_eq.mp h).symm

theorem retained_ldeMapDelRecv (peerid : UInt32) (fec : Fec) (l : Lib) :
    (ldeMapDelRecv peerid fec l).retained = l.retained.forget peerid fec := by
  let l₁ := l.modNbr peerid fun ln => { ln with recvMap := fecRemove LdeMap.fec fec ln.recvMap }
  have hnbr (q : UInt32) : l₁.nbr? q = if q = peerid then
      (l.nbr? peerid).map fun ln => { ln with recvMap := fecRemove LdeMap.fec fec ln.recvMap }
      else l.nbr? q :=
    l.nbr?_modNbr_eq peerid q (by intro; rfl)
  unfold ldeMapDelRecv
  refine Retained.ext (funext₂ fun q g => ?_)
    (funext₃ fun q af addr => ?_) (funext fun g => ?_) (funext fun g => ?_)
  · show l₁.retained.recv q g = _
    simp only [Lib.retained, hnbr, Retained.forget]
    by_cases hq : q = peerid
    · subst hq
      simp only [if_true, true_and]
      cases l.nbr? q with
      | none => simp
      | some ln =>
        simp only [map_some, bind_some, fecFind_fecRemove]
        split <;> rfl
    · simp only [hq, false_and, if_false]
  · show l₁.retained.serves q af addr = _
    simp only [Lib.retained, hnbr, forget]
    split
    · rename_i hq
      rw [hq]
      cases l.nbr? peerid <;> rfl
    · rfl
  · rw [nexthops_modNode id ?_ ?_ (.inl rfl)]
    · exact ite_self _
    · exact fun _ => rfl
    · exact fun _ => rfl
  · exact elim_modNode (List.erase · peerid) (by intro; rfl) (by intro; rfl) (.inl rfl)

theorem retained_withdrawRecv (map : Map) (peerid : UInt32) (fec : Fec) (l : Lib) :
    (withdrawRecv map peerid fec l).retained = l.retained.withdraw peerid map.label fec := by
  have hrecv : l.retained.recv peerid fec =
      ((l.nbr? peerid).bind fun ln => fecFind LdeMap.fec fec ln.recvMap).map LdeMap.map := by
    simp only [Lib.retained]
    cases l.nbr? peerid <;> rfl
  unfold withdrawRecv withdraw
  rw [hrecv]
  split
  · rename_i me hme
    rw [hme]
    simp only [map_some]
    split
    · exact retained_ldeMapDelRecv peerid fec l
    · rfl
  · rename_i hnone
    rw [hnone]
    rfl

theorem retained_uninstall (hreads : ReadsAs ln l.retained) :
    (l.eachNh fec (uninstallMapping ln)).retained = l.retained.relabel ln.peerid fec noLabel := by
  refine retained_walk hreads (fun hroute fn fnh l hfn => ?_) fun hpw fn fnh l hfn => ?_
  · subst hfn
    unfold uninstallMapping
    split
    · rename_i heq
      rw [heq] at hroute
      cases hroute
    · split
      · exact retained_uninstallNh fn fnh l
      · rfl
  · subst hfn
    have hnh : (uninstallNh fn fnh l).retained = l.retained := by
      rw [retained_uninstallNh, relabelIf_of_nil (nexthops_of_not_route hpw l)]
    unfold uninstallMapping
    split
    · split
      · exact hnh
      · rfl
    · split
      · exact hnh
      · rfl

/-- `lde_check_withdraw` takes the label of the neighbour out of use before it forgets the map. -/
theorem retained_ldeCheckWithdraw (map : Map) (peerid : UInt32) (hs : l.Sorted) :
    (ldeCheckWithdraw map peerid l).retained = l.retained ∨
      ∃ fec, (ldeCheckWithdraw map peerid l).retained =
        (l.retained.relabel peerid fec noLabel).withdraw peerid map.label fec := by
  unfold ldeCheckWithdraw
  split
  · exact .inl rfl
  rename_i ln hln
  obtain ⟨-, rfl⟩ := Lib.peerid_of_nbr? hln
  split
  · exact .inl rfl
  dsimp only
  generalize ldeMap2fec map ln.id = fec
  have hadd := retained_fecAdd fec fec.pwidLsrId hs
  split
  · exact .inl hadd
  · refine .inr ⟨fec, ?_⟩
    rw [retained_withdrawRecv, retained_ldeSendLabelrelease, retained_uninstall, hadd]
    rw [hadd]
    exact ReadsAs.of_nbr? hln

theorem retained_ldeCheckWithdrawWcard (map : Map) (peerid : UInt32) (l : Lib) :
    (ldeCheckWithdrawWcard map peerid l).retained =
      (l.ft.map FecNode.fec).foldl (withdraw peerid map.label) l.retained := by
  have hfold (fecs : List Fec) (l : Lib) :
      (fecs.foldl (fun l fec => withdrawRecv map peerid fec l) l).retained =
        fecs.foldl (withdraw peerid map.label) l.retained := by
    induction fecs generalizing l with
    | nil => rfl
    | cons fec fecs ih => rw [foldl_cons, ih, retained_withdrawRecv, foldl_cons]
  exact hfold _ _

/-! ## Routes -/

theorem retained_reroute (fec : Fec) (f : FecNode → FecNode) (change : List FecNh → List FecNh)
    (hfec : ∀ fn, (f fn).fec = fn.fec) (hnexthops : ∀ fn, (f fn).nexthops = change fn.nexthops)
    (hdown : ∀ fn, (f fn).downstream = fn.downstream) (hnode : (l.node? fec).isSome) :
    (l.modNode fec f).retained = l.retained ∨
      isRoute fec ∧ (l.modNode fec f).retained = l.retained.reroute fec change := by
  have hdownstream (g : Fec) : (l.modNode fec f).retained.downstream g = l.retained.downstream g :=
    (elim_modNode id hfec hdown (.inl rfl)).trans (ite_self _)
  cases hroute : isRoute fec with
  | false =>
    refine .inl (Retained.ext rfl rfl (funext fun g => ?_) (funext hdownstream))
    rw [nexthops_modNode change hfec hnexthops (.inr hnode), hroute]
    simp
  | true =>
    refine .inr ⟨rfl, Retained.ext rfl rfl (funext fun g => ?_) (funext hdownstream)⟩
    rw [nexthops_modNode change hfec hnexthops (.inr hnode), hroute]
    simp [Retained.reroute]

/-- What can be done to the retained mappings: install and record a map, take a label out of use and
forget the map, and change the nexthops of a route. -/
inductive Upkeep : Retained → Retained → Prop
  | refl (a : Retained) : Upkeep a a
  | mapping (a : Retained) (peerid : UInt32) (fec : Fec) (map : Map) :
    Upkeep a ((a.relabel peerid fec map.label).record peerid fec map)
  | withdraw (a : Retained) (peerid : UInt32) (fec : Fec) (label : UInt32) :
    Upkeep a ((a.relabel peerid fec noLabel).withdraw peerid label fec)
  | reroute (a : Retained) (fec : Fec) (f : List FecNh → List FecNh)
    (h : ∀ nh ∈ f (a.nexthops fec), nh ∈ a.nexthops fec ∨ nh.remoteLabel = noLabel) :
    Upkeep a (a.reroute fec f)
  | trans {a b c : Retained} : Upkeep a b → Upkeep b c → Upkeep a c

theorem ldeCheckMapping_upkeep (map : Map) (peerid : UInt32) (hs : l.Sorted) :
    Upkeep l.retained (ldeCheckMapping map peerid l).retained := by
  cases hln : l.nbr? peerid with
  | none =>
    simp only [ldeCheckMapping, hln]
    exact .refl _
  | some ln =>
    obtain ⟨ignored, -, heq⟩ := retained_ldeCheckMapping map hs hln
    rw [heq]
    cases ignored with
    | true => exact .refl _
    | false => exact .mapping _ _ _ _

theorem ldeCheckWithdraw_upkeep (map : Map) (peerid : UInt32) (hs : l.Sorted) :
    Upkeep l.retained (ldeCheckWithdraw map peerid l).retained := by
  rcases retained_ldeCheckWithdraw map peerid hs with heq | ⟨fec, heq⟩
  · rw [heq]
    exact .refl _
  · rw [heq]
    exact .withdraw _ _ _ _

/-- `lde_kernel_insert` adds a nexthop without a label, and may then look at a retained
mapping again. -/
theorem ldeKernelInsert_upkeep (fec : Fec) (lsrIdView : InAddr) (af : Af) (nexthop : LdpdAddr)
    (priority : UInt8) (data : Option Nat) (hs : l.Sorted) :
    Upkeep l.retained (ldeKernelInsert fec lsrIdView af nexthop priority data l).retained := by
  have hadd := retained_fecAdd fec lsrIdView hs
  have hsadd := (fecAdd_keeps fec lsrIdView l).sorted hs
  have hboth := ldeKernelInsert_of (I := fun l' => Upkeep l.retained l'.retained ∧ l'.Sorted)
    af nexthop priority data ⟨hadd ▸ .refl _, hsadd⟩ (fun fn data => ?_) fun map peerid l hl => ?_
  · exact hboth.1
  · refine ⟨?_, (addNh_keeps _ fec fn data _).sorted hsadd⟩
    rw [(addNh_installs _ fec fn data _).retained]
    rcases retained_reroute (l := fecAdd fec lsrIdView l) fec
      (fun fn => { fn with data := data, nexthops := ⟨af, nexthop, noLabel, priority⟩ :: fn.nexthops })
      (⟨af, nexthop, noLabel, priority⟩ :: ·) (fun _ => rfl) (fun _ => rfl) (fun _ => rfl)
      (node?_fecAdd fec lsrIdView l) with heq | ⟨-, heq⟩
    · rw [heq, hadd]
      exact .refl _
    · rw [heq, hadd]
      refine .reroute _ _ _ fun nh hnh => ?_
      rcases mem_cons.mp hnh with rfl | hnh
      · exact .inr rfl
      · exact .inl hnh
  · exact ⟨hl.1.trans (ldeCheckMapping_upkeep map peerid hl.2),
      (ldeCheckMapping_keeps map peerid l).sorted hl.2⟩

theorem retained_ldeSendLabelwithdrawAll : (ldeSendLabelwithdrawAll fn l).retained = l.retained :=
  foldlRecOn (motive := fun l' => l'.retained = l.retained) _ _ rfl fun l' hl' peerid _ =>
    (retained_ldeSendLabelwithdraw peerid fn none l').trans hl'

theorem ldeKernelRemove_upkeep (fec : Fec) (af : Af) (nexthop : LdpdAddr) (priority : UInt8)
    (l : Lib) : Upkeep l.retained (ldeKernelRemove fec af nexthop priority l).retained := by
  unfold ldeKernelRemove
  split
  · exact .refl _
  rename_i fn hfn
  split
  · exact .refl _
  rename_i fnh _
  dsimp only
  have hdelete := retained_ldeSendDeleteKlabel { fn with nexthops := fn.nexthops.erase fnh } fnh l
  have hsome : ((ldeSendDeleteKlabel { fn with nexthops := fn.nexthops.erase fnh } fnh l).node?
      fec).isSome := by
    rw [node?_isSome_congr (ldeSendDeleteKlabel_installs _ _ l).relabels.ft, hfn]
    rfl
  generalize ldeSendDeleteKlabel { fn with nexthops := fn.nexthops.erase fnh } fnh l = l₁
    at hdelete hsome ⊢
  have hremove : Upkeep l.retained
      (l₁.modNode fec fun n => { n with nexthops := fn.nexthops.erase fnh }).retained := by
    rcases retained_reroute (l := l₁) fec
      (fun n => { n with nexthops := fn.nexthops.erase fnh }) (fun _ => fn.nexthops.erase fnh)
      (fun _ => rfl) (fun _ => rfl) (fun _ => rfl) hsome with heq | ⟨hroute, heq⟩
    · rw [heq, hdelete]
      exact .refl _
    · rw [heq, hdelete]
      refine .reroute _ _ _ fun nh hnh => .inl ?_
      simp only [Lib.retained, hroute, if_true, hfn, elim_some]
      exact mem_of_mem_erase hnh
  split
  · refine hremove.trans ?_
    have hsame : (((ldeSendLabelwithdrawAll { fn with nexthops := fn.nexthops.erase fnh }
        (l₁.modNode fec fun n => { n with nexthops := fn.nexthops.erase fnh })).modNode fec fun n =>
          { n with localLabel := noLabel, data := if fec.type = .pwid then none else n.data }).retained) =
        (l₁.modNode fec fun n => { n with nexthops := fn.nexthops.erase fnh }).retained :=
      Eq.trans (retained_modNode fun _ => ⟨rfl, rfl, rfl⟩)
        retained_ldeSendLabelwithdrawAll
    rw [hsame]
    exact .refl _
  · exact hremove

/-- The nodes the garbage collector frees have nothing that is retained. -/
theorem node?_ldeGcTimer (hs : l.Sorted) (g : Fec) :
    (ldeGcTimer l).node? g = (l.node? g).filter fun fn =>
      !(fn.nexthops.isEmpty && fn.downstream.isEmpty && fn.upstream.isEmpty) :=
  hs.find_filter _ g

theorem elim_ldeGcTimer {f : FecNode → List β} (hs : l.Sorted)
    (hf : ∀ fn, fn.nexthops = [] ∧ fn.downstream = [] ∧ fn.upstream = [] → f fn = []) (g : Fec) :
    ((ldeGcTimer l).node? g).elim [] f = (l.node? g).elim [] f := by
  rw [node?_ldeGcTimer hs]
  cases l.node? g with
  | none => rfl
  | some fn =>
    rw [filter_some]
    split
    · rfl
    · rename_i hempty
      simp only [Bool.not_eq_true', Bool.not_eq_false, Bool.and_eq_true, List.isEmpty_iff,
        and_assoc] at hempty
      exact (hf fn hempty).symm

theorem retained_ldeGcTimer (hs : l.Sorted) : (ldeGcTimer l).retained = l.retained := by
  refine Retained.ext rfl rfl (funext fun g => ?_) (funext fun g => ?_)
  · simp only [Lib.retained, elim_ldeGcTimer hs fun _ h => h.1]
  · simp only [Lib.retained, elim_ldeGcTimer hs fun _ h => h.2.1]

theorem ldeDispatchParent_upkeep (e : ParentEvent) (hs : l.Sorted) :
    Upkeep l.retained (ldeDispatchParent e l).retained := by
  cases e with
  | networkAdd af addr prefixlen lsrIdView nexthop priority =>
    exact ldeKernelInsert_upkeep _ _ _ _ _ _ hs
  | networkDel af addr prefixlen nexthop priority => exact ldeKernelRemove_upkeep _ _ _ _ l
  | pwInit pw =>
    let l₁ : Lib := { l with pws := l2vpnPwReset pw :: l.pws.filter fun p => p.uid != pw.uid }
    exact ldeKernelInsert_upkeep (l := l₁) _ _ _ _ _ _ hs
  | pwExit uid =>
    simp only [ldeDispatchParent, l2vpnPwExit]
    split
    · exact .refl _
    · exact ldeKernelRemove_upkeep _ _ _ _ l
  | egressLabel af expnull =>
    have hsame : (ldeChangeEgressLabel af expnull l).retained = l.retained := by
      refine ldeChangeEgressLabel_of (I := (·.retained = l.retained)) af expnull rfl
        (fun _ _ => id) ?_ ?_
      · intro _ _ _ hl
        refine Eq.trans (retained_modNbr ?_) hl
        exact fun _ => ⟨rfl, rfl, rfl⟩
      · intro _ _ _ _ _ _ _ _ hl
        rw [retained_ldeSendLabelmapping]
        refine Eq.trans (retained_modNode ?_) hl
        exact fun _ => ⟨rfl, rfl, rfl⟩
    simp only [ldeDispatchParent, hsame]
    exact .refl _
  | gcTimer =>
    simp only [ldeDispatchParent, retained_ldeGcTimer hs]
    exact .refl _

/-! ## Neighbours -/

/-- Change which addresses are a neighbour's. -/
def Retained.readdress (peerid : UInt32) (f : Af → LdpdAddr → Bool) (a : Retained) : Retained :=
  { a with serves := fun p => if p = peerid then f else a.serves p }

def Retained.drop (peerid : UInt32) (a : Retained) : Retained :=
  { a with
    recv := fun p g => if p = peerid then none else a.recv p g
    serves := fun p af addr => if p = peerid then false else a.serves p af addr }

/-- Take the labels of a neighbour out of use and forget its maps. -/
def Retained.clear (peerid : UInt32) (routes maps : List Fec) (a : Retained) : Retained :=
  maps.foldl (fun a fec => a.forget peerid fec)
    (routes.foldl (fun a fec => a.relabel peerid fec noLabel) a)

theorem nbr?_ldeNbrNew (id : InAddr) (v4 v6 : Bool) (hnew : l.nbr? peerid = none) (q : UInt32) :
    (ldeNbrNew peerid id v4 v6 l).nbr? q =
      if q = peerid then some ⟨peerid, id, v4, v6, [], [], [], [], [], []⟩ else l.nbr? q := by
  let ln : LdeNbr := ⟨peerid, id, v4, v6, [], [], [], [], [], []⟩
  split
  · rename_i hq
    subst hq
    have hlive : q ∈ (ldeNbrNew q id v4 v6 l).nbrs.map LdeNbr.peerid :=
      (ldeNbrNew_perm hnew).mem_iff.mpr mem_cons_self
    obtain ⟨ln', hln'⟩ := isSome_iff_exists.mp (Lib.nbr?_isSome.mpr hlive)
    obtain ⟨hmem, hpeerid⟩ := Lib.peerid_of_nbr? hln'
    rcases mem_of_mem_insert hmem with rfl | hmem
    · exact hln'
    · exact absurd (ldeNbrCompare_eq.mpr hpeerid.symm) (find_eq_none.mp hnew ln' hmem)
  · rename_i hq
    refine find_insert_of_ne (a := ln) ?_ l.nbrs
    rw [Ne, ldeNbrCompare_eq]
    exact hq

theorem retained_ldeNbrNew (id : InAddr) (v4 v6 : Bool)
    (hnew : l.nbr? peerid = none) : (ldeNbrNew peerid id v4 v6 l).retained = l.retained := by
  refine Retained.ext (funext₂ fun q g => ?_) (funext₃ fun q af addr => ?_) rfl rfl
  all_goals
    simp only [Lib.retained, nbr?_ldeNbrNew id v4 v6 hnew]
    split
    · rename_i hq
      rw [hq, hnew]
      rfl
    · rfl

end Mp2mp.Lde
