import Mp2mp.Kit.Exec
import Mp2mp.Kit.RbTree
import Mp2mp.Ldpd.Types

/-!
# The trees of neighbours

`nbr_new` and `nbr_del` of `neighbor.c` keep every neighbour in the two trees
`nbrs_by_id` and `nbrs_by_addr`, and `nbr_find_ldpid` searches the first.  The
trees are red-black trees as the macros build them, so that a comparison that is
not an order shows in what a search finds.

`nbr_id_compare` is the difference of two unsigned numbers, read as an `int`.  It
puts each LSR id below the half of all ids that follows it around the circle, and
so is an order on some sets of ids only.

* `lookup_exact`: in a run in which every new neighbour leaves the ids of the live
  ones ordered, `nbr_find_ldpid` finds exactly the live neighbours.
* `same_neighbours`: the two trees hold the same neighbours in any run.
* `nbrCall_succeeds`: neighbours that differ are never in each other's way.
-/

namespace Mp2mp.Ldpe

open Kit Kit.RbTree Ldpd List RbTree EStateM

variable {id : InAddr} {n : NbrNode} {s : NbrTrees} {call : NbrCall}

/-! ## The comparisons -/

/-- `nbr_id_compare`: the difference is unsigned and is returned as an `int`. -/
def nbrIdCompare (a b : InAddr) : Int := (a - b).toBitVec.toInt

/-- The order of two addresses is that of the enumerators, `AF_INET` first. -/
def Af.compare : Af → Af → Ordering
  | .inet, .inet6 => .lt
  | .inet6, .inet => .gt
  | _, _ => .eq

/-- What the trees read of `struct nbr`, with the address of the structure itself. -/
structure NbrNode where
  addr : Nat
  id : InAddr
  af : Af
  raddr : LdpdAddr
deriving DecidableEq, Repr

def nbrAddrCompare (af : Af) (raddr : LdpdAddr) (n : NbrNode) : Ordering :=
  (Af.compare af n.af).then (ldpAddrcmp af raddr n.raddr)

/-- The sign of `nbr_id_compare`, as the tree macros use it. -/
def byId (id : InAddr) (n : NbrNode) : Ordering := compare (nbrIdCompare id n.id) 0

/-! ## The trees -/

/-- The trees, the live neighbours, and the address of the next one. -/
structure NbrTrees where
  nbrsById : Rb NbrNode
  nbrsByAddr : Rb NbrNode
  live : List NbrNode
  next : Nat
deriving DecidableEq, Repr

open NbrTrees

def NbrTrees.init : NbrTrees := ⟨.nil, .nil, [], 0⟩

/-- The two `fatalx` of `nbr_new`. -/
inductive NbrFault
  | insertById
  | insertByAddr
deriving DecidableEq, Repr

/-- `nbr_new`, as far as the trees go -/
def nbrNewTrees (id : InAddr) (af : Af) (raddr : LdpdAddr) : EStateM NbrFault NbrTrees Unit := do
  let s ← get
  let n : NbrNode := ⟨s.next, id, af, raddr⟩
  match RbTree.insert (byId id) n s.nbrsById with
  | .error _ => throw .insertById
  | .ok nbrsById =>
    match RbTree.insert (nbrAddrCompare af raddr) n s.nbrsByAddr with
    | .error _ => throw .insertByAddr
    | .ok nbrsByAddr => set (⟨nbrsById, nbrsByAddr, s.live ++ [n], s.next + 1⟩ : NbrTrees)

/-- `nbr_del`, as far as the trees go -/
def nbrDelTrees (n : NbrNode) (s : NbrTrees) : NbrTrees :=
  { s with
    nbrsById := RbTree.remove n s.nbrsById
    nbrsByAddr := RbTree.remove n s.nbrsByAddr
    live := s.live.erase n }

def nbrFindLdpid (id : InAddr) (s : NbrTrees) : Option NbrNode := RbTree.find (byId id) s.nbrsById

/-- The calls; a neighbour that is deleted is given by its place among the live ones. -/
inductive NbrCall
  | nbrNew (id : InAddr) (af : Af) (raddr : LdpdAddr)
  | nbrDel (nbr : Nat)
deriving DecidableEq, Repr

def nbrCall : NbrCall → EStateM NbrFault NbrTrees Unit
  | .nbrNew id af raddr => nbrNewTrees id af raddr
  | .nbrDel i => modify fun s =>
    match s.live[i]? with
    | none => s
    | some n => nbrDelTrees n s

/-- A new neighbour has an LSR id and a transport address of its own. -/
def Distinct (s : NbrTrees) : NbrCall → Prop
  | .nbrNew id af raddr =>
    ∀ n ∈ s.live, n.id ≠ id ∧ nbrAddrCompare af raddr n ≠ .eq
  | .nbrDel _ => True

instance (s : NbrTrees) : DecidablePred (Distinct s)
  | .nbrNew .. => inferInstanceAs (Decidable (∀ n ∈ s.live, _ ∧ _))
  | .nbrDel _ => inferInstanceAs (Decidable True)

/-- `nbr_id_compare` is a strict order on the ids. -/
def Ordered (ids : List InAddr) : Prop :=
  ∀ a ∈ ids, ∀ b ∈ ids, nbrIdCompare a b < 0 →
    ¬nbrIdCompare b a < 0 ∧ ∀ c ∈ ids, nbrIdCompare b c < 0 → nbrIdCompare a c < 0

-- over the list: the instance for quantifiers over `UInt32` would try all of them
instance (ids : List InAddr) : Decidable (Ordered ids) :=
  decidable_of_iff
    (ids.all fun a => ids.all fun b => !decide (nbrIdCompare a b < 0) ||
      (!decide (nbrIdCompare b a < 0) &&
        ids.all fun c => !decide (nbrIdCompare b c < 0) || decide (nbrIdCompare a c < 0)))
    (by simp [Ordered, imp_iff_not_or])

/-- The ids of the live neighbours and of the new one are ordered. -/
def KeepsOrder (s : NbrTrees) : NbrCall → Prop
  | .nbrNew id _ _ => Ordered (id :: s.live.map NbrNode.id)
  | .nbrDel _ => True

instance (s : NbrTrees) : DecidablePred (KeepsOrder s)
  | .nbrNew .. => inferInstanceAs (Decidable (Ordered _))
  | .nbrDel _ => inferInstanceAs (Decidable True)

section

variable {a b : InAddr}

theorem nbrIdCompare_eq_zero : nbrIdCompare a b = 0 ↔ a = b := by
  rw [nbrIdCompare, ← BitVec.toInt_zero (w := 32), BitVec.toInt_inj]
  constructor
  · intro h
    have hsub : a - b = 0 := UInt32.toBitVec_inj.mp h
    exact sub_eq_zero.mp hsub
  · rintro rfl
    simp

/-- Of two ids one at least is below the other. -/
theorem nbrIdCompare_total (h : a ≠ b) : nbrIdCompare a b < 0 ∨ nbrIdCompare b a < 0 := by
  by_contra hnot
  rw [not_or, not_lt, not_lt] at hnot
  obtain ⟨hab, hba⟩ := hnot
  have hne : (a - b).toBitVec ≠ 0#32 := fun h0 =>
    h (sub_eq_zero.mp (UInt32.toBitVec_inj.mp h0))
  have hneg : (b - a).toBitVec = -(a - b).toBitVec := by
    rw [← UInt32.toBitVec_neg, neg_sub]
  simp only [nbrIdCompare, hneg] at hab hba
  generalize (a - b).toBitVec = x at *
  have hx : x.toNat ≠ 0 := fun h0 => hne (BitVec.eq_of_toNat_eq h0)
  have hlt := x.isLt
  rw [BitVec.toInt_eq_toNat_cond] at hab hba
  rw [BitVec.toNat_neg] at hba
  omega

theorem byId_eq : byId id n = .eq ↔ n.id = id := by
  rw [byId, Int.compare_eq_eq, nbrIdCompare_eq_zero, eq_comm]

theorem byId_lt : byId id n = .lt ↔ nbrIdCompare id n.id < 0 :=
  Int.compare_eq_lt

theorem byId_gt : byId id n = .gt ↔ 0 < nbrIdCompare id n.id :=
  Int.compare_eq_gt

end

section

variable {ids : List InAddr} {a b c : InAddr}

theorem Ordered.mono {ids' : List InAddr} (h : Ordered ids) (hsub : ∀ a ∈ ids', a ∈ ids) :
    Ordered ids' := by
  intro a ha b hb hlt
  obtain ⟨hasymm, htrans⟩ := h a (hsub a ha) b (hsub b hb) hlt
  exact ⟨hasymm, fun c hc => htrans c (hsub c hc)⟩

/-- On ordered ids the comparison is the same from both sides. -/
theorem Ordered.pos_iff (h : Ordered ids) (ha : a ∈ ids) (hb : b ∈ ids) :
    0 < nbrIdCompare a b ↔ nbrIdCompare b a < 0 := by
  constructor
  · intro hpos
    have hne : a ≠ b := by
      rintro rfl
      rw [nbrIdCompare_eq_zero.mpr rfl] at hpos
      exact absurd hpos (lt_irrefl _)
    rcases nbrIdCompare_total hne with hlt | hlt
    · exact absurd hlt (not_lt.mpr hpos.le)
    · exact hlt
  · intro hlt
    refine lt_of_le_of_ne (not_lt.mp (h b hb a ha hlt).1) fun hzero => ?_
    obtain rfl := nbrIdCompare_eq_zero.mp hzero.symm
    rw [← hzero] at hlt
    exact absurd hlt (lt_irrefl _)

/-- An id cuts a walk that is in order, if it is in order with the rest. -/
theorem Ordered.cut {walk : List NbrNode} (h : Ordered ids) (ha : a ∈ ids)
    (hids : ∀ n ∈ walk, n.id ∈ ids)
    (hsorted : walk.Pairwise fun n m => nbrIdCompare n.id m.id < 0) : Cut (byId a) walk := by
  refine hsorted.imp_of_mem fun {n m} hn hm hlt => ?_
  rw [byId_lt, byId_lt, byId_gt, byId_gt, h.pos_iff ha (hids m hm), h.pos_iff ha (hids n hn)]
  exact ⟨fun hbelow => (h a ha n.id (hids n hn) hbelow).2 m.id (hids m hm) hlt,
    (h n.id (hids n hn) m.id (hids m hm) hlt).2 a ha⟩

end

/-! ## What the trees hold -/

/-- Both trees hold the live neighbours, which are at different addresses. -/
structure NbrTrees.Holds (s : NbrTrees) : Prop where
  byId : s.nbrsById.toList.Perm s.live
  byAddr : s.nbrsByAddr.toList.Perm s.live
  fresh : ∀ n ∈ s.live, n.addr < s.next
  nodup : s.live.Nodup

/-- The live neighbours have different ids, `nbr_id_compare` is an order on them, and
the walk of `nbrs_by_id` is in that order. -/
structure NbrTrees.Sorted (s : NbrTrees) : Prop where
  distinct : ∀ n ∈ s.live, ∀ m ∈ s.live, n.id = m.id → n = m
  ordered : Ordered (s.live.map NbrNode.id)
  walk : s.nbrsById.toList.Pairwise fun n m => nbrIdCompare n.id m.id < 0

section

variable {s' : NbrTrees}

/-- Everything a call can do. -/
theorem nbrCall_cases (h : (nbrCall call).run s = .ok () s') :
    (∃ id af raddr nbrsById nbrsByAddr, call = .nbrNew id af raddr ∧
      insert (byId id) ⟨s.next, id, af, raddr⟩ s.nbrsById = .ok nbrsById ∧
      insert (nbrAddrCompare af raddr) ⟨s.next, id, af, raddr⟩ s.nbrsByAddr =
        .ok nbrsByAddr ∧
      s' = ⟨nbrsById, nbrsByAddr, s.live ++ [⟨s.next, id, af, raddr⟩], s.next + 1⟩) ∨
    s' = s ∨ ∃ n ∈ s.live, s' = nbrDelTrees n s := by
  cases call with
  | nbrNew id af raddr =>
    simp only [nbrCall, nbrNewTrees] at h
    rw [run_get_bind] at h
    split at h
    · cases h
    rename_i nbrsById hid
    split at h
    · cases h
    rename_i nbrsByAddr haddr
    cases h
    exact .inl ⟨id, af, raddr, nbrsById, nbrsByAddr, rfl, hid, haddr, rfl⟩
  | nbrDel i =>
    refine .inr ?_
    cases h
    dsimp only
    split
    · exact .inl rfl
    · rename_i n hn
      exact .inr ⟨n, mem_of_getElem? hn, rfl⟩

theorem nbrNewTrees_live {af : Af} {raddr : LdpdAddr}
    (h : (nbrNewTrees id af raddr).run s = .ok () s') :
    s'.live = s.live ++ [⟨s.next, id, af, raddr⟩] := by
  unfold nbrNewTrees at h
  rw [run_get_bind] at h
  dsimp only at h
  split at h
  · cases h
  split at h
  · cases h
  · cases h
    rfl

theorem perm_of_insert {cmp : NbrNode → Ordering} {t t' : Rb NbrNode} {live : List NbrNode}
    (h : insert cmp n t = .ok t') (hperm : t.toList.Perm live) :
    t'.toList.Perm (live ++ [n]) := by
  obtain ⟨l, r, hlist, hlist', -⟩ := insert_split h
  rw [hlist']
  refine perm_middle.trans ?_
  rw [← hlist]
  exact (hperm.cons n).trans (perm_append_singleton n live).symm

theorem NbrTrees.Holds.nbrDelTrees (h : s.Holds) (n : NbrNode) : (nbrDelTrees n s).Holds := by
  have herase {t : Rb NbrNode} (hperm : t.toList.Perm s.live) :
      (remove n t).toList.Perm (s.live.erase n) := by
    rw [toList_remove (hperm.nodup_iff.mpr h.nodup)]
    exact hperm.erase n
  exact ⟨herase h.byId, herase h.byAddr, fun m hm => h.fresh m (mem_of_mem_erase hm),
    h.nodup.erase n⟩

theorem NbrTrees.Holds.step (h : s.Holds) (hrun : (nbrCall call).run s = .ok () s') : s'.Holds := by
  rcases nbrCall_cases hrun with ⟨id, af, raddr, t, t', rfl, hid, haddr, rfl⟩ | rfl | ⟨n, -, rfl⟩
  · refine ⟨perm_of_insert hid h.byId, perm_of_insert haddr h.byAddr, fun n hn => ?_, ?_⟩
    · rcases mem_append.mp hn with hn | hn
      · exact (h.fresh n hn).trans (lt_add_one _)
      · rw [mem_singleton.mp hn]
        exact lt_add_one _
    · refine nodup_append.mpr ⟨h.nodup, nodup_singleton _, fun n hn m hm heq => ?_⟩
      rw [mem_singleton.mp hm] at heq
      exact (h.fresh n hn).ne (congrArg NbrNode.addr heq)
  · exact h
  · exact h.nbrDelTrees n

theorem NbrTrees.Sorted.nbrDelTrees (h : s.Sorted) (hholds : s.Holds) (n : NbrNode) :
    (nbrDelTrees n s).Sorted := by
  have hsub : ∀ m ∈ s.live.erase n, m ∈ s.live := fun m hm => mem_of_mem_erase hm
  refine ⟨fun m hm m' hm' => h.distinct m (hsub m hm) m' (hsub m' hm'), h.ordered.mono ?_, ?_⟩
  · exact fun a ha => (erase_sublist.map NbrNode.id).subset ha
  · show (remove n s.nbrsById).toList.Pairwise _
    rw [toList_remove (hholds.byId.nodup_iff.mpr hholds.nodup)]
    exact h.walk.sublist erase_sublist

theorem NbrTrees.Sorted.step (h : s.Sorted) (hholds : s.Holds)
    (hdistinct : ∀ id af raddr, call = .nbrNew id af raddr → ∀ n ∈ s.live, n.id ≠ id)
    (horder : KeepsOrder s call) (hrun : (nbrCall call).run s = .ok () s') : s'.Sorted := by
  rcases nbrCall_cases hrun with ⟨id, af, raddr, t, t', rfl, hid, haddr, rfl⟩ | rfl | ⟨n, -, rfl⟩
  · have hids : ∀ n ∈ s.nbrsById.toList, n.id ∈ id :: s.live.map NbrNode.id := fun n hn =>
      mem_cons_of_mem _ (mem_map_of_mem (hholds.byId.mem_iff.mp hn))
    obtain ⟨l, r, hlist, hlist', hcut⟩ := insert_split hid
    obtain ⟨hbelow, habove⟩ := hcut (Ordered.cut horder mem_cons_self hids h.walk)
    refine ⟨fun n hn m hm heq => ?_, horder.mono fun a ha => ?_, ?_⟩
    · rcases mem_append.mp hn with hn | hn <;> rcases mem_append.mp hm with hm | hm
      · exact h.distinct n hn m hm heq
      · rw [mem_singleton.mp hm] at heq
        exact absurd heq (hdistinct id af raddr rfl n hn)
      · rw [mem_singleton.mp hn] at heq
        exact absurd heq.symm (hdistinct id af raddr rfl m hm)
      · rw [mem_singleton.mp hn, mem_singleton.mp hm]
    · rw [map_append, mem_append] at ha
      rcases ha with ha | ha
      · exact mem_cons_of_mem _ ha
      · rw [mem_singleton.mp ha]
        exact mem_cons_self
    · have hwalk := h.walk
      rw [hlist] at hids hwalk
      obtain ⟨hl, hr, hacross⟩ := pairwise_append.mp hwalk
      show t.toList.Pairwise _
      rw [hlist', pairwise_append, pairwise_cons]
      refine ⟨hl, ⟨fun m hm => byId_lt.mp (habove m hm), hr⟩, fun n hn m hm => ?_⟩
      rcases mem_cons.mp hm with rfl | hm
      · exact (horder.pos_iff mem_cons_self (hids n (mem_append_left _ hn))).mp
          (byId_gt.mp (hbelow n hn))
      · exact hacross n hn m hm
  · exact h
  · exact h.nbrDelTrees hholds n

end

/-! ## Lookup -/

theorem holds_init : init.Holds :=
  ⟨List.Perm.refl _, List.Perm.refl _, nofun, nodup_nil⟩

theorem sorted_init : init.Sorted := ⟨nofun, nofun, List.Pairwise.nil⟩

/-- Whatever the comparison does, the trees hold the same neighbours. -/
theorem same_neighbours (h : Reachable nbrCall init s) (n : NbrNode) :
    n ∈ s.nbrsById.toList ↔ n ∈ s.nbrsByAddr.toList := by
  have hholds : s.Holds := h.invariant holds_init fun s call s' hs hrun => hs.step hrun
  rw [hholds.byId.mem_iff, hholds.byAddr.mem_iff]

/-- Neither `fatalx` of `nbr_new` is reached by neighbours that differ. -/
theorem nbrCall_succeeds (h : Reachable nbrCall init s)
    (hdistinct : Distinct s call) : fault (nbrCall call) s = none := by
  have hholds : s.Holds := h.invariant holds_init fun s call s' hs hrun => hs.step hrun
  cases call with
  | nbrDel i => rfl
  | nbrNew id af raddr =>
    simp only [fault, nbrCall, nbrNewTrees]
    rw [run_get_bind]
    cases hid : insert (byId id) ⟨s.next, id, af, raddr⟩ s.nbrsById with
    | error n =>
      obtain ⟨hn, heq⟩ := insert_error hid
      exact absurd (byId_eq.mp heq) (hdistinct n (hholds.byId.mem_iff.mp hn)).1
    | ok nbrsById =>
      dsimp only
      cases haddr : insert (nbrAddrCompare af raddr) ⟨s.next, id, af, raddr⟩
          s.nbrsByAddr with
      | error n =>
        obtain ⟨hn, heq⟩ := insert_error haddr
        exact absurd heq (hdistinct n (hholds.byAddr.mem_iff.mp hn)).2
      | ok nbrsByAddr => rfl

/-- On ids that are in order, a lookup finds the live neighbour of the id. -/
theorem NbrTrees.Holds.find_iff (hholds : s.Holds) (hsorted : s.Sorted) (id : InAddr)
    (n : NbrNode) : nbrFindLdpid id s = some n ↔ n ∈ s.live ∧ n.id = id := by
  have hmem (n : NbrNode) : n ∈ s.nbrsById.toList ↔ n ∈ s.live := hholds.byId.mem_iff
  have hfind : nbrFindLdpid id s = some n ↔ n ∈ s.nbrsById.toList ∧ Ldpe.byId id n = .eq := by
    refine find_eq_some (fun hn heq => ?_) fun m hm m' hm' heq heq' => ?_
    · have hids : ∀ m ∈ s.nbrsById.toList, m.id ∈ s.live.map NbrNode.id := fun m hm =>
        mem_map_of_mem ((hmem m).mp hm)
      refine hsorted.ordered.cut ?_ hids hsorted.walk
      rw [← byId_eq.mp heq]
      exact hids n hn
    · exact hsorted.distinct m ((hmem m).mp hm) m' ((hmem m').mp hm')
        ((byId_eq.mp heq).trans (byId_eq.mp heq').symm)
  rw [hfind, hmem, byId_eq]

/-- As long as the ids of the live neighbours are in order with each new one, a lookup
finds the live neighbour of an id and nothing else, and both trees hold the same neighbours. -/
theorem lookup_exact {tr : List NbrCall} {s : NbrTrees}
    (run : Run nbrCall NbrTrees.init (fun s call => Distinct s call ∧ KeepsOrder s call) tr s) :
    (∀ id n, nbrFindLdpid id s = some n ↔ n ∈ s.live ∧ n.id = id) ∧
      (∀ n, n ∈ s.nbrsById.toList ↔ n ∈ s.live) ∧ ∀ n, n ∈ s.nbrsByAddr.toList ↔ n ∈ s.live := by
  obtain ⟨hholds, hsorted⟩ : s.Holds ∧ s.Sorted := by
    refine run.invariant (I := fun s => s.Holds ∧ s.Sorted) ⟨holds_init, sorted_init⟩
      fun s call s' hs hgood hrun => ?_
    refine ⟨hs.1.step hrun, hs.2.step hs.1 ?_ hgood.2 hrun⟩
    rintro id af raddr rfl n hn
    exact (hgood.1 n hn).1
  exact ⟨hholds.find_iff hsorted, fun n => hholds.byId.mem_iff, fun n => hholds.byAddr.mem_iff⟩

/-- Three neighbours come, and the first one goes. -/
def threeNbrs (a b c : InAddr) : List NbrCall :=
  [.nbrNew a .inet (.ofV4 1), .nbrNew b .inet (.ofV4 2), .nbrNew c .inet (.ofV4 3), .nbrDel 0]

/-- LSR ids close to each other. -/
theorem threeNbrs_plays : (play nbrCall (fun s call => Distinct s call ∧ KeepsOrder s call)
      (threeNbrs 0x0a000001 0x0a000002 0x0a000003) init).isSome := by
  decide +kernel

theorem threeNbrs_lookup :
    let s := (play nbrCall (fun s call => Distinct s call ∧ KeepsOrder s call)
      (threeNbrs 0x0a000001 0x0a000002 0x0a000003) init).get threeNbrs_plays
    ∀ id n, nbrFindLdpid id s = some n ↔ n ∈ s.live ∧ n.id = id :=
  (lookup_exact (Run.of_play threeNbrs_plays)).1

/-- LSR ids around the circle: each is below the next, and the last below the first. -/
theorem aroundTheCircle_plays :
    (play nbrCall Distinct (threeNbrs 0 0x60000000 0xc0000000) init).isSome := by
  decide +kernel

/-- The neighbour 192.0.0.0 is live and in the tree, and is not found. -/
theorem aroundTheCircle_lost : ∃ tr s, Run nbrCall NbrTrees.init Distinct tr s ∧
      (∃ n ∈ s.live, n.id = 0xc0000000 ∧ n ∈ s.nbrsById.toList) ∧
      nbrFindLdpid 0xc0000000 s = none := by
  refine ⟨_, _, Run.of_play aroundTheCircle_plays, ?_⟩
  decide +kernel

/-- Even so, the trees hold the same neighbours, and another one can come. -/
theorem aroundTheCircle_same :
    let s := (play nbrCall Distinct (threeNbrs 0 0x60000000 0xc0000000) init).get
      aroundTheCircle_plays
    ∀ n, n ∈ s.nbrsById.toList ↔ n ∈ s.nbrsByAddr.toList :=
  same_neighbours (Run.of_play aroundTheCircle_plays).reachable

theorem aroundTheCircle_succeeds :
    fault (nbrCall (.nbrNew 1 .inet (.ofV4 4))) ((play nbrCall Distinct
      (threeNbrs 0 0x60000000 0xc0000000) init).get aroundTheCircle_plays) = none :=
  nbrCall_succeeds (Run.of_play aroundTheCircle_plays).reachable (by decide +kernel)

end Mp2mp.Ldpe
