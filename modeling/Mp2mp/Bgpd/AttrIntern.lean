import Mp2mp.Kit.Exec
import Mp2mp.Kit.Pool

/-!
# Interning of path attributes

`bgp_attr_intern` and `bgp_attr_unintern` of `bgp_attr.c`.  An attribute refers to an AS path,
communities, extended communities, a cluster list and unknown transitive attributes, each of
which is interned in a pool of its own; attributes are interned in a pool whose comparison
looks at those references.  Hash tables are sets keyed by their comparison function.

What the pools hold is opaque, but for its comparison.

* `attrhashCmp_equivalence`: the comparison of attributes is an equivalence.
* `bgpAttrIntern_spec`, `bgpAttrUnintern_spec`: what the functions do to the references.
* `attr_references_balance`: every counter counts the references, in every run.
-/

namespace Mp2mp.Bgpd

open Kit List Option Function

/-! ## Attributes -/

/-- What an attribute refers to. -/
inductive Sub
  | aspath
  | community
  | ecommunity
  | cluster
  | transit
deriving DecidableEq, Repr

open Bgpd.Sub

/-- `struct bgp_attr_encap_subtlv`, but for the pointer; the length is that of the value. -/
structure EncapSubtlv where
  type : UInt16
  value : List UInt8
deriving DecidableEq, Repr

/-- `struct attr_extra`; pointers are addresses in the pools. -/
structure AttrExtra where
  mpNexthopGlobal : BitVec 128
  mpNexthopLocal : BitVec 128
  ecommunity : Option Nat
  cluster : Option Nat
  transit : Option Nat
  mpNexthopGlobalIn : UInt32
  mpNexthopLocalIn : UInt32
  aggregatorAddr : UInt32
  originatorId : UInt32
  weight : UInt32
  aggregatorAs : UInt32
  mpNexthopLen : UInt8
  encapTunneltype : UInt16
  encapSubtlvs : List EncapSubtlv
deriving DecidableEq, Repr

/-- `struct attr`, but for its counter. -/
structure AttrObject where
  aspath : Option Nat
  community : Option Nat
  extra : Option AttrExtra
  flag : UInt32
  nexthop : UInt32
  med : UInt32
  localPref : UInt32
  origin : UInt8
deriving DecidableEq, Repr

open AttrObject

def AttrObject.sub (attr : AttrObject) : Sub → Option Nat
  | .aspath => attr.aspath
  | .community => attr.community
  | .ecommunity => attr.extra.bind AttrExtra.ecommunity
  | .cluster => attr.extra.bind AttrExtra.cluster
  | .transit => attr.extra.bind AttrExtra.transit

def AttrObject.setSub (attr : AttrObject) (x : Nat) : Sub → AttrObject
  | .aspath => { attr with aspath := some x }
  | .community => { attr with community := some x }
  | .ecommunity => { attr with extra := attr.extra.map fun e => { e with ecommunity := some x } }
  | .cluster => { attr with extra := attr.extra.map fun e => { e with cluster := some x } }
  | .transit => { attr with extra := attr.extra.map fun e => { e with transit := some x } }

def encapSame (h1 h2 : List EncapSubtlv) : Bool :=
  match h1, h2 with
  | [], [] => true
  | _ :: _, [] => false
  | [], _ :: _ => false
  | h1, h2 => h1.all (fun p => h2.any fun q => p = q) && h2.all fun p => h1.any fun q => p = q

/-- The part of `attrhash_cmp` about the extra attributes. -/
def attrExtraCmp (ae1 ae2 : AttrExtra) : Bool :=
  ae1.aggregatorAs = ae2.aggregatorAs && ae1.aggregatorAddr = ae2.aggregatorAddr &&
    ae1.weight = ae2.weight && ae1.mpNexthopLen = ae2.mpNexthopLen &&
    ae1.mpNexthopGlobal = ae2.mpNexthopGlobal && ae1.mpNexthopLocal = ae2.mpNexthopLocal &&
    ae1.mpNexthopGlobalIn = ae2.mpNexthopGlobalIn && ae1.ecommunity = ae2.ecommunity &&
    ae1.cluster = ae2.cluster && ae1.transit = ae2.transit &&
    ae1.encapTunneltype = ae2.encapTunneltype && encapSame ae1.encapSubtlvs ae2.encapSubtlvs &&
    ae1.originatorId = ae2.originatorId

def attrhashCmp (attr1 attr2 : AttrObject) : Bool :=
  attr1.flag = attr2.flag && attr1.origin = attr2.origin && attr1.nexthop = attr2.nexthop &&
    attr1.aspath = attr2.aspath && attr1.community = attr2.community && attr1.med = attr2.med &&
    attr1.localPref = attr2.localPref &&
    match attr1.extra, attr2.extra with
    | some ae1, some ae2 => attrExtraCmp ae1 ae2
    | none, none => true
    | some _, none | none, some _ => false

theorem encapSame_iff {h1 h2 : List EncapSubtlv} :
    encapSame h1 h2 = true ↔ ∀ p, p ∈ h1 ↔ p ∈ h2 := by
  cases h1 with
  | nil =>
    cases h2 with
    | nil => simp [encapSame]
    | cons q h2 =>
      simp only [encapSame, Bool.false_eq_true, not_mem_nil, false_iff]
      exact fun same => same q mem_cons_self
  | cons p h1 =>
    cases h2 with
    | nil =>
      simp only [encapSame, Bool.false_eq_true, not_mem_nil, iff_false, false_iff]
      exact fun same => same p mem_cons_self
    | cons q h2 =>
      simp only [encapSame, Bool.and_eq_true, List.all_eq_true, List.any_eq_true,
        decide_eq_true_eq, exists_eq_right']
      exact ⟨fun both r => ⟨both.1 r, both.2 r⟩, fun same => ⟨fun r => (same r).mp,
        fun r => (same r).mpr⟩⟩

/-- What the comparison of attributes looks at: the chain of sub-TLVs as a set, and the rest. -/
def AttrObject.key (attr : AttrObject) : AttrObject × Option (Set EncapSubtlv) :=
  ({ attr with extra := attr.extra.map fun e => { e with mpNexthopLocalIn := 0, encapSubtlvs := [] } },
    attr.extra.map fun e => {p | p ∈ e.encapSubtlvs})

theorem attrExtraCmp_iff {ae1 ae2 : AttrExtra} : attrExtraCmp ae1 ae2 = true ↔
      ({ ae1 with mpNexthopLocalIn := 0, encapSubtlvs := [] } : AttrExtra) =
        { ae2 with mpNexthopLocalIn := 0, encapSubtlvs := [] } ∧
      {p | p ∈ ae1.encapSubtlvs} = {p | p ∈ ae2.encapSubtlvs} := by
  simp only [attrExtraCmp, Bool.and_eq_true, decide_eq_true_eq, encapSame_iff, AttrExtra.mk.injEq,
    Set.ext_iff, Set.mem_ofPred_eq]
  tauto

theorem attrhashCmp_iff {attr1 attr2 : AttrObject} :
    attrhashCmp attr1 attr2 = true ↔ attr1.key = attr2.key := by
  rw [attrhashCmp, key, key, Prod.mk.injEq, mk.injEq]
  cases attr1.extra with
  | none =>
    cases attr2.extra with
    | none =>
      simp only [Bool.and_eq_true, decide_eq_true_eq, map_none]
      tauto
    | some ae2 => simp
  | some ae1 =>
    cases attr2.extra with
    | none => simp
    | some ae2 =>
      simp only [Bool.and_eq_true, decide_eq_true_eq, attrExtraCmp_iff, map_some, Option.some.injEq]
      tauto

theorem attrhashCmp_equivalence : Equivalence fun a b => attrhashCmp a b = true where
  refl := fun _ => attrhashCmp_iff.mpr rfl
  symm := fun same => attrhashCmp_iff.mpr (attrhashCmp_iff.mp same).symm
  trans := fun first second =>
    attrhashCmp_iff.mpr ((attrhashCmp_iff.mp first).trans (attrhashCmp_iff.mp second))

/-- Attributes that compare equal refer to the same objects. -/
theorem attrhashCmp_sub {attr1 attr2 : AttrObject} (same : attrhashCmp attr1 attr2 = true) (k : Sub) :
    attr1.sub k = attr2.sub k := by
  have view : ∀ attr : AttrObject, attr.sub k = attr.key.1.sub k := by
    intro attr
    cases k <;> simp only [sub, key] <;> cases attr.extra <;> rfl
  rw [view attr1, view attr2, attrhashCmp_iff.mp same]

variable {attr : AttrObject} {k : Sub} {refs : Sub → Nat → Nat}

theorem AttrObject.sub_setSub {x : Nat} (here : attr.sub k = some x) (y : Nat) (k' : Sub) :
    (attr.setSub y k).sub k' = if k' = k then some y else attr.sub k' := by
  cases attr with
  | mk aspath community extra flag nexthop med localPref origin =>
    cases extra with
    | none => cases k <;> cases k' <;> first | rfl | cases here
    | some e => cases k <;> cases k' <;> rfl

/-! ## Tables -/

/-- What the pools hold, and how it is compared. -/
structure SubValues where
  Val : Sub → Type
  cmp : (k : Sub) → Val k → Val k → Bool
  equiv : ∀ k, Equivalence fun a b => cmp k a b = true

/-- The pools; which interns are outstanding, and which references are held by others than
attributes. -/
structure AttrTables (X : SubValues) where
  pools : (k : Sub) → Pool (X.Val k)
  attrs : Pool AttrObject
  interns : List Nat
  outside : Sub → List Nat

open AttrTables

variable {X : SubValues}

def AttrTables.empty (X : SubValues) : AttrTables X where
  pools _ := Pool.empty
  attrs := Pool.empty
  interns := []
  outside _ := []

/-- The kinds in the order in which they are interned. -/
def Sub.all : List Sub := [.aspath, .community, .ecommunity, .cluster, .transit]

/-- `aspath_unintern`, `community_unintern` and `ecommunity_unintern` assert that the object is in
the table, the others do not. -/
def Sub.asserts : Sub → Bool
  | .aspath | .community | .ecommunity => true
  | .cluster | .transit => false

/-- A reference to an object of a pool: it is counted, and interned before if it was not. -/
def internSub (k : Sub) (p : Pool (X.Val k)) (x : Nat) : Option (Nat × Pool (X.Val k)) := do
  let o ← p.obj x
  if o.2 = 0 then
    -- `cluster_intern` makes a copy, the others put the object itself in the table
    if k = .cluster then p.internCopy (X.cmp k) o.1 else p.intern (X.cmp k) x
  else (p.take x).map (x, ·)

/-- Intern what an attribute refers to, if it does. -/
def internSubs : List Sub → ((k : Sub) → Pool (X.Val k)) → AttrObject →
    Option (((k : Sub) → Pool (X.Val k)) × AttrObject)
  | [], pools, attr => some (pools, attr)
  | k :: ks, pools, attr =>
    match attr.sub k with
    | none => internSubs ks pools attr
    | some x => do
        let (y, p) ← internSub k (pools k) x
        internSubs ks (update pools k p) (attr.setSub y k)

def bgpAttrIntern (s : AttrTables X) (attr : AttrObject) : Option (Nat × AttrTables X) := do
  let (pools, attr) ← internSubs Sub.all s.pools attr
  let (find, attrs) ← s.attrs.internCopy attrhashCmp attr
  some (find, { s with pools, attrs, interns := find :: s.interns })

def bgpAttrUninternSub (attr : AttrObject) : List Sub → ((k : Sub) → Pool (X.Val k)) →
    Option ((k : Sub) → Pool (X.Val k))
  | [], pools => some pools
  | k :: ks, pools =>
    match attr.sub k with
    | none => bgpAttrUninternSub attr ks pools
    | some x => do
        let p ← (pools k).unintern (X.cmp k) k.asserts x
        bgpAttrUninternSub attr ks (update pools k p)

def bgpAttrUnintern (s : AttrTables X) (i : Nat) : Option (AttrTables X) := do
  let tmp ← s.attrs.value i
  let attrs ← s.attrs.unintern attrhashCmp true i
  let pools ← bgpAttrUninternSub tmp Sub.all s.pools
  some { s with pools, attrs, interns := s.interns.erase i }

/-! ## References -/

def addSub (refs : Nat → Nat) : Option Nat → Nat → Nat
  | none => refs
  | some y => Pool.addRef refs y

namespace AttrTables

def refersTo (s : AttrTables X) (k : Sub) (y i : Nat) : Bool :=
  (s.attrs.value i).bind (fun attr => attr.sub k) = some y

/-- The references to an object: from outstanding interns, and from others. -/
def subRefs (s : AttrTables X) (k : Sub) (y : Nat) : Nat :=
  s.interns.countP (s.refersTo k y) + (s.outside k).count y

/-- All counters are right. -/
structure Balanced (s : AttrTables X) : Prop where
  attrs : s.attrs.Balanced attrhashCmp fun i => s.interns.count i
  pools : ∀ k, (s.pools k).Balanced (X.cmp k) (s.subRefs k)

theorem Balanced.empty : (empty X).Balanced where
  attrs := Pool.Balanced.empty
  pools := fun _ => Pool.Balanced.empty

end AttrTables

theorem internSub_spec {p : Pool (X.Val k)} {refs : Nat → Nat} {x : Nat}
    (h : p.Balanced (X.cmp k) refs) (live : (p.obj x).isSome) :
    ∃ y p', internSub k p x = some (y, p') ∧ p'.Balanced (X.cmp k) (Pool.addRef refs y) := by
  obtain ⟨⟨v, n⟩, here⟩ := isSome_iff_exists.mp live
  rw [internSub, here, bind_eq_bind, bind_some]
  cases n with
  | zero =>
    rw [if_pos rfl]
    split
    · obtain ⟨y, p', run, balanced, -⟩ := Pool.internCopy_spec (X.equiv k) h v
      exact ⟨y, p', run, balanced⟩
    · obtain ⟨y, p', run, balanced, -⟩ := Pool.intern_spec (X.equiv k) h here
      exact ⟨y, p', run, balanced⟩
  | succ n =>
    obtain ⟨p', run, balanced, -⟩ := Pool.take_spec h here
    exact ⟨x, p', by rw [if_neg (by simp), run]; rfl, balanced⟩

/-- Every reference of the attribute is counted. -/
theorem internSubs_spec (ks : List Sub) (nodup : ks.Nodup) {pools : (k : Sub) → Pool (X.Val k)}
    (h : ∀ k, (pools k).Balanced (X.cmp k) (refs k))
    (live : ∀ k ∈ ks, ∀ x, attr.sub k = some x → ((pools k).obj x).isSome) :
    ∃ pools' attr', internSubs ks pools attr = some (pools', attr') ∧
      (∀ k ∈ ks, (pools' k).Balanced (X.cmp k) (addSub (refs k) (attr'.sub k))) ∧
      ∀ k ∉ ks, pools' k = pools k ∧ attr'.sub k = attr.sub k := by
  induction ks generalizing pools attr refs with
  | nil => exact ⟨pools, attr, rfl, by simp, fun _ _ => ⟨rfl, rfl⟩⟩
  | cons k ks ih =>
    obtain ⟨fresh, nodup⟩ := nodup_cons.mp nodup
    rw [internSubs]
    cases here : attr.sub k with
    | none =>
      obtain ⟨pools', attr', run, counted, frame⟩ :=
        ih nodup h (forall_mem_cons.mp live).2
      refine ⟨pools', attr', run, fun j mem => ?_, fun j out => ?_⟩
      · rcases mem_cons.mp mem with rfl | mem
        · obtain ⟨samePool, sameSub⟩ := frame j fresh
          rw [samePool, sameSub, here]
          exact h j
        · exact counted j mem
      · exact frame j fun mem => out (mem_cons_of_mem k mem)
    | some x =>
      obtain ⟨y, p, run, balanced⟩ := internSub_spec (h k) (live k mem_cons_self x here)
      have subs := sub_setSub here y
      have counted₁ : ∀ j, (update pools k p j).Balanced (X.cmp j)
          (update refs k (Pool.addRef (refs k) y) j) := by
        intro j
        by_cases same : j = k
        · subst same
          rw [update_self, update_self]
          exact balanced
        · rw [update_of_ne same, update_of_ne same]
          exact h j
      have live₁ : ∀ j ∈ ks, ∀ z, (attr.setSub y k).sub j = some z →
          ((update pools k p j).obj z).isSome := by
        intro j mem z there
        have differ : j ≠ k := ne_of_mem_of_not_mem mem fresh
        rw [subs, if_neg differ] at there
        rw [update_of_ne differ]
        exact live j (mem_cons_of_mem k mem) z there
      obtain ⟨pools', attr', rest, counted, frame⟩ := ih nodup counted₁ live₁
      refine ⟨pools', attr', ?_, fun j mem => ?_, fun j out => ?_⟩
      · dsimp only
        rw [run, bind_eq_bind, bind_some]
        exact rest
      · rcases mem_cons.mp mem with rfl | mem
        · obtain ⟨samePool, sameSub⟩ := frame j fresh
          rw [samePool, sameSub, subs, if_pos rfl, update_self]
          exact balanced
        · have := counted j mem
          rwa [update_of_ne (ne_of_mem_of_not_mem mem fresh)] at this
      · obtain ⟨samePool, sameSub⟩ := frame j fun mem => out (mem_cons_of_mem k mem)
        have differ : j ≠ k := fun same => out (same ▸ mem_cons_self)
        rw [samePool, sameSub, subs, if_neg differ, update_of_ne differ]
        exact ⟨rfl, rfl⟩

theorem Sub.mem_all (k : Sub) : k ∈ all := by
  cases k <;> decide

theorem Sub.nodup_all : all.Nodup := by
  decide

theorem bgpAttrUninternSub_spec (attr : AttrObject) (ks : List Sub) (nodup : ks.Nodup)
    {pools : (k : Sub) → Pool (X.Val k)}
    (h : ∀ k ∈ ks, (pools k).Balanced (X.cmp k) (addSub (refs k) (attr.sub k))) :
    ∃ pools', bgpAttrUninternSub attr ks pools = some pools' ∧
      (∀ k ∈ ks, (pools' k).Balanced (X.cmp k) (refs k)) ∧ ∀ k ∉ ks, pools' k = pools k := by
  induction ks generalizing pools with
  | nil => exact ⟨pools, rfl, by simp, fun _ _ => rfl⟩
  | cons k ks ih =>
    obtain ⟨fresh, nodup⟩ := nodup_cons.mp nodup
    have first := h k mem_cons_self
    rw [bgpAttrUninternSub]
    cases here : attr.sub k with
    | none =>
      rw [here, addSub] at first
      obtain ⟨pools', run, counted, frame⟩ := ih nodup (forall_mem_cons.mp h).2
      refine ⟨pools', run, fun j mem => ?_, fun j out => ?_⟩
      · rcases mem_cons.mp mem with rfl | mem
        · rw [frame j fresh]
          exact first
        · exact counted j mem
      · exact frame j fun mem => out (mem_cons_of_mem k mem)
    | some y =>
      rw [here, addSub] at first
      obtain ⟨p, run, balanced, -⟩ := Pool.unintern_spec (X.equiv k) k.asserts first
        (y := y) (by rw [Pool.addRef, update_self]; omega)
      rw [Pool.dropRef_addRef] at balanced
      have later : ∀ j ∈ ks, (update pools k p j).Balanced (X.cmp j)
          (addSub (refs j) (attr.sub j)) := by
        intro j mem
        rw [update_of_ne (ne_of_mem_of_not_mem mem fresh)]
        exact h j (mem_cons_of_mem k mem)
      obtain ⟨pools', rest, counted, frame⟩ := ih nodup later
      refine ⟨pools', ?_, fun j mem => ?_, fun j out => ?_⟩
      · dsimp only
        rw [run, bind_eq_bind, bind_some]
        exact rest
      · rcases mem_cons.mp mem with rfl | mem
        · rw [frame j fresh, update_self]
          exact balanced
        · exact counted j mem
      · have differ : j ≠ k := fun same => out (same ▸ mem_cons_self)
        rw [frame j fun mem => out (mem_cons_of_mem k mem), update_of_ne differ]

namespace AttrTables

variable {s : AttrTables X}

theorem addSub_subRefs {s s' : AttrTables X} {i : Nat}
    (here : s'.attrs.value i = some attr) (interns : s'.interns.Perm (i :: s.interns))
    (outside : s'.outside k = s.outside k)
    (same : ∀ j ∈ s.interns, s'.attrs.value j = s.attrs.value j) :
    s'.subRefs k = addSub (s.subRefs k) (attr.sub k) := by
  funext y
  have rest : s.interns.countP (s'.refersTo k y) = s.interns.countP (s.refersTo k y) := by
    refine countP_congr fun j mem => ?_
    rw [refersTo, refersTo, same j mem]
  have first : s'.refersTo k y i = decide (attr.sub k = some y) := by
    rw [refersTo, here, bind_some]
  rw [subRefs, interns.countP_eq, countP_cons, rest, first, outside]
  cases sub : attr.sub k with
  | none => simp [addSub, subRefs]
  | some z =>
    rw [addSub, Pool.addRef, update_apply]
    by_cases hit : y = z
    · rw [if_pos hit, hit]
      simp only [subRefs, decide_true, if_true]
      omega
    · simp [hit, Ne.symm hit, subRefs]

end AttrTables

open AttrTables

variable {s : AttrTables X}

def AttrTables.Valid (s : AttrTables X) (attr : AttrObject) : Prop :=
  ∀ k x, attr.sub k = some x → ((s.pools k).obj x).isSome

instance (s : AttrTables X) (attr : AttrObject) : Decidable (s.Valid attr) :=
  decidable_of_iff (∀ k ∈ Sub.all, (attr.sub k).all (fun x => ((s.pools k).obj x).isSome) = true)
    ⟨fun h k x here => by simpa [here] using h k (Sub.mem_all k), fun h k _ => by
      cases here : attr.sub k with
      | none => rfl
      | some x => simpa using h k x here⟩

theorem bgpAttrIntern_spec (h : s.Balanced) (valid : s.Valid attr) :
    ∃ i s', bgpAttrIntern s attr = some (i, s') ∧ s'.Balanced := by
  obtain ⟨pools, attr', run, counted, -⟩ :=
    internSubs_spec all nodup_all h.pools fun k _ => valid k
  obtain ⟨i, attrs, copied, balanced, ⟨found, here, same⟩, values⟩ :=
    Pool.internCopy_spec attrhashCmp_equivalence h.attrs attr'
  let s' : AttrTables X := { s with pools, attrs, interns := i :: s.interns }
  refine ⟨i, s', ?_, ?_, fun k => ?_⟩
  · rw [bgpAttrIntern, run, bind_eq_bind, bind_some]
    dsimp only
    rw [copied]
    rfl
  · show attrs.Balanced attrhashCmp fun j => (i :: s.interns).count j
    rw [Pool.count_cons_eq]
    exact balanced
  · have refs : s'.subRefs k = addSub (s.subRefs k) (found.sub k) :=
      addSub_subRefs here (Perm.refl _) rfl fun j mem => values j (count_pos_iff.mpr mem)
    show (pools k).Balanced (X.cmp k) _
    rw [refs, attrhashCmp_sub same k]
    exact counted k (mem_all k)

theorem bgpAttrUnintern_spec (h : s.Balanced) {i : Nat} (outstanding : i ∈ s.interns) :
    ∃ s', bgpAttrUnintern s i = some s' ∧ s'.Balanced := by
  have held : 0 < s.interns.count i := count_pos_iff.mpr outstanding
  obtain ⟨⟨attr, n⟩, here⟩ := isSome_iff_exists.mp (h.attrs.live i held)
  have value : s.attrs.value i = some attr := by rw [Pool.value, here]; rfl
  obtain ⟨attrs, run, balanced, values⟩ := Pool.unintern_spec attrhashCmp_equivalence true h.attrs held
  let s₁ : AttrTables X := { s with attrs, interns := s.interns.erase i }
  have refs : ∀ k, s.subRefs k = addSub (s₁.subRefs k) (attr.sub k) := by
    intro k
    refine addSub_subRefs value (perm_cons_erase outstanding) rfl fun j mem => ?_
    refine (values j ?_).symm
    rw [← Pool.count_erase_eq]
    exact count_pos_iff.mpr mem
  have held : ∀ k ∈ Sub.all, (s.pools k).Balanced (X.cmp k) (addSub (s₁.subRefs k) (attr.sub k)) :=
    fun k _ => refs k ▸ h.pools k
  obtain ⟨pools, undone, counted, -⟩ := bgpAttrUninternSub_spec attr Sub.all Sub.nodup_all held
  refine ⟨{ s₁ with pools }, ?_, ?_, fun k => counted k (Sub.mem_all k)⟩
  · rw [bgpAttrUnintern, value, bind_eq_bind, bind_some, run, bind_eq_bind, bind_some, undone]
    rfl
  · show attrs.Balanced attrhashCmp fun j => (s.interns.erase i).count j
    rw [Pool.count_erase_eq]
    exact balanced

/-! ## Runs -/

/-- The calls, and what others do to the pools. -/
inductive InternEvent (X : SubValues)
  /-- An object is made that is not interned. -/
  | alloc (k : Sub) (v : X.Val k)
  /-- A reference is taken, or given up, by others. -/
  | hold (k : Sub) (x : Nat)
  | release (k : Sub) (x : Nat)
  | intern (attr : AttrObject)
  | unintern (i : Nat)

open InternEvent

def InternEvent.next (s : AttrTables X) : InternEvent X → Option (AttrTables X)
  | alloc k v => some { s with pools := update s.pools k ((s.pools k).alloc v) }
  | hold k x => do
      let (y, p) ← internSub k (s.pools k) x
      some { s with
        pools := update s.pools k p
        outside := update s.outside k (y :: s.outside k) }
  | release k x => do
      let p ← (s.pools k).unintern (X.cmp k) k.asserts x
      some { s with
        pools := update s.pools k p
        outside := update s.outside k ((s.outside k).erase x) }
  | intern attr => (bgpAttrIntern s attr).map Prod.snd
  | unintern i => bgpAttrUnintern s i

/-- Pointers are to objects, and references are given up by who has them. -/
def InternEvent.Matching (s : AttrTables X) : InternEvent X → Prop
  | alloc _ _ => True
  | hold k x => ((s.pools k).obj x).isSome
  | release k x => x ∈ s.outside k
  | intern attr => s.Valid attr
  | unintern i => i ∈ s.interns

instance (s : AttrTables X) : (e : InternEvent X) → Decidable (e.Matching s)
  | .alloc _ _ => isTrue trivial
  | .hold k x => inferInstanceAs (Decidable (((s.pools k).obj x).isSome = true))
  | .release k x => inferInstanceAs (Decidable (x ∈ s.outside k))
  | .intern attr => inferInstanceAs (Decidable (s.Valid attr))
  | .unintern i => inferInstanceAs (Decidable (i ∈ s.interns))

def internStep (e : InternEvent X) : EStateM Unit (AttrTables X) Unit := fun s =>
  match e.next s with
  | some s' => .ok () s'
  | none => .error () s

theorem internStep_run {e : InternEvent X} {s s' : AttrTables X} :
    (internStep e).run s = .ok () s' ↔ e.next s = some s' := by
  rw [EStateM.run, internStep]
  cases e.next s <;> simp

/-- References of others to objects of one kind. -/
theorem AttrTables.Balanced.others (h : s.Balanced) {p : Pool (X.Val k)} {l : List Nat}
    (balanced : p.Balanced (X.cmp k) fun y => s.interns.countP (s.refersTo k y) + l.count y) :
    ({ s with pools := update s.pools k p, outside := update s.outside k l } :
      AttrTables X).Balanced := by
  refine ⟨h.attrs, fun j => ?_⟩
  by_cases same : j = k
  · subst same
    show (update s.pools j p j).Balanced (X.cmp j)
      fun y => s.interns.countP (s.refersTo j y) + (update s.outside j l j).count y
    rw [update_self, update_self]
    exact balanced
  · show (update s.pools k p j).Balanced (X.cmp j)
      fun y => s.interns.countP (s.refersTo j y) + (update s.outside k l j).count y
    rw [update_of_ne same, update_of_ne same]
    exact h.pools j

theorem InternEvent.balanced (h : s.Balanced) {e : InternEvent X} (ok : e.Matching s) :
    ∃ s', e.next s = some s' ∧ s'.Balanced := by
  cases e with
  | alloc k v =>
    refine ⟨_, rfl, ?_⟩
    have after := h.others (l := s.outside k) ((h.pools k).alloc v)
    rwa [update_eq_self] at after
  | hold k x =>
    obtain ⟨y, p, run, balanced⟩ := internSub_spec (h.pools k) ok
    refine ⟨_, by rw [next, run]; rfl, h.others ?_⟩
    have refs : (fun z => s.interns.countP (s.refersTo k z) + (y :: s.outside k).count z) =
        Pool.addRef (s.subRefs k) y := by
      funext z
      rw [Pool.addRef, update_apply]
      split
      · next same =>
        rw [same, count_cons_self]
        rfl
      · next differ =>
        rw [count_cons_of_ne (Ne.symm differ)]
        rfl
    rw [refs]
    exact balanced
  | release k x =>
    have held : 0 < (s.outside k).count x := count_pos_iff.mpr ok
    obtain ⟨p, run, balanced, -⟩ := Pool.unintern_spec (X.equiv k) k.asserts (h.pools k) (y := x)
      (by rw [subRefs]; omega)
    refine ⟨_, by rw [next, run]; rfl, h.others ?_⟩
    have refs : (fun z => s.interns.countP (s.refersTo k z) + ((s.outside k).erase x).count z) =
        Pool.dropRef (s.subRefs k) x := by
      funext z
      rw [Pool.dropRef, update_apply]
      split
      · next same =>
        rw [same, count_erase_self, subRefs]
        omega
      · next differ =>
        rw [count_erase_of_ne differ]
        rfl
    rw [refs]
    exact balanced
  | intern attr =>
    obtain ⟨i, s', run, balanced⟩ := bgpAttrIntern_spec h ok
    exact ⟨s', by rw [next, run]; rfl, balanced⟩
  | unintern i => exact bgpAttrUnintern_spec h ok

theorem Run.intern_balanced {tr : List (InternEvent X)}
    (run : Run internStep (empty X) (fun s e => e.Matching s) tr s) : s.Balanced := by
  refine run.invariant Balanced.empty fun s e s' h ok step => ?_
  obtain ⟨s₁, next, balanced⟩ := balanced h ok
  rw [internStep_run] at step
  cases next.symm.trans step
  exact balanced

/-- In every run of matching calls, every call returns, attributes that compare equal are one
object, the counter of an attribute is the number of its outstanding interns, that of an object
it refers to the number of outstanding interns of attributes that refer to it and of references
held by others, and the tables are empty when there are no references. -/
theorem attr_references_balance {tr : List (InternEvent X)}
    (run : Run internStep (AttrTables.empty X) (fun s e => e.Matching s) tr s) :
    (∀ e : InternEvent X, e.Matching s → ∃ s', e.next s = some s') ∧
      (∀ i j attr attr', s.attrs.value i = some attr → s.attrs.value j = some attr' →
        i ∈ s.attrs.table → j ∈ s.attrs.table → attrhashCmp attr attr' = true → i = j) ∧
      (∀ i, i ∈ s.attrs.table ↔ i ∈ s.interns) ∧
      (∀ i attr n, s.attrs.obj i = some (attr, n) → n = s.interns.count i) ∧
      (∀ i ∈ s.interns, (s.attrs.obj i).isSome) ∧
      (∀ k y v n, (s.pools k).obj y = some (v, n) → n = s.subRefs k y) ∧
      (∀ k y, 0 < s.subRefs k y → ((s.pools k).obj y).isSome ∧ y ∈ (s.pools k).table) ∧
      (s.interns = [] → s.attrs.table = [] ∧ ∀ k, s.outside k = [] → (s.pools k).table = []) := by
  have h := Run.intern_balanced run
  refine ⟨fun e ok => ?_, fun i j attr attr' hi hj ti tj same => ?_, fun i => ?_, h.attrs.count,
    fun i mem => h.attrs.live i (count_pos_iff.mpr mem), fun k => (h.pools k).count,
    fun k y pos => ⟨(h.pools k).live y pos, ((h.pools k).mem_table y).mpr pos⟩, fun none => ⟨?_, ?_⟩⟩
  · obtain ⟨s', next, -⟩ := balanced h ok
    exact ⟨s', next⟩
  · exact h.attrs.distinct_value hi hj ti tj same
  · rw [h.attrs.mem_table, count_pos_iff]
  · refine eq_nil_iff_forall_not_mem.mpr fun i mem => ?_
    rw [h.attrs.mem_table, none] at mem
    simp at mem
  · intro k others
    refine eq_nil_iff_forall_not_mem.mpr fun y mem => ?_
    rw [(h.pools k).mem_table, subRefs, none, others] at mem
    simp at mem

def natValues : SubValues where
  Val _ := Nat
  cmp _ a b := a == b
  equiv _ := ⟨fun _ => beq_self_eq_true _, fun same => by simp_all, fun first second => by simp_all⟩

/-- An attribute with an AS path and a cluster list. -/
def sampleAttr (aspath cluster : Nat) : AttrObject where
  aspath := some aspath
  community := none
  extra := some ⟨0, 0, none, some cluster, none, 0, 0, 0, 0, 0, 0, 0, 0, []⟩
  flag := 0
  nexthop := 0
  med := 0
  localPref := 0
  origin := 0

/-- Two equal attributes, made apart, are interned, and the first is given up. -/
def sampleInterns : List (InternEvent natValues) :=
  [.alloc .aspath (7 : Nat), .alloc .cluster (3 : Nat), .intern (sampleAttr 0 0),
    .alloc .aspath (7 : Nat), .hold .cluster 1, .intern (sampleAttr 1 1), .unintern 0]

theorem sampleInterns_play :
    (play internStep (fun s e => e.Matching s) sampleInterns (empty natValues)).isSome := by
  decide +kernel

theorem sampleInterns_balance :
    ∃ s, Run internStep (AttrTables.empty natValues) (fun s e => e.Matching s) sampleInterns s ∧
      s.interns = [0] ∧ s.subRefs .aspath 0 = 1 ∧ s.subRefs .cluster 1 = 2 ∧
      ((s.pools .cluster).obj 1).isSome := by
  have run := Run.of_play sampleInterns_play
  have seen : (play internStep (fun s e => e.Matching s) sampleInterns
      (empty natValues)).map (fun s =>
        (s.interns, s.subRefs .aspath 0, s.subRefs .cluster 1)) = some ([0], 1, 2) := by
    decide +kernel
  rw [← some_get sampleInterns_play, map_some] at seen
  obtain ⟨interns, rest⟩ := Prod.mk.inj (some.inj seen)
  obtain ⟨aspath, cluster⟩ := Prod.mk.inj rest
  obtain ⟨-, -, -, -, -, -, live, -⟩ := attr_references_balance run
  exact ⟨_, run, interns, aspath, cluster, (live .cluster 1 (by rw [cluster]; decide)).1⟩

end Mp2mp.Bgpd
