import Mp2mp.Lde.Programs

/-!
# What one event does to the table

An event that is handled does one of four things to `label_nbrs` (`Effect`): it
adds a neighbour, it removes one, it leaves the entries or drops some of them,
or it joins a neighbour to one LSP.  `step_effect` is the inversion of a step
that every invariant of the table is derived from.
-/

namespace Mp2mp.Lde

open Kit Ldpd List EStateM Engine Carried Table

variable {map : Map} {peerid label : UInt32} {fec : Fec} {e : Event} {ln : LdeNbr} {fresh : Bool}
  {msg : Imsg} {l : Lib} {lnr : LabelNbr} {root : InAddr} {P : Engine → Prop} {ov : UInt8}
  {s : Engine}

/-! ## The order of the table -/

/-- The peer id as far as it is part of the key. -/
def keyPeer (k : Fec × UInt32) : UInt32 :=
  match k.1 with
  | .pwid .. => 0
  | _ => k.2

theorem labelNbrCompare_eq_lex :
    labelNbrCompare = compareLex (fun a b => fecCompare a.1 b.1) (compareOn keyPeer) := by
  funext ⟨f, p⟩ ⟨f', p'⟩
  simp only [labelNbrCompare, compareLex, compareOn, keyPeer]
  cases h : fecCompare f f' with
  | lt => rfl
  | gt => rfl
  | eq =>
    obtain rfl := fecCompare_eq.mp h
    cases f <;> simp

instance : Std.TransCmp (fun a b : Fec × UInt32 => fecCompare a.1 b.1) where
  eq_swap := (inferInstance : Std.OrientedCmp fecCompare).eq_swap
  isLE_trans := (inferInstance : Std.TransCmp fecCompare).isLE_trans

instance : Std.TransCmp labelNbrCompare := by
  rw [labelNbrCompare_eq_lex]
  infer_instance

theorem labelNbrCompare_eq {f f' : Fec} {p p' : UInt32} :
    labelNbrCompare (f, p) (f', p') = .eq ↔ f = f' ∧ (f.type = .pwid ∨ p = p') := by
  unfold labelNbrCompare
  rw [Ordering.then_eq_eq, fecCompare_eq]
  cases f <;> simp [Fec.type]

/-- On these arguments the comparison is a strict total order. -/
def OrdersExactly {α : Type} (cmp : α → α → Ordering) (a b c : α) : Prop :=
  cmp b a = (cmp a b).swap ∧ (cmp a b = .lt → cmp b c = .lt → cmp a c = .lt) ∧
    (cmp a b = .eq ↔ a = b)

theorem ordersExactly_iff {α : Type} {cmp : α → α → Ordering} [Std.TransCmp cmp] {a b c : α} :
    OrdersExactly cmp a b c ↔ (cmp a b = .eq ↔ a = b) := by
  constructor
  · intro exact
    exact exact.2.2
  · intro exact
    exact ⟨Std.OrientedCmp.eq_swap, Std.TransCmp.lt_trans, exact⟩

/-- The trees lose nothing unless two neighbours have bindings for one pseudowire. -/
theorem labelTrees_exact_iff (f g h : Fec) (a b c : Fec × UInt32) :
    OrdersExactly fecCompare f g h ∧ OrdersExactly labelNbrCompare a b c ↔
      ¬(a.1 = b.1 ∧ a.1.type = .pwid ∧ a.2 ≠ b.2) := by
  rcases a with ⟨fec, peerid⟩
  rcases b with ⟨fec', peerid'⟩
  rw [ordersExactly_iff, ordersExactly_iff, labelNbrCompare_eq, fecCompare_eq, Prod.mk.injEq]
  by_cases same : peerid = peerid' <;> by_cases pwid : fec.type = .pwid <;> simp [same, pwid]

theorem pwidPeers_merged :
    labelNbrCompare (.pwid 5 7 0x08080808, 1) (.pwid 5 7 0x08080808, 2) = .eq := rfl

/-- The table is in the order of its keys. -/
def Engine.TableSorted (s : Engine) : Prop :=
  Table.Sorted labelNbrCompare LabelNbr.key s.labelNbrs

/-! ## Bindings -/

/-- An entry of the table without its remote label, the only field that is ever rewritten. -/
structure Binding where
  localLabel : UInt32
  peerid : UInt32
  fec : Fec
  type : StreamType
deriving DecidableEq, Repr

def LabelNbr.binding (lnr : LabelNbr) : Binding :=
  ⟨lnr.localLabel, lnr.peerid, lnr.fec, lnr.type⟩

def Engine.bindings (s : Engine) : List Binding := s.labelNbrs.map LabelNbr.binding

/-- The neighbours are who they were, no label was handed out and no binding is new. -/
structure Shrinks (s s' : Engine) : Prop where
  lib : Keeps s.lib s'.lib
  label : s'.label = s.label
  bindings : s'.bindings.Sublist s.bindings

variable {s' s'' : Engine} {r : Freed}

theorem Shrinks.refl (s : Engine) : Shrinks s s := ⟨Keeps.refl _, rfl, List.Sublist.refl _⟩

theorem Shrinks.trans (h : Shrinks s s') (h' : Shrinks s' s'') : Shrinks s s'' :=
  ⟨h.lib.trans h'.lib, h'.label.trans h.label, h'.bindings.trans h.bindings⟩

/-- A program that keeps to what `Shrinks` allows, and that does not stop in `label_nbr_add`. -/
abbrev Passive {α : Type} (x : LdeM α) : Prop :=
  ∀ s₀, Triple (Shrinks s₀) x (fun _ => Shrinks s₀) fun f _ => f ≠ .labelNbrExists

theorem passive_modifyLib {f : Lib → Lib} (h : ∀ l, Keeps l (f l)) : Passive (modifyLib f) :=
  fun _ => .modify fun s hs => hs.trans ⟨h s.lib, rfl, .refl _⟩

theorem labelNbrDel_sublist (lnr : LabelNbr) (t : List LabelNbr) : (labelNbrDel lnr t).Sublist t :=
  filter_sublist

theorem Shrinks.withLib {s₀ : Engine} (h : Shrinks s₀ s) (hl : Keeps s.lib l) :
    Shrinks s₀ { s with lib := l } :=
  ⟨h.lib.trans hl, h.label, h.bindings⟩

/-- What the programs that add no entry do is what `Shrinks` allows. -/
theorem shrinks_carries (s₀ : Engine) : Carries (Shrinks s₀) (· ≠ .labelNbrExists) where
  fault _ hf := hf
  emit _ _ _ hs := hs.withLib (.emit (.refl _))
  withdraw s _ _ hs := hs.withLib (ldeSendLabelwithdrawWcard_same _ _ s.lib).keeps
  release s _ _ hs := hs.withLib (ldeSendLabelreleaseWcard_receives _ _ s.lib).keeps
  del _ _ hs := ⟨hs.lib, hs.label, ((labelNbrDel_sublist _ _).map _).trans hs.bindings⟩
  leaf _ _ hs := ⟨hs.lib, hs.label, hs.bindings⟩
  ln1 _ _ hs := ⟨hs.lib, hs.label, hs.bindings⟩
  unsend _ _ _ hs := hs.withLib (.modNbr (.refl _) fun _ => rfl)
  upstream _ _ _ hs := hs.withLib (.modNode (.refl _) fun _ => rfl)
  relink s _ _ _ hs := hs.withLib (relink_keeps _ _ _ s.lib)
  releaseWdraw s _ _ _ hs := hs.withLib (releaseWdraw_same _ _ _ s.lib).keeps
  mapping s _ _ hs := hs.withLib (ldeSendLabelmapping_keeps _ _ _ _ s.lib)
  link _ _ _ _ hs := hs.withLib (.modNbr (.refl _) fun _ => rfl)

/-- A property that the walks over the table cannot break: it looks at no messages but mappings, not
at the withdraws recorded, `leaf` or `ln1`, and does not need the entries of the table. -/
structure Inert (P : Engine → Prop) : Prop where
  emit : ∀ s o, (∀ p map, o ≠ .mappingAdd p map) → P s → P { s with lib := s.lib.emit o }
  wdraw : ∀ s peerid (f : List LdeWdraw → List LdeWdraw), P s →
    P { s with lib := s.lib.modNbr peerid fun ln => { ln with sentWdraw := f ln.sentWdraw } }
  del : ∀ s lnr, P s → P { s with labelNbrs := labelNbrDel lnr s.labelNbrs }
  leaf : ∀ s leaf, P s → P { s with leaf := leaf }
  ln1 : ∀ s ln1, P s → P { s with ln1 := ln1 }

theorem Inert.tears (h : Inert P) : Tears P fun _ => True where
  fault _ _ := trivial
  emit := h.emit
  withdraw s peerid label hs := by
    have hadd := h.emit s (.withdrawAdd peerid (wildcardMap label)) nofun hs
    have hend := h.emit _ (.withdrawAddEnd peerid) nofun hadd
    exact h.wdraw _ peerid (fun t => s.lib.ft.foldl (fun t fn => recordWdraw fn.fec label t) t) hend
  release s peerid label hs := by
    have hadd := h.emit s (.releaseAdd peerid (wildcardMap label)) nofun hs
    exact h.emit _ (.releaseAddEnd peerid) nofun hadd
  del := h.del
  leaf := h.leaf
  ln1 := h.ln1

/-! ## Runs of the joins -/

/-- The label a join of the LSP gets: the one of its first entry, or the next one. -/
def Engine.joinLabel (s : Engine) (fec : Fec) : UInt32 :=
  match s.labelNbrs.find? fun lnr => sameLsp lnr.fec fec with
  | some lnr => lnr.localLabel
  | none => s.label + 1

/-- The state once that label is chosen. -/
def Engine.withJoinLabel (s : Engine) (fec : Fec) : Engine :=
  match s.labelNbrs.find? fun lnr => sameLsp lnr.fec fec with
  | some _ => s
  | none => { s with label := s.label + 1 }

section

variable (s : Engine) (fec : Fec)

@[simp] theorem Engine.withJoinLabel_lib : (s.withJoinLabel fec).lib = s.lib := by
  unfold withJoinLabel; split <;> rfl

@[simp] theorem Engine.withJoinLabel_labelNbrs : (s.withJoinLabel fec).labelNbrs = s.labelNbrs := by
  unfold withJoinLabel; split <;> rfl

theorem Engine.withJoinLabel_label : (s.withJoinLabel fec).label =
      match s.labelNbrs.find? fun lnr => sameLsp lnr.fec fec with
      | some _ => s.label
      | none => s.label + 1 := by
  unfold withJoinLabel; split <;> rfl

end

theorem run_lspLabel {fec : Fec} :
    (lspLabel fec).run s = .ok (s.joinLabel fec) (s.withJoinLabel fec) := by
  unfold joinLabel withJoinLabel lspLabel
  simp only [run_bind, run_get]
  cases s.labelNbrs.find? fun lnr => sameLsp lnr.fec fec with
  | some lnr => rfl
  | none => rfl

def Engine.withEntry (s : Engine) (lnr : LabelNbr) : Engine :=
  { s with labelNbrs := Table.insert labelNbrCompare LabelNbr.key lnr s.labelNbrs }

theorem run_labelNbrAdd {lnr : LabelNbr} : (labelNbrAdd lnr).run s =
      if (labelNbrFind lnr.peerid lnr.fec s.labelNbrs).isSome then .error .labelNbrExists s
      else .ok () (s.withEntry lnr) := by
  unfold labelNbrAdd
  simp only [run_bind, run_get]
  split <;> rfl

theorem run_modifyLib (f : Lib → Lib) (s : Engine) :
    (modifyLib f).run s = .ok () { s with lib := f s.lib } := rfl

theorem run_ldeNbrDeref (peerid : UInt32) (s : Engine) : (ldeNbrDeref peerid).run s =
      match s.lib.nbr? peerid with
      | none => .error .nullDeref s
      | some ln => .ok ln s := by
  simp only [ldeNbrDeref, run_bind, run_get]
  cases s.lib.nbr? peerid <;> rfl

section

variable (s : Engine) (leaf : Nat) (map : Map) (peerid : UInt32) (fec : Fec)

/-- The state once a neighbour is joined to the LSP as downstream. -/
def Engine.joined (s : Engine) (leaf : Nat) (map : Map) (peerid : UInt32) (fec : Fec) : Engine :=
  { (s.withJoinLabel fec).withEntry ⟨map.label, s.joinLabel fec, peerid, fec, .down⟩ with
    leaf := leaf }

@[simp] theorem Engine.joined_lib : (s.joined leaf map peerid fec).lib = s.lib :=
  s.withJoinLabel_lib fec

theorem Engine.joined_labelNbrs : (s.joined leaf map peerid fec).labelNbrs =
      insert labelNbrCompare LabelNbr.key
        ⟨map.label, s.joinLabel fec, peerid, fec, .down⟩ s.labelNbrs := by
  simp only [joined, withEntry, withJoinLabel_labelNbrs]

end

/-- The LSP has no entry of the neighbour. -/
abbrev Engine.Lacks (s : Engine) (peerid : UInt32) (fec : Fec) : Prop :=
  labelNbrFind peerid fec s.labelNbrs = none

theorem mem_withEntry {x : LabelNbr} (hnew : s.Lacks lnr.peerid lnr.fec) :
    x ∈ (s.withEntry lnr).labelNbrs ↔ x = lnr ∨ x ∈ s.labelNbrs := by
  have hkey : find labelNbrCompare LabelNbr.key lnr.key s.labelNbrs = none := hnew
  exact mem_insert hkey

/-- Choosing the label does not depend on the role. -/
theorem run_joinDown {leaf : Nat} (hnew : s.Lacks peerid fec) :
    (joinDown map peerid fec).run { s with leaf := leaf } =
      .ok (s.joinLabel fec) (s.joined leaf map peerid fec) := by
  unfold joinDown
  simp only [run_bind, run_lspLabel, run_labelNbrAdd, withJoinLabel_labelNbrs, hnew,
    Option.isSome_none, Bool.false_eq_true, if_false, run_pure]
  simp only [Engine.joined, withEntry, withJoinLabel, joinLabel]
  cases s.labelNbrs.find? fun lnr => sameLsp lnr.fec fec with
  | none => rfl
  | some lnr => rfl

theorem run_joinAtRoot (hnew : s.Lacks peerid fec) :
    (joinAtRoot map peerid fec).run { s with leaf := 2 } =
      .ok () { s.joined 2 map peerid fec with
        lib := sendOnce peerid fec (s.joinLabel fec) s.lib } := by
  unfold joinAtRoot
  rw [run_bind, run_joinDown hnew]
  simp only [run_modifyLib, joined_lib]

theorem run_joinAtTransit (hnew : s.Lacks peerid fec) :
    (joinAtTransit map peerid fec).run s =
      let s₁ := s.joined 0 map peerid fec
      let send (p : UInt32) :=
        ldeSendLabelmapping p (temporaryNode fec (s.joinLabel fec)) true .freed s.lib
      match s.lib.towards fec.ipv4Prefix with
      | none => .ok () s₁
      | some ln1 =>
        if ln1.sent fec then .ok () { s₁ with lib := send peerid }
        else if (labelNbrFind ln1.peerid fec s₁.labelNbrs).isSome then .error .labelNbrExists s₁
        else
          .ok () { s₁.withEntry ⟨noLabel, s.joinLabel fec, ln1.peerid, fec, .up⟩ with
            lib := send ln1.peerid } := by
  have hlib : (s.joined 0 map peerid fec).lib = s.lib := s.joined_lib 0 map peerid fec
  unfold joinAtTransit
  rw [run_bind, run_modify]
  dsimp only
  rw [run_bind, run_joinDown hnew]
  simp only [run_bind, run_get, hlib]
  generalize s.joined 0 map peerid fec = s₁ at hlib ⊢
  cases s.lib.towards fec.ipv4Prefix with
  | none => rfl
  | some ln1 =>
    dsimp only
    by_cases hsent : ln1.sent fec = true
    · simp only [hsent, if_true, run_modifyLib, hlib]
    · rw [if_neg hsent, if_neg hsent, run_bind, run_labelNbrAdd]
      by_cases hdup : (labelNbrFind ln1.peerid fec s₁.labelNbrs).isSome = true
      · simp only [hdup, if_true]
      · simp only [if_neg hdup, run_modifyLib, withEntry, hlib]

theorem run_fromDownstream (map : Map) (peerid : UInt32) (fec : Fec) (s : Engine) :
    (fromDownstream map peerid fec).run s =
      match firstRoute fec.ipv4Prefix s.lib.ft with
      | none => .error .uninitialised s
      | some fn1 =>
        if fn1.isLocal ∨ s.leaf = 2 then (joinAtRoot map peerid fec).run { s with leaf := 2 }
        else (joinAtTransit map peerid fec).run s := by
  unfold fromDownstream
  simp only [run_bind, run_get]
  cases firstRoute fec.ipv4Prefix s.lib.ft with
  | none => rfl
  | some fn1 =>
    simp only [run_bind, run_modify, run_get]
    by_cases hlocal : fn1.isLocal = true
    · simp only [hlocal, if_true, true_or]
    · by_cases hleaf : s.leaf = 2
      · have hs : ({ s with leaf := 2 } : Engine) = s := by rw [← hleaf]
        simp only [hlocal, Bool.false_eq_true, if_false, hleaf, if_true, or_true, hs]
      · simp only [hlocal, Bool.false_eq_true, if_false, hleaf, or_false]

def Engine.relabelled (s : Engine) (lnr : LabelNbr) (label : UInt32) : Engine :=
  { s with
    labelNbrs := Table.modify labelNbrCompare LabelNbr.key lnr.key
      (fun lnr => { lnr with label := label }) s.labelNbrs }

theorem Engine.relabelled_bindings (s : Engine) (lnr : LabelNbr) (label : UInt32) :
    (s.relabelled lnr label).bindings = s.bindings :=
  map_modify fun _ _ => rfl

/-- The label of the fan-out. -/
def Engine.fanOutLabel (s : Engine) (fec : Fec) : UInt32 :=
  match s.labelNbrs.find? fun lnr1 => sameLsp lnr1.fec fec with
  | some lnr1 => if lnr1.localLabel = noLabel then s.label + 1 else lnr1.localLabel
  | none => 0

/-- The state once that label is chosen. -/
def Engine.withFanOutLabel (s : Engine) (fec : Fec) : Engine :=
  match s.labelNbrs.find? fun lnr1 => sameLsp lnr1.fec fec with
  | some lnr1 => if lnr1.localLabel = noLabel then { s with label := s.label + 1 } else s
  | none => s

theorem run_upstreamLabel {fec : Fec} :
    (upstreamLabel fec).run s = .ok (s.fanOutLabel fec) (s.withFanOutLabel fec) := by
  unfold fanOutLabel withFanOutLabel upstreamLabel
  simp only [run_bind, run_get]
  cases s.labelNbrs.find? fun lnr => sameLsp lnr.fec fec with
  | none => rfl
  | some lnr =>
    dsimp only
    split <;> rfl

theorem Engine.withFanOutLabel_eq (s : Engine) (fec : Fec) :
    s.withFanOutLabel fec = { s with label := (s.withFanOutLabel fec).label } := by
  unfold withFanOutLabel
  cases s.labelNbrs.find? fun lnr => sameLsp lnr.fec fec with
  | none => rfl
  | some lnr =>
    dsimp only
    split <;> rfl

theorem Engine.withFanOutLabel_label (s : Engine) (fec : Fec) :
    (s.withFanOutLabel fec).label = s.label ∨ (s.withFanOutLabel fec).label = s.label + 1 := by
  unfold withFanOutLabel
  cases s.labelNbrs.find? fun lnr => sameLsp lnr.fec fec with
  | none => exact .inl rfl
  | some lnr =>
    dsimp only
    split
    · exact .inr rfl
    · exact .inl rfl

theorem run_fromUpstream (map : Map) (lnr : LabelNbr) (fec : Fec) (s : Engine) :
    (fromUpstream map lnr fec).run s =
      let s₁ := s.relabelled lnr map.label
      if s.leaf = 1 then .ok () s₁
      else (fanOut fec (s₁.fanOutLabel fec) s₁.labelNbrs none).run (s₁.withFanOutLabel fec) := by
  unfold fromUpstream
  simp only [run_bind, run_modify, run_get]
  split
  · rfl
  · simp only [run_bind, run_get]
    rw [← relabelled, run_upstreamLabel]
    dsimp only
    rw [withFanOutLabel_eq]

theorem run_treeUp (root : InAddr) (ov : UInt8) (s : Engine) : (treeUp root ov).run s =
      match firstRoute root s.lib.ft with
      | none => .ok () { s with leaf := 1 }
      | some fn2 =>
        let s₁ := { s with leaf := 1, label := s.label + 1 }
        let fec4 := Fec.ofV4 fn2.fec.type root ov
        match fn2.nexthops.getLast? with
        | none => .error .uninitialised s₁
        | some fnh1 =>
          match s.lib.nbrFindByAddr fnh1.af fnh1.nexthop with
          | none => .error .nullDeref s₁
          | some ln2 =>
            if (labelNbrFind ln2.peerid fec4 s.labelNbrs).isSome then .error .labelNbrExists s₁
            else
              .ok () { s₁.withEntry ⟨noLabel, s.label + 1, ln2.peerid, fec4, .up⟩ with
                lib := ldeSendLabelmapping ln2.peerid (temporaryNode fec4 (s.label + 1)) true .freed
                  s.lib } := by
  unfold treeUp
  simp only [run_bind, run_modify, run_get]
  cases firstRoute root s.lib.ft with
  | none => rfl
  | some fn2 =>
    simp only [run_bind, ldeAssignLabel, run_modify, run_get, run_pure]
    cases fn2.nexthops.getLast? with
    | none => rfl
    | some fnh1 =>
      dsimp only
      cases s.lib.nbrFindByAddr fnh1.af fnh1.nexthop with
      | none => rfl
      | some ln2 =>
        generalize Fec.ofV4 fn2.fec.type root ov = fec4
        simp only [run_bind, run_labelNbrAdd]
        by_cases hdup : (labelNbrFind ln2.peerid fec4 s.labelNbrs).isSome = true
        · simp only [hdup, if_true]
        · simp only [if_neg hdup, run_modifyLib, withEntry]

theorem treeUp_cases (hrun : (treeUp root ov).run s = .ok () s') :
    (firstRoute root s.lib.ft = none ∧ s' = { s with leaf := 1 }) ∨
      ∃ fn fnh ln, firstRoute root s.lib.ft = some fn ∧ fn.nexthops.getLast? = some fnh ∧
        s.lib.nbrFindByAddr fnh.af fnh.nexthop = some ln ∧
        s' = { ({ s with leaf := 1, label := s.label + 1 } : Engine).withEntry
            ⟨noLabel, s.label + 1, ln.peerid, .ofV4 fn.fec.type root ov, .up⟩ with
          lib := ldeSendLabelmapping ln.peerid
            (temporaryNode (.ofV4 fn.fec.type root ov) (s.label + 1)) true .freed s.lib } := by
  rw [run_treeUp] at hrun
  cases hfn : firstRoute root s.lib.ft with
  | none =>
    rw [hfn] at hrun
    cases hrun
    exact .inl ⟨rfl, rfl⟩
  | some fn =>
    simp only [hfn] at hrun
    split at hrun
    · cases hrun
    · rename_i fnh hfnh
      split at hrun
      · cases hrun
      · rename_i ln hln
        split at hrun
        · cases hrun
        · cases hrun
          exact .inr ⟨fn, fnh, ln, rfl, hfnh, hln, rfl⟩

/-! ## The effect of an event -/

/-- The neighbour is one of `lde_nbrs`. -/
def Engine.Live (s : Engine) (peerid : UInt32) : Prop := peerid ∈ s.lib.nbrs.map LdeNbr.peerid

theorem Keeps.live (h : Keeps s.lib s'.lib) (peerid : UInt32) : s'.Live peerid ↔ s.Live peerid := by
  rw [Engine.Live, Engine.Live, h.peers]

def Engine.PeersDistinct (s : Engine) : Prop := (s.lib.nbrs.map LdeNbr.peerid).Nodup

/-- The nodes of `ft` are in the order of their FECs. -/
def Engine.RoutesSorted (s : Engine) : Prop := Table.Sorted fecCompare FecNode.fec s.lib.ft

theorem Keeps.distinct (h : Keeps s.lib s'.lib) (hs : s.PeersDistinct) : s'.PeersDistinct := by
  rwa [Engine.PeersDistinct, h.peers]

theorem TableSorted.of_sublist (h : s'.bindings.Sublist s.bindings) (hs : s.TableSorted) :
    s'.TableSorted := by
  -- the key is part of the binding
  have hkeys (s : Engine) : s.TableSorted ↔ s.bindings.Pairwise fun a b =>
      labelNbrCompare (a.fec, a.peerid) (b.fec, b.peerid) = .lt := by
    rw [bindings, pairwise_map]
    exact Iff.rfl
  exact (hkeys s').mpr (((hkeys s).mp hs).sublist h)

/-- All new entries are live neighbours joined to one LSP, with one label. -/
structure Joins (s s' : Engine) (fec : Fec) (label : UInt32) : Prop where
  lib : Keeps s.lib s'.lib
  entries : ∀ b ∈ s'.bindings,
    b ∈ s.bindings ∨ (b.fec = fec ∧ b.localLabel = label ∧ s.Live b.peerid)
  sorted : s.TableSorted → s'.TableSorted

theorem Joins.of_sublist (hlib : Keeps s.lib s'.lib) (h : s'.bindings.Sublist s.bindings) :
    Joins s s' fec label :=
  ⟨hlib, fun _ hb => .inl (h.subset hb), TableSorted.of_sublist h⟩

theorem Joins.shrinks (h : Joins s s' fec label) (h' : Shrinks s' s'') : Joins s s'' fec label :=
  ⟨h.lib.trans h'.lib, fun b hb => h.entries b (h'.bindings.subset hb),
    fun hs => TableSorted.of_sublist h'.bindings (h.sorted hs)⟩

theorem Joins.withEntry (h : Joins s s' fec label) (hfec : lnr.fec = fec)
    (hlabel : lnr.localLabel = label) (hlive : s.Live lnr.peerid) :
    Joins s (s'.withEntry lnr) fec label := by
  refine ⟨h.lib, fun b hb => ?_, fun hs => (h.sorted hs).insert⟩
  obtain ⟨lnr', hmem, rfl⟩ := mem_map.mp hb
  rcases mem_of_mem_insert hmem with rfl | hmem
  · exact .inr ⟨hfec, hlabel, hlive⟩
  · exact h.entries _ (mem_map_of_mem hmem)

theorem Joins.withLib (h : Joins s s' fec label) (hl : Keeps s'.lib l) :
    Joins s { s' with lib := l } fec label :=
  h.shrinks ⟨hl, rfl, .refl _⟩

theorem Joins.after {s₁ : Engine} (h : Joins s₁ s' fec label)
    (hlib : Keeps s.lib s₁.lib) (hnbrs : s₁.labelNbrs = s.labelNbrs) : Joins s s' fec label := by
  have hbindings : s₁.bindings = s.bindings := by rw [bindings, hnbrs, bindings]
  refine ⟨hlib.trans h.lib, fun b hb => ?_, fun hs => h.sorted (by rwa [Engine.TableSorted, hnbrs])⟩
  rw [← hbindings, ← hlib.live]
  exact h.entries b hb

/-- No entry is new, and at most one label was handed out. -/
structure Settles (s s' : Engine) : Prop where
  lib : Keeps s.lib s'.lib
  bindings : s'.bindings.Sublist s.bindings
  label : s'.label = s.label ∨ s'.label = s.label + 1

theorem Shrinks.settles (h : Shrinks s s') : Settles s s' := ⟨h.lib, h.bindings, .inl h.label⟩

theorem Settles.shrinks (h : Settles s s') (h' : Shrinks s' s'') : Settles s s'' :=
  ⟨h.lib.trans h'.lib, h'.bindings.trans h.bindings, by rw [h'.label]; exact h.label⟩

/-- What the handling of an event does to the table and to the set of neighbours. -/
inductive Effect (s : Engine) : Event → Engine → Prop
  | neighborUp {s' : Engine} {fresh v4 v6 : Bool} {peerid : UInt32} {id : InAddr}
    (bindings : s'.bindings = s.bindings) (label : s'.label = s.label)
    (routes : s.RoutesSorted → s'.RoutesSorted) (distinct : s.PeersDistinct → s'.PeersDistinct)
    (live : ∀ p, s'.Live p ↔ p = peerid ∨ s.Live p) :
    Effect s (.imsg fresh peerid (.neighborUp id v4 v6)) s'
  | neighborDown {s' : Engine} {fresh : Bool} {peerid : UInt32}
    (bindings : s'.bindings.Sublist s.bindings) (label : s'.label = s.label)
    (routes : s.RoutesSorted → s'.RoutesSorted) (distinct : s.PeersDistinct → s'.PeersDistinct)
    (live : ∀ p, s'.Live p ↔ p ≠ peerid ∧ s.Live p) :
    Effect s (.imsg fresh peerid .neighborDown) s'
  | settles {s' : Engine} {e : Event} (h : Settles s s') : Effect s e s'
  | command {s' : Engine} {fresh : Bool} {peerid : UInt32} {root : InAddr} {ov : UInt8} {fn : FecNode}
    (route : firstRoute root s.lib.ft = some fn)
    (joins : Joins s s' (Fec.ofV4 fn.fec.type root ov) (s.label + 1))
    (label : s'.label = s.label + 1) :
    Effect s (.imsg fresh peerid (.mldpAdd root ov)) s'
  | mapping {s' : Engine} {fresh : Bool} {peerid : UInt32} {map : Map} {ln : LdeNbr}
    (nbr : s.lib.nbr? peerid = some ln)
    (joins : Joins s s' (ldeMap2fec map ln.id) (s.joinLabel (ldeMap2fec map ln.id)))
    (label : s'.label = (s.withJoinLabel (ldeMap2fec map ln.id)).label) :
    Effect s (.imsg fresh peerid (.labelMapping map)) s'

open Effect

theorem Passive.effect {x : LdeM Unit} (hx : Passive x)
    (hrun : x.run s = .ok () s') : Effect s e s' :=
  .settles ((hx s).of_ok (Shrinks.refl s) hrun).settles

theorem treeUp_joins (hrun : (treeUp root ov).run s = .ok () s') :
    Settles s s' ∨ ∃ fn, firstRoute root s.lib.ft = some fn ∧
      Joins s s' (Fec.ofV4 fn.fec.type root ov) (s.label + 1) ∧ s'.label = s.label + 1 := by
  rcases treeUp_cases hrun with ⟨-, rfl⟩ | ⟨fn2, fnh, ln2, hroute, -, hln2, rfl⟩
  · exact .inl ⟨.refl _, .refl _, .inl rfl⟩
  · have hlive : s.Live ln2.peerid := mem_map_of_mem (mem_of_find?_eq_some hln2)
    have hjoin : Joins s { s with leaf := 1, label := s.label + 1 }
        (Fec.ofV4 fn2.fec.type root ov) (s.label + 1) :=
      .of_sublist (.refl _) (.refl _)
    exact .inr ⟨fn2, hroute,
      (hjoin.withEntry rfl rfl hlive).withLib (ldeSendLabelmapping_keeps _ _ _ _ _), rfl⟩

theorem Joins.joined (leaf : Nat)
    (hlive : s.Live peerid) : Joins s (s.joined leaf map peerid fec) fec (s.joinLabel fec) := by
  have hjoin : Joins s (s.withJoinLabel fec) fec (s.joinLabel fec) := by
    refine .of_sublist (by rw [withJoinLabel_lib]; exact .refl _) ?_
    rw [bindings, withJoinLabel_labelNbrs]
    exact .refl _
  exact (hjoin.withEntry rfl rfl hlive).shrinks ⟨.refl _, rfl, .refl _⟩

theorem Lib.towards_mem (h : l.towards root = some ln) : ln ∈ l.nbrs := by
  obtain ⟨fnh, -, hfind⟩ := Option.bind_eq_some_iff.mp h
  exact mem_of_find?_eq_some hfind

/-- A join from downstream adds entries of the one LSP only. -/
theorem fromDownstream_joins
    (hnew : s.Lacks peerid fec) (hlive : s.Live peerid)
    (hrun : (fromDownstream map peerid fec).run s = .ok () s') :
    Joins s s' fec (s.joinLabel fec) ∧ s'.label = (s.withJoinLabel fec).label := by
  have hsend (p : UInt32) (fn : FecNode) :
      Keeps (s.joined 0 map peerid fec).lib (ldeSendLabelmapping p fn true .freed s.lib) := by
    rw [joined_lib]
    exact ldeSendLabelmapping_keeps _ _ _ _ _
  rw [run_fromDownstream] at hrun
  split at hrun
  · cases hrun
  · split at hrun
    · rw [run_joinAtRoot hnew] at hrun
      cases hrun
      refine ⟨(Joins.joined 2 hlive).withLib ?_, rfl⟩
      rw [joined_lib]
      exact sendOnce_of (I := Keeps s.lib) (.refl _) (ldeSendLabelmapping_keeps _ _ _ _ _)
    · rw [run_joinAtTransit hnew] at hrun
      dsimp only at hrun
      split at hrun
      · cases hrun
        exact ⟨Joins.joined 0 hlive, rfl⟩
      · rename_i ln1 hln1
        split at hrun
        · cases hrun
          exact ⟨(Joins.joined 0 hlive).withLib (hsend _ _), rfl⟩
        · split at hrun
          · cases hrun
          · cases hrun
            have hup : s.Live ln1.peerid := mem_map_of_mem (Lib.towards_mem hln1)
            exact ⟨((Joins.joined 0 hlive).withEntry rfl rfl hup).withLib (hsend _ _), rfl⟩

/-- A label from upstream adds no entry. -/
theorem fromUpstream_settles
    (hrun : (fromUpstream map lnr fec).run s = .ok () s') : Settles s s' := by
  rw [run_fromUpstream] at hrun
  dsimp only at hrun
  have hbindings := s.relabelled_bindings lnr map.label
  split at hrun
  · cases hrun
    exact ⟨.refl _, by rw [hbindings], .inl rfl⟩
  · have hshrinks := ((shrinks_carries _).fanOut _ _ _ _).of_ok (Shrinks.refl _) hrun
    have hcount := (s.relabelled lnr map.label).withFanOutLabel_label fec
    rw [withFanOutLabel_eq] at hshrinks
    exact ⟨hshrinks.lib, hbindings ▸ hshrinks.bindings, hshrinks.label ▸ hcount⟩

theorem labelMapping_effect
    (hln : s.lib.nbr? peerid = some ln) (hrun : (labelMapping map ln).run s = .ok () s') :
    Effect s (.imsg fresh peerid (.labelMapping map)) s' := by
  obtain ⟨hmem, rfl⟩ := Lib.peerid_of_nbr? hln
  unfold labelMapping at hrun
  rw [run_bind, run_modifyLib] at hrun
  dsimp only at hrun
  obtain ⟨_, s₂, hmldp, hprint⟩ := run_bind_ok.mp hrun
  have hshrinks := (get fun a => (shrinks_carries s₂).printWalk a.labelNbrs).of_ok
    (Shrinks.refl s₂) hprint
  have hlib := ldeCheckMapping_keeps map ln.peerid s.lib
  unfold mldpMapping at hmldp
  rw [run_get_bind] at hmldp
  split at hmldp
  · rename_i hnew
    have hlive : s.Live ln.peerid := mem_map_of_mem hmem
    obtain ⟨hjoins, hlabel⟩ :=
      fromDownstream_joins (s := { s with lib := ldeCheckMapping map ln.peerid s.lib }) hnew
        ((Keeps.live hlib ln.peerid).mpr hlive) hmldp
    refine .mapping hln ((hjoins.after hlib rfl).shrinks hshrinks) (hshrinks.label.trans ?_)
    rw [hlabel, withJoinLabel_label, withJoinLabel_label]
  · obtain ⟨hlib', hbindings, hlabel⟩ := (fromUpstream_settles hmldp).shrinks hshrinks
    exact .settles ⟨hlib.trans hlib', hbindings, hlabel⟩

theorem run_ldeNbrDel (hrun : (ldeNbrDel r ln).run s = .ok () s') :
    ∃ s₂, Shrinks s s₂ ∧ s'.bindings = s₂.bindings ∧ s'.label = s₂.label ∧ s'.lib.ft = s₂.lib.ft ∧
      s'.lib.nbrs = remove ldeNbrCompare LdeNbr.peerid ln.peerid s₂.lib.nbrs := by
  unfold ldeNbrDel at hrun
  obtain ⟨_, s₁, hfree, hrest⟩ := run_bind_ok.mp hrun
  obtain ⟨_, s₂, hsent, hdel⟩ := run_bind_ok.mp hrest
  have hshrinks : Shrinks s s₂ :=
    ((passive_modifyLib (fun l => (freeRecvMaps_receives ln l).keeps) s).of_ok (Shrinks.refl s)
      hfree).trans
    ((Triple.forM fun me _ => (shrinks_carries s₁).ldeMapDelSent r ln.peerid me).of_ok
      (Shrinks.refl s₁) hsent)
  cases hdel
  exact ⟨s₂, hshrinks, rfl, rfl, rfl, rfl⟩

theorem live_ldeNbrDel (hrun : (ldeNbrDel r ln).run s = .ok () s') (p : UInt32) :
    s'.Live p ↔ p ≠ ln.peerid ∧ s.Live p := by
  obtain ⟨s₂, hshrinks, -, -, -, hnbrs⟩ := run_ldeNbrDel hrun
  rw [← hshrinks.lib.live]
  simp only [Engine.Live, hnbrs, remove, mem_map, mem_filter, bne_iff_ne, ne_eq,
    ldeNbrCompare_eq]
  constructor
  · rintro ⟨ln', ⟨hmem, hne⟩, rfl⟩
    exact ⟨fun h => hne h.symm, ln', hmem, rfl⟩
  · rintro ⟨hne, ln', hmem, rfl⟩
    exact ⟨ln', ⟨hmem, fun h => hne h.symm⟩, rfl⟩

theorem ldeNbrDel_effect
    (hln : s.lib.nbr? peerid = some ln) (hrun : (ldeNbrDel r ln).run s = .ok () s') :
    Effect s (.imsg fresh peerid .neighborDown) s' := by
  obtain ⟨-, rfl⟩ := Lib.peerid_of_nbr? hln
  obtain ⟨s₂, hshrinks, hbindings, hlabel, hft, hnbrs⟩ := run_ldeNbrDel hrun
  refine .neighborDown (hbindings ▸ hshrinks.bindings) (hlabel.trans hshrinks.label) (fun h => ?_)
    (fun h => ?_) (live_ldeNbrDel hrun)
  · rw [Engine.RoutesSorted, hft]
    exact hshrinks.lib.sorted h
  · rw [Engine.PeersDistinct, ← hshrinks.lib.peers] at h
    rw [Engine.PeersDistinct, hnbrs]
    exact h.sublist (filter_sublist.map _)

theorem ldeNbrNew_perm {v4 v6 : Bool} {id : InAddr} (hnew : l.nbr? peerid = none) :
    ((ldeNbrNew peerid id v4 v6 l).nbrs.map LdeNbr.peerid).Perm
      (peerid :: l.nbrs.map LdeNbr.peerid) := by
  let ln : LdeNbr := ⟨peerid, id, v4, v6, [], [], [], [], [], []⟩
  exact (insert_perm (a := ln) hnew).map LdeNbr.peerid

theorem ldeNbrNew_effect {v4 v6 : Bool} {id : InAddr} (hnew : s.lib.nbr? peerid = none) :
    Effect s (.imsg fresh peerid (.neighborUp id v4 v6))
      { s with lib := ldeNbrNew peerid id v4 v6 s.lib } := by
  refine .neighborUp rfl rfl (fun h => h) (fun h => ?_) fun p =>
    (ldeNbrNew_perm hnew).mem_iff.trans mem_cons
  refine (ldeNbrNew_perm hnew).nodup_iff.mpr (nodup_cons.mpr ⟨fun hmem => ?_, h⟩)
  rw [← Lib.nbr?_isSome, hnew] at hmem
  cases hmem

theorem ldeAddressAdd_peerid (a : LdeAddr) (ln : LdeNbr) : (ldeAddressAdd a ln).peerid = ln.peerid := by
  unfold ldeAddressAdd; split <;> rfl

theorem ldeAddressDel_peerid (a : LdeAddr) (ln : LdeNbr) : (ldeAddressDel a ln).peerid = ln.peerid := by
  unfold ldeAddressDel; split <;> rfl

theorem nbrImsg_passive (r : Freed) (ln : LdeNbr) (hmap : ∀ map, msg ≠ .labelMapping map)
    (hdown : msg ≠ .neighborDown) : Passive (nbrImsg r ln msg) := by
  intro s₀
  cases msg with
  | labelMapping map => exact absurd rfl (hmap map)
  | neighborDown => exact absurd rfl hdown
  | labelMappingFull => exact passive_modifyLib (fecSnap_keeps _) s₀
  | labelRequest map => exact passive_modifyLib (ldeCheckRequest_keeps _ _) s₀
  | labelRelease map => exact (shrinks_carries s₀).labelRelease r map ln
  | labelWithdraw map =>
    refine ite ((shrinks_carries s₀).labelWithdrawWcard r map ln fun s hs => ?_)
      (passive_modifyLib (ldeCheckWithdraw_keeps _ _) s₀)
    exact hs.withLib (ldeCheckWithdrawWcard_receives _ _ s.lib).keeps
  | addressAdd a =>
    exact passive_modifyLib (fun l => Keeps.modNbr (Keeps.refl l) (ldeAddressAdd_peerid a)) s₀
  | addressDel a =>
    exact passive_modifyLib (fun l => .modNbr (.refl l) (ldeAddressDel_peerid a)) s₀
  | notification nm =>
    refine ite (passive_modifyLib (fun l => ?_) s₀) (pure _)
    exact (l2vpnRecvPwStatus_installs _ _ l).receives.keeps
  | labelAbort => exact pure _
  | neighborUp => exact pure _
  | ctlShowLib => exact pure _
  | mldpAdd => exact pure _
  | mldpDel => exact pure _

theorem nbrImsg_effect
    (hln : s.lib.nbr? peerid = some ln) (hrun : (nbrImsg r ln msg).run s = .ok () s') :
    Effect s (.imsg fresh peerid msg) s' := by
  cases msg with
  | labelMapping map => exact labelMapping_effect hln hrun
  | neighborDown => exact ldeNbrDel_effect hln hrun
  | _ => exact Passive.effect (nbrImsg_passive r ln (by simp) (by simp)) hrun

/-- The messages that are about a neighbour. -/
def Imsg.forNbr : Imsg → Bool
  | .neighborUp .. | .ctlShowLib | .mldpAdd .. | .mldpDel .. => false
  | _ => true

theorem run_ldeDispatchImsg_nbr (r : Freed) (peerid : UInt32) (hmsg : msg.forNbr) (s : Engine) :
    (ldeDispatchImsg r peerid msg).run s =
      match s.lib.nbr? peerid with
      | none => .ok () s
      | some ln =>
        if msg.unknownAf then .error .unknownAf s else (nbrImsg r ln msg).run s := by
  have hget : (ldeDispatchImsg r peerid msg).run s = (match s.lib.nbr? peerid with
      | none => pure ()
      | some ln => if msg.unknownAf then throw .unknownAf else nbrImsg r ln msg : LdeM Unit).run s := by
    cases msg with
    | neighborUp => cases hmsg
    | ctlShowLib => cases hmsg
    | mldpAdd => cases hmsg
    | mldpDel => cases hmsg
    | _ => rfl
  rw [hget]
  cases s.lib.nbr? peerid with
  | none => rfl
  | some ln =>
    dsimp only
    split <;> rfl

/-- The state an event is handled in: the messages of the event before are gone,
and in a new call of `lde_dispatch_imsg` so is `ln1`. -/
def Engine.start (s : Engine) (fresh : Bool) : Engine :=
  { s with
    lib := { s.lib with out := [] }
    ln1 := if fresh then none else s.ln1 }

theorem run_step_imsg (r : Freed) (fresh : Bool) (peerid : UInt32) (msg : Imsg) (s : Engine) :
    (step r (.imsg fresh peerid msg)).run s = (ldeDispatchImsg r peerid msg).run (s.start fresh) := by
  unfold step
  rw [run_bind, run_modifyLib]
  dsimp only
  rw [run_bind, run_modify]
  cases fresh <;> rfl

theorem run_step_parent (r : Freed) (e : ParentEvent) (s : Engine) : (step r (.parent e)).run s =
      .ok () { s.start true with lib := ldeDispatchParent e (s.start true).lib } := rfl

/-- How an event is handled, if it is. -/
inductive Handled (r : Freed) (s : Engine) : Event → Engine → Prop
  | parent (e : ParentEvent) :
    Handled r s (.parent e) { s.start true with lib := ldeDispatchParent e (s.start true).lib }
  | unknown (fresh : Bool) {peerid : UInt32} {msg : Imsg} (hmsg : msg.forNbr)
    (hnone : s.lib.nbr? peerid = none) : Handled r s (.imsg fresh peerid msg) (s.start fresh)
  | nbr (fresh : Bool) {ln : LdeNbr} {msg : Imsg} {s' : Engine} (hmsg : msg.forNbr)
    (hln : s.lib.nbr? ln.peerid = some ln)
    (hrun : (nbrImsg r ln msg).run (s.start fresh) = .ok () s') :
    Handled r s (.imsg fresh ln.peerid msg) s'
  | neighborUp (fresh : Bool) {peerid : UInt32} (id : InAddr) (v4 v6 : Bool)
    (hnone : s.lib.nbr? peerid = none) :
    Handled r s (.imsg fresh peerid (.neighborUp id v4 v6))
      { s.start fresh with lib := ldeNbrNew peerid id v4 v6 (s.start fresh).lib }
  | ctlShowLib (fresh : Bool) (peerid : UInt32) {s' : Engine}
    (hrun : (rtDump s.labelNbrs).run (s.start fresh) = .ok () s') :
    Handled r s (.imsg fresh peerid .ctlShowLib) { s' with lib := s'.lib.emit .ctlEnd }
  | mldpAdd (fresh : Bool) (peerid : UInt32) {root : InAddr} {ov : UInt8} {s' : Engine}
    (hrun : (treeUp root ov).run (s.start fresh) = .ok () s') :
    Handled r s (.imsg fresh peerid (.mldpAdd root ov)) { s' with lib := s'.lib.emit .ctlMldpLsp }
  | mldpDel (fresh : Bool) (peerid : UInt32) {root : InAddr} {ov : UInt8} {s' : Engine}
    (hrun : (treeDown r root ov).run (s.start fresh) = .ok () s') :
    Handled r s (.imsg fresh peerid (.mldpDel root ov)) { s' with lib := s'.lib.emit .ctlMldpLsp }

/-- The inversion of a step. -/
theorem step_handled (hrun : (step r e).run s = .ok () s') : Handled r s e s' := by
  cases e with
  | parent e =>
    rw [run_step_parent] at hrun
    cases hrun
    exact .parent e
  | imsg fresh peerid msg =>
    rw [run_step_imsg] at hrun
    by_cases hmsg : msg.forNbr
    · rw [run_ldeDispatchImsg_nbr r peerid hmsg] at hrun
      split at hrun
      · cases hrun
        exact .unknown fresh hmsg ‹_›
      · rename_i ln hln
        split at hrun
        · cases hrun
        · obtain ⟨-, rfl⟩ := Lib.peerid_of_nbr? hln
          exact .nbr fresh hmsg hln hrun
    cases msg with
    | neighborUp id v4 v6 =>
      unfold ldeDispatchImsg at hrun
      rw [run_get_bind] at hrun
      split at hrun
      · cases hrun
      · rename_i hnone
        cases hrun
        exact .neighborUp fresh id v4 v6 (Option.not_isSome_iff_eq_none.mp hnone)
    | ctlShowLib =>
      obtain ⟨_, s₁, hget, hrest⟩ := run_bind_ok.mp hrun
      cases hget
      obtain ⟨_, s₂, hdump, hout⟩ := run_bind_ok.mp hrest
      cases hout
      exact .ctlShowLib fresh peerid hdump
    | mldpAdd root ov =>
      obtain ⟨_, s₁, htree, hout⟩ := run_bind_ok.mp hrun
      cases hout
      exact .mldpAdd fresh peerid htree
    | mldpDel root ov =>
      obtain ⟨_, s₁, htree, hout⟩ := run_bind_ok.mp hrun
      cases hout
      exact .mldpDel fresh peerid htree
    | _ => exact absurd rfl hmsg

theorem Effect.of_start (fresh : Bool) (h : Effect (s.start fresh) e s') : Effect s e s' := by
  have hlib : Keeps s.lib (s.start fresh).lib := ⟨rfl, id⟩
  cases h with
  | neighborUp bindings label routes distinct live =>
    exact .neighborUp bindings label routes distinct live
  | neighborDown bindings label routes distinct live =>
    exact .neighborDown bindings label routes distinct live
  | settles h => exact .settles ⟨hlib.trans h.lib, h.bindings, h.label⟩
  | command route joins label => exact .command route (joins.after hlib rfl) label
  | mapping nbr joins label =>
    refine .mapping nbr (joins.after hlib rfl) (label.trans ?_)
    rw [withJoinLabel_label, withJoinLabel_label]
    rfl

/-- What a step does, whatever the event. -/
theorem step_effect (hrun : (step r e).run s = .ok () s') : Effect s e s' := by
  have hemit {s₀ s₁ : Engine} (o : Out) (hs : Shrinks s₀ s₁) :
      Shrinks s₀ { s₁ with lib := s₁.lib.emit o } :=
    hs.withLib (.emit (.refl _))
  cases step_handled hrun with
  | parent e =>
    refine of_start true (.settles (Shrinks.settles ?_))
    exact (Shrinks.refl _).withLib (ldeDispatchParent_keeps e _)
  | unknown fresh => exact of_start fresh (.settles (Shrinks.refl _).settles)
  | nbr fresh _ hln hnbr => exact of_start fresh (nbrImsg_effect hln hnbr)
  | neighborUp fresh id v4 v6 hnone => exact of_start fresh (ldeNbrNew_effect hnone)
  | ctlShowLib fresh peerid hwalk =>
    have hshrinks := ((shrinks_carries _).rtDump _).of_ok (Shrinks.refl _) hwalk
    exact of_start fresh (.settles (hemit .ctlEnd hshrinks).settles)
  | mldpAdd fresh peerid hwalk =>
    apply of_start fresh
    rcases treeUp_joins hwalk with hsettles | ⟨fn, hroute, hjoins, hlabel⟩
    · exact .settles (hsettles.shrinks (hemit _ (Shrinks.refl _)))
    · exact .command hroute (hjoins.shrinks (hemit _ (Shrinks.refl _))) hlabel
  | mldpDel fresh peerid hwalk =>
    have hshrinks := ((shrinks_carries _).treeDown r _ _).of_ok (Shrinks.refl _) hwalk
    exact of_start fresh (.settles (hemit .ctlMldpLsp hshrinks).settles)

theorem Inert.step (h : Inert P) (hstart : ∀ fresh, P (s.start fresh))
    (hparent : ∀ event, e = .parent event →
      P { s.start true with lib := ldeDispatchParent event (s.start true).lib })
    (hnbr : ∀ fresh ln msg, e = .imsg fresh ln.peerid msg → s.lib.nbr? ln.peerid = some ln →
      (nbrImsg r ln msg).run (s.start fresh) = .ok () s' → P s')
    (hnew : ∀ fresh peerid id v4 v6, s.lib.nbr? peerid = none →
      P { s.start fresh with lib := ldeNbrNew peerid id v4 v6 (s.start fresh).lib })
    (htree : ∀ fresh peerid root ov s₁, e = .imsg fresh peerid (.mldpAdd root ov) →
      (treeUp root ov).run (s.start fresh) = .ok () s₁ → P s₁)
    (hrun : (step r e).run s = .ok () s') : P s' := by
  cases step_handled hrun with
  | parent event => exact hparent event rfl
  | unknown fresh => exact hstart fresh
  | nbr fresh _ hln hdone => exact hnbr fresh _ _ rfl hln hdone
  | neighborUp fresh id v4 v6 hnone => exact hnew fresh _ id v4 v6 hnone
  | ctlShowLib fresh peerid hwalk =>
    exact h.emit _ _ nofun ((h.tears.rtDump s.labelNbrs).of_ok (hstart fresh) hwalk)
  | mldpAdd fresh peerid hwalk => exact h.emit _ _ nofun (htree fresh peerid _ _ _ rfl hwalk)
  | mldpDel fresh peerid hwalk =>
    exact h.emit _ _ nofun ((h.tears.treeDown r _ _).of_ok (hstart fresh) hwalk)

end Mp2mp.Lde
