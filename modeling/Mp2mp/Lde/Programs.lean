import Mp2mp.Lde.Frame

/-!
# Programs by their operations

The programs of the engine are built from few operations: a message, an entry of the
table, a record of what was sent.  A property that each operation carries through is
carried through by the programs, so an invariant is checked against the operations and
not against every walk.

* `Tears`: the walks that print the table or tear its entries down.
* `Unlinks`, `Releases`: the end of a mapping that was sent.
* `Carries`: with the mappings of the fan-out.
* `OnLib`: with the joins, all of them.
-/

namespace Mp2mp.Lde

open Kit Ldpd

variable {P : Engine → Prop} {E : Fault → Prop} {α : Type} {f : Engine → Engine}

/-- A program that carries a property through and stops with the faults in `E` only. -/
abbrev Carried {α : Type} (P : Engine → Prop) (E : Fault → Prop) (x : LdeM α) : Prop :=
  Triple P x (fun _ => P) fun f _ => E f

namespace Carried

theorem pure (a : α) : Carried P E (pure a) := Triple.pure fun _ hs => hs

theorem throw {f : Fault} (hf : E f) : Carried P E (throw f : LdeM α) :=
  Triple.throw fun _ _ => hf

theorem modify (hf : ∀ s, P s → P (f s)) : Carried P E (modify f) :=
  Triple.modify hf

theorem bind {β : Type} {x : LdeM α} {f : α → LdeM β} (hx : Carried P E x)
    (hf : ∀ a, Carried P E (f a)) : Carried P E (x >>= f) :=
  Triple.bind hx hf

theorem get {β : Type} {f : Engine → LdeM β} (hf : ∀ a, Carried P E (f a)) :
    Carried P E (MonadState.get >>= f) :=
  Triple.get hf

theorem ite {c : Prop} [Decidable c] {x y : LdeM α} (hx : Carried P E x)
    (hy : Carried P E y) : Carried P E (if c then x else y) :=
  Triple.ite (fun _ => hx) fun _ => hy

end Carried

/-- The operations of the walks over the table. -/
structure Tears (P : Engine → Prop) (E : Fault → Prop) : Prop where
  fault : ∀ f, f ≠ .labelNbrExists → E f
  emit : ∀ s o, (∀ p map, o ≠ .mappingAdd p map) → P s → P { s with lib := s.lib.emit o }
  withdraw : ∀ s peerid label, P s →
    P { s with lib := ldeSendLabelwithdrawWcard peerid label s.lib }
  release : ∀ s peerid label, P s →
    P { s with lib := ldeSendLabelreleaseWcard peerid label s.lib }
  del : ∀ s lnr, P s → P { s with labelNbrs := labelNbrDel lnr s.labelNbrs }
  leaf : ∀ s leaf, P s → P { s with leaf := leaf }
  ln1 : ∀ s ln1, P s → P { s with ln1 := ln1 }

/-- The operations of `lde_map_del` for a sent mapping. -/
structure Unlinks (P : Engine → Prop) (E : Fault → Prop) : Prop where
  fault : ∀ f, f ≠ .labelNbrExists → E f
  unsend : ∀ s peerid fec, P s →
    P { s with
      lib := s.lib.modNbr peerid fun ln =>
        { ln with sentMap := fecRemove LdeMap.fec fec ln.sentMap } }
  upstream : ∀ s fec peerid, P s →
    P { s with
      lib := s.lib.modNode fec fun fn => { fn with upstream := fn.upstream.erase peerid } }
  relink : ∀ s peerid fec prev, P s → P { s with lib := relink peerid fec prev s.lib }

/-- The operations of a label release. -/
structure Releases (P : Engine → Prop) (E : Fault → Prop) : Prop extends Unlinks P E where
  releaseWdraw : ∀ s map peerid fec, P s → P { s with lib := releaseWdraw map peerid fec s.lib }

/-- The operations of the programs that add no entry to the table. -/
structure Carries (P : Engine → Prop) (E : Fault → Prop) : Prop extends Tears P E, Releases P E where
  mapping : ∀ s peerid fn, P s → P { s with lib := ldeSendLabelmapping peerid fn true .freed s.lib }
  link : ∀ s q peerid fec, P s → P { s with lib := linkBehind q peerid fec s.lib }

section

variable (hE : ∀ f, f ≠ .labelNbrExists → E f)

include hE

theorem access_carried (r : Freed) : Carried P E r.access := by
  cases r with
  | lost => exact .throw (hE _ nofun)
  | intact => exact .pure _

theorem ldeNbrDeref_carried (peerid : UInt32) : Carried P E (ldeNbrDeref peerid) := by
  refine .get fun s => ?_
  cases s.lib.nbr? peerid with
  | none => exact .throw (hE _ nofun)
  | some ln => exact .pure _

theorem assigned_carried (ln : Option UInt32) : Carried P E (assigned ln) := by
  cases ln with
  | none => exact .throw (hE _ nofun)
  | some peerid => exact .pure _

end

/-! ## Walks over the table -/

namespace Tears

variable (h : Tears P E)

include h

section

variable (r : Freed) (t : List LabelNbr)

theorem rtDump : Carried P E (rtDump t) := by
  induction t with
  | nil => exact .pure _
  | cons lnr rest ih =>
    refine .ite ih (.bind (ldeNbrDeref_carried h.fault _) fun ln => ?_)
    exact .bind (.modify fun s hs => h.emit s _ (fun _ _ => nofun) hs) fun _ => ih

theorem printWalk : Carried P E (printWalk t) := by
  induction t with
  | nil => exact .pure _
  | cons lnr rest ih =>
    refine .bind (ldeNbrDeref_carried h.fault _) fun _ => ?_
    exact .bind (.modify fun s hs => h.ln1 s _ hs) fun _ => ih

theorem tearEntry (lnr : LabelNbr) (peerid : UInt32) : Carried P E (tearEntry r lnr peerid) := by
  refine .bind (ldeNbrDeref_carried h.fault _) fun _ => .bind ?_ fun _ =>
    .bind ?_ fun _ => .bind ?_ fun _ => access_carried h.fault r
  · exact .modify fun s hs => h.withdraw s _ _ hs
  · exact .modify fun s hs => h.release s _ _ hs
  · exact .modify fun s hs => h.del s lnr hs

theorem teardownWalk : Carried P E (teardownWalk r t) := by
  induction t with
  | nil => exact .pure _
  | cons lnr rest ih => exact .ite (.bind (h.tearEntry _ _ _) fun _ => ih) ih

theorem treeDown (root : InAddr) (ov : UInt8) : Carried P E (treeDown r root ov) := by
  have hwalk (t : List LabelNbr) (ln : Option UInt32) : Carried P E (treeDownWalk r root ov t ln) := by
    induction t generalizing ln with
    | nil => exact .pure _
    | cons lnr rest ih =>
      refine .bind (assigned_carried h.fault _) fun _ => ?_
      exact .bind (h.tearEntry _ _ _) fun _ => ih _
  exact .bind (.modify fun s hs => h.leaf s 1 hs) fun _ => .get fun _ => hwalk _ _

theorem labelWithdrawWcard (map : Map) (ln : LdeNbr)
    (hcheck : ∀ s, P s → P { s with lib := ldeCheckWithdrawWcard map ln.peerid s.lib }) :
    Carried P E (labelWithdrawWcard r map ln) := by
  refine .bind (.modify hcheck) fun _ => .bind ?_ fun _ => .get fun s => ?_
  · refine .modify fun s hs => ?_
    split
    · exact h.del s _ hs
    · exact hs
  · exact .ite (h.teardownWalk _ _) (.pure _)

end

end Tears

/-! ## Releases -/

theorem Unlinks.ldeMapDelSent (h : Unlinks P E) (r : Freed) (peerid : UInt32) (me : LdeMap) :
    Carried P E (ldeMapDelSent r peerid me) := by
  refine .bind (.modify fun s hs => h.unsend s _ _ hs) fun _ => ?_
  cases me.prev with
  | node => exact .modify fun s hs => h.upstream s _ _ hs
  | entry q => exact .modify fun s hs => h.relink s _ _ _ hs
  | freed =>
    refine .bind (access_carried h.fault r) fun _ => ?_
    exact .modify fun s hs => h.relink s _ _ _ hs

namespace Releases

variable (h : Releases P E)

include h

theorem releaseSent (r : Freed) (map : Map) (peerid : UInt32) (fec : Fec) :
    Carried P E (releaseSent r map peerid fec) := by
  refine .bind (.modify fun s hs => h.releaseWdraw s _ _ _ hs) fun _ =>
    .get fun s => ?_
  split
  · exact .pure _
  · exact .ite (h.ldeMapDelSent _ _ _) (.pure _)

/-- A label release, of one FEC or of all. -/
theorem labelRelease (r : Freed) (map : Map) (ln : LdeNbr) :
    Carried P E (nbrImsg r ln (.labelRelease map)) := by
  apply Carried.ite
  · exact Carried.get fun _ => .forM fun fec _ => h.releaseSent _ _ _ fec
  · exact .get fun _ => .ite (.pure _) (h.releaseSent _ _ _ _)

end Releases

/-! ## Mappings -/

section

variable {I : Lib → Prop} {l : Lib} {peerid : UInt32} {fec : Fec} {label : UInt32}

theorem sendOnce_of (hl : I l)
    (hmap : I (ldeSendLabelmapping peerid (temporaryNode fec label) true .freed l)) :
    I (sendOnce peerid fec label l) := by
  unfold sendOnce
  split
  · exact hl
  · split
    · exact hl
    · exact hmap

theorem fanOutSend_of (head : Option UInt32) (hl : I l)
    (hmap : I (ldeSendLabelmapping peerid (temporaryNode fec label) true .freed l))
    (hlink : ∀ l q, I l → I (linkBehind q peerid fec l)) :
    I (fanOutSend peerid fec label head l).1 := by
  have hsent := sendOnce_of hl hmap
  simp only [fanOutSend]
  split
  · exact hsent
  · split
    · exact hsent
    · exact hlink _ _ hsent

end

namespace Carries

variable (h : Carries P E)

include h

theorem sendOnce (s : Engine) (peerid : UInt32) (fec : Fec) (label : UInt32) (hs : P s) :
    P { s with lib := sendOnce peerid fec label s.lib } :=
  sendOnce_of (I := fun l => P { s with lib := l }) hs (h.mapping s _ _ hs)

theorem fanOutSend (s : Engine) (peerid : UInt32) (fec : Fec) (label : UInt32)
    (head : Option UInt32) (hs : P s) :
    P { s with lib := (fanOutSend peerid fec label head s.lib).1 } :=
  fanOutSend_of (I := fun l => P { s with lib := l }) head hs (h.mapping s _ _ hs) fun l q hl =>
    h.link { s with lib := l } q _ _ hl

theorem fanOut (fec : Fec) (label : UInt32) (t : List LabelNbr) (head : Option UInt32) :
    Carried P E (fanOut fec label t head) := by
  induction t generalizing head with
  | nil => exact .pure _
  | cons lnr1 rest ih =>
    refine .bind (ldeNbrDeref_carried h.fault _) fun _ => .bind ?_ fun _ => ?_
    · refine .modify fun s hs => ?_
      split
      · exact h.ln1 s _ hs
      · exact hs
    · refine .get fun s => .bind (assigned_carried h.fault _) fun peerid => ?_
      exact .bind (.modify fun s hs => h.fanOutSend s _ _ _ _ hs) fun _ => ih _

end Carries

/-! ## Joins -/

/-- A property of the label information base alone, which new entries do not touch. -/
structure OnLib (P : Engine → Prop) : Prop extends Carries P fun _ => True where
  only : ∀ s s' : Engine, s'.lib = s.lib → P s → P s'

namespace OnLib

variable (h : OnLib P)

include h

section

variable (map : Map) (peerid : UInt32) (fec : Fec)

theorem modify (hf : ∀ s, (f s).lib = s.lib) : Stable P (modify f : LdeM Unit) :=
  .modify fun s hs => h.only s (f s) (hf s) hs

theorem ldeAssignLabel : Stable P ldeAssignLabel :=
  .bind (h.modify fun _ => rfl) fun _ => .get fun _ => .pure _

theorem labelNbrAdd (lnr : LabelNbr) : Stable P (labelNbrAdd lnr) := by
  refine ⟨fun s hs => ?_⟩
  unfold Lde.labelNbrAdd
  simp only [EStateM.run_bind, EStateM.run_get]
  by_cases hdup : (labelNbrFind lnr.peerid lnr.fec s.labelNbrs).isSome
  · rw [if_pos hdup]
    trivial
  · rw [if_neg hdup]
    exact h.only s _ rfl hs

theorem joinDown : Stable P (joinDown map peerid fec) := by
  refine .bind (.get fun s => ?_) fun label =>
    .bind (h.labelNbrAdd _) fun _ => .pure _
  split
  · exact .pure _
  · exact h.ldeAssignLabel

theorem sendTemporary (fn : FecNode) :
    Stable P (modifyLib (ldeSendLabelmapping peerid fn true .freed)) :=
  .modify fun s hs => h.mapping s _ _ hs

theorem treeUp (root : InAddr) (ov : UInt8) : Stable P (treeUp root ov) := by
  refine .bind (h.modify fun _ => rfl) fun _ => .get fun s => ?_
  dsimp only
  split
  · exact .pure _
  · refine .bind h.ldeAssignLabel fun label => ?_
    split
    · exact .throw _
    · split
      · exact .throw _
      · exact .bind (h.labelNbrAdd _) fun _ => h.sendTemporary _ _

theorem fromDownstream : Stable P (fromDownstream map peerid fec) := by
  refine .get fun s => ?_
  split
  · exact .throw _
  · refine .bind (h.modify fun s => by split <;> rfl) fun _ => .get fun s => ?_
    apply Stable.ite
    · refine Stable.bind (h.joinDown _ _ _) fun label => ?_
      exact .modify fun s hs => h.sendOnce s _ _ _ hs
    · refine .bind (h.modify fun _ => rfl) fun _ => ?_
      refine .bind (h.joinDown _ _ _) fun label => .get fun s => ?_
      split
      · exact .pure _
      · apply Stable.ite
        · exact h.sendTemporary _ _
        · exact Stable.bind (h.labelNbrAdd _) fun _ => h.sendTemporary _ _

end

theorem fromUpstream (map : Map) (lnr : LabelNbr) (fec : Fec) :
    Stable P (fromUpstream map lnr fec) := by
  refine .bind (h.modify fun _ => rfl) fun _ => .get fun s => ?_
  refine .ite (.pure _) (.bind (.get fun s => ?_) fun label =>
    .get fun s => h.fanOut _ _ _ _)
  split
  · exact .ite h.ldeAssignLabel (.pure _)
  · exact .pure _

theorem mldpMapping (map : Map) (peerid : UInt32) (fec : Fec) :
    Stable P (mldpMapping map peerid fec) := by
  refine .get fun s => ?_
  split
  · exact h.fromDownstream _ _ _
  · exact h.fromUpstream _ _ _

end OnLib

end Mp2mp.Lde
