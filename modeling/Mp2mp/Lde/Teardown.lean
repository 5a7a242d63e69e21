import Mp2mp.Lde.FanOut

/-!
# Teardown of LSPs

A wildcard withdraw removes one entry.  The handler then asks whether any `down`
entry is left in the whole table, and if not tears down every `up` entry of the
whole table; the walk steps on from entries that it has freed.

`teardown_iff`: when this is what the LSP of the entry alone asks for.
`treeDown_iff`: when the command to leave an LSP takes away that LSP alone.
-/

namespace Mp2mp.Lde

open Kit Ldpd List Engine EStateM

variable {r : Freed} {s s' : Engine} {l : Lib} {map : Map} {ln : LdeNbr} {m lnr : LabelNbr}
  {root : InAddr} {ov : UInt8} {t : List LabelNbr}

/-! ## The walk -/

/-- The messages by which an entry is torn down. -/
def tearMessages (lnr : LabelNbr) : List Out :=
  [ .withdrawAdd lnr.peerid (wildcardMap lnr.label), .withdrawAddEnd lnr.peerid,
    .releaseAdd lnr.peerid (wildcardMap lnr.label), .releaseAddEnd lnr.peerid ]

/-- The label information base once they are sent. -/
def tearLib (l : Lib) (lnr : LabelNbr) : Lib :=
  ldeSendLabelreleaseWcard lnr.peerid lnr.label (ldeSendLabelwithdrawWcard lnr.peerid lnr.label l)

theorem toPeers_tearLib : (tearLib l lnr).toPeers = l.toPeers ++ tearMessages lnr := by
  have hwithdraw : (ldeSendLabelwithdrawWcard lnr.peerid lnr.label l).toPeers =
      l.toPeers ++ [.withdrawAdd lnr.peerid (wildcardMap lnr.label), .withdrawAddEnd lnr.peerid] := by
    simp only [ldeSendLabelwithdrawWcard]
    exact Eq.trans (b := ((l.emit _).emit _).toPeers) rfl (by simp [Lib.toPeers_emit, Out.peer?])
  simp only [tearLib, ldeSendLabelreleaseWcard, Lib.toPeers_emit, hwithdraw, Out.peer?,
    Option.isSome_some, if_true, tearMessages, append_assoc]
  rfl

theorem tearLib_keeps : Keeps l (tearLib l lnr) :=
  ((ldeSendLabelwithdrawWcard_same _ _ l).trans (ldeSendLabelreleaseWcard_receives _ _ _).same).keeps

theorem run_tearEntry {s : Engine} : (tearEntry r lnr lnr.peerid).run s =
      match s.lib.nbr? lnr.peerid with
      | none => .error .nullDeref s
      | some _ =>
        r.access.run { s with lib := tearLib s.lib lnr, labelNbrs := labelNbrDel lnr s.labelNbrs } := by
  rw [tearEntry, run_bind, run_ldeNbrDeref]
  cases s.lib.nbr? lnr.peerid <;> rfl

/-- A walk that finds an `up` entry does not get past it if freed memory is lost. -/
theorem run_teardownWalk_lost (hup : ∃ lnr ∈ t, lnr.type = .up) :
    (teardownWalk .lost t).run s ≠ .ok () s' := by
  induction t with
  | nil =>
    obtain ⟨lnr, hlnr, -⟩ := hup
    cases hlnr
  | cons lnr rest ih =>
    rw [teardownWalk]
    split
    · intro hrun
      obtain ⟨_, s₁, htear, -⟩ := run_bind_ok.mp hrun
      rw [run_tearEntry] at htear
      split at htear <;> cases htear
    · rename_i hdown
      refine ih ?_
      obtain ⟨lnr', hlnr', htype⟩ := hup
      rcases mem_cons.mp hlnr' with rfl | hmem
      · exact absurd htype hdown
      · exact ⟨lnr', hmem, htype⟩

theorem run_teardownWalk_intact (hup : ∀ lnr ∈ t, lnr.type = .up) :
    (teardownWalk .intact t).run s = .ok () s' ↔ (∀ lnr ∈ t, (s.lib.nbr? lnr.peerid).isSome) ∧
        s' = { s with
          lib := t.foldl tearLib s.lib
          labelNbrs := t.foldl (fun t lnr => labelNbrDel lnr t) s.labelNbrs } := by
  induction t generalizing s with
  | nil =>
    rw [teardownWalk, run_pure]
    constructor
    · intro h
      cases h
      exact ⟨nofun, rfl⟩
    · rintro ⟨-, rfl⟩
      rfl
  | cons lnr rest ih =>
    obtain ⟨htype, hrest⟩ := forall_mem_cons.mp hup
    have hkeep (p : UInt32) : ((tearLib s.lib lnr).nbr? p).isSome ↔ (s.lib.nbr? p).isSome := by
      rw [Lib.nbr?_isSome, Lib.nbr?_isSome, (tearLib_keeps).peers]
    rw [teardownWalk, if_pos htype, run_bind, run_tearEntry]
    cases hln : s.lib.nbr? lnr.peerid with
    | none => simp [hln]
    | some ln =>
      simp only [Freed.access, run_pure, ih hrest, hkeep, forall_mem_cons, hln,
        Option.isSome_some, true_and, foldl_cons]

theorem toPeers_foldl_tearLib :
    (t.foldl tearLib l).toPeers = l.toPeers ++ t.flatMap tearMessages := by
  induction t generalizing l with
  | nil => exact (append_nil _).symm
  | cons lnr rest ih =>
    rw [foldl_cons, ih, toPeers_tearLib, flatMap_cons, append_assoc]

theorem foldl_labelNbrDel : t.foldl (fun t lnr => labelNbrDel lnr t) t = [] := by
  have hgeneral (t t' : List LabelNbr) : ∀ x ∈ t.foldl (fun t lnr => labelNbrDel lnr t) t',
      x ∈ t' ∧ x ∉ t := by
    induction t generalizing t' with
    | nil => exact fun x hx => ⟨hx, not_mem_nil⟩
    | cons lnr rest ih =>
      intro x hx
      obtain ⟨hmem, hrest⟩ := ih _ x hx
      obtain ⟨hmem', hkey⟩ := mem_filter.mp hmem
      refine ⟨hmem', fun hx' => ?_⟩
      rcases mem_cons.mp hx' with rfl | hx'
      · simp [Std.ReflCmp.compare_self] at hkey
      · exact hrest hx'
  exact eq_nil_iff_forall_not_mem.mpr fun x hx =>
    absurd (hgeneral t t x hx).1 (hgeneral t t x hx).2

/-! ## A withdraw that matches an entry -/

def Engine.without (s : Engine) (m : LabelNbr) : List LabelNbr :=
  s.labelNbrs.filter fun lnr => lnr ≠ m

/-- The last command for the LSP (root, ov) was to join it. -/
def isLeafOf (root : InAddr) (ov : UInt8) (tr : List Event) : Bool :=
  tr.foldl (fun leaf e =>
    match e with
    | .imsg _ _ (.mldpAdd root' ov') => if root' = root ∧ ov' = ov then true else leaf
    | .imsg _ _ (.mldpDel root' ov') => if root' = root ∧ ov' = ov then false else leaf
    | _ => leaf) false

/-- A wildcard withdraw matches the `down` entry `m` of the LSP (root, ov). -/
structure Withdraws (s : Engine) (ln : LdeNbr) (map : Map) (m : LabelNbr) (root : InAddr)
    (ov : UInt8) : Prop where
  type : map.type = .wildcard
  nbr : s.lib.nbr? ln.peerid = some ln
  entry : withdrawn map ln.peerid s.labelNbrs = some m
  down : m.type = .down
  lsp : m.fec = .ipv4 root ov

/-- The LSP of `m` is to be torn down: without `m` no `down` entry of it is
left, and this router is not a leaf of it. -/
def tearsDown (s : Engine) (m : LabelNbr) (leaf : Bool) : Bool :=
  !leaf && (s.without m).all fun lnr => !(lnr.fec == m.fec && lnr.type == .down)

/-- The `up` entries of the LSP of `m`. -/
def Engine.upOf (s : Engine) (m : LabelNbr) : List LabelNbr :=
  (s.without m).filter fun lnr => lnr.fec == m.fec && lnr.type == .up

/-- The entry `m` is removed and the withdraw answered; if the LSP is to be torn down, its `up`
entries are removed, withdrawn and released, and nothing else is changed or sent. -/
structure TornDown (s s' : Engine) (ln : LdeNbr) (map : Map) (m : LabelNbr) (tear : Bool) :
    Prop where
  table : s'.labelNbrs =
    (s.without m).filter fun lnr => !(tear && (lnr.fec == m.fec && lnr.type == .up))
  messages : s'.lib.toPeers =
    [.releaseAdd ln.peerid (wildcardMap map.label), .releaseAddEnd ln.peerid] ++
      if tear then (s.upOf m).flatMap tearMessages else []

/-- What the handler asks instead: no `down` entry is left at all, and the role
of the router is not that of a root. -/
def wipes (s : Engine) (m : LabelNbr) : Bool :=
  s.leaf != 2 && (s.without m).all fun lnr => lnr.type == .up

theorem toPeers_ldeCheckWithdrawWcard {map : Map} {peerid : UInt32} :
    (ldeCheckWithdrawWcard map peerid l).toPeers =
      l.toPeers ++ [.releaseAdd peerid (wildcardMap map.label), .releaseAddEnd peerid] := by
  have hrecv (l : Lib) (fec : Fec) : (withdrawRecv map peerid fec l).toPeers = l.toPeers := by
    unfold withdrawRecv
    split
    · split <;> rfl
    · rfl
  have hfold (fecs : List Fec) (l : Lib) :
      (fecs.foldl (fun l fec => withdrawRecv map peerid fec l) l).toPeers = l.toPeers :=
    foldlRecOn (motive := fun l' : Lib => l'.toPeers = l.toPeers) fecs _ rfl
      fun l' hl' fec _ => (hrecv l' fec).trans hl'
  rw [ldeCheckWithdrawWcard, hfold]
  simp [ldeSendLabelreleaseWcard, Lib.toPeers_emit, Out.peer?]

/-- The state once the entry is removed. -/
def Engine.withdrawnState (s : Engine) (map : Map) (ln : LdeNbr) (m : LabelNbr) : Engine :=
  { s with
    lib := ldeCheckWithdrawWcard map ln.peerid s.lib
    labelNbrs := s.without m }

theorem run_labelWithdrawWcard (hs : s.TableSorted)
    (hm : withdrawn map ln.peerid s.labelNbrs = some m) :
    (labelWithdrawWcard r map ln).run s =
      if wipes s m then (teardownWalk r (s.without m)).run (s.withdrawnState map ln m)
      else .ok () (s.withdrawnState map ln m) := by
  have hdel : labelNbrDel m s.labelNbrs = s.without m :=
    hs.remove_eq (mem_of_find?_eq_some hm)
  unfold labelWithdrawWcard
  simp only [run_bind, run_modifyLib, run_modify, run_get, hm, hdel]
  have hcond : (s.leaf ≠ 2 ∧ ((s.without m).all fun lnr => lnr.type == .up) = true) ↔
      wipes s m = true := by
    simp [wipes]
  by_cases hwipe : wipes s m = true
  · rw [if_pos (hcond.mpr hwipe), if_pos hwipe]
    rfl
  · rw [if_neg (hcond.not.mpr hwipe), if_neg hwipe]
    rfl

theorem run_step_labelWithdraw (r : Freed) (fresh : Bool) {ov : UInt8}
    (h : Withdraws s ln map m root ov) :
    (step r (.imsg fresh ln.peerid (.labelWithdraw map))).run s =
      (labelWithdrawWcard r map ln).run (s.start fresh) := by
  have hln : (s.start fresh).lib.nbr? ln.peerid = some ln := h.nbr
  rw [run_step_imsg, run_ldeDispatchImsg_nbr r ln.peerid rfl, hln]
  dsimp only
  rw [if_neg, nbrImsg, if_pos h.type]
  simp [Imsg.unknownAf, Map.unknownAf, h.type]

section

variable (map : Map) (ln : LdeNbr) (tear : Bool)

/-- Without a teardown, the LSP must not ask for one. -/
theorem tornDown_kept (hout : s.lib.toPeers = []) :
    TornDown s (s.withdrawnState map ln m) ln map m tear ↔ tear = false ∨ s.upOf m = [] := by
  have hmessages : (s.withdrawnState map ln m).lib.toPeers =
      [.releaseAdd ln.peerid (wildcardMap map.label), .releaseAddEnd ln.peerid] := by
    rw [withdrawnState, toPeers_ldeCheckWithdrawWcard, hout, nil_append]
  constructor
  · rintro ⟨htable, -⟩
    cases tear with
    | false => exact .inl rfl
    | true =>
      refine .inr (filter_eq_nil_iff.mpr fun lnr hlnr hup => ?_)
      have hkept : lnr ∈ (s.withdrawnState map ln m).labelNbrs := hlnr
      rw [htable, mem_filter, hup] at hkept
      exact absurd hkept.2 Bool.false_ne_true
  · intro h
    have hnone : tear = true → s.upOf m = [] := by
      rintro rfl
      exact h.resolve_left (by simp)
    refine ⟨(filter_eq_self.mpr fun lnr hlnr => ?_).symm, ?_⟩
    · cases tear with
      | false => rfl
      | true =>
        have hnot := filter_eq_nil_iff.mp (hnone rfl) lnr hlnr
        rw [Bool.true_and, Bool.eq_false_iff.mpr hnot]
        rfl
    · rw [hmessages]
      cases tear with
      | false => rfl
      | true => rw [hnone rfl]; rfl

theorem tornDown_wiped (hout : s.lib.toPeers = [])
    (hup : ∀ lnr ∈ s.without m, lnr.type = .up) (hs' : s' = { s.withdrawnState map ln m with
      lib := (s.without m).foldl tearLib (s.withdrawnState map ln m).lib, labelNbrs := [] }) :
    TornDown s s' ln map m tear ↔
      s.without m = [] ∨ (tear = true ∧ ∀ lnr ∈ s.without m, lnr.fec = m.fec) := by
  have hmessages : s'.lib.toPeers =
      [.releaseAdd ln.peerid (wildcardMap map.label), .releaseAddEnd ln.peerid] ++
        (s.without m).flatMap tearMessages := by
    rw [hs', toPeers_foldl_tearLib, withdrawnState, toPeers_ldeCheckWithdrawWcard, hout,
      nil_append]
  have htable : s'.labelNbrs = [] := by rw [hs']
  constructor
  · rintro ⟨hkept, -⟩
    rw [htable, eq_comm, filter_eq_nil_iff] at hkept
    cases tear with
    | false =>
      refine .inl (eq_nil_iff_forall_not_mem.mpr fun lnr hlnr => hkept lnr hlnr rfl)
    | true =>
      refine .inr ⟨rfl, fun lnr hlnr => ?_⟩
      have hgone := hkept lnr hlnr
      simp only [Bool.true_and, Bool.not_eq_true, Bool.not_eq_false', Bool.and_eq_true,
        beq_iff_eq] at hgone
      exact hgone.1
  · rintro (hnil | ⟨rfl, hlsp⟩)
    · refine ⟨by rw [htable, hnil]; rfl, ?_⟩
      rw [hmessages, upOf, hnil]
      cases tear <;> rfl
    · have hall : ∀ lnr ∈ s.without m, (lnr.fec == m.fec && lnr.type == .up) = true := by
        intro lnr hlnr
        rw [hlsp lnr hlnr, hup lnr hlnr]
        simp
      refine ⟨?_, ?_⟩
      · rw [htable, eq_comm, filter_eq_nil_iff]
        intro lnr hlnr
        rw [hall lnr hlnr]
        simp
      · rw [hmessages, upOf, filter_eq_self.mpr hall]
        rfl

/-- A teardown over the whole table is the one the LSP of `m` asks for: the table is not wiped and
the LSP needs no teardown or has no `up` entry, or it is wiped and holds nothing but what has to go.
-/
def TeardownFits (r : Freed) (s : Engine) (m : LabelNbr) (tear : Bool) : Prop :=
  if wipes s m then
    s.without m = [] ∨
      (r = .intact ∧ tear = true ∧
        ∀ lnr ∈ s.without m, lnr.fec = m.fec ∧ (s.lib.nbr? lnr.peerid).isSome)
  else tear = false ∨ s.upOf m = []

/-- A walk over the whole table, if freed memory keeps its content. -/
theorem wiped_intact (hout : s.lib.toPeers = []) (hup : ∀ lnr ∈ s.without m, lnr.type = .up) :
    (∃ s', (teardownWalk .intact (s.without m)).run (s.withdrawnState map ln m) = .ok () s' ∧
      TornDown s s' ln map m tear) ↔
      s.without m = [] ∨ (tear = true ∧
        ∀ lnr ∈ s.without m, lnr.fec = m.fec ∧ (s.lib.nbr? lnr.peerid).isSome) := by
  have hkeep (p : UInt32) : ((s.withdrawnState map ln m).lib.nbr? p).isSome ↔
      (s.lib.nbr? p).isSome := by
    rw [Lib.nbr?_isSome, Lib.nbr?_isSome, withdrawnState,
      (ldeCheckWithdrawWcard_receives map ln.peerid s.lib).keeps.peers]
  have hempty : (s.without m).foldl (fun t lnr => labelNbrDel lnr t)
      (s.withdrawnState map ln m).labelNbrs = [] :=
    foldl_labelNbrDel
  simp only [run_teardownWalk_intact hup, hkeep, hempty]
  constructor
  · rintro ⟨s', ⟨hlive, hs'⟩, htorn⟩
    refine ((tornDown_wiped map ln tear hout hup hs').mp htorn).imp_right fun ⟨ht, hlsp⟩ => ?_
    exact ⟨ht, fun lnr hlnr => ⟨hlsp lnr hlnr, hlive lnr hlnr⟩⟩
  · intro h
    refine ⟨_, ⟨fun lnr hlnr => ?_, rfl⟩, (tornDown_wiped map ln tear hout hup rfl).mpr
      (h.imp_right fun ⟨ht, hlsp⟩ => ⟨ht, fun lnr hlnr => (hlsp lnr hlnr).1⟩)⟩
    rcases h with hnil | ⟨-, hlsp⟩
    · rw [hnil] at hlnr
      cases hlnr
    · exact (hlsp lnr hlnr).2

theorem wiped_lost (hout : s.lib.toPeers = []) (hup : ∀ lnr ∈ s.without m, lnr.type = .up) :
    (∃ s', (teardownWalk .lost (s.without m)).run (s.withdrawnState map ln m) = .ok () s' ∧
      TornDown s s' ln map m tear) ↔ s.without m = [] := by
  cases hw : s.without m with
  | nil =>
    have hs' : s.withdrawnState map ln m = { s.withdrawnState map ln m with
        lib := (s.without m).foldl tearLib (s.withdrawnState map ln m).lib, labelNbrs := [] } := by
      rw [withdrawnState, hw]
      rfl
    exact iff_of_true ⟨_, rfl, (tornDown_wiped map ln tear hout hup hs').mpr (.inl hw)⟩ rfl
  | cons lnr rest =>
    refine iff_of_false ?_ (cons_ne_nil _ _)
    rintro ⟨s', hrun, -⟩
    rw [← hw] at hrun
    refine run_teardownWalk_lost ⟨lnr, ?_, ?_⟩ hrun
    · rw [hw]
      exact mem_cons_self
    · exact hup lnr (by rw [hw]; exact mem_cons_self)

end

instance (r : Freed) (tear : Bool) : Decidable (TeardownFits r s m tear) := by
  unfold TeardownFits
  infer_instance

theorem labelWithdrawWcard_tornDown (r : Freed) (tear : Bool) (hs : s.TableSorted)
    (hout : s.lib.toPeers = []) (hm : withdrawn map ln.peerid s.labelNbrs = some m) :
    (∃ s', (labelWithdrawWcard r map ln).run s = .ok () s' ∧ TornDown s s' ln map m tear) ↔
      TeardownFits r s m tear := by
  simp only [run_labelWithdrawWcard hs hm, TeardownFits]
  by_cases hwipe : wipes s m = true
  · simp only [if_pos hwipe]
    have hup : ∀ lnr ∈ s.without m, lnr.type = .up := by
      simp only [wipes, Bool.and_eq_true, all_eq_true, beq_iff_eq] at hwipe
      exact hwipe.2
    cases r with
    | lost => simpa using wiped_lost map ln tear hout hup
    | intact => simpa using wiped_intact map ln tear hout hup
  · simp only [if_neg hwipe]
    rw [← tornDown_kept map ln tear hout]
    constructor
    · rintro ⟨s', hrun, htorn⟩
      cases hrun
      exact htorn
    · exact fun htorn => ⟨_, rfl, htorn⟩

/-- In any run: a wildcard withdraw tears down what the LSP of its entry asks
for, and nothing else, exactly when the teardown of the whole table fits. -/
theorem teardown_iff (r : Freed) (tr : List Event) (s : Engine) (fresh : Bool) (ln : LdeNbr)
    (map : Map) (m : LabelNbr) (root : InAddr) (ov : UInt8)
    (hs : Run (step r) Engine.init (fun _ _ => True) tr s) (h : Withdraws s ln map m root ov) :
    (∃ s', (step r (.imsg fresh ln.peerid (.labelWithdraw map))).run s = .ok () s' ∧
      TornDown s s' ln map m (tearsDown s m (isLeafOf root ov tr))) ↔
      TeardownFits r s m (tearsDown s m (isLeafOf root ov tr)) := by
  have htorn (s' : Engine) (tear : Bool) : TornDown s s' ln map m tear ↔
      TornDown (s.start fresh) s' ln map m tear :=
    ⟨fun ⟨table, messages⟩ => ⟨table, messages⟩, fun ⟨table, messages⟩ => ⟨table, messages⟩⟩
  simp only [run_step_labelWithdraw r fresh h, htorn]
  exact labelWithdrawWcard_tornDown (s := s.start fresh) r _ (wf_of_reachable hs.reachable).table rfl
    h.entry

/-- One LSP with two leaves. -/
def twoLeavesState : Engine :=
  (play (step .lost) (fun _ _ => True) (twoJoins 40) Engine.init).get (by decide +kernel)

/-- The first leaf departs, and the LSP stays. -/
theorem twoLeavesState_teardown :
    ∃ ln m s', Withdraws twoLeavesState ln (wildcardMap 16) m 0x0a000001 40 ∧
      (step .lost (.imsg true 2 (.labelWithdraw (wildcardMap 16)))).run twoLeavesState = .ok () s' ∧
      TornDown twoLeavesState s' ln (wildcardMap 16) m
        (tearsDown twoLeavesState m (isLeafOf 0x0a000001 40 (twoJoins 40))) := by
  let ln := (twoLeavesState.lib.nbr? 2).get (by decide +kernel)
  let m := (withdrawn (wildcardMap 16) 2 twoLeavesState.labelNbrs).get (by decide +kernel)
  have h : Withdraws twoLeavesState ln (wildcardMap 16) m 0x0a000001 40 :=
    ⟨rfl, by decide +kernel, by decide +kernel, by decide +kernel, by decide +kernel⟩
  obtain ⟨s', hrun, htorn⟩ :=
    (teardown_iff .lost (twoJoins 40) twoLeavesState true ln _ m _ _ (Run.of_play _) h).mpr
      (by decide +kernel)
  exact ⟨ln, m, s', h, hrun, htorn⟩

/-- The only leaf of (10.0.0.1, 40) departs.  As (10.0.0.1, 50) still has one,
nothing is sent upstream, and the `up` entry stays. -/
theorem twoLspsState_no_teardown :
    Run (step .lost) Engine.init (fun _ _ => True) (twoJoins 50) twoLspsState ∧
      ∃ ln m s', Withdraws twoLspsState ln (wildcardMap 16) m 0x0a000001 40 ∧
        (step .lost (.imsg true 2 (.labelWithdraw (wildcardMap 16)))).run twoLspsState = .ok () s' ∧
        ¬TornDown twoLspsState s' ln (wildcardMap 16) m
          (tearsDown twoLspsState m (isLeafOf 0x0a000001 40 (twoJoins 50))) := by
  let ln := (twoLspsState.lib.nbr? 2).get (by decide +kernel)
  let m := (withdrawn (wildcardMap 16) 2 twoLspsState.labelNbrs).get (by decide +kernel)
  refine ⟨Run.of_play _, ln, m, _,
    ⟨rfl, by decide +kernel, by decide +kernel, by decide +kernel, by decide +kernel⟩,
    run_eq_final (by decide +kernel), fun htorn => absurd htorn.table (by decide +kernel)⟩

/-! ## Leaving an LSP -/

/-- The entry is one towards the root of the LSP (root, ov). -/
def LabelNbr.isUpOf (root : InAddr) (ov : UInt8) (lnr : LabelNbr) : Bool :=
  lnr.fec.ipv4Prefix == root && lnr.fec.ipv4Prefixlen == ov && lnr.type == .up

theorem isUpOf_iff : lnr.isUpOf root ov = true ↔
    lnr.fec.ipv4Prefix = root ∧ lnr.fec.ipv4Prefixlen = ov ∧ lnr.type = .up := by
  simp [LabelNbr.isUpOf, and_assoc]

/-- The `up` entries of the LSP (root, ov) are removed, each one withdrawn and
released, and nothing else is removed or sent. -/
structure TreeLeft (s s' : Engine) (root : InAddr) (ov : UInt8) : Prop where
  table : s'.labelNbrs = s.labelNbrs.filter fun lnr => !lnr.isUpOf root ov
  messages : s'.lib.toPeers =
    s.lib.toPeers ++ (s.labelNbrs.filter (LabelNbr.isUpOf root ov)).flatMap tearMessages

theorem tearEntry_ok {p : UInt32} (h : (tearEntry r lnr p).run s = .ok () s') :
    r = .intact ∧ s'.labelNbrs = labelNbrDel lnr s.labelNbrs := by
  obtain ⟨_, s₁, hderef, h⟩ := run_bind_ok.mp h
  rw [run_ldeNbrDeref] at hderef
  split at hderef
  · cases hderef
  · cases hderef
    cases r <;> cases h
    exact ⟨rfl, rfl⟩

/-- Whatever the entries are, all of them are deleted. -/
theorem treeDownWalk_ok {v : Option UInt32} (h : (treeDownWalk r root ov t v).run s = .ok () s') :
    (t = [] ∨ r = .intact) ∧ s'.labelNbrs = t.foldl (fun t lnr => labelNbrDel lnr t) s.labelNbrs := by
  induction t generalizing s v with
  | nil =>
    cases h
    exact ⟨.inl rfl, rfl⟩
  | cons lnr rest ih =>
    obtain ⟨p, s₁, hassigned, h⟩ := run_bind_ok.mp h
    obtain ⟨_, s₂, htear, h⟩ := run_bind_ok.mp h
    obtain ⟨hr, htable⟩ := tearEntry_ok htear
    have hsame : s₁ = s := by
      split at hassigned
      · cases hassigned
        rfl
      · cases v <;> cases hassigned
        rfl
    rw [(ih h).2, htable, hsame]
    exact ⟨.inr hr, rfl⟩

theorem treeDownWalk_eq (h : ∀ lnr ∈ t, lnr.isUpOf root ov = true)
    (v : Option UInt32) : treeDownWalk r root ov t v = teardownWalk r t := by
  induction t generalizing v with
  | nil => rfl
  | cons lnr rest ih =>
    obtain ⟨hup, hrest⟩ := forall_mem_cons.mp h
    rw [isUpOf_iff] at hup
    rw [treeDownWalk, teardownWalk, if_pos hup, if_pos hup.2.2, ih hrest]
    rfl

/-- The table holds nothing but entries the LSP has to lose, for neighbours that exist. -/
def TreeFits (r : Freed) (s : Engine) (root : InAddr) (ov : UInt8) : Prop :=
  s.labelNbrs = [] ∨
    (r = .intact ∧ ∀ lnr ∈ s.labelNbrs, lnr.isUpOf root ov ∧ (s.lib.nbr? lnr.peerid).isSome)

theorem treeDown_left {s : Engine} {ov : UInt8} :
    (∃ s', (treeDown r root ov).run s = .ok () s' ∧ TreeLeft s s' root ov) ↔
      TreeFits r s root ov := by
  have hrun : (treeDown r root ov).run s =
      (treeDownWalk r root ov s.labelNbrs none).run { s with leaf := 1 } := rfl
  rw [hrun]
  constructor
  · rintro ⟨s', hok, hleft⟩
    obtain ⟨hempty | hr, htable⟩ := treeDownWalk_ok hok
    · exact .inl hempty
    · have hall : ∀ lnr ∈ s.labelNbrs, lnr.isUpOf root ov = true := by
        have hgone := hleft.table
        rw [htable, foldl_labelNbrDel, eq_comm, filter_eq_nil_iff] at hgone
        exact fun lnr hlnr => by simpa using hgone lnr hlnr
      subst hr
      rw [treeDownWalk_eq hall,
        run_teardownWalk_intact fun lnr hlnr => (isUpOf_iff.mp (hall lnr hlnr)).2.2] at hok
      exact .inr ⟨rfl, fun lnr hlnr => ⟨hall lnr hlnr, hok.1 lnr hlnr⟩⟩
  · rintro (hempty | ⟨rfl, hall⟩)
    · rw [hempty]
      exact ⟨_, rfl, by rw [hempty]; rfl, by rw [hempty]; exact (append_nil _).symm⟩
    · have hup := fun lnr hlnr => (hall lnr hlnr).1
      rw [treeDownWalk_eq hup]
      refine ⟨_, (run_teardownWalk_intact fun lnr hlnr => (isUpOf_iff.mp (hup lnr hlnr)).2.2).mpr
        ⟨fun lnr hlnr => (hall lnr hlnr).2, rfl⟩, ?_, ?_⟩
      · rw [foldl_labelNbrDel, eq_comm, filter_eq_nil_iff]
        exact fun lnr hlnr => by simp [hup lnr hlnr]
      · rw [filter_eq_self.mpr hup]
        exact toPeers_foldl_tearLib

/-- What `tree_up` adds to an empty table is what `tree_down` has to remove. -/
theorem treeUp_ok {s₁ : Engine} (h : (treeUp root ov).run s = .ok () s₁) (hempty : s.labelNbrs = []) :
    (firstRoute root s.lib.ft = none ∧ s₁.labelNbrs = []) ∨
      (firstRoute root s.lib.ft ≠ none ∧ ∃ lnr, s₁.labelNbrs = [lnr] ∧
        lnr.isUpOf root ov = true ∧ (s₁.lib.nbr? lnr.peerid).isSome) := by
  rcases treeUp_cases h with ⟨hroute, rfl⟩ | ⟨fn, fnh, ln, hroute, -, hln, rfl⟩
  · exact .inl ⟨hroute, hempty⟩
  · obtain ⟨hroot, hlen⟩ := Fec.ofV4_view fn.fec.type root ov
    refine .inr ⟨by simp [hroute], _, by simp only [withEntry, hempty]; rfl,
      isUpOf_iff.mpr ⟨hroot, hlen, rfl⟩, ?_⟩
    rw [Lib.nbr?_isSome, (ldeSendLabelmapping_keeps _ _ _ _ _).peers]
    exact mem_map_of_mem (mem_of_find?_eq_some hln)

/-- `tree_down` removes what belongs to its LSP and nothing else exactly when
nothing else is in the table, and undoes a `tree_up` exactly when the table was
empty before it. -/
theorem treeDown_iff (r : Freed) (s : Engine) (root : InAddr) (ov : UInt8) :
    ((∃ s', (treeDown r root ov).run s = .ok () s' ∧ TreeLeft s s' root ov) ↔ TreeFits r s root ov) ∧
      ∀ s₁, (treeUp root ov).run s = .ok () s₁ →
        ((∃ s₂, (treeDown r root ov).run s₁ = .ok () s₂ ∧ s₂.labelNbrs = s.labelNbrs) ↔
          s.labelNbrs = [] ∧ (firstRoute root s.lib.ft = none ∨ r = .intact)) := by
  refine ⟨treeDown_left, fun s₁ h => ⟨?_, ?_⟩⟩
  · rintro ⟨s₂, hrun, hsame⟩
    obtain ⟨hr, htable⟩ := treeDownWalk_ok hrun
    have hempty : s.labelNbrs = [] := by rw [← hsame, htable]; exact foldl_labelNbrDel
    rcases treeUp_ok h hempty with ⟨hroute, -⟩ | ⟨-, lnr, hone, -⟩
    · exact ⟨hempty, .inl hroute⟩
    · rw [hone] at hr
      exact ⟨hempty, .inr (hr.resolve_left (cons_ne_nil lnr []))⟩
  · rintro ⟨hempty, hr⟩
    have hfits : TreeFits r s₁ root ov ∧ s₁.labelNbrs.filter (!·.isUpOf root ov) = [] := by
      rcases treeUp_ok h hempty with ⟨-, hnone⟩ | ⟨hroute, lnr, hone, hup, hlive⟩
      · rw [TreeFits, hnone]
        exact ⟨.inl rfl, rfl⟩
      · rw [TreeFits, hone]
        exact ⟨.inr ⟨hr.resolve_left hroute, by simpa using ⟨hup, hlive⟩⟩, by simp [hup]⟩
    obtain ⟨s₂, hrun, hleft⟩ := (treeDown_left).mpr hfits.1
    exact ⟨s₂, hrun, by rw [hleft.table, hfits.2, hempty]⟩

theorem treeDown_undoes : ∃ s s₁ s₂, (treeUp 0x0a000001 40).run s = .ok () s₁ ∧ s₁.labelNbrs ≠ [] ∧
    (treeDown .intact 0x0a000001 40).run s₁ = .ok () s₂ ∧ s₂.labelNbrs = s.labelNbrs := by
  let s := (play (step .lost) (fun _ _ => True) ((twoJoins 40).take 5) init).get
    (by decide +kernel)
  have hup : (treeUp 0x0a000001 40).run s = .ok () (final (treeUp 0x0a000001 40) s) :=
    run_eq_final (by decide +kernel)
  obtain ⟨s₂, hdown⟩ := ((treeDown_iff .intact s _ _).2 _ hup).mpr (by decide +kernel)
  exact ⟨s, _, s₂, hup, by decide +kernel, hdown⟩

/-- Leaving (10.0.0.1, 40) tears down (10.0.0.1, 50) and the leaves of both. -/
theorem twoLspsState_treeDown :
    ∃ s', (treeDown .intact 0x0a000001 40).run twoLspsState = .ok () s' ∧ s'.labelNbrs = [] ∧
      ¬TreeLeft twoLspsState s' 0x0a000001 40 := by
  refine ⟨_, run_eq_final (by decide +kernel), by decide +kernel, fun hleft => ?_⟩
  exact absurd hleft.table (by decide +kernel)

end Mp2mp.Lde
