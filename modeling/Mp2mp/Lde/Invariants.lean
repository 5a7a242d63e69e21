import Mp2mp.Lde.Effect

/-!
# Invariants of the table over whole runs

Properties of `label_nbrs`, each over every run from the start of the process:

* `wf_of_reachable`: the table and `ft` are in order.
* Bindings refer to live neighbours as long as no neighbour goes down that has
  one: `lde_nbr_del` does not look at the table.
* Labels: the entries of one FEC share a label that no other FEC has, as long as
  a command never joins an LSP that has entries already, two FECs that look alike
  through `u.ipv4` do not meet, and the label counter does not run out.
* Every entry goes back to a command or a mapping for its LSP, whose neighbour was
  announced before.
-/

namespace Mp2mp.Lde

open Kit Ldpd List Engine

variable {r : Freed} {s s' : Engine} {e : Event}

/-! ## Order -/

/-- The tables are in the order of their keys, and peer ids are not shared. -/
structure Engine.Wf (s : Engine) : Prop where
  table : s.TableSorted
  routes : s.RoutesSorted
  peers : s.PeersDistinct

theorem Engine.Wf.init : init.Wf :=
  ⟨List.Pairwise.nil, List.Pairwise.nil, List.Pairwise.nil⟩

theorem Effect.wf (h : Effect s e s') (hs : s.Wf) : s'.Wf := by
  obtain ⟨htable, hroutes, hpeers⟩ := hs
  cases h with
  | neighborUp bindings _ routes distinct _ =>
    exact ⟨TableSorted.of_sublist (by rw [bindings]) htable, routes hroutes, distinct hpeers⟩
  | neighborDown bindings _ routes distinct _ =>
    exact ⟨TableSorted.of_sublist bindings htable, routes hroutes, distinct hpeers⟩
  | settles h =>
    exact ⟨TableSorted.of_sublist h.bindings htable, h.lib.sorted hroutes, h.lib.distinct hpeers⟩
  | command _ joins _ =>
    exact ⟨joins.sorted htable, joins.lib.sorted hroutes, joins.lib.distinct hpeers⟩
  | mapping _ joins _ =>
    exact ⟨joins.sorted htable, joins.lib.sorted hroutes, joins.lib.distinct hpeers⟩

theorem wf_of_reachable (h : Reachable (step r) init s) : s.Wf :=
  h.invariant Engine.Wf.init fun _ _ _ hs hrun => (step_effect hrun).wf hs

/-! ## Live neighbours -/

/-- Every binding refers to a neighbour of `lde_nbrs`. -/
def Engine.BindingsLive (s : Engine) : Prop := ∀ lnr ∈ s.labelNbrs, (s.lib.nbr? lnr.peerid).isSome

/-- No neighbour goes down that a binding refers to. -/
def UnboundDown (s : Engine) : Event → Prop
  | .imsg _ peerid .neighborDown => ∀ lnr ∈ s.labelNbrs, lnr.peerid ≠ peerid
  | _ => True

theorem Engine.bindingsLive_iff : s.BindingsLive ↔ ∀ b ∈ s.bindings, s.Live b.peerid := by
  simp only [Engine.BindingsLive, Lib.nbr?_isSome, bindings, forall_mem_map]
  exact Iff.rfl

theorem Effect.bindingsLive (h : Effect s e s') (hs : s.BindingsLive) (hdown : UnboundDown s e) :
    s'.BindingsLive := by
  rw [bindingsLive_iff] at hs ⊢
  intro b hb
  cases h with
  | neighborUp bindings _ _ _ live =>
    rw [bindings] at hb
    exact (live _).mpr (.inr (hs b hb))
  | neighborDown bindings _ _ _ live =>
    have hmem := bindings.subset hb
    obtain ⟨lnr, hlnr, rfl⟩ := mem_map.mp hmem
    exact (live _).mpr ⟨hdown lnr hlnr, hs _ hmem⟩
  | settles h => exact (h.lib.live _).mpr (hs b (h.bindings.subset hb))
  | command _ joins _ =>
    rw [joins.lib.live]
    rcases joins.entries b hb with hb | ⟨-, -, hlive⟩
    · exact hs b hb
    · exact hlive
  | mapping _ joins _ =>
    rw [joins.lib.live]
    rcases joins.entries b hb with hb | ⟨-, -, hlive⟩
    · exact hs b hb
    · exact hlive

instance : Decidable s.BindingsLive := by unfold Engine.BindingsLive; infer_instance

instance : Decidable (UnboundDown s e) := by
  unfold UnboundDown
  split <;> infer_instance

/-- Bindings refer to live neighbours in every run in which no neighbour goes
down while a binding refers to it. -/
theorem bindings_live (r : Freed) (tr : List Event) (s : Engine)
    (h : Run (step r) Engine.init UnboundDown tr s) : s.BindingsLive :=
  h.invariant (fun _ hlnr => nomatch hlnr) fun _ _ _ hs hgood hrun =>
    (step_effect hrun).bindingsLive hs hgood

/-- A transit node: neighbour 2 is the way to the root 10.0.0.1. -/
def transitNode : List Event :=
  [ .imsg true 1 (.neighborUp 0x01010101 true true),
    .imsg true 2 (.neighborUp 0x02020202 true true),
    .imsg true 2 (.addressAdd ⟨.inet, .ofV4 0x0a000102⟩),
    .parent (.networkAdd .inet (.ofV4 0x0a000001) 32 0 (.ofV4 0x0a000102) 10) ]

/-- A mapping for the LSP (10.0.0.1, ov) from neighbour 1. -/
def joinFrom1 (ov : UInt8) : Event :=
  .imsg true 1 (.labelMapping { ldeFec2map (.ipv4 0x0a000001 ov) with label := 100 })

/-- Neighbour 1 joins the LSP (10.0.0.1, 40). -/
def transitJoin : List Event := transitNode ++ [joinFrom1 40]

theorem transitJoin_bindings_live :
    ∃ s, Run (step .lost) Engine.init UnboundDown transitJoin s ∧ s.labelNbrs.length = 2 ∧
      s.BindingsLive :=
  ⟨_, Run.of_play (by decide +kernel), by decide +kernel,
    bindings_live .lost transitJoin _ (Run.of_play (by decide +kernel))⟩

/-- Neighbour 1 of a transit node goes down, and its entry stays. -/
theorem neighborDown_leaves_binding : ∃ s, Run (step .lost) Engine.init (fun _ _ => True)
      (transitJoin ++ [.imsg true 1 .neighborDown]) s ∧ ¬s.BindingsLive :=
  ⟨_, Run.of_play (by decide +kernel), by decide +kernel⟩

/-! ## Local labels -/

/-- The entries of a FEC share a label that no other FEC has, and no label is a
reserved one or `NO_LABEL`. -/
structure Engine.OneLabelPerLsp (s : Engine) : Prop where
  agree : ∀ a ∈ s.labelNbrs, ∀ b ∈ s.labelNbrs, a.fec = b.fec ↔ a.localLabel = b.localLabel
  allocated : ∀ a ∈ s.labelNbrs, mplsLabelReservedMax < a.localLabel ∧ a.localLabel ≠ noLabel

/-- The invariant behind it: labels come from the counter, which has not reached `NO_LABEL`. -/
structure Engine.Labelled (s : Engine) : Prop where
  agree : ∀ a ∈ s.bindings, ∀ b ∈ s.bindings, a.fec = b.fec ↔ a.localLabel = b.localLabel
  range : ∀ a ∈ s.bindings, mplsLabelReservedMax < a.localLabel ∧ a.localLabel ≤ s.label
  counter : mplsLabelReservedMax ≤ s.label ∧ s.label < noLabel

/-- A command is for an LSP without entries, and a mapping's FEC is the one of the first entry that
looks like it. -/
def JoinsCleanly (s : Engine) : Event → Prop
  | .imsg _ _ (.mldpAdd root ov) =>
    ∀ fn ∈ firstRoute root s.lib.ft, ∀ lnr ∈ s.labelNbrs, lnr.fec ≠ Fec.ofV4 fn.fec.type root ov
  | .imsg _ peerid (.labelMapping map) =>
    ∀ ln ∈ s.lib.nbr? peerid,
      ∀ lnr ∈ s.labelNbrs.find? fun lnr => sameLsp lnr.fec (ldeMap2fec map ln.id),
        lnr.fec = ldeMap2fec map ln.id
  | _ => True

/-- The counter does not hand out `NO_LABEL`, and joins are clean. -/
def LabelsRemain (s : Engine) (e : Event) : Prop := s.label + 1 ≠ noLabel ∧ JoinsCleanly s e

theorem Engine.Labelled.oneLabelPerLsp (h : s.Labelled) : s.OneLabelPerLsp := by
  refine ⟨fun a ha b hb => h.agree _ (mem_map_of_mem ha) _ (mem_map_of_mem hb),
    fun a ha => ?_⟩
  obtain ⟨hlow, hhigh⟩ := h.range _ (mem_map_of_mem ha)
  refine ⟨hlow, fun heq => ?_⟩
  have hlt : a.localLabel < noLabel := UInt32.lt_of_le_of_lt hhigh h.counter.2
  exact absurd hlt (heq ▸ UInt32.lt_irrefl noLabel)

theorem next_label (hs : s.label < noLabel) (hnext : s.label + 1 ≠ noLabel) :
    s.label < s.label + 1 ∧ s.label + 1 < noLabel := by
  have hne : (s.label + 1).toNat ≠ noLabel.toNat := fun h => hnext (UInt32.toNat_inj.mp h)
  have hmax : noLabel.toNat = 4294967295 := rfl
  simp only [UInt32.lt_iff_toNat_lt, UInt32.toNat_add, UInt32.toNat_one] at hs hne ⊢
  omega

theorem Engine.Labelled.settles (h : s.Labelled) (hs : s'.bindings.Sublist s.bindings)
    (hlabel : s'.label = s.label ∨ s'.label = s.label + 1) (hnext : s.label + 1 ≠ noLabel) :
    s'.Labelled := by
  obtain ⟨hlt, hmax⟩ := next_label h.counter.2 hnext
  have hle : s.label ≤ s'.label := by
    rcases hlabel with hlabel | hlabel <;> rw [hlabel]
    · exact UInt32.le_refl _
    · exact UInt32.le_of_lt hlt
  have hlt' : s'.label < noLabel := by
    rcases hlabel with hlabel | hlabel <;> rw [hlabel]
    · exact h.counter.2
    · exact hmax
  refine ⟨fun a ha b hb => h.agree a (hs.subset ha) b (hs.subset hb), fun a ha => ?_,
    UInt32.le_trans h.counter.1 hle, hlt'⟩
  obtain ⟨hlow, hhigh⟩ := h.range a (hs.subset ha)
  exact ⟨hlow, UInt32.le_trans hhigh hle⟩

/-- Entries that all have one FEC and a label of that FEC only may be added. -/
theorem Engine.Labelled.joins {fec : Fec} {label : UInt32} (h : s.Labelled)
    (hjoins : Joins s s' fec label) (hown : ∀ b ∈ s.bindings, b.fec = fec ↔ b.localLabel = label)
    (hlow : mplsLabelReservedMax < label) (hhigh : label ≤ s'.label) (hle : s.label ≤ s'.label)
    (hmax : s'.label < noLabel) : s'.Labelled := by
  refine ⟨fun a ha b hb => ?_, fun a ha => ?_, UInt32.le_trans h.counter.1 hle, hmax⟩
  · rcases hjoins.entries a ha with hold | ⟨hfec, hlabel, -⟩
    · rcases hjoins.entries b hb with hold' | ⟨hfec', hlabel', -⟩
      · exact h.agree a hold b hold'
      · rw [hfec', hlabel']
        exact hown a hold
    · rcases hjoins.entries b hb with hold' | ⟨hfec', hlabel', -⟩
      · rw [hfec, hlabel, eq_comm, hown b hold', eq_comm]
      · rw [hfec, hfec', hlabel, hlabel']
        exact ⟨fun _ => rfl, fun _ => rfl⟩
  · rcases hjoins.entries a ha with hold | ⟨-, hlabel, -⟩
    · exact ⟨(h.range a hold).1, UInt32.le_trans (h.range a hold).2 hle⟩
    · rw [hlabel]
      exact ⟨hlow, hhigh⟩

theorem Engine.Labelled.joins_new {fec : Fec} (h : s.Labelled) (hnext : s.label + 1 ≠ noLabel)
    (hjoins : Joins s s' fec (s.label + 1)) (hlabel : s'.label = s.label + 1)
    (hnew : ∀ b ∈ s.bindings, b.fec ≠ fec) : s'.Labelled := by
  obtain ⟨hlt, hmax⟩ := next_label h.counter.2 hnext
  refine h.joins hjoins (fun b hb => iff_of_false (hnew b hb) fun heq => ?_)
    (UInt32.lt_of_le_of_lt h.counter.1 hlt) (UInt32.le_of_eq hlabel.symm)
    (hlabel ▸ UInt32.le_of_lt hlt) (hlabel ▸ hmax)
  exact absurd (UInt32.lt_of_le_of_lt (h.range b hb).2 hlt) (heq ▸ UInt32.lt_irrefl _)

theorem sameLsp_refl (fec : Fec) : sameLsp fec fec = true := by simp [sameLsp]

theorem Effect.labelled (h : Effect s e s') (hs : s.Labelled) (hgood : LabelsRemain s e) :
    s'.Labelled := by
  obtain ⟨hnext, hclean⟩ := hgood
  cases h with
  | neighborUp bindings label _ _ _ => exact hs.settles (by rw [bindings]) (.inl label) hnext
  | neighborDown bindings label _ _ _ => exact hs.settles bindings (.inl label) hnext
  | settles h => exact hs.settles h.bindings h.label hnext
  | command route joins label =>
    refine hs.joins_new hnext joins label fun b hb => ?_
    obtain ⟨lnr, hlnr, rfl⟩ := mem_map.mp hb
    exact hclean _ route lnr hlnr
  | @mapping _ _ _ map ln nbr joins label =>
    rw [withJoinLabel_label] at label
    unfold joinLabel at joins
    cases hfirst : s.labelNbrs.find? fun lnr => sameLsp lnr.fec (ldeMap2fec map ln.id) with
    | some lnr =>
      rw [hfirst] at joins label
      dsimp only at joins label
      have hmem : lnr.binding ∈ s.bindings :=
        mem_map_of_mem (mem_of_find?_eq_some hfirst)
      have hfec : lnr.fec = ldeMap2fec map ln.id := hclean ln nbr lnr hfirst
      refine hs.joins joins (fun b hb => ?_) (hs.range _ hmem).1
        (label ▸ (hs.range _ hmem).2) (UInt32.le_of_eq label.symm) (label ▸ hs.counter.2)
      rw [← hfec]
      exact hs.agree b hb _ hmem
    | none =>
      rw [hfirst] at joins label
      refine hs.joins_new hnext joins label fun b hb hfec => ?_
      obtain ⟨lnr, hlnr, rfl⟩ := mem_map.mp hb
      have hne := find?_eq_none.mp hfirst lnr hlnr
      rw [show lnr.fec = ldeMap2fec map ln.id from hfec, sameLsp_refl] at hne
      exact hne rfl

instance : Decidable (JoinsCleanly s e) := by
  unfold JoinsCleanly
  split <;> infer_instance

instance : Decidable (LabelsRemain s e) := by unfold LabelsRemain; infer_instance

/-- Labels and FECs of the table correspond in every run in which joins are
clean and the label counter does not run out. -/
theorem one_label_per_lsp (r : Freed) (tr : List Event) (s : Engine)
    (h : Run (step r) Engine.init LabelsRemain tr s) : s.OneLabelPerLsp := by
  have hinit : init.Labelled := ⟨nofun, nofun, by decide⟩
  exact (h.invariant hinit fun _ _ _ hs hgood hrun =>
    (step_effect hrun).labelled hs hgood).oneLabelPerLsp

theorem transitJoin_one_label :
    ∃ s, Run (step .lost) Engine.init LabelsRemain transitJoin s ∧ s.labelNbrs.length = 2 ∧
      s.OneLabelPerLsp :=
  ⟨_, Run.of_play (by decide +kernel), by decide +kernel,
    one_label_per_lsp .lost transitJoin _ (Run.of_play (by decide +kernel))⟩

/-- Neighbour 1 joins before the neighbour towards the root has told its addresses; then this router
joins, and takes a second label for the LSP. -/
def joinTwice : List Event :=
  [ .imsg true 1 (.neighborUp 0x01010101 true true),
    .imsg true 2 (.neighborUp 0x02020202 true true),
    .parent (.networkAdd .inet (.ofV4 0x0a000001) 32 0 (.ofV4 0x0a000102) 10),
    joinFrom1 40,
    .imsg true 2 (.addressAdd ⟨.inet, .ofV4 0x0a000102⟩),
    .imsg true 0 (.mldpAdd 0x0a000001 40) ]

theorem joinTwice_two_labels :
    ∃ s, Run (step .lost) Engine.init (fun _ _ => True) joinTwice s ∧ ¬s.OneLabelPerLsp :=
  ⟨_, Run.of_play (by decide +kernel), fun h => absurd h.agree (by decide +kernel)⟩

/-! ## Where entries come from -/

/-- The event asks for the LSP of a FEC: a command, or a mapping from a neighbour. -/
def Event.AsksFor : Event → Fec → Prop
  | .imsg _ _ (.mldpAdd root ov), fec => ∃ type, fec = .ofV4 type root ov
  | .imsg _ _ (.labelMapping map), fec => ∃ id, fec = ldeMap2fec map id
  | _, _ => False

def Announced (tr : List Event) (peerid : UInt32) : Prop :=
  ∃ fresh id v4 v6, .imsg fresh peerid (.neighborUp id v4 v6) ∈ tr

/-- An event asked for the LSP after the neighbour was announced. -/
def Accounted (tr : List Event) (peerid : UInt32) (fec : Fec) : Prop :=
  ∃ before e after, tr = before ++ e :: after ∧ Announced before peerid ∧ e.AsksFor fec

theorem Accounted.later {tr : List Event} {peerid : UInt32} {fec : Fec}
    (h : Accounted tr peerid fec) (e : Event) : Accounted (tr ++ [e]) peerid fec := by
  obtain ⟨before, e', after, rfl, h⟩ := h
  exact ⟨before, e', after ++ [e], by simp, h⟩

theorem Effect.live_cases (h : Effect s e s') {p : UInt32} (hp : s'.Live p) :
    s.Live p ∨ ∃ fresh id v4 v6, e = .imsg fresh p (.neighborUp id v4 v6) := by
  cases h with
  | neighborUp _ _ _ _ live =>
    rcases (live p).mp hp with rfl | hp
    · exact .inr ⟨_, _, _, _, rfl⟩
    · exact .inl hp
  | neighborDown _ _ _ _ live => exact .inl ((live p).mp hp).2
  | settles h => exact .inl ((h.lib.live p).mp hp)
  | command _ joins _ => exact .inl ((joins.lib.live p).mp hp)
  | mapping _ joins _ => exact .inl ((joins.lib.live p).mp hp)

theorem Effect.binding_cases (h : Effect s e s') {b : Binding} (hb : b ∈ s'.bindings) :
    b ∈ s.bindings ∨ (s.Live b.peerid ∧ e.AsksFor b.fec) := by
  cases h with
  | neighborUp bindings => exact .inl (bindings ▸ hb)
  | neighborDown bindings => exact .inl (bindings.subset hb)
  | settles h => exact .inl (h.bindings.subset hb)
  | command _ joins _ => exact (joins.entries b hb).imp_right fun h => ⟨h.2.2, _, h.1⟩
  | mapping _ joins _ => exact (joins.entries b hb).imp_right fun h => ⟨h.2.2, _, h.1⟩

/-- No entry of the table comes from nowhere. -/
theorem entries_accounted (r : Freed) (tr : List Event) (s : Engine)
    (h : Run (step r) Engine.init (fun _ _ => True) tr s) :
    ∀ lnr ∈ s.labelNbrs, Accounted tr lnr.peerid lnr.fec := by
  have hall : (∀ p, s.Live p → Announced tr p) ∧ ∀ b ∈ s.bindings, Accounted tr b.peerid b.fec := by
    induction h with
    | nil => exact ⟨fun _ hp => (nomatch hp), fun _ hb => nomatch hb⟩
    | snoc _ _ hrun ih =>
      refine ⟨fun p hp => ?_, fun b hb => ?_⟩
      · rcases (step_effect hrun).live_cases hp with hp | ⟨fresh, id, v4, v6, rfl⟩
        · obtain ⟨fresh, id, v4, v6, hmem⟩ := ih.1 p hp
          exact ⟨fresh, id, v4, v6, mem_append_left _ hmem⟩
        · exact ⟨fresh, id, v4, v6, by simp⟩
      · rcases (step_effect hrun).binding_cases hb with hb | ⟨hlive, hasks⟩
        · exact (ih.2 b hb).later _
        · exact ⟨_, _, [], rfl, ih.1 _ hlive, hasks⟩
  exact fun lnr hlnr => hall.2 _ (mem_map_of_mem hlnr)

theorem transitJoin_accounted :
    ∃ s, Run (step .lost) Engine.init (fun _ _ => True) transitJoin s ∧ s.labelNbrs.length = 2 ∧
      ∀ lnr ∈ s.labelNbrs, Accounted transitJoin lnr.peerid lnr.fec :=
  ⟨_, Run.of_play (by decide +kernel), by decide +kernel,
    entries_accounted .lost transitJoin _ (Run.of_play (by decide +kernel))⟩

end Mp2mp.Lde
