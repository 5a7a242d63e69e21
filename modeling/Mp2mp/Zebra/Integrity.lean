import Mp2mp.Zebra.LspTable

/-!
# Integrity of the LSP table

The entries of the table, the queue and the pointer to the best NHLFE in every state that
installs, uninstalls, rescheduling and queue processing reach.

`best_nhlfe` is only written when an entry is processed.  An NHLFE that is not installed is
deleted at once, and nothing resets `best_nhlfe` if it pointed to it: after a failed
`RTM_NEWROUTE` that NHLFE is the best one and not installed.  The gateway types that
`nhlfe_add` refuses leave an entry without NHLFEs behind, and a gateway with interface that is
not link-local takes the interface of its connected route, where it may meet another NHLFE.

* `lspTable_integrity`: the table is sound in every state of a run in which no such gateway is
  installed and no uninstall deletes the best NHLFE of its entry.
-/

namespace Mp2mp.Zebra

open Kit List Nexthop Nhlfe

variable {g : Gateway} {next i : Nat} {lsp lsp' : Lsp} {type : LspType} {s : Zvrf} {rib : Rib}
  {next' multipathNum : Nat} {f : Nhlfe → Nhlfe} {outLabel : Label} {s' : Zvrf}

/-! ## The property -/

/-- The table, its queue and its pointers. -/
structure Integrity (s : Zvrf) : Prop where
  unique : ∀ lsp ∈ s.lspTable, (lsp.nhlfeList.map fun n => (n.type, n.nexthop.hop)).Nodup
  queuedOnce : ∀ lsp ∈ s.lspTable, s.queue.count lsp.id = if lsp.scheduled then 1 else 0
  live : ∀ lsp ∈ s.lspTable, lsp.nhlfeList ≠ [] ∨ lsp.scheduled = true
  present : ∀ i ∈ s.queue, ∃ lsp ∈ s.lspTable, lsp.id = i
  best : ∀ lsp ∈ s.lspTable, ∀ i ∈ lsp.bestNhlfe, ∃ n ∈ lsp.nhlfeList, n.id = i

/-- The gateways that are stored and keep their interface. -/
def Hop.Fixed (h : Hop) : Prop :=
  h.type = .ipv4 ∨ h.type = .ipv6 ∨ (h.type = .ipv6Ifindex ∧ h.gate.isLinklocal = true)

instance (h : Hop) : Decidable h.Fixed := by
  unfold Hop.Fixed
  infer_instance

/-- No gateway is installed that is refused or may change its interface, and no NHLFE is deleted
while `best_nhlfe` points to it. -/
def SparesBest (s : Zvrf) : MplsEvent → Prop
  | .install _ _ _ g => g.hop.Fixed
  | .uninstall type inLabel g =>
    ∀ lsp ∈ s.findLsp inLabel, ∀ n ∈ nhlfeFind lsp type g,
      n.installed = false → lsp.bestNhlfe ≠ some n.id
  | .uninstallAll type inLabel =>
    ∀ lsp ∈ s.findLsp inLabel, ∀ n ∈ lsp.nhlfeList, n.type = type →
      n.installed = false → lsp.bestNhlfe ≠ some n.id
  | _ => True

instance (s : Zvrf) (e : MplsEvent) : Decidable (SparesBest s e) := by
  cases e <;> unfold SparesBest <;> infer_instance

/-! ## Gateways -/

theorem hopMatch_iff {type : NexthopType} {gate : GAddr} {ifindex : UInt32}
    (hg : (storedGateway g).isSome) :
    hopMatch type gate ifindex g = true ↔ hopOf type gate ifindex = g.hop := by
  obtain ⟨gtype, ggate, gifindex⟩ := g
  unfold hopMatch Gateway.hop hopOf
  cases gtype <;> cases type <;> simp [storedGateway] at hg ⊢

theorem storedGateway_of_fixed (h : g.hop.Fixed) : (storedGateway g).isSome := by
  obtain ⟨gtype, gate, ifindex⟩ := g
  unfold Gateway.hop hopOf Hop.Fixed at h
  unfold storedGateway
  cases gtype <;> simp at h ⊢

/-- The NHLFE that is added is for the gateway that was asked for. -/
theorem newNhlfe_hop {gate : GAddr × UInt32} (h : storedGateway g = some gate)
    (id : Nat) (type : LspType) (outLabel : Label) :
    (newNhlfe id type g.gtype gate outLabel).nexthop.hop = g.hop := by
  obtain ⟨gtype, ggate, ifindex⟩ := g
  unfold storedGateway at h
  unfold newNhlfe hop Gateway.hop hopOf
  cases gtype <;> simp at h ⊢ <;> simp [← h]

theorem nexthopActive_hop {nh : Nexthop} (h : nh.hop.Fixed) :
    (nexthopActive rib nh).hop = nh.hop := by
  obtain ⟨type, gate, ifindex, label, active, fib⟩ := nh
  unfold hop hopOf Hop.Fixed at h
  cases type <;> simp at h
  · cases hc : rib.connected4 gate.w0 <;> simp [nexthopActive, via, hop, hopOf, hc]
  · cases hc : rib.connected6 gate <;> simp [nexthopActive, via, hop, hopOf, hc]
  · simp [nexthopActive, hop, hopOf, h]

/-! ## Sound entries -/

/-- What an NHLFE is known by. -/
def Nhlfe.key (n : Nhlfe) : Nat × LspType × Hop := (n.id, n.type, n.nexthop.hop)

def Lsp.keys (lsp : Lsp) : List (Nat × LspType × Hop) := lsp.nhlfeList.map (·.key)

/-- No two NHLFEs share their address, or their type and gateway. -/
structure KeysSound (next : Nat) (keys : List (Nat × LspType × Hop)) : Prop where
  ids : (keys.map (·.1)).Nodup
  fresh : ∀ k ∈ keys, k.1 < next
  hops : (keys.map (·.2)).Nodup
  fixed : ∀ k ∈ keys, k.2.2.Fixed

theorem KeysSound.sublist {keys keys' : List (Nat × LspType × Hop)}
    (h : KeysSound next keys) (hsub : keys'.Sublist keys) (hnext : next ≤ next') :
    KeysSound next' keys' where
  ids := h.ids.sublist (hsub.map _)
  fresh k hk := Nat.lt_of_lt_of_le (h.fresh k (hsub.subset hk)) hnext
  hops := h.hops.sublist (hsub.map _)
  fixed k hk := h.fixed k (hsub.subset hk)

/-- An entry whose NHLFEs are distinct and whose best NHLFE is one of them. -/
structure Lsp.Sound (next : Nat) (lsp : Lsp) : Prop where
  keys : KeysSound next lsp.keys
  best : ∀ i ∈ lsp.bestNhlfe, ∃ n ∈ lsp.nhlfeList, n.id = i

theorem mem_keys_id : (∃ n ∈ lsp.nhlfeList, n.id = i) ↔ ∃ k ∈ lsp.keys, k.1 = i := by
  simp [Lsp.keys, key]

/-- An entry whose NHLFEs have the keys they had. -/
theorem Lsp.Sound.of_keys (h : lsp.Sound next)
    (hkeys : lsp'.keys = lsp.keys) (hbest : lsp'.bestNhlfe = lsp.bestNhlfe) (hnext : next ≤ next') :
    lsp'.Sound next' where
  keys := h.keys.sublist (hkeys ▸ List.Sublist.refl _) hnext
  best i hi := by
    rw [mem_keys_id, hkeys, ← mem_keys_id]
    exact h.best i (hbest ▸ hi)

theorem setNhlfe_keys {id : Nat} (hf : ∀ n, (f n).key = n.key) :
    (lsp.setNhlfe id f).keys = lsp.keys := by
  unfold Lsp.keys Lsp.setNhlfe
  rw [map_map]
  refine map_congr_left fun n _ => ?_
  simp only [Function.comp]
  split
  · exact hf n
  · rfl

/-- An install adds an NHLFE only if there is none of its type and gateway. -/
theorem KeysSound.install (h : KeysSound next lsp.keys) (type : LspType)
    (outLabel : Label) (hg : (storedGateway g).isSome → g.hop.Fixed) :
    KeysSound (next + 1) (lsp.install next type outLabel g).keys := by
  have hsame : ∀ {keys}, keys = lsp.keys → KeysSound (next + 1) keys :=
    fun heq => h.sublist (heq ▸ List.Sublist.refl _) (Nat.le_succ _)
  unfold Lsp.install
  cases hfind : nhlfeFind lsp type g with
  | some n =>
    dsimp only
    split
    · exact hsame (setNhlfe_keys fun _ => rfl)
    · exact hsame (setNhlfe_keys fun _ => rfl)
  | none =>
    cases hgate : storedGateway g with
    | none => exact hsame rfl
    | some gate =>
      have hstored : (storedGateway g).isSome := by rw [hgate]; rfl
      have hhop := newNhlfe_hop hgate next type outLabel
      refine ⟨?_, ?_, ?_, ?_⟩
      · refine nodup_cons.mpr ⟨?_, h.ids⟩
        intro hin
        obtain ⟨k, hk, hid⟩ := mem_map.mp hin
        exact lt_irrefl _ (hid ▸ h.fresh k hk)
      · intro k hk
        rcases mem_cons.mp hk with rfl | hk
        · exact lt_add_one _
        · exact Nat.lt_succ_of_lt (h.fresh k hk)
      · refine nodup_cons.mpr ⟨?_, h.hops⟩
        intro hin
        obtain ⟨k, hk, heq⟩ := mem_map.mp hin
        obtain ⟨n, hn, rfl⟩ := mem_map.mp hk
        obtain ⟨htype, hhop'⟩ := Prod.mk.inj heq
        have hnot := find?_eq_none.mp hfind n hn
        refine hnot ?_
        have hmatch := (hopMatch_iff hstored).mpr (hhop'.trans hhop)
        have htype' : n.type = type := htype
        unfold isFor
        rw [hmatch, htype']
        simp
      · intro k hk
        rcases mem_cons.mp hk with rfl | hk
        · change (newNhlfe next type g.gtype gate outLabel).nexthop.hop.Fixed
          rw [hhop]
          exact hg hstored
        · exact h.fixed k hk

theorem install_ne_nil
    (hg : (storedGateway g).isSome) : (lsp.install next type outLabel g).nhlfeList ≠ [] := by
  unfold Lsp.install
  cases hfind : nhlfeFind lsp type g with
  | some n =>
    have hne : ∀ f, (lsp.setNhlfe n.id f).nhlfeList ≠ [] := by
      intro f hnil
      have hmem := mem_of_find?_eq_some hfind
      rw [map_eq_nil_iff.mp hnil] at hmem
      cases hmem
    dsimp only
    split
    · exact hne _
    · exact hne _
  | none =>
    obtain ⟨gate, hgate⟩ := Option.isSome_iff_exists.mp hg
    rw [hgate]
    exact cons_ne_nil _ _

theorem setNhlfe_mem {id : Nat} (hf : ∀ n, (f n).id = n.id)
    (h : ∃ n ∈ lsp.nhlfeList, n.id = i) : ∃ n ∈ (lsp.setNhlfe id f).nhlfeList, n.id = i := by
  obtain ⟨n, hn, hid⟩ := h
  refine ⟨_, mem_map_of_mem hn, ?_⟩
  split
  · exact (hf n).trans hid
  · exact hid

theorem install_mem (h : ∃ n ∈ lsp.nhlfeList, n.id = i) :
    ∃ n ∈ (lsp.install next type outLabel g).nhlfeList, n.id = i := by
  unfold Lsp.install
  split
  · split
    · exact setNhlfe_mem (fun _ => rfl) h
    · exact setNhlfe_mem (f := (·.relabel outLabel)) (fun _ => rfl) h
  · split
    · exact h
    · obtain ⟨n, hn, hid⟩ := h
      exact ⟨n, mem_cons_of_mem _ hn, hid⟩

theorem Lsp.Sound.install (h : lsp.Sound next) (type : LspType)
    (outLabel : Label) (hg : g.hop.Fixed) :
    (lsp.install next type outLabel g).Sound (next + 1) := by
  refine ⟨h.keys.install type outLabel fun _ => hg, fun i hi => install_mem (h.best i ?_)⟩
  have hbest : (lsp.install next type outLabel g).bestNhlfe = lsp.bestNhlfe := by
    unfold Lsp.install
    split
    · split <;> rfl
    · split <;> rfl
  rwa [hbest] at hi

/-- An entry that stays has an NHLFE or is scheduled. -/
def Lsp.Live (lsp : Lsp) : Prop := lsp.nhlfeList ≠ [] ∨ lsp.scheduled = true

theorem kept_live {l : Lsp} (h : lsp.kept = some l) : l = lsp ∧ l.Live := by
  obtain ⟨rfl, hlive⟩ := kept_eq h
  exact ⟨rfl, hlive⟩

/-- Some NHLFEs go, and the best one is not among them. -/
theorem Lsp.Sound.sublist (h : lsp.Sound next) (hsub : lsp'.keys.Sublist lsp.keys)
    (hbest : ∀ i ∈ lsp'.bestNhlfe, ∃ n ∈ lsp'.nhlfeList, n.id = i) : lsp'.Sound next :=
  ⟨h.keys.sublist hsub le_rfl, hbest⟩

theorem Lsp.Sound.uninstall (h : lsp.Sound next) (hlive : lsp.Live)
    (hspare : ∀ n ∈ nhlfeFind lsp type g, n.installed = false → lsp.bestNhlfe ≠ some n.id)
    (heq : lsp.uninstall type g = some lsp') : lsp'.Sound next ∧ lsp'.Live := by
  unfold Lsp.uninstall at heq
  cases hfind : nhlfeFind lsp type g with
  | none =>
    rw [hfind] at heq
    cases heq
    exact ⟨h, hlive⟩
  | some n =>
    rw [hfind] at heq
    dsimp only at heq
    split at heq
    · cases heq
      exact ⟨h.of_keys (setNhlfe_keys fun _ => rfl) rfl le_rfl, .inr rfl⟩
    · rename_i hinst
      obtain ⟨rfl, hlive'⟩ := kept_live heq
      refine ⟨h.sublist (filter_sublist.map _) ?_, hlive'⟩
      intro i hi
      obtain ⟨m, hm, hid⟩ := h.best i hi
      refine ⟨m, mem_filter.mpr ⟨hm, ?_⟩, hid⟩
      have hne := hspare n hfind (by simpa using hinst)
      have hother : m.id ≠ n.id := by
        intro hsame
        rw [← hsame, hid] at hne
        exact hne hi
      simpa using hother

theorem uninstallType_keys (type : LspType) (l : List Nhlfe) :
    ((uninstallType type l).map (·.key)).Sublist (l.map (·.key)) := by
  have hkey : ∀ n : Nhlfe, (if n.type = type then n.markDeleted else n).key = n.key := by
    intro n
    split <;> rfl
  rw [uninstallType_eq, map_map]
  simp only [Function.comp_def, hkey]
  exact filter_sublist.map _

theorem Lsp.Sound.uninstallAll (h : lsp.Sound next) (hlive : lsp.Live)
    (hspare : ∀ n ∈ lsp.nhlfeList, n.type = type → n.installed = false → lsp.bestNhlfe ≠ some n.id)
    (heq : lsp.uninstallAll type = some lsp') : lsp'.Sound next ∧ lsp'.Live := by
  have hbest : ∀ i ∈ lsp.bestNhlfe, ∃ n ∈ uninstallType type lsp.nhlfeList, n.id = i := by
    intro i hi
    obtain ⟨n, hn, hid⟩ := h.best i hi
    unfold uninstallType
    simp only [mem_filterMap]
    by_cases htype : n.type = type
    · have hinst : n.installed = true := by
        by_contra hinst
        exact hspare n hn htype (by simpa using hinst) (hid ▸ hi)
      exact ⟨n.markDeleted, ⟨n, hn, by rw [if_neg (not_not.mpr htype), if_pos hinst]⟩, hid⟩
    · exact ⟨n, ⟨n, hn, by rw [if_pos htype]⟩, hid⟩
  unfold Lsp.uninstallAll at heq
  split at heq
  · cases heq
    exact ⟨h, hlive⟩
  · split at heq
    · cases heq
      exact ⟨h.sublist (uninstallType_keys type _) hbest, .inr rfl⟩
    · obtain ⟨rfl, hlive'⟩ := kept_live heq
      exact ⟨h.sublist (uninstallType_keys type _) hbest, hlive'⟩

theorem mark_eq (d : UInt8) (n : Nhlfe) :
    n.mark d = { n with selected := (n.mark d).selected, multipath := (n.mark d).multipath } := by
  unfold mark
  split <;> rfl

theorem unmoved_key (rib : Rib) (h : KeysSound next lsp.keys) :
    Unmoved rib lsp.nhlfeList (·.key) where
  refresh n hn := by
    have hfixed : n.nexthop.hop.Fixed := h.fixed n.key (mem_map_of_mem hn)
    unfold refresh key
    dsimp only
    split
    · rfl
    · rw [nexthopActive_hop hfixed]
  mark d n := by rw [mark_eq]; rfl
  examined n := rfl
  setInstalled b n := rfl

theorem unmoved_deleted (rib : Rib) (l : List Nhlfe) :
    Unmoved rib l fun n => (n.id, n.deleted) where
  refresh n hn := rfl
  mark d n := by rw [mark_eq]
  examined n := rfl
  setInstalled b n := rfl

theorem Lsp.Sound.process (h : lsp.Sound next) {nl : Netlink} {kernel : Label → Option (List Path)}
    (heq : (lspProcessqDel (lspProcess multipathNum nl rib lsp kernel).1).kept = some lsp') :
    lsp'.Sound next ∧ lsp'.Live := by
  obtain ⟨rfl, hlive⟩ := kept_live heq
  have hkeys := (unmoved_key rib h.keys).process multipathNum nl kernel
  have hdel := (unmoved_deleted rib lsp.nhlfeList).process multipathNum nl kernel
  refine ⟨h.sublist ?_ ?_, hlive⟩
  · unfold Lsp.keys
    rw [← hkeys]
    exact filter_sublist.map _
  · intro i hi
    have hbest : (lspSelectBestNhlfe rib lsp).bestNhlfe = some i := by
      rw [← lspProcess_best multipathNum nl rib lsp kernel]
      exact hi
    unfold lspSelectBestNhlfe at hbest
    dsimp only at hbest
    split at hbest
    · cases hbest
    · rename_i best hof
      obtain ⟨hmem, husable⟩ := bestOf_mem hof
      obtain ⟨n, hn, rfl⟩ := mem_map.mp hmem
      have hpair : (i, false) ∈ lsp.nhlfeList.map fun n => (n.id, n.deleted) := by
        refine mem_map.mpr ⟨n, hn, ?_⟩
        have hdeleted : n.deleted = false := by
          have := (Bool.and_eq_true_iff.mp husable).1
          simpa [refresh] using this
        rw [hdeleted, ← Option.some.inj hbest]
        rfl
      rw [← hdel] at hpair
      obtain ⟨m, hm, hpair⟩ := mem_map.mp hpair
      obtain ⟨hid, hdeleted⟩ := Prod.mk.inj hpair
      exact ⟨m, mem_filter.mpr ⟨hm, by simp [hdeleted]⟩, hid⟩

/-! ## Runs -/

/-- Every entry is sound and has a reason to stay. -/
structure SoundTable (s : Zvrf) : Prop where
  shape : Shape s
  sound : ∀ label lsp, s.findLsp label = some lsp → lsp.Sound s.next ∧ lsp.Live

theorem SoundTable.becomes {label : Label} {r : Option Lsp} (h : SoundTable s)
    (hb : Becomes s s' label r) (hr : ∀ lsp, r = some lsp → lsp.Sound s'.next ∧ lsp.Live) :
    SoundTable s' := by
  refine ⟨hb.shape, fun l lsp hfind => ?_⟩
  rw [hb.find] at hfind
  split at hfind
  · exact hr lsp hfind
  · obtain ⟨hsound, hlive⟩ := h.sound l lsp hfind
    exact ⟨hsound.of_keys rfl rfl hb.next, hlive⟩

theorem SoundTable.entry (h : SoundTable s) (inLabel : Label) :
    (s.entry inLabel).Sound (s.getLsp inLabel).2.next := by
  unfold Zvrf.entry Zvrf.getLsp
  cases hfind : s.findLsp inLabel with
  | some lsp => exact (h.sound inLabel lsp hfind).1
  | none => exact ⟨⟨nodup_nil, by simp [Lsp.keys, lspAlloc], nodup_nil,
      by simp [Lsp.keys, lspAlloc]⟩, by simp [lspAlloc]⟩

/-- One step. -/
theorem SoundTable.step {e : MplsEvent} (h : SoundTable s)
    (hgood : SparesBest s e) (hrun : (mplsStep multipathNum e).run s = .ok () s') :
    SoundTable s' := by
  cases e with
  | install type inLabel outLabel g =>
    cases hrun
    obtain ⟨hb, hnext⟩ := install_becomes h.shape type inLabel outLabel g
    refine h.becomes hb ?_
    rintro lsp ⟨rfl⟩
    rw [hnext]
    exact ⟨(h.entry inLabel).install type outLabel hgood,
      Or.inl (install_ne_nil (storedGateway_of_fixed hgood))⟩
  | uninstall type inLabel g =>
    cases hrun
    refine h.becomes (uninstall_becomes h.shape type inLabel g) ?_
    intro lsp' heq
    obtain ⟨lsp, hfind, heq⟩ := Option.bind_eq_some_iff.mp heq
    obtain ⟨hsound, hlive⟩ := h.sound inLabel lsp hfind
    obtain ⟨hsound', hlive'⟩ := hsound.uninstall hlive (hgood lsp hfind) heq
    exact ⟨hsound'.of_keys rfl rfl (uninstall_becomes h.shape type inLabel g).next, hlive'⟩
  | uninstallAll type inLabel =>
    cases hrun
    refine h.becomes (uninstallAll_becomes h.shape type inLabel) ?_
    intro lsp' heq
    obtain ⟨lsp, hfind, heq⟩ := Option.bind_eq_some_iff.mp heq
    obtain ⟨hsound, hlive⟩ := h.sound inLabel lsp hfind
    obtain ⟨hsound', hlive'⟩ := hsound.uninstallAll hlive (hgood lsp hfind) heq
    exact ⟨hsound'.of_keys rfl rfl (uninstallAll_becomes h.shape type inLabel).next, hlive'⟩
  | reachability rib =>
    cases hrun
    refine ⟨schedule_shape (h.shape.withRib rib), fun l lsp hfind => ?_⟩
    rw [schedule_find] at hfind
    obtain ⟨old, hold, rfl⟩ := Option.map_eq_some_iff.mp hfind
    exact ⟨(h.sound l old hold).1.of_keys rfl rfl le_rfl, .inr rfl⟩
  | processItem nl =>
    rcases processItem_becomes h.shape hrun with ⟨-, rfl⟩ | ⟨lsp, hfind, -, -, hb, -, -⟩
    · exact h
    · refine h.becomes hb fun lsp' heq => ?_
      obtain ⟨hsound, hlive⟩ := (h.sound _ lsp hfind).1.process heq
      exact ⟨hsound.of_keys rfl rfl hb.next, hlive⟩

theorem soundTable_init (rib : Rib) : SoundTable (Zvrf.init rib) :=
  ⟨⟨List.Pairwise.nil, by simp [Zvrf.init], nodup_nil, by simp [Zvrf.init]⟩, by
    intro label lsp h
    cases h⟩

theorem SoundTable.integrity (h : SoundTable s) : Integrity s where
  unique lsp hmem := by
    have := (h.sound _ lsp (h.shape.find_of_mem hmem)).1.keys.hops
    simpa [Lsp.keys, key, Function.comp_def] using this
  queuedOnce lsp hmem := by
    have hq := h.shape.mem_queue_iff hmem
    split
    · exact count_eq_one_of_mem h.shape.nodup (hq.mpr ‹_›)
    · exact count_eq_zero_of_not_mem fun hin => ‹¬_› (hq.mp hin)
  live lsp hmem := (h.sound _ lsp (h.shape.find_of_mem hmem)).2
  present i hi := by
    obtain ⟨lsp, hmem, hid, -⟩ := (h.shape.queued i).mp hi
    exact ⟨lsp, hmem, hid⟩
  best lsp hmem := (h.sound _ lsp (h.shape.find_of_mem hmem)).1.best

/-- In every run that installs no gateway that is refused or may change its interface, and
deletes no NHLFE that is the best of its entry, the table is sound in every state. -/
theorem lspTable_integrity {multipathNum : Nat} {rib : Rib} {tr : List MplsEvent} {s : Zvrf}
    (h : Run (mplsStep multipathNum) (Zvrf.init rib) SparesBest tr s) : Integrity s := by
  refine SoundTable.integrity (h.invariant (I := SoundTable) (soundTable_init rib) ?_)
  intro s e s' hs hgood hrun
  exact hs.step hgood hrun

/-- Everything is connected to one interface. -/
def oneLink : Rib := ⟨fun _ => some 1, fun _ => some 1, fun _ => true⟩

def gatewayOf (addr : UInt32) : Gateway := ⟨.ipv4, ⟨addr, 0, 0, 0⟩, 0⟩

/-- Two paths, of which one is uninstalled again. -/
def twoPaths : List MplsEvent :=
  [.install .ldp 100 200 (gatewayOf 1), .install .ldp 100 201 (gatewayOf 2),
    .processItem ⟨true, true⟩, .uninstall .ldp 100 (gatewayOf 2), .processItem ⟨true, true⟩]

theorem twoPaths_integrity :
    ∃ s, Run (mplsStep 2) (Zvrf.init oneLink) SparesBest twoPaths s ∧ s.lspTable ≠ [] ∧
      Integrity s :=
  ⟨_, Run.of_play (by decide +kernel), by decide +kernel,
    lspTable_integrity (Run.of_play (by decide +kernel))⟩

/-- The same with a kernel that refuses the route. -/
def refusedPaths : List MplsEvent :=
  [.install .ldp 100 200 (gatewayOf 1), .install .ldp 100 201 (gatewayOf 2),
    .processItem ⟨false, true⟩, .uninstall .ldp 100 (gatewayOf 2)]

theorem refusedPaths_plays :
    (play (mplsStep 2) (fun _ _ => True) refusedPaths (Zvrf.init oneLink)).isSome := by
  decide +kernel

/-- The best NHLFE of the entry has been freed. -/
theorem refusedPaths_dangling :
    ∃ s, Reachable (mplsStep 2) (Zvrf.init oneLink) s ∧ ¬Integrity s := by
  refine ⟨_, (Run.of_play refusedPaths_plays).reachable, fun h => ?_⟩
  have hbest := h.best
  revert hbest
  decide +kernel

end Mp2mp.Zebra
