import Mp2mp.Zebra.Integrity

/-!
# Table entries and the kernel's paths

What the kernel should forward for an entry of the LSP table, and what the flags of the entry
say about what it does forward.

* `Forwards`: the kernel's entry of every in-label is the paths over the NHLFEs that are
  reachable and of minimal distance.
* `Synced`, `Settled`: the flags of an entry agree with the kernel; nothing is left to do.
* `EntryOk.install`, `EntryOk.uninstall`, `EntryOk.uninstallAll`: requests keep the flags in
  agreement.
-/

namespace Mp2mp.Zebra

open Kit List Lsp

variable {l : List Nhlfe} {lsp' lsp : Lsp} {keep : Nhlfe → Bool} {paths : List Path}
  {f : Nhlfe → Nhlfe} {g : Gateway} {type : LspType} {rib : Rib} {k : Option (List Path)}
  {multipathNum : Nat}

/-! ## The property -/

/-- The nexthop can be reached. -/
def Hop.reachable (rib : Rib) (h : Hop) : Bool :=
  match h.type with
  | .ipv4 => (rib.connected4 h.gate.w0).isSome
  | .ipv6 => (rib.connected6 h.gate).isSome
  | .ipv6Ifindex =>
    if h.gate.isLinklocal then rib.operative h.ifindex else (rib.connected6 h.gate).isSome
  | _ => false

/-- Reachable, and of minimal distance among those that are. -/
def isBest (rib : Rib) (l : List Nhlfe) (n : Nhlfe) : Bool :=
  n.nexthop.hop.reachable rib &&
    l.all fun m => !m.nexthop.hop.reachable rib || decide (n.distance ≤ m.distance)

/-- The kernel's entry for an entry of the table; no entry if there is no path. -/
def wanted (rib : Rib) : Option Lsp → Option (List Path)
  | none => none
  | some lsp =>
    match (lsp.nhlfeList.filter (isBest rib lsp.nhlfeList)).map (·.nexthop.path) with
    | [] => none
    | paths => some paths

/-- The kernel forwards what the table says. -/
def Forwards (s : Zvrf) : Prop := ∀ label, s.kernel label = wanted s.rib (s.findLsp label)

/-- A gateway with interface is link-local, an uninstall reaches no NHLFE that waits for its
relabelling, and netlink requests succeed and have room for the selected paths. -/
def Follows (multipathNum : Nat) (s : Zvrf) : MplsEvent → Prop
  | .install _ _ _ g => g.gtype = .ipv6Ifindex → g.gate.isLinklocal = true
  | .uninstall type inLabel g =>
    ∀ lsp ∈ s.findLsp inLabel, ∀ n ∈ nhlfeFind lsp type g, n.installed = true → n.changed = false
  | .uninstallAll type inLabel =>
    ∀ lsp ∈ s.findLsp inLabel, ∀ n ∈ lsp.nhlfeList, n.type = type →
      n.installed = true → n.changed = false
  | .reachability _ => True
  | .processItem nl =>
    nl = ⟨true, true⟩ ∧ ∀ lsp ∈ s.lspTable, s.queue.head? = some lsp.id →
      multipathNum = 0 ∨ (lspSelectBestNhlfe s.rib lsp).numEcmp ≤ multipathNum

instance (multipathNum : Nat) (s : Zvrf) : (e : MplsEvent) → Decidable (Follows multipathNum s e)
  | .install .. => inferInstanceAs (Decidable (_ → _))
  | .uninstall _ inLabel _ => inferInstanceAs (Decidable (∀ lsp ∈ s.findLsp inLabel, ∀ n ∈ _, _))
  | .uninstallAll _ inLabel => inferInstanceAs (Decidable (∀ lsp ∈ s.findLsp inLabel, ∀ n ∈ _, _))
  | .reachability _ => .isTrue trivial
  | .processItem _ => inferInstanceAs (Decidable (_ ∧ ∀ lsp ∈ s.lspTable, _))

/-! ## Synchronised entries -/

/-- The path in the kernel is over this NHLFE, with its label unless that has changed. -/
def Carries (n : Nhlfe) (p : Path) : Prop :=
  p.hop = n.nexthop.hop ∧ (n.changed = false → p.label = n.nexthop.label)

/-- The NHLFEs that the kernel has paths for. -/
def Lsp.inKernel (lsp : Lsp) : List Nhlfe := lsp.nhlfeList.filter (·.installed)

/-- The flags of an entry say what the kernel holds. -/
structure Synced (multipathNum : Nat) (k : Option (List Path)) (lsp : Lsp) : Prop where
  fib : ∀ n ∈ lsp.nhlfeList, n.nexthop.fib = n.installed
  within : multipathNum = 0 ∨ lsp.inKernel.length ≤ multipathNum
  installed : lsp.installed = true ↔ lsp.inKernel ≠ []
  paths : List.Forall₂ Carries lsp.inKernel (k.getD [])
  proper : k ≠ some []

/-- An entry that needs no processing. -/
structure Settled (rib : Rib) (lsp : Lsp) : Prop where
  alive : ∀ n ∈ lsp.nhlfeList, n.deleted = false
  best : ∀ n ∈ lsp.nhlfeList, n.installed = isBest rib lsp.nhlfeList n
  unchanged : ∀ n ∈ lsp.nhlfeList, n.installed = true → n.changed = false

section

variable (h : Synced multipathNum k lsp)

include h

/-- The kernel has no entry for an entry without NHLFEs. -/
theorem Synced.kernel_none (hnil : lsp.nhlfeList = []) : k = none := by
  have hpaths := h.paths
  unfold inKernel at hpaths
  rw [hnil] at hpaths
  cases k with
  | none => rfl
  | some paths =>
    cases hpaths
    exact absurd rfl h.proper

omit h in
theorem carries_unchanged (h : List.Forall₂ Carries l paths)
    (hl : ∀ n ∈ l, n.changed = false) : paths = l.map (·.nexthop.path) := by
  induction h with
  | nil => rfl
  | cons hp _ ih =>
    obtain ⟨hhop, hlabel⟩ := hp
    rw [map_cons, ih fun n hn => hl n (mem_cons_of_mem _ hn)]
    unfold Nexthop.path
    rw [← hhop, ← hlabel (hl _ mem_cons_self)]

/-- A settled entry is forwarded as it should be. -/
theorem Synced.forwards (hsettled : Settled rib lsp) : k = wanted rib (some lsp) := by
  have hfilter : lsp.inKernel = lsp.nhlfeList.filter (isBest rib lsp.nhlfeList) :=
    filter_congr hsettled.best
  have hpaths : k.getD [] = lsp.inKernel.map (·.nexthop.path) := by
    refine carries_unchanged h.paths fun n hn => ?_
    obtain ⟨hmem, hinst⟩ := mem_filter.mp hn
    exact hsettled.unchanged n hmem hinst
  unfold wanted
  dsimp only
  rw [← hfilter, ← hpaths]
  cases k with
  | none => rfl
  | some paths =>
    cases paths with
    | nil => exact absurd rfl h.proper
    | cons p paths => rfl

omit h in
theorem carries_map
    (h : List.Forall₂ Carries l paths) (hf : ∀ n ∈ l, ∀ p, Carries n p → Carries (f n) p) :
    List.Forall₂ Carries (l.map f) paths := by
  induction h with
  | nil => exact .nil
  | cons hp _ ih =>
    exact .cons (hf _ mem_cons_self _ hp) (ih fun n hn => hf n (mem_cons_of_mem _ hn))

theorem Synced.map
    (hlist : lsp'.nhlfeList = lsp.nhlfeList.map f) (hflag : lsp'.installed = lsp.installed)
    (hinst : ∀ n, (f n).installed = n.installed) (hfib : ∀ n, (f n).nexthop.fib = n.nexthop.fib)
    (hcarry : ∀ n ∈ lsp.nhlfeList, n.installed = true → ∀ p, Carries n p → Carries (f n) p) :
    Synced multipathNum k lsp' := by
  have hkernel : lsp'.inKernel = lsp.inKernel.map f := by
    unfold inKernel
    rw [hlist, filter_map]
    simp only [Function.comp_def, hinst]
  refine ⟨?_, ?_, ?_, ?_, h.proper⟩
  · intro n hn
    rw [hlist] at hn
    obtain ⟨m, hm, rfl⟩ := mem_map.mp hn
    rw [hfib, hinst, h.fib m hm]
  · rw [hkernel, length_map]
    exact h.within
  · rw [hflag, h.installed, hkernel, ne_eq, ne_eq, map_eq_nil_iff]
  · rw [hkernel]
    refine carries_map h.paths fun n hn => ?_
    obtain ⟨hmem, hinst⟩ := mem_filter.mp hn
    exact hcarry n hmem hinst

theorem Synced.filter
    (hlist : lsp'.nhlfeList = lsp.nhlfeList.filter keep) (hflag : lsp'.installed = lsp.installed)
    (hkeep : ∀ n ∈ lsp.nhlfeList, n.installed = true → keep n = true) :
    Synced multipathNum k lsp' := by
  have hkernel : lsp'.inKernel = lsp.inKernel := by
    unfold inKernel
    rw [hlist, filter_filter]
    refine filter_congr fun n hn => ?_
    cases hinst : n.installed with
    | true => simp [hkeep n hn hinst]
    | false => simp
  refine ⟨?_, hkernel ▸ h.within, by rw [hflag, hkernel, h.installed], hkernel ▸ h.paths, h.proper⟩
  intro n hn
  rw [hlist] at hn
  exact h.fib n (mem_of_mem_filter hn)

theorem Synced.congr
    (hlist : lsp'.nhlfeList = lsp.nhlfeList) (hflag : lsp'.installed = lsp.installed) :
    Synced multipathNum k lsp' := by
  have hall : lsp'.nhlfeList = lsp.nhlfeList.filter fun _ => true := by
    rw [hlist, filter_true]
  exact h.filter hall hflag fun _ _ _ => rfl

/-! ### Install and uninstall -/

theorem Synced.install (next : Nat) (type : LspType) (outLabel : Label) (g : Gateway) :
    Synced multipathNum k (lsp.install next type outLabel g) := by
  unfold Lsp.install
  split
  · split
    · refine h.map rfl rfl ?_ ?_ ?_
      · intro n; split <;> rfl
      · intro n; split <;> rfl
      · intro n _ _ p hp
        split
        · exact hp
        · exact hp
    · refine h.map (f := fun n => if n.id = _ then n.relabel outLabel else n) rfl rfl ?_ ?_ ?_
      · intro n; split <;> rfl
      · intro n; split <;> rfl
      · intro n _ _ p hp
        split
        · exact ⟨hp.1, fun hchg => by cases hchg⟩
        · exact hp
  · split
    · exact h
    · refine ⟨?_, h.within, h.installed, h.paths, h.proper⟩
      intro n hn
      rcases mem_cons.mp hn with rfl | hn
      · rfl
      · exact h.fib n hn

omit h in
theorem eq_of_id {next : Nat} (h : KeysSound next lsp.keys) {m n : Nhlfe}
    (hm : m ∈ lsp.nhlfeList) (hn : n ∈ lsp.nhlfeList) (hid : m.id = n.id) : m = n := by
  have hids : (lsp.nhlfeList.map (·.id)).Nodup := by
    simpa [Lsp.keys, Nhlfe.key, Function.comp_def] using h.ids
  exact inj_on_of_nodup_map hids hm hn hid

/-- Marking an NHLFE for deletion forgets nothing if it does not wait for its relabelling. -/
theorem Synced.markDeleted {p : Nhlfe → Prop} [DecidablePred p]
    (hlist : lsp'.nhlfeList = lsp.nhlfeList.map fun n => if p n then n.markDeleted else n)
    (hflag : lsp'.installed = lsp.installed)
    (hchg : ∀ n ∈ lsp.nhlfeList, p n → n.installed = true → n.changed = false) :
    Synced multipathNum k lsp' := by
  refine h.map hlist hflag ?_ ?_ ?_
  · intro n; split <;> rfl
  · intro n; split <;> rfl
  · intro n hn hinst path hp
    split
    · exact ⟨hp.1, fun _ => hp.2 (hchg n hn ‹_› hinst)⟩
    · exact hp

end

/-! ### Best paths -/

theorem exists_best (d : Nat) : ∀ m ∈ l, m.nexthop.hop.reachable rib = true → m.distance.toNat = d →
      ∃ b ∈ l, isBest rib l b = true ∧ b.distance ≤ m.distance := by
  induction d using Nat.strong_induction_on with
  | _ d ih =>
    intro m hm hreach hd
    by_cases hbest : isBest rib l m = true
    · exact ⟨m, hm, hbest, UInt8.le_refl _⟩
    · have hsmaller : ∃ n ∈ l, n.nexthop.hop.reachable rib = true ∧ ¬m.distance ≤ n.distance := by
        simpa [isBest, hreach] using hbest
      obtain ⟨n, hn, hnreach, hlt⟩ := hsmaller
      have hlt' : n.distance < m.distance := UInt8.not_le.mp hlt
      obtain ⟨b, hb, hbest, hle⟩ :=
        ih n.distance.toNat (hd ▸ UInt8.lt_iff_toNat_lt.mp hlt') n hn hnreach rfl
      exact ⟨b, hb, hbest, UInt8.le_trans hle (UInt8.le_of_lt hlt')⟩

theorem isBest_iff {n : Nhlfe} : isBest rib l n = true ↔ n.nexthop.hop.reachable rib = true ∧
      ∀ m ∈ l, m.nexthop.hop.reachable rib = true → n.distance ≤ m.distance := by
  unfold isBest
  simp only [Bool.and_eq_true, all_eq_true, Bool.or_eq_true, decide_eq_true_eq, Bool.not_eq_true']
  refine and_congr_right fun _ => forall₂_congr fun m _ => ?_
  cases m.nexthop.hop.reachable rib <;> simp

/-- Taking away NHLFEs that are not the best leaves the best. -/
theorem isBest_filter (hkeep : ∀ m ∈ l, isBest rib l m = true → keep m = true) (n : Nhlfe) :
    isBest rib (l.filter keep) n = isBest rib l n := by
  rw [Bool.eq_iff_iff, isBest_iff, isBest_iff]
  refine and_congr_right fun _ => ⟨fun h m hm hreach => ?_, fun h m hm => ?_⟩
  · obtain ⟨b, hb, hbest, hle⟩ := exists_best m.distance.toNat m hm hreach rfl
    have hmem : b ∈ l.filter keep := mem_filter.mpr ⟨hb, hkeep b hb hbest⟩
    exact UInt8.le_trans (h b hmem (isBest_iff.mp hbest).1) hle
  · exact h m (mem_of_mem_filter hm)

theorem Settled.filter (h : Settled rib lsp) (hlist : lsp'.nhlfeList = lsp.nhlfeList.filter keep)
    (hkeep : ∀ n ∈ lsp.nhlfeList, n.installed = true → keep n = true) : Settled rib lsp' where
  alive n hn := h.alive n (mem_of_mem_filter (hlist ▸ hn))
  best n hn := by
    rw [hlist, isBest_filter]
    · exact h.best n (mem_of_mem_filter (hlist ▸ hn))
    · intro m hm hbest
      exact hkeep m hm (by rw [h.best m hm, hbest])
  unchanged n hn := h.unchanged n (mem_of_mem_filter (hlist ▸ hn))

/-! ## Entries of the table -/

/-- The kernel's entry `k` and an entry of the table. -/
def EntryOk (multipathNum next : Nat) (rib : Rib) (k : Option (List Path)) : Option Lsp → Prop
  | none => k = none
  | some lsp =>
    KeysSound next lsp.keys ∧ Synced multipathNum k lsp ∧
      (lsp.scheduled = false → Settled rib lsp)

section

variable {next : Nat}

theorem EntryOk.kept (hkeys : KeysSound next lsp.keys) (hsynced : Synced multipathNum k lsp)
    (hsettled : lsp.scheduled = false → Settled rib lsp) :
    EntryOk multipathNum next rib k lsp.kept := by
  unfold Lsp.kept
  split
  · exact hsynced.kernel_none (‹_ ∧ _›).1
  · exact ⟨hkeys, hsynced, hsettled⟩

theorem undelete_settled (h : Settled rib lsp) (id : Nat) : lsp.setNhlfe id (·.undelete) = lsp := by
  have hlist : lsp.nhlfeList.map (fun n => if n.id = id then n.undelete else n) = lsp.nhlfeList := by
    conv_rhs => rw [← map_id lsp.nhlfeList]
    refine map_congr_left fun n hn => ?_
    split
    · unfold Nhlfe.undelete
      rw [← h.alive n hn]
      rfl
    · rfl
  unfold setNhlfe
  rw [hlist]

section

variable (h : EntryOk multipathNum next rib k (some lsp))

include h

theorem EntryOk.install (type : LspType)
    (outLabel : Label) (hg : (storedGateway g).isSome → g.hop.Fixed) :
    EntryOk multipathNum (next + 1) rib k (some (lsp.install next type outLabel g)) := by
  obtain ⟨hkeys, hsynced, hsettled⟩ := h
  refine ⟨hkeys.install type outLabel hg, hsynced.install next type outLabel g, ?_⟩
  unfold Lsp.install
  split
  · split
    · intro hs
      rw [undelete_settled (hsettled hs)]
      exact hsettled hs
    · intro hs
      cases hs
  · split
    · exact hsettled
    · intro hs
      cases hs

theorem EntryOk.uninstall
    (hchg : ∀ n ∈ nhlfeFind lsp type g, n.installed = true → n.changed = false) :
    EntryOk multipathNum next rib k (lsp.uninstall type g) := by
  obtain ⟨hkeys, hsynced, hsettled⟩ := h
  unfold Lsp.uninstall
  cases hfind : nhlfeFind lsp type g with
  | none => exact ⟨hkeys, hsynced, hsettled⟩
  | some n =>
    have hn : n ∈ lsp.nhlfeList := mem_of_find?_eq_some hfind
    dsimp only
    split
    · refine ⟨?_, ?_, fun hs => by cases hs⟩
      · change KeysSound next (lsp.setNhlfe n.id (·.markDeleted)).keys
        rw [setNhlfe_keys (f := (·.markDeleted)) fun _ => rfl]
        exact hkeys
      · refine hsynced.markDeleted (p := fun m => m.id = n.id) rfl rfl ?_
        intro m hm hid hinst
        rw [eq_of_id hkeys hm hn hid] at hinst ⊢
        exact hchg n hfind hinst
    · rename_i hinst
      have hkeep : ∀ m ∈ lsp.nhlfeList, m.installed = true → decide (m.id ≠ n.id) = true := by
        intro m hm hminst
        rw [decide_eq_true_eq]
        intro hid
        rw [eq_of_id hkeys hm hn hid] at hminst
        exact hinst hminst
      refine EntryOk.kept ?_ ?_ ?_
      · exact hkeys.sublist (filter_sublist.map _) le_rfl
      · exact hsynced.filter rfl rfl hkeep
      · exact fun hs => (hsettled hs).filter rfl hkeep

theorem EntryOk.uninstallAll
    (hchg : ∀ n ∈ lsp.nhlfeList, n.type = type → n.installed = true → n.changed = false) :
    EntryOk multipathNum next rib k (lsp.uninstallAll type) := by
  obtain ⟨hkeys, hsynced, hsettled⟩ := h
  have hkeep : ∀ n ∈ lsp.nhlfeList, n.installed = true →
      (decide (n.type ≠ type) || n.installed) = true := by
    intro n _ hinst
    simp [hinst]
  have hkept : Synced multipathNum k
      { lsp with nhlfeList := lsp.nhlfeList.filter fun n => n.type ≠ type || n.installed } :=
    hsynced.filter rfl rfl hkeep
  have hsynced' : Synced multipathNum k
      { lsp with nhlfeList := uninstallType type lsp.nhlfeList } := by
    refine hkept.markDeleted (uninstallType_eq type _) rfl ?_
    intro n hn
    exact hchg n (mem_of_mem_filter hn)
  have hkeys' := hkeys.sublist (uninstallType_keys type lsp.nhlfeList) le_rfl
  unfold Lsp.uninstallAll
  split
  · exact ⟨hkeys, hsynced, hsettled⟩
  · split
    · exact ⟨hkeys', hsynced'.congr rfl rfl, fun hs => by cases hs⟩
    · rename_i hany
      refine EntryOk.kept hkeys' hsynced' fun hs => (hsettled hs).filter ?_ hkeep
      -- nothing is marked, as no NHLFE of the type is installed
      change uninstallType type lsp.nhlfeList = _
      rw [uninstallType_eq]
      conv_rhs => rw [← map_id (List.filter _ _)]
      refine map_congr_left fun n hn => ?_
      obtain ⟨hmem, hn⟩ := mem_filter.mp hn
      refine if_neg fun htype => hany (any_eq_true.mpr ⟨n, hmem, ?_⟩)
      simpa [htype] using hn

end

end

end Mp2mp.Zebra
