import Mp2mp.Zebra.Synced

/-!
# Processing an entry

`lsp_process` on an entry whose flags agree with the kernel, when the netlink requests succeed
and have room for the selected paths.

* `select_list`: `lsp_select_best_nhlfe` marks the NHLFEs that are chosen.
* `process_outcome`: the kernel has the chosen paths afterwards, whether the entry is added,
  updated, withdrawn or left alone.
* `Outcome.entryOk`: the entry agrees with the kernel and nothing is left to do.
-/

namespace Mp2mp.Zebra

open Kit List Function Nexthop Nhlfe

variable {n : Nhlfe} {l : List Nhlfe} {f : Nhlfe → Nhlfe} {b : Nhlfe} {lsp' lsp : Lsp}
  {kernel' kernel : Label → Option (List Path)} {multipathNum : Nat} {k : Option (List Path)}
  {rib : Rib}

/-! ## Selection -/

/-- Looking up reachability, for gateways that keep their interface. -/
theorem nexthopActive_eq {rib : Rib} {nh : Nexthop} (h : nh.hop.Fixed) :
    (nexthopActive rib nh).hop = nh.hop ∧ (nexthopActive rib nh).label = nh.label ∧
      (nexthopActive rib nh).fib = nh.fib ∧
      (nexthopActive rib nh).active = nh.hop.reachable rib := by
  refine ⟨nexthopActive_hop h, ?_⟩
  obtain ⟨type, gate, ifindex, label, active, fib⟩ := nh
  unfold hop hopOf Hop.Fixed at h
  cases type <;> simp at h
  · cases hc : rib.connected4 gate.w0 <;>
      simp [nexthopActive, via, hop, hopOf, Hop.reachable, hc]
  · cases hc : rib.connected6 gate <;>
      simp [nexthopActive, via, hop, hopOf, Hop.reachable, hc]
  · simp [nexthopActive, hop, hopOf, Hop.reachable, h]

theorem onFirst_eq_map {α : Type} {p : α → Bool} {f : α → α} {limit : Nat} {l : List α}
    (h : l.countP p ≤ limit) : onFirst p f limit l = l.map fun x => if p x then f x else x := by
  induction l generalizing limit with
  | nil => rfl
  | cons x l ih =>
    cases limit with
    | zero =>
      have hnone := countP_eq_zero.mp (Nat.le_zero.mp h)
      conv_lhs => rw [onFirst.eq_2 _ _ _ (by simp), ← map_id (x :: l)]
      refine map_congr_left fun y hy => ?_
      rw [if_neg (hnone y hy)]
      rfl
    | succ limit =>
      rw [countP_cons] at h
      unfold onFirst
      by_cases hp : p x = true
      · rw [if_pos hp] at h
        rw [if_pos hp, map_cons, if_pos hp, ih (by omega)]
      · rw [if_neg hp] at h
        rw [if_neg hp, map_cons, if_neg hp, ih (by omega)]

theorem better_some (x n : Nhlfe) : ∃ b, better (some x) n = some b ∧ b.distance ≤ x.distance := by
  unfold better
  split
  · dsimp only
    split
    · exact ⟨n, rfl, UInt8.le_of_lt ‹_›⟩
    · exact ⟨x, rfl, UInt8.le_refl _⟩
  · exact ⟨x, rfl, UInt8.le_refl _⟩

theorem better_usable (hn : n.usable = true) (best : Option Nhlfe) :
    ∃ b, better best n = some b ∧ b.distance ≤ n.distance := by
  unfold better
  rw [if_pos hn]
  cases best with
  | none => exact ⟨n, rfl, UInt8.le_refl _⟩
  | some x =>
    dsimp only
    split
    · exact ⟨n, rfl, UInt8.le_refl _⟩
    · exact ⟨x, rfl, UInt8.not_lt.mp ‹_›⟩

theorem foldl_better (l : List Nhlfe) (x : Nhlfe) :
    ∃ b, l.foldl better (some x) = some b ∧ b.distance ≤ x.distance := by
  induction l generalizing x with
  | nil => exact ⟨x, rfl, UInt8.le_refl _⟩
  | cons n l ih =>
    obtain ⟨y, hy, hle⟩ := better_some x n
    obtain ⟨b, hb, hle'⟩ := ih y
    refine ⟨b, ?_, UInt8.le_trans hle' hle⟩
    rw [foldl_cons, hy, hb]

theorem bestOf_le (hmem : n ∈ l) (hn : n.usable = true) :
    ∃ b, bestOf l = some b ∧ b.distance ≤ n.distance := by
  have hfold : ∀ acc, ∃ b, l.foldl better acc = some b ∧ b.distance ≤ n.distance := by
    induction l with
    | nil => cases hmem
    | cons m l ih =>
      intro acc
      rcases mem_cons.mp hmem with rfl | hmem
      · obtain ⟨y, hy, hle⟩ := better_usable hn acc
        obtain ⟨b, hb, hle'⟩ := foldl_better l y
        exact ⟨b, by rw [foldl_cons, hy, hb], UInt8.le_trans hle' hle⟩
      · exact ih hmem _
  exact hfold none

/-- The NHLFEs that an entry should be forwarded over. -/
def chosen (rib : Rib) (l : List Nhlfe) (n : Nhlfe) : Bool :=
  !n.deleted && isBest rib (l.filter (!·.deleted)) n

/-- What selection makes of an NHLFE `n`. -/
structure Selected (rib : Rib) (l : List Nhlfe) (n m : Nhlfe) : Prop where
  hop : m.nexthop.hop = n.nexthop.hop
  label : m.nexthop.label = n.nexthop.label
  fib : m.nexthop.fib = n.nexthop.fib
  deleted : m.deleted = n.deleted
  distance : m.distance = n.distance
  installed : m.installed = n.installed
  selected : m.selected = chosen rib l n
  toAdd : m.toAdd = chosen rib l n
  changed : chosen rib l n = true → m.changed = false

/-- Every next hop is stored as it was given. -/
abbrev Lsp.HopsFixed (lsp : Lsp) : Prop := ∀ n ∈ lsp.nhlfeList, n.nexthop.hop.Fixed

theorem refresh_usable (h : n.nexthop.hop.Fixed) :
    (n.refresh rib).usable = (!n.deleted && n.nexthop.hop.reachable rib) := by
  unfold refresh usable
  cases hdel : n.deleted with
  | true => rfl
  | false => simp [(nexthopActive_eq h).2.2.2]

theorem refresh_nexthop (rib : Rib) (h : n.nexthop.hop.Fixed) :
    (n.refresh rib).nexthop.hop = n.nexthop.hop ∧ (n.refresh rib).nexthop.label = n.nexthop.label ∧
      (n.refresh rib).nexthop.fib = n.nexthop.fib := by
  unfold refresh
  dsimp only
  split
  · exact ⟨rfl, rfl, rfl⟩
  · obtain ⟨hhop, hlabel, hfib, -⟩ := nexthopActive_eq h
    exact ⟨hhop, hlabel, hfib⟩

theorem chosen_iff :
    chosen rib l n = true ↔ n.deleted = false ∧ n.nexthop.hop.reachable rib = true ∧
      ∀ m ∈ l, m.deleted = false → m.nexthop.hop.reachable rib = true →
        n.distance ≤ m.distance := by
  unfold chosen
  rw [Bool.and_eq_true, isBest_iff]
  simp only [Bool.not_eq_true', mem_filter, and_imp]

/-- Without a best NHLFE none is chosen. -/
theorem chosen_of_none (hfixed : lsp.HopsFixed)
    (hbest : bestOf (lsp.nhlfeList.map (·.refresh rib)) = none)
    (hn : n ∈ lsp.nhlfeList) : chosen rib lsp.nhlfeList n = false := by
  by_contra hc
  obtain ⟨hdel, hreach, -⟩ := chosen_iff.mp (by simpa using hc)
  have husable : (n.refresh rib).usable = true := by
    rw [refresh_usable (hfixed n hn), hdel, hreach]
    rfl
  obtain ⟨b, hb, -⟩ := bestOf_le (mem_map_of_mem hn) husable
  rw [hbest] at hb
  cases hb

/-- With one, those that are as good are chosen. -/
theorem chosen_of_some (hfixed : lsp.HopsFixed)
    (hbest : bestOf (lsp.nhlfeList.map (·.refresh rib)) = some b) (hn : n ∈ lsp.nhlfeList) :
    chosen rib lsp.nhlfeList n =
      ((n.refresh rib).usable && n.distance == b.distance) := by
  obtain ⟨hmem, husable⟩ := bestOf_mem hbest
  obtain ⟨m, hm, rfl⟩ := mem_map.mp hmem
  have hleast : ∀ x ∈ lsp.nhlfeList, (x.refresh rib).usable = true → m.distance ≤ x.distance := by
    intro x hx hu
    obtain ⟨y, hy, hle⟩ := bestOf_le (mem_map_of_mem hx) hu
    rw [hbest] at hy
    cases hy
    exact hle
  rw [Bool.eq_iff_iff, chosen_iff, Bool.and_eq_true, beq_iff_eq, refresh_usable (hfixed n hn)]
  rw [refresh_usable (hfixed m hm)] at husable
  simp only [Bool.and_eq_true, Bool.not_eq_true'] at husable ⊢
  have hdist : (m.refresh rib).distance = m.distance := rfl
  rw [hdist]
  constructor
  · rintro ⟨hdel, hreach, hmin⟩
    refine ⟨⟨hdel, hreach⟩, UInt8.le_antisymm (hmin m hm husable.1 husable.2) ?_⟩
    exact hleast n hn (by rw [refresh_usable (hfixed n hn), hdel, hreach]; rfl)
  · rintro ⟨⟨hdel, hreach⟩, heq⟩
    refine ⟨hdel, hreach, fun x hx hxdel hxreach => ?_⟩
    rw [heq]
    exact hleast x hx (by rw [refresh_usable (hfixed x hx), hxdel, hxreach]; rfl)

theorem select_list (rib : Rib) (hfixed : lsp.HopsFixed) :
    ∃ f : Nhlfe → Nhlfe, (lspSelectBestNhlfe rib lsp).nhlfeList = lsp.nhlfeList.map f ∧
      ∀ n ∈ lsp.nhlfeList, Selected rib lsp.nhlfeList n (f n) := by
  unfold lspSelectBestNhlfe
  dsimp only
  cases hbest : bestOf (lsp.nhlfeList.map (·.refresh rib)) with
  | none =>
    refine ⟨(·.refresh rib), rfl, fun n hn => ?_⟩
    obtain ⟨hhop, hlabel, hfib⟩ := refresh_nexthop rib (hfixed n hn)
    have hchosen := chosen_of_none hfixed hbest hn
    refine ⟨hhop, hlabel, hfib, rfl, rfl, rfl, hchosen.symm, hchosen.symm, fun hc => ?_⟩
    rw [hchosen] at hc
    cases hc
  | some b =>
    refine ⟨fun n => { (n.refresh rib).mark b.distance with changed := false }, ?_, fun n hn => ?_⟩
    · simp only [map_map, comp_def]
    · obtain ⟨hhop, hlabel, hfib⟩ := refresh_nexthop rib (hfixed n hn)
      have hchosen := chosen_of_some hfixed hbest hn
      have hactive : (n.refresh rib).usable = true → (n.refresh rib).nexthop.active = true :=
        fun hu => (Bool.and_eq_true_iff.mp hu).2
      by_cases hc : ((n.refresh rib).usable && n.distance == b.distance) = true
      · have hmark : (n.refresh rib).mark b.distance =
            { n.refresh rib with selected := true, multipath := true } := if_pos hc
        rw [hc] at hchosen
        dsimp only
        rw [hmark]
        refine ⟨hhop, hlabel, hfib, rfl, rfl, rfl, hchosen.symm, ?_, fun _ => rfl⟩
        rw [hchosen]
        exact hactive (Bool.and_eq_true_iff.mp hc).1
      · have hmark : (n.refresh rib).mark b.distance = n.refresh rib := if_neg hc
        rw [Bool.not_eq_true] at hc
        rw [hc] at hchosen
        dsimp only
        rw [hmark]
        exact ⟨hhop, hlabel, hfib, rfl, rfl, rfl, hchosen.symm, hchosen.symm, fun _ => rfl⟩

/-! ## Netlink requests -/

theorem le_pathLimit {p : Nhlfe → Bool} (h : multipathNum = 0 ∨ l.countP p ≤ multipathNum) :
    l.countP p ≤ pathLimit multipathNum l := by
  unfold pathLimit
  split
  · exact countP_le_length
  · rcases h with h | h
    · exact absurd h ‹_›
    · exact h

/-- `kernel_add_lsp` when the request succeeds and has room for every path. -/
theorem kernelAddLsp_ok (hany : lsp.nhlfeList.any (·.toAdd) = true)
    (hroom : multipathNum = 0 ∨ lsp.nhlfeList.countP (·.toAdd) ≤ multipathNum) :
    kernelAddLsp multipathNum ⟨true, true⟩ lsp kernel =
      ({ lsp with
          nhlfeList := lsp.nhlfeList.map fun n => if n.toAdd then n.setInstalled true else n
          changed := false, installed := true },
        setKernel kernel lsp.inLabel
          (some ((lsp.nhlfeList.filter (·.toAdd)).map (·.nexthop.path)))) := by
  have hlimit := le_pathLimit hroom
  have htake : (lsp.nhlfeList.filter (·.toAdd)).take (pathLimit multipathNum lsp.nhlfeList) =
      lsp.nhlfeList.filter (·.toAdd) :=
    take_of_length_le (by rwa [← countP_eq_length_filter])
  unfold kernelAddLsp netlinkAdd
  rw [if_pos hany, htake, onFirst_eq_map hlimit]
  rfl

/-- The `RTM_DELROUTE` of an entry when it succeeds and reaches every path. -/
theorem kernelDel_ok (kernel : Label → Option (List Path))
    (hany : lsp.nhlfeList.any (·.toDelete) = true)
    (hroom : multipathNum = 0 ∨ lsp.nhlfeList.countP (·.toDelete) ≤ multipathNum) :
    kernelDel multipathNum ⟨true, true⟩ lsp kernel =
      ({ lsp with
          nhlfeList := lsp.nhlfeList.map fun n => if n.toDelete then n.setInstalled false else n
          installed := false },
        setKernel kernel lsp.inLabel none) := by
  unfold kernelDel netlinkDel
  rw [if_pos hany, onFirst_eq_map (le_pathLimit hroom)]
  rfl

/-! ## One item of the queue -/

/-- What processing makes of an NHLFE `n`. -/
structure Processed (rib : Rib) (l : List Nhlfe) (n m : Nhlfe) : Prop where
  hop : m.nexthop.hop = n.nexthop.hop
  label : m.nexthop.label = n.nexthop.label
  deleted : m.deleted = n.deleted
  distance : m.distance = n.distance
  installed : m.installed = chosen rib l n
  fib : m.nexthop.fib = chosen rib l n
  changed : m.installed = true → m.changed = false

/-- The entry and the kernel after processing. -/
structure Outcome (rib : Rib) (lsp : Lsp) (kernel : Label → Option (List Path))
    (r : Lsp × (Label → Option (List Path))) : Prop where
  list : ∃ f, r.1.nhlfeList = lsp.nhlfeList.map f ∧
    ∀ n ∈ lsp.nhlfeList, Processed rib lsp.nhlfeList n (f n)
  installed : r.1.installed = true ↔ ∃ n ∈ lsp.nhlfeList, chosen rib lsp.nhlfeList n = true
  entry : r.2 lsp.inLabel =
    match (lsp.nhlfeList.filter (chosen rib lsp.nhlfeList)).map (·.nexthop.path) with
    | [] => none
    | paths => some paths
  other : ∀ label, label ≠ lsp.inLabel → r.2 label = kernel label

theorem select_best_isSome (rib : Rib) (hfixed : lsp.HopsFixed) :
    (lspSelectBestNhlfe rib lsp).bestNhlfe.isSome = true ↔
      ∃ n ∈ lsp.nhlfeList, chosen rib lsp.nhlfeList n = true := by
  unfold lspSelectBestNhlfe
  dsimp only
  cases hbest : bestOf (lsp.nhlfeList.map (·.refresh rib)) with
  | none =>
    refine ⟨fun h => (by cases h), ?_⟩
    rintro ⟨n, hn, hc⟩
    rw [chosen_of_none hfixed hbest hn] at hc
    cases hc
  | some b =>
    refine ⟨fun _ => ?_, fun _ => rfl⟩
    obtain ⟨hmem, husable⟩ := bestOf_mem hbest
    obtain ⟨m, hm, rfl⟩ := mem_map.mp hmem
    refine ⟨m, hm, ?_⟩
    rw [chosen_of_some hfixed hbest hm, husable]
    exact beq_self_eq_true _

section

variable (hfixed : lsp.HopsFixed)

include hfixed

/-- The number of paths that are selected. -/
theorem select_numEcmp :
    (lspSelectBestNhlfe rib lsp).numEcmp = lsp.nhlfeList.countP (chosen rib lsp.nhlfeList) := by
  obtain ⟨f, hlist, hsel⟩ := select_list rib hfixed
  have hcount : (lspSelectBestNhlfe rib lsp).numEcmp =
      (lspSelectBestNhlfe rib lsp).nhlfeList.countP (·.selected) := by
    unfold lspSelectBestNhlfe
    dsimp only
    split
    · symm
      rw [countP_map]
      exact countP_eq_zero.mpr fun n _ => Bool.false_ne_true
    · simp only [countP_map, comp_def]
  rw [hcount, hlist, countP_map]
  refine countP_congr fun n hn => ?_
  rw [comp, (hsel n hn).selected]

theorem mark_selected
    (hbest : bestOf (lsp.nhlfeList.map (·.refresh rib)) = some b) (hn : n ∈ lsp.nhlfeList) :
    ((n.refresh rib).mark b.distance).selected = chosen rib lsp.nhlfeList n := by
  rw [chosen_of_some hfixed hbest hn]
  unfold mark
  by_cases hc : ((n.refresh rib).usable && n.distance == b.distance) = true
  · rw [hc]
    exact congrArg selected (if_pos hc)
  · rw [Bool.not_eq_true _ |>.mp hc]
    exact congrArg selected (if_neg hc)

theorem select_unchanged
    (hinst : lsp.installed = true) (hsome : (lspSelectBestNhlfe rib lsp).bestNhlfe.isSome = true)
    (hchg : (lspSelectBestNhlfe rib lsp).changed = false) (hn : n ∈ lsp.nhlfeList) :
    n.installed = chosen rib lsp.nhlfeList n ∧ (n.installed = true → n.changed = false) := by
  unfold lspSelectBestNhlfe at hsome hchg
  dsimp only at hsome hchg
  cases hbest : bestOf (lsp.nhlfeList.map (·.refresh rib)) with
  | none =>
    rw [hbest] at hsome
    cases hsome
  | some b =>
    rw [hbest] at hchg
    dsimp only at hchg
    rw [hinst, Bool.true_and, any_eq_false] at hchg
    have hsame : ((n.refresh rib).mark b.distance).differs = false := by
      have := hchg _ (mem_map_of_mem (mem_map_of_mem hn))
      simpa using this
    have hsel := mark_selected hfixed hbest hn
    have hparts : ((n.refresh rib).mark b.distance).installed = n.installed ∧
        ((n.refresh rib).mark b.distance).changed = n.changed := by
      rw [mark_eq]
      exact ⟨rfl, rfl⟩
    unfold differs at hsame
    rw [hsel, hparts.1, hparts.2] at hsame
    cases hi : n.installed <;> cases hc : chosen rib lsp.nhlfeList n <;>
      simp [hi, hc] at hsame ⊢
    exact hsame

end

/-- An NHLFE that the kernel does not know, ready to be added. -/
structure Cleared (rib : Rib) (l : List Nhlfe) (n m : Nhlfe) : Prop where
  hop : m.nexthop.hop = n.nexthop.hop
  label : m.nexthop.label = n.nexthop.label
  deleted : m.deleted = n.deleted
  distance : m.distance = n.distance
  installed : m.installed = false
  fib : m.nexthop.fib = false
  toAdd : m.toAdd = chosen rib l n
  changed : chosen rib l n = true → m.changed = false

/-- Nothing more is done to an NHLFE that is not chosen. -/
theorem Cleared.processed {m : Nhlfe} (h : Cleared rib l n m)
    (hc : chosen rib l n = false) : Processed rib l n m := by
  refine ⟨h.hop, h.label, h.deleted, h.distance, h.installed.trans hc.symm, h.fib.trans hc.symm,
    fun hi => ?_⟩
  rw [h.installed] at hi
  cases hi

theorem add_outcome
    (hlist : lsp'.nhlfeList = lsp.nhlfeList.map f) (hlabel : lsp'.inLabel = lsp.inLabel)
    (hf : ∀ n ∈ lsp.nhlfeList, Cleared rib lsp.nhlfeList n (f n))
    (hother : ∀ label, label ≠ lsp.inLabel → kernel' label = kernel label)
    (hsome : ∃ n ∈ lsp.nhlfeList, chosen rib lsp.nhlfeList n = true) (hroom : multipathNum = 0 ∨
      lsp.nhlfeList.countP (chosen rib lsp.nhlfeList) ≤ multipathNum) :
    Outcome rib lsp kernel (kernelAddLsp multipathNum ⟨true, true⟩ lsp' kernel') := by
  have hany : lsp'.nhlfeList.any (·.toAdd) = true := by
    obtain ⟨n, hn, hc⟩ := hsome
    rw [hlist, any_map, any_eq_true]
    exact ⟨n, hn, (hf n hn).toAdd.trans hc⟩
  have hcount : lsp'.nhlfeList.countP (·.toAdd) =
      lsp.nhlfeList.countP (chosen rib lsp.nhlfeList) := by
    rw [hlist, countP_map]
    refine countP_congr fun n hn => ?_
    rw [comp, (hf n hn).toAdd]
  rw [kernelAddLsp_ok hany (by rwa [hcount])]
  refine ⟨⟨fun n => if (f n).toAdd then (f n).setInstalled true else f n, ?_, fun n hn => ?_⟩,
    ⟨fun _ => hsome, fun _ => rfl⟩, ?_, fun label hne => ?_⟩
  · simp only [hlist, map_map, comp_def]
  · have hn' := hf n hn
    dsimp only
    cases hc : chosen rib lsp.nhlfeList n with
    | true =>
      rw [hn'.toAdd, hc, if_pos rfl]
      exact ⟨hn'.hop, hn'.label, hn'.deleted, hn'.distance, hc.symm, hc.symm,
        fun _ => hn'.changed hc⟩
    | false =>
      rw [hn'.toAdd, hc, if_neg Bool.false_ne_true]
      exact hn'.processed hc
  · have hpaths : (lsp'.nhlfeList.filter (·.toAdd)).map (·.nexthop.path) =
        (lsp.nhlfeList.filter (chosen rib lsp.nhlfeList)).map (·.nexthop.path) := by
      rw [hlist, filter_map, map_map]
      have hfilter : lsp.nhlfeList.filter ((·.toAdd) ∘ f) =
          lsp.nhlfeList.filter (chosen rib lsp.nhlfeList) :=
        filter_congr fun n hn => (hf n hn).toAdd
      rw [hfilter]
      refine map_congr_left fun n hn => ?_
      have hn' := hf n (mem_of_mem_filter hn)
      simp only [comp_def, path, hn'.hop, hn'.label]
    dsimp only [setKernel]
    rw [hlabel, if_pos rfl, hpaths]
    obtain ⟨n, hn, hc⟩ := hsome
    have hne : (lsp.nhlfeList.filter (chosen rib lsp.nhlfeList)).map (·.nexthop.path) ≠ [] :=
      ne_nil_of_mem (mem_map_of_mem (mem_filter.mpr ⟨hn, hc⟩))
    split
    · exact absurd ‹_› hne
    · rfl
  · dsimp only [setKernel]
    rw [hlabel, if_neg hne]
    exact hother label hne

theorem select_frame (rib : Rib) (lsp : Lsp) : (lspSelectBestNhlfe rib lsp).inLabel = lsp.inLabel ∧
      (lspSelectBestNhlfe rib lsp).installed = lsp.installed := by
  unfold lspSelectBestNhlfe
  dsimp only
  split <;> exact ⟨rfl, rfl⟩

theorem Synced.not_installed (h : Synced multipathNum k lsp)
    (hinst : lsp.installed = false) : (∀ n ∈ lsp.nhlfeList, n.installed = false) ∧ k = none := by
  have hempty : lsp.inKernel = [] := by
    by_contra hne
    rw [h.installed.mpr hne] at hinst
    cases hinst
  constructor
  · intro n hn
    by_contra hi
    have hmem : n ∈ lsp.inKernel := mem_filter.mpr ⟨hn, by simpa using hi⟩
    rw [hempty] at hmem
    cases hmem
  · have hpaths := h.paths
    rw [hempty] at hpaths
    cases k with
    | none => rfl
    | some paths =>
      cases hpaths
      exact absurd rfl h.proper

theorem withdraw (rib : Rib) (kernel : Label → Option (List Path))
    (hfixed : lsp.HopsFixed)
    (h : Synced multipathNum k lsp) (hinst : lsp.installed = true) :
    ∃ lsp' f, kernelDel multipathNum ⟨true, true⟩ (lspSelectBestNhlfe rib lsp) kernel =
        (lsp', setKernel kernel lsp.inLabel none) ∧
      lsp'.nhlfeList = lsp.nhlfeList.map f ∧ lsp'.inLabel = lsp.inLabel ∧
      lsp'.installed = false ∧ ∀ n ∈ lsp.nhlfeList, Cleared rib lsp.nhlfeList n (f n) := by
  obtain ⟨f, hlist, hsel⟩ := select_list rib hfixed
  have hdel : ∀ n ∈ lsp.nhlfeList, (f n).toDelete = n.installed := by
    intro n hn
    unfold toDelete
    rw [(hsel n hn).installed, (hsel n hn).fib, h.fib n hn, Bool.and_self]
  have hany : (lspSelectBestNhlfe rib lsp).nhlfeList.any (·.toDelete) = true := by
    obtain ⟨n, hn⟩ := exists_mem_of_ne_nil _ (h.installed.mp hinst)
    obtain ⟨hmem, hn⟩ := mem_filter.mp hn
    rw [hlist, any_map, any_eq_true]
    exact ⟨n, hmem, (hdel n hmem).trans hn⟩
  have hcount : (lspSelectBestNhlfe rib lsp).nhlfeList.countP (·.toDelete) =
      lsp.inKernel.length := by
    rw [hlist, countP_map, Lsp.inKernel, ← countP_eq_length_filter]
    refine countP_congr fun n hn => ?_
    rw [comp, hdel n hn]
  have hkernel := kernelDel_ok kernel hany (by rw [hcount]; exact h.within)
  rw [(select_frame rib lsp).1] at hkernel
  refine ⟨_, fun n => if (f n).toDelete then (f n).setInstalled false else f n, hkernel, ?_,
    rfl, rfl, fun n hn => ?_⟩
  · dsimp only
    rw [hlist, map_map]
    rfl
  · have hs := hsel n hn
    dsimp only
    rw [hdel n hn]
    cases hi : n.installed with
    | true => exact ⟨hs.hop, hs.label, hs.deleted, hs.distance, rfl, rfl, hs.toAdd, hs.changed⟩
    | false =>
      exact ⟨hs.hop, hs.label, hs.deleted, hs.distance, hs.installed.trans hi,
        hs.fib.trans ((h.fib n hn).trans hi), hs.toAdd, hs.changed⟩

/-- No NHLFE is chosen, and the kernel has no entry. -/
theorem none_outcome (hlist : lsp'.nhlfeList = lsp.nhlfeList.map f) (hinst : lsp'.installed = false)
    (hf : ∀ n ∈ lsp.nhlfeList, Cleared rib lsp.nhlfeList n (f n))
    (hentry : kernel' lsp.inLabel = none)
    (hother : ∀ label, label ≠ lsp.inLabel → kernel' label = kernel label)
    (hnone : ¬∃ n ∈ lsp.nhlfeList, chosen rib lsp.nhlfeList n = true) :
    Outcome rib lsp kernel (lsp', kernel') := by
  have hall : ∀ n ∈ lsp.nhlfeList, ¬chosen rib lsp.nhlfeList n = true :=
    fun n hn hc => hnone ⟨n, hn, hc⟩
  refine ⟨⟨f, hlist, fun n hn => (hf n hn).processed (by simpa using hall n hn)⟩, ?_, ?_, hother⟩
  · exact ⟨fun h => by simp [hinst] at h, fun h => absurd h hnone⟩
  · rw [filter_eq_nil_iff.mpr hall]
    exact hentry

/-- What processing does when netlink requests succeed and have room. -/
theorem process_outcome (hfixed : lsp.HopsFixed)
    (h : Synced multipathNum (kernel lsp.inLabel) lsp)
    (hroom : multipathNum = 0 ∨ (lspSelectBestNhlfe rib lsp).numEcmp ≤ multipathNum) :
    Outcome rib lsp kernel (lspProcess multipathNum ⟨true, true⟩ rib lsp kernel) := by
  rw [select_numEcmp hfixed] at hroom
  have hsome := select_best_isSome rib hfixed
  obtain ⟨hlabel, hflag⟩ := select_frame rib lsp
  obtain ⟨f, hlist, hsel⟩ := select_list rib hfixed
  unfold lspProcess
  dsimp only
  rw [hflag, ← Option.not_isSome]
  cases hinst : lsp.installed with
  | true =>
    obtain ⟨lsp', g, hdel, hlist', hlabel', hinst', hg⟩ :=
      withdraw rib kernel hfixed h hinst
    rw [if_pos rfl]
    by_cases hb : (lspSelectBestNhlfe rib lsp).bestNhlfe.isSome = true
    · rw [if_neg (by simp [hb])]
      by_cases hc : (lspSelectBestNhlfe rib lsp).changed = true
      · rw [if_pos hc]
        unfold kernelUpdLsp
        rw [hdel]
        exact add_outcome hlist' hlabel' hg (fun label hne => if_neg hne) (hsome.mp hb) hroom
      · rw [if_neg hc]
        -- nothing is sent, as the kernel has the chosen paths with their labels
        have hkeep := fun n hn =>
          select_unchanged (n := n) hfixed hinst hb (by simpa using hc) hn
        have hfilter : lsp.inKernel = lsp.nhlfeList.filter (chosen rib lsp.nhlfeList) :=
          filter_congr fun n hn => (hkeep n hn).1
        have hpaths := carries_unchanged h.paths fun n hn => by
          obtain ⟨hmem, hi⟩ := mem_filter.mp hn
          exact (hkeep n hmem).2 hi
        refine ⟨⟨f, hlist, fun n hn => ?_⟩, ⟨fun _ => hsome.mp hb, fun _ => hflag.trans hinst⟩, ?_,
          fun _ _ => rfl⟩
        · have hs := hsel n hn
          have hk := (hkeep n hn).1
          exact ⟨hs.hop, hs.label, hs.deleted, hs.distance, hs.installed.trans hk,
            hs.fib.trans ((h.fib n hn).trans hk),
            fun hi => hs.changed ((hs.installed.trans hk).symm.trans hi)⟩
        · have hproper := h.proper
          dsimp only
          rw [← hfilter, ← hpaths]
          cases hk : kernel lsp.inLabel with
          | none => rfl
          | some paths =>
            rw [hk] at hproper
            cases paths with
            | nil => exact absurd rfl hproper
            | cons p paths => rfl
    · rw [if_pos (by simpa using hb), hdel]
      exact none_outcome hlist' hinst' hg (if_pos rfl) (fun label hne => if_neg hne)
        fun hc => hb (hsome.mpr hc)
  | false =>
    obtain ⟨hoff, hentry⟩ := h.not_installed hinst
    have hcleared : ∀ n ∈ lsp.nhlfeList, Cleared rib lsp.nhlfeList n (f n) := by
      intro n hn
      have hs := hsel n hn
      exact ⟨hs.hop, hs.label, hs.deleted, hs.distance, hs.installed.trans (hoff n hn),
        hs.fib.trans ((h.fib n hn).trans (hoff n hn)), hs.toAdd, hs.changed⟩
    rw [if_neg Bool.false_ne_true]
    by_cases hb : (lspSelectBestNhlfe rib lsp).bestNhlfe.isSome = true
    · rw [if_pos hb]
      exact add_outcome hlist hlabel hcleared (fun _ _ => rfl) (hsome.mp hb) hroom
    · rw [if_neg hb]
      exact none_outcome hlist (hflag.trans hinst) hcleared hentry (fun _ _ => rfl)
        fun hc => hb (hsome.mpr hc)

section

variable {next : Nat}
  {r : Lsp × (Label → Option (List Path))}

theorem isBest_map (hn : n ∈ l) (hhop : ∀ n ∈ l, (f n).nexthop.hop = n.nexthop.hop)
    (hdist : ∀ n ∈ l, (f n).distance = n.distance) :
    isBest rib (l.map f) (f n) = isBest rib l n := by
  rw [Bool.eq_iff_iff, isBest_iff, isBest_iff, hhop n hn, hdist n hn]
  refine and_congr_right fun _ => ⟨fun h m hm hreach => ?_, fun h m hm hreach => ?_⟩
  · rw [← hdist m hm]
    exact h (f m) (mem_map_of_mem hm) (by rwa [hhop m hm])
  · obtain ⟨x, hx, rfl⟩ := mem_map.mp hm
    rw [hdist x hx]
    exact h x hx (by rwa [← hhop x hx])

/-- After processing, an entry without its deleted NHLFEs agrees with the kernel. -/
theorem Outcome.entryOk (h : Outcome rib lsp kernel r)
    (hroom : multipathNum = 0 ∨ lsp.nhlfeList.countP (chosen rib lsp.nhlfeList) ≤ multipathNum)
    (hkeys : KeysSound next (lspProcessqDel r.1).keys) :
    EntryOk multipathNum next rib (r.2 lsp.inLabel) (lspProcessqDel r.1).kept := by
  obtain ⟨f, hlist, hf⟩ := h.list
  have hlist' : (lspProcessqDel r.1).nhlfeList = (lsp.nhlfeList.filter (!·.deleted)).map f := by
    change r.1.nhlfeList.filter (!·.deleted) = _
    rw [hlist, filter_map]
    refine congrArg (List.map f) (filter_congr fun n hn => ?_)
    rw [comp, (hf n hn).deleted]
  have hkernel : (lspProcessqDel r.1).inKernel =
      (lsp.nhlfeList.filter (chosen rib lsp.nhlfeList)).map f := by
    unfold Lsp.inKernel
    rw [hlist', filter_map, filter_filter]
    refine congrArg (List.map f) (filter_congr fun n hn => ?_)
    rw [comp, (hf n hn).installed]
    unfold chosen
    cases n.deleted <;> simp
  have hmem : ∀ m ∈ (lspProcessqDel r.1).nhlfeList,
      ∃ n ∈ lsp.nhlfeList, n.deleted = false ∧ f n = m := by
    intro m hm
    rw [hlist'] at hm
    obtain ⟨n, hn, rfl⟩ := mem_map.mp hm
    obtain ⟨hn, hdel⟩ := mem_filter.mp hn
    exact ⟨n, hn, by simpa using hdel, rfl⟩
  refine EntryOk.kept hkeys ⟨?_, ?_, ?_, ?_, ?_⟩ fun _ => ⟨?_, ?_, ?_⟩
  · intro m hm
    obtain ⟨n, hn, -, rfl⟩ := hmem m hm
    rw [(hf n hn).fib, (hf n hn).installed]
  · rw [hkernel, length_map, ← countP_eq_length_filter]
    exact hroom
  · change r.1.installed = true ↔ _
    rw [h.installed, hkernel, ne_eq, map_eq_nil_iff, filter_eq_nil_iff]
    push Not
    rfl
  · have hpaths : (r.2 lsp.inLabel).getD [] =
        (lsp.nhlfeList.filter (chosen rib lsp.nhlfeList)).map (·.nexthop.path) := by
      rw [h.entry]
      split
      · exact Eq.symm ‹_›
      · rfl
    rw [hkernel, hpaths, forall₂_map_left_iff, forall₂_map_right_iff, forall₂_same]
    intro n hn
    have hn' := hf n (mem_of_mem_filter hn)
    exact ⟨hn'.hop.symm, fun _ => hn'.label.symm⟩
  · rw [h.entry]
    split
    · exact fun heq => by cases heq
    · exact fun heq => ‹¬_› (Option.some.inj heq)
  · intro m hm
    obtain ⟨n, hn, hdel, rfl⟩ := hmem m hm
    exact (hf n hn).deleted.trans hdel
  · intro m hm
    obtain ⟨n, hn, hdel, rfl⟩ := hmem m hm
    have hn' : n ∈ lsp.nhlfeList.filter (!·.deleted) := mem_filter.mpr ⟨hn, by simp [hdel]⟩
    rw [hlist', isBest_map hn', (hf n hn).installed, chosen, hdel]
    · rfl
    · exact fun x hx => (hf x (mem_of_mem_filter hx)).hop
    · exact fun x hx => (hf x (mem_of_mem_filter hx)).distance
  · intro m hm
    obtain ⟨n, hn, -, rfl⟩ := hmem m hm
    exact (hf n hn).changed

end

end Mp2mp.Zebra
