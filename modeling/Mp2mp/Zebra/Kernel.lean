import Mp2mp.Zebra.Process

/-!
# What the kernel forwards

Once the queue is empty the kernel's entry of an in-label should be the paths over the NHLFEs
that are reachable and of minimal distance.

A relabelled NHLFE is marked changed, and the mark is what makes `lsp_process` tell the kernel.
An uninstall of an installed NHLFE clears the mark, and installing it again with the label it
was given last finds nothing to change: the kernel keeps the label from before.

* `kernel_forwards`: in every run in which all netlink requests succeed, at most
  `MULTIPATH_NUM` paths are selected, and no NHLFE that waits for its relabelling is
  uninstalled, the kernel agrees with the table whenever the queue is empty.
-/

namespace Mp2mp.Zebra

open Kit

/-! ## Runs -/

/-- The flags of every entry say what the kernel holds. -/
structure Programmed (multipathNum : Nat) (s : Zvrf) : Prop where
  shape : Shape s
  entries : ∀ label, EntryOk multipathNum s.next s.rib (s.kernel label) (s.findLsp label)

theorem EntryOk.mono {multipathNum next next' : Nat} {rib : Rib} {k : Option (List Path)}
    {r : Option Lsp} (h : EntryOk multipathNum next rib k r) (hnext : next ≤ next') :
    EntryOk multipathNum next' rib k r := by
  cases r with
  | none => exact h
  | some lsp => exact ⟨h.1.sublist (List.Sublist.refl _) hnext, h.2⟩

section

variable {multipathNum : Nat} {s s' : Zvrf}

theorem Programmed.becomes {label : Label} {r : Option Lsp} (h : Programmed multipathNum s)
    (hb : Becomes s s' label r) (hother : ∀ l, l ≠ label → s'.kernel l = s.kernel l)
    (hr : EntryOk multipathNum s'.next s.rib (s'.kernel label) r) : Programmed multipathNum s' := by
  refine ⟨hb.shape, fun l => ?_⟩
  rw [hb.find, hb.rib]
  split
  · subst l
    exact hr
  · rw [hother l ‹_›]
    exact (h.entries l).mono hb.next

/-- The entry that an install is made in, which may be new. -/
theorem Programmed.entry (h : Programmed multipathNum s) (inLabel : Label) :
    EntryOk multipathNum (s.getLsp inLabel).2.next s.rib (s.kernel inLabel)
      (some (s.entry inLabel)) := by
  have hentry := h.entries inLabel
  unfold Zvrf.entry Zvrf.getLsp
  cases hfind : s.findLsp inLabel with
  | some lsp =>
    rw [hfind] at hentry
    exact hentry
  | none =>
    rw [hfind] at hentry
    have hnone : s.kernel inLabel = none := hentry
    rw [hnone]
    refine ⟨⟨List.nodup_nil, ?_, List.nodup_nil, ?_⟩, ⟨?_, ?_, ?_, List.Forall₂.nil, ?_⟩,
      fun _ => ⟨?_, ?_, ?_⟩⟩ <;> simp [Lsp.keys, Lsp.inKernel, lspAlloc]

/-- A gateway that is stored keeps its interface if it is link-local or has none. -/
theorem fixed_of_linklocal {g : Gateway}
    (hg : g.gtype = .ipv6Ifindex → g.gate.isLinklocal = true) (hstored : (storedGateway g).isSome) :
    g.hop.Fixed := by
  obtain ⟨gtype, gate, ifindex⟩ := g
  cases gtype <;> simp [storedGateway] at hstored <;>
    simp [Gateway.hop, hopOf, Hop.Fixed]
  exact hg rfl

theorem Programmed.step {e : MplsEvent} (h : Programmed multipathNum s)
    (hgood : Follows multipathNum s e) (hrun : (mplsStep multipathNum e).run s = .ok () s') :
    Programmed multipathNum s' := by
  cases e with
  | install type inLabel outLabel g =>
    cases hrun
    obtain ⟨hb, hnext⟩ := install_becomes h.shape type inLabel outLabel g
    have hkernel := (install_frame s type inLabel outLabel g).1
    refine h.becomes hb (fun l _ => congrFun hkernel l) ?_
    rw [hnext, hkernel]
    exact (h.entry inLabel).install type outLabel (fixed_of_linklocal hgood)
  | uninstall type inLabel g =>
    cases hrun
    have hb := uninstall_becomes h.shape type inLabel g
    have hkernel := (uninstall_frame s type inLabel g).1
    refine h.becomes hb (fun l _ => congrFun hkernel l) ?_
    have hentry := h.entries inLabel
    rw [hkernel]
    refine EntryOk.mono ?_ hb.next
    cases hfind : s.findLsp inLabel with
    | none =>
      rw [hfind] at hentry
      exact hentry
    | some lsp =>
      rw [hfind] at hentry
      exact hentry.uninstall (hgood lsp hfind)
  | uninstallAll type inLabel =>
    cases hrun
    have hb := uninstallAll_becomes h.shape type inLabel
    have hkernel := (uninstallAll_frame s type inLabel).1
    refine h.becomes hb (fun l _ => congrFun hkernel l) ?_
    have hentry := h.entries inLabel
    rw [hkernel]
    refine EntryOk.mono ?_ hb.next
    cases hfind : s.findLsp inLabel with
    | none =>
      rw [hfind] at hentry
      exact hentry
    | some lsp =>
      rw [hfind] at hentry
      exact hentry.uninstallAll (hgood lsp hfind)
  | reachability rib =>
    cases hrun
    refine ⟨schedule_shape (h.shape.withRib rib), fun l => ?_⟩
    rw [schedule_find]
    have hentry := h.entries l
    change EntryOk multipathNum s.next rib (s.kernel l) ((s.findLsp l).map _)
    cases hfind : s.findLsp l with
    | none =>
      rw [hfind] at hentry
      exact hentry
    | some lsp =>
      rw [hfind] at hentry
      exact ⟨hentry.1, hentry.2.1.congr rfl rfl, fun hs => by cases hs⟩
  | processItem nl =>
    obtain ⟨rfl, hroom⟩ := hgood
    rcases processItem_becomes h.shape hrun with ⟨-, rfl⟩ | ⟨lsp, hfind, -, hqueue, hb, hkernel, -⟩
    · exact h
    · have hentry := h.entries lsp.inLabel
      rw [hfind] at hentry
      obtain ⟨hkeys, hsynced, -⟩ := hentry
      have hfixed : lsp.HopsFixed := fun n hn => hkeys.fixed n.key (List.mem_map_of_mem hn)
      have hroom' := hroom lsp (findLsp_mem hfind) (by rw [hqueue]; rfl)
      have hout := process_outcome hfixed hsynced hroom'
      refine h.becomes hb ?_ ?_
      · intro l hl
        rw [hkernel]
        exact hout.other l hl
      · rw [hkernel]
        refine hout.entryOk (by rwa [← select_numEcmp hfixed]) ?_
        refine hkeys.sublist ?_ hb.next
        unfold Lsp.keys
        have hmap := (unmoved_key s.rib hkeys).process multipathNum ⟨true, true⟩ s.kernel
        rw [← hmap]
        exact List.filter_sublist.map _

/-- In every run in which netlink requests succeed and have room, gateways keep their
interface, and no NHLFE that waits for its relabelling is uninstalled, the kernel forwards what
the table says whenever the queue is empty. -/
theorem kernel_forwards {rib : Rib} {tr : List MplsEvent}
    (h : Run (mplsStep multipathNum) (Zvrf.init rib) (Follows multipathNum) tr s)
    (hqueue : s.queue = []) : Forwards s := by
  have hprog : Programmed multipathNum s := by
    refine h.invariant (I := Programmed multipathNum) ?_ ?_
    · exact ⟨(soundTable_init rib).shape, fun _ => rfl⟩
    · intro s e s' hs hgood hrun
      exact hs.step hgood hrun
  intro label
  have hentry := hprog.entries label
  cases hfind : s.findLsp label with
  | none =>
    rw [hfind] at hentry
    exact hentry
  | some lsp =>
    rw [hfind] at hentry
    obtain ⟨-, hsynced, hsettled⟩ := hentry
    refine hsynced.forwards (hsettled ?_)
    have hq := hprog.shape.mem_queue_iff (findLsp_mem hfind)
    rw [hqueue] at hq
    simpa using hq

end

/-- A path is relabelled, and later one of two is uninstalled. -/
def relabelledPath : List MplsEvent :=
  [.install .ldp 100 200 (gatewayOf 1), .install .ldp 100 201 (gatewayOf 2),
    .processItem ⟨true, true⟩, .install .ldp 100 202 (gatewayOf 1), .processItem ⟨true, true⟩,
    .uninstall .ldp 100 (gatewayOf 2), .processItem ⟨true, true⟩]

theorem relabelledPath_forwards :
    ∃ s, Run (mplsStep 2) (Zvrf.init oneLink) (Follows 2) relabelledPath s ∧
      s.kernel 100 = some [⟨(gatewayOf 1).hop, 202⟩] ∧ Forwards s :=
  ⟨_, Run.of_play (by decide +kernel), by decide +kernel,
    kernel_forwards (Run.of_play (by decide +kernel)) (by decide +kernel)⟩

/-- The path is uninstalled while it waits for its relabelling, and installed again. -/
def forgottenLabel : List MplsEvent :=
  [.install .ldp 100 200 (gatewayOf 1), .processItem ⟨true, true⟩,
    .install .ldp 100 201 (gatewayOf 1), .uninstall .ldp 100 (gatewayOf 1),
    .install .ldp 100 201 (gatewayOf 1), .processItem ⟨true, true⟩]

theorem forgottenLabel_plays :
    (play (mplsStep 2) (fun _ _ => True) forgottenLabel (Zvrf.init oneLink)).isSome := by
  decide +kernel

/-- The kernel keeps the label from before. -/
theorem forgottenLabel_stale :
    ∃ s, Reachable (mplsStep 2) (Zvrf.init oneLink) s ∧ s.queue = [] ∧ ¬Forwards s := by
  refine ⟨_, (Run.of_play forgottenLabel_plays).reachable, by decide +kernel, fun h => ?_⟩
  have hentry := h 100
  revert hentry
  decide +kernel

end Mp2mp.Zebra
