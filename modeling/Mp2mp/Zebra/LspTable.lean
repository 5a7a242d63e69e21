import Mp2mp.Zebra.Mpls

/-!
# The LSP table and its queue

Every operation of `zebra_mpls.c` looks up one entry of the table, or allocates it, and
changes or releases that entry and nothing else.  `Becomes` says so, and what an operation
does is then a function of the entry.

* `Shape`: one entry per in-label and per address, and the queue holds the scheduled ones.
* `Unmoved.process`: what `lsp_process` leaves as it is.
* `install_becomes`, `uninstall_becomes`, `uninstallAll_becomes`, `processItem_becomes`: the
  operations, entry by entry.
-/

namespace Mp2mp.Zebra

open Kit List Zvrf Keyed

variable {label : Label} {s : Zvrf} {lsp : Lsp} {r : Option Lsp}

/-! ## One entry changes -/

/-- One entry per in-label and per address, and the queue holds the scheduled ones. -/
structure Shape (s : Zvrf) : Prop where
  distinct : s.lspTable.Pairwise fun a b => a.inLabel ≠ b.inLabel ∧ a.id ≠ b.id
  fresh : ∀ l ∈ s.lspTable, l.id < s.next
  nodup : s.queue.Nodup
  queued : ∀ i, i ∈ s.queue ↔ ∃ l ∈ s.lspTable, l.id = i ∧ l.scheduled = true

/-- The table changes in the entry of `label`, which becomes `entry`. -/
structure Becomes (s s' : Zvrf) (label : Label) (entry : Option Lsp) : Prop where
  shape : Shape s'
  find : ∀ l, s'.findLsp l = if l = label then entry else s.findLsp l
  next : s.next ≤ s'.next
  rib : s'.rib = s.rib

theorem Shape.withRib (h : Shape s) (rib : Rib) : Shape { s with rib } :=
  ⟨h.distinct, h.fresh, h.nodup, h.queued⟩

theorem findLsp_label (h : s.findLsp label = some lsp) : lsp.inLabel = label := by
  simpa using find?_some h

theorem findLsp_mem (h : s.findLsp label = some lsp) : lsp ∈ s.lspTable :=
  mem_of_find?_eq_some h

namespace Shape

variable (h : Shape s)

include h

theorem find_of_mem (hmem : lsp ∈ s.lspTable) : s.findLsp lsp.inLabel = some lsp :=
  find?_of_mem (h.distinct.imp And.left) hmem

theorem find_id_of_mem (hmem : lsp ∈ s.lspTable) : s.lspTable.find? (·.id == lsp.id) = some lsp :=
  find?_of_mem (h.distinct.imp And.right) hmem

theorem eq_of_id {a b : Lsp} (ha : a ∈ s.lspTable) (hb : b ∈ s.lspTable) (hid : a.id = b.id) :
    a = b := by
  have hfind := h.find_id_of_mem ha
  rw [hid, h.find_id_of_mem hb] at hfind
  exact (Option.some.inj hfind).symm

/-- A scheduled entry is in the queue. -/
theorem mem_queue_iff (hmem : lsp ∈ s.lspTable) : lsp.id ∈ s.queue ↔ lsp.scheduled = true := by
  rw [h.queued]
  constructor
  · rintro ⟨l, hl, hid, hsched⟩
    rwa [h.eq_of_id hl hmem hid] at hsched
  · exact fun hsched => ⟨lsp, hmem, rfl, hsched⟩

theorem putLsp {queue : List Nat} (hmem : lsp ∈ s.lspTable)
    (hr : ∀ l, r = some l → l.inLabel = lsp.inLabel ∧ l.id = lsp.id) (hnodup : queue.Nodup)
    (hother : ∀ i, i ≠ lsp.id → (i ∈ queue ↔ i ∈ s.queue))
    (hself : lsp.id ∈ queue ↔ ∃ l, r = some l ∧ l.scheduled = true) :
    Becomes s { s.putLsp lsp.id r with queue := queue } lsp.inLabel r where
  shape :=
    { distinct := pairwise_replace h.distinct hmem hr
      fresh := by
        intro l hl
        rcases mem_replace.mp hl with ⟨hl, -⟩ | ⟨hl, -⟩
        · exact h.fresh l hl
        · rw [(hr l hl).2]
          exact h.fresh lsp hmem
      nodup := hnodup
      queued := by
        intro i
        simp only [Zvrf.putLsp, mem_replace]
        by_cases hi : i = lsp.id
        · subst hi
          rw [hself]
          constructor
          · rintro ⟨l, hl, hsched⟩
            exact ⟨l, .inr ⟨hl, lsp, hmem, rfl⟩, (hr l hl).2, hsched⟩
          · rintro ⟨l, ⟨-, hne⟩ | ⟨hl, -⟩, hid, hsched⟩
            · exact absurd hid hne
            · exact ⟨l, hl, hsched⟩
        · rw [hother i hi, h.queued]
          constructor
          · rintro ⟨l, hl, hid, hsched⟩
            exact ⟨l, .inl ⟨hl, hid ▸ hi⟩, hid, hsched⟩
          · rintro ⟨l, ⟨hl, -⟩ | ⟨hl, -⟩, hid, hsched⟩
            · exact ⟨l, hl, hid, hsched⟩
            · exact absurd (hid.symm.trans (hr l hl).2) hi }
  find := find?_replace h.distinct hmem fun l hl => (hr l hl).1
  next := le_rfl
  rib := rfl

end Shape

/-- What becomes of an entry that is released when it has no NHLFE left and is not
scheduled. -/
def Lsp.kept (lsp : Lsp) : Option Lsp :=
  if lsp.nhlfeList = [] ∧ ¬lsp.scheduled then none else some lsp

theorem kept_eq {l : Lsp} (h : lsp.kept = some l) :
    l = lsp ∧ (lsp.nhlfeList ≠ [] ∨ lsp.scheduled = true) := by
  unfold Lsp.kept at h
  split at h
  · cases h
  · rename_i hne
    refine ⟨(Option.some.inj h).symm, ?_⟩
    by_cases hnil : lsp.nhlfeList = []
    · exact .inr (by simpa using fun hs => hne ⟨hnil, hs⟩)
    · exact .inl hnil

namespace Shape

variable (h : Shape s)

include h

variable {lsp' : Lsp} (hmem : lsp ∈ s.lspTable) (hlabel : lsp'.inLabel = lsp.inLabel)
  (hid : lsp'.id = lsp.id) (hsched : lsp'.scheduled = lsp.scheduled)

include hmem hlabel hid hsched

/-- An entry is changed, and released if nothing is left of it. -/
theorem keep : Becomes s (s.keep lsp') lsp.inLabel lsp'.kept := by
  have hput := h.putLsp (r := lsp'.kept) hmem (fun l hl => (kept_eq hl).1 ▸ ⟨hlabel, hid⟩) h.nodup
    (fun i _ => Iff.rfl) ?_
  · unfold Zvrf.keep
    rw [hid]
    exact hput
  · rw [h.mem_queue_iff hmem, ← hsched]
    constructor
    · intro hs
      exact ⟨lsp', if_neg fun hc => hc.2 hs, hs⟩
    · rintro ⟨l, hl, hs⟩
      rwa [(kept_eq hl).1] at hs

theorem rewrite : Becomes s (s.putLsp lsp.id (some lsp')) lsp.inLabel (some lsp') := by
  refine h.putLsp hmem ?_ h.nodup (fun i _ => Iff.rfl) ?_
  · rintro l ⟨rfl⟩
    exact ⟨hlabel, hid⟩
  · simp [h.mem_queue_iff hmem, hsched]

theorem schedule :
    Becomes s (s.schedule lsp') lsp.inLabel (some { lsp' with scheduled := true }) := by
  unfold Zvrf.schedule lspProcessqAdd
  rw [hid]
  by_cases hs : lsp.scheduled = true
  · have hsame : { lsp' with id := lsp.id, scheduled := true } = lsp' := by
      rw [← hid, ← hs, ← hsched]
    rw [if_pos (hsched.trans hs), hsame]
    exact h.rewrite hmem hlabel hid hsched
  · have hnot : lsp.id ∉ s.queue := fun hq => hs ((h.mem_queue_iff hmem).mp hq)
    rw [if_neg (by rwa [hsched])]
    refine h.putLsp hmem ?_ ?_ ?_ ?_
    · rintro l ⟨rfl⟩
      exact ⟨hlabel, rfl⟩
    · exact List.Nodup.append h.nodup (nodup_singleton _) (by simpa using hnot)
    · intro i hi
      simp [hi]
    · simp

end Shape

/-! ## Install -/

/-- The entry that an install is made in. -/
def Zvrf.entry (s : Zvrf) (inLabel : Label) : Lsp := (s.getLsp inLabel).1

/-- What `mpls_lsp_install` does to its entry. -/
def Lsp.install (next : Nat) (type : LspType) (outLabel : Label) (g : Gateway) (lsp : Lsp) : Lsp :=
  match nhlfeFind lsp type g with
  | some n =>
    if n.nexthop.label = outLabel then lsp.setNhlfe n.id (·.undelete)
    else { lsp.setNhlfe n.id (·.relabel outLabel) with scheduled := true }
  | none =>
    match storedGateway g with
    | none => lsp
    | some gate =>
      { lsp with
        nhlfeList := newNhlfe next type g.gtype gate outLabel :: lsp.nhlfeList
        scheduled := true }

/-- An address is set aside. -/
theorem Shape.allocated (h : Shape s) : Shape { s with next := s.next + 1 } :=
  ⟨h.distinct, fun l hl => Nat.lt_succ_of_lt (h.fresh l hl), h.nodup, h.queued⟩

theorem Shape.unchanged (h : Shape s) (hfind : s.findLsp label = r) : Becomes s s label r := by
  refine ⟨h, fun l => ?_, le_rfl, rfl⟩
  split
  · subst l
    exact hfind
  · rfl

theorem Shape.getLsp (h : Shape s) (inLabel : Label) :
    Becomes s (s.getLsp inLabel).2 inLabel (some (s.entry inLabel)) ∧
      s.entry inLabel ∈ (s.getLsp inLabel).2.lspTable ∧ (s.entry inLabel).inLabel = inLabel := by
  unfold Zvrf.entry Zvrf.getLsp
  cases hfind : s.findLsp inLabel with
  | some lsp =>
    exact ⟨h.unchanged hfind, findLsp_mem hfind, findLsp_label hfind⟩
  | none =>
    have hnone : ∀ l ∈ s.lspTable, l.inLabel ≠ inLabel := by
      simpa [findLsp] using hfind
    refine ⟨⟨⟨?_, ?_, h.nodup, ?_⟩, fun l => ?_, Nat.le_succ _, rfl⟩, by simp, rfl⟩
    · refine pairwise_append.mpr ⟨h.distinct, pairwise_singleton _ _, ?_⟩
      intro a ha b hb
      obtain rfl := mem_singleton.mp hb
      exact ⟨hnone a ha, Nat.ne_of_lt (h.fresh a ha)⟩
    · intro l hl
      rcases mem_append.mp hl with hl | hl
      · exact Nat.lt_succ_of_lt (h.fresh l hl)
      · obtain rfl := mem_singleton.mp hl
        exact lt_add_one _
    · intro i
      rw [h.queued]
      simp [lspAlloc, or_and_right, exists_or]
    · unfold findLsp at hfind ⊢
      rw [find?_append]
      by_cases hl : l = inLabel
      · subst hl
        simp [hfind, lspAlloc]
      · simp [hl, lspAlloc, Ne.symm hl]

theorem Becomes.trans {s s₁ s' : Zvrf} {r₁ : Option Lsp}
    (h₁ : Becomes s s₁ label r₁) (h₂ : Becomes s₁ s' label r) : Becomes s s' label r where
  shape := h₂.shape
  find l := by
    rw [h₂.find, h₁.find]
    split <;> rfl
  next := Nat.le_trans h₁.next h₂.next
  rib := h₂.rib.trans h₁.rib

theorem install_becomes (h : Shape s) (type : LspType) (inLabel outLabel : Label) (g : Gateway) :
    Becomes s (mplsLspInstall s type inLabel outLabel g) inLabel
        (some ((s.entry inLabel).install (s.getLsp inLabel).2.next type outLabel g)) ∧
      (mplsLspInstall s type inLabel outLabel g).next = (s.getLsp inLabel).2.next + 1 := by
  obtain ⟨hget, hmem, hlabel⟩ := h.getLsp inLabel
  unfold mplsLspInstall Lsp.install entry
  unfold entry at hget hmem hlabel
  generalize (s.getLsp inLabel) = r at hget hmem hlabel
  obtain ⟨lsp, s₁⟩ := r
  dsimp only at hget hmem hlabel ⊢
  subst hlabel
  have halloc : Becomes s { s₁ with next := s₁.next + 1 } lsp.inLabel (some lsp) :=
    ⟨hget.shape.allocated, hget.find, Nat.le_succ_of_le hget.next, hget.rib⟩
  cases nhlfeFind lsp type g with
  | some n =>
    dsimp only
    by_cases hsame : n.nexthop.label = outLabel
    · rw [if_pos hsame, if_pos hsame]
      exact ⟨halloc.trans (halloc.shape.rewrite hmem rfl rfl rfl), rfl⟩
    · rw [if_neg hsame, if_neg hsame]
      exact ⟨halloc.trans (halloc.shape.schedule hmem rfl rfl rfl), rfl⟩
  | none =>
    cases storedGateway g with
    | none => exact ⟨halloc, rfl⟩
    | some gate => exact ⟨halloc.trans (halloc.shape.schedule hmem rfl rfl rfl), rfl⟩

theorem install_frame (s : Zvrf) (type : LspType) (inLabel outLabel : Label) (g : Gateway) :
    (mplsLspInstall s type inLabel outLabel g).kernel = s.kernel ∧
      (mplsLspInstall s type inLabel outLabel g).slspTable = s.slspTable := by
  have hget : (s.getLsp inLabel).2.kernel = s.kernel ∧
      (s.getLsp inLabel).2.slspTable = s.slspTable := by
    unfold getLsp
    split <;> exact ⟨rfl, rfl⟩
  unfold mplsLspInstall
  dsimp only
  split
  · split <;> exact hget
  · split <;> exact hget

/-! ## Uninstall -/

/-- What `mpls_lsp_uninstall` does to its entry. -/
def Lsp.uninstall (type : LspType) (g : Gateway) (lsp : Lsp) : Option Lsp :=
  match nhlfeFind lsp type g with
  | none => some lsp
  | some n =>
    if n.installed then some { lsp.setNhlfe n.id (·.markDeleted) with scheduled := true }
    else (lsp.nhlfeDel n.id).kept

/-- What `mpls_lsp_uninstall_all` does to its entry. -/
def Lsp.uninstallAll (type : LspType) (lsp : Lsp) : Option Lsp :=
  if lsp.nhlfeList = [] then some lsp
  else if lsp.nhlfeList.any fun n => n.type = type && n.installed then
    some { lsp with nhlfeList := uninstallType type lsp.nhlfeList, scheduled := true }
  else { lsp with nhlfeList := uninstallType type lsp.nhlfeList }.kept

/-- NHLFEs of the type that are installed are marked, the others of the type go. -/
theorem uninstallType_eq (type : LspType) (l : List Nhlfe) : uninstallType type l =
      (l.filter fun n => n.type ≠ type || n.installed).map
        fun n => if n.type = type then n.markDeleted else n := by
  induction l with
  | nil => rfl
  | cons n l ih =>
    unfold uninstallType at ih ⊢
    by_cases htype : n.type = type
    · by_cases hinst : n.installed = true
      · simpa [htype, hinst] using ih
      · simpa [htype, hinst] using ih
    · simpa [htype] using ih

theorem uninstall_becomes (h : Shape s) (type : LspType) (inLabel : Label) (g : Gateway) :
    Becomes s (mplsLspUninstall s type inLabel g) inLabel
      ((s.findLsp inLabel).bind (·.uninstall type g)) := by
  unfold mplsLspUninstall
  cases hfind : s.findLsp inLabel with
  | none => exact h.unchanged hfind
  | some lsp =>
    have hmem := findLsp_mem hfind
    have hlabel := findLsp_label hfind
    subst hlabel
    dsimp only [Option.bind_some]
    unfold Lsp.uninstall
    cases nhlfeFind lsp type g with
    | none => exact h.unchanged hfind
    | some n =>
      dsimp only
      by_cases hinst : n.installed = true
      · rw [if_pos hinst, if_pos hinst]
        exact h.schedule hmem rfl rfl rfl
      · rw [if_neg hinst, if_neg hinst]
        exact h.keep hmem rfl rfl rfl

theorem uninstallAll_becomes (h : Shape s) (type : LspType) (inLabel : Label) :
    Becomes s (mplsLspUninstallAll s type inLabel) inLabel
      ((s.findLsp inLabel).bind (·.uninstallAll type)) := by
  unfold mplsLspUninstallAll
  cases hfind : s.findLsp inLabel with
  | none => exact h.unchanged hfind
  | some lsp =>
    have hmem := findLsp_mem hfind
    have hlabel := findLsp_label hfind
    subst hlabel
    dsimp only [Option.bind_some]
    unfold Lsp.uninstallAll
    by_cases hnil : lsp.nhlfeList = []
    · rw [if_pos hnil, if_pos hnil]
      exact h.unchanged hfind
    · rw [if_neg hnil, if_neg hnil]
      by_cases hany : (lsp.nhlfeList.any fun n => n.type = type && n.installed) = true
      · rw [if_pos hany, if_pos hany]
        exact h.schedule hmem rfl rfl rfl
      · rw [if_neg hany, if_neg hany]
        exact h.keep hmem rfl rfl rfl

theorem uninstall_frame (s : Zvrf) (type : LspType) (inLabel : Label) (g : Gateway) :
    (mplsLspUninstall s type inLabel g).kernel = s.kernel ∧
      (mplsLspUninstall s type inLabel g).slspTable = s.slspTable := by
  unfold mplsLspUninstall
  split
  · exact ⟨rfl, rfl⟩
  · split
    · exact ⟨rfl, rfl⟩
    · split <;> exact ⟨rfl, rfl⟩

theorem uninstallAll_frame (s : Zvrf) (type : LspType) (inLabel : Label) :
    (mplsLspUninstallAll s type inLabel).kernel = s.kernel ∧
      (mplsLspUninstallAll s type inLabel).slspTable = s.slspTable := by
  unfold mplsLspUninstallAll
  split
  · exact ⟨rfl, rfl⟩
  · split
    · exact ⟨rfl, rfl⟩
    · dsimp only
      split <;> exact ⟨rfl, rfl⟩

/-! ## Processing -/

section

variable (multipathNum : Nat) (nl : Netlink) (rib : Rib) (lsp : Lsp)
  (kernel : Label → Option (List Path))

theorem lspProcess_frame : let r := (lspProcess multipathNum nl rib lsp kernel).1
    r.id = lsp.id ∧ r.inLabel = lsp.inLabel ∧ r.scheduled = lsp.scheduled := by
  have hsel : (lspSelectBestNhlfe rib lsp).id = lsp.id ∧
      (lspSelectBestNhlfe rib lsp).inLabel = lsp.inLabel ∧
      (lspSelectBestNhlfe rib lsp).scheduled = lsp.scheduled := by
    unfold lspSelectBestNhlfe
    dsimp only
    split <;> exact ⟨rfl, rfl, rfl⟩
  have hadd : ∀ l k, (kernelAddLsp multipathNum nl l k).1.id = l.id ∧
      (kernelAddLsp multipathNum nl l k).1.inLabel = l.inLabel ∧
      (kernelAddLsp multipathNum nl l k).1.scheduled = l.scheduled := by
    intro l k
    unfold kernelAddLsp
    dsimp only
    split
    · exact ⟨rfl, rfl, rfl⟩
    · split <;> exact ⟨rfl, rfl, rfl⟩
  dsimp only
  unfold lspProcess
  dsimp only
  split
  · split
    · exact hsel
    · split
      · obtain ⟨h₁, h₂, h₃⟩ := hadd (kernelDel multipathNum nl (lspSelectBestNhlfe rib lsp) kernel).1
          (kernelDel multipathNum nl (lspSelectBestNhlfe rib lsp) kernel).2
        exact ⟨h₁.trans hsel.1, h₂.trans hsel.2.1, h₃.trans hsel.2.2⟩
      · exact hsel
  · split
    · obtain ⟨h₁, h₂, h₃⟩ := hadd (lspSelectBestNhlfe rib lsp) kernel
      exact ⟨h₁.trans hsel.1, h₂.trans hsel.2.1, h₃.trans hsel.2.2⟩
    · exact hsel

theorem lspProcess_best : (lspProcess multipathNum nl rib lsp kernel).1.bestNhlfe =
      (lspSelectBestNhlfe rib lsp).bestNhlfe := by
  have hadd : ∀ l k, (kernelAddLsp multipathNum nl l k).1.bestNhlfe = l.bestNhlfe := by
    intro l k
    unfold kernelAddLsp
    dsimp only
    split
    · rfl
    · split <;> rfl
  unfold lspProcess
  dsimp only
  split
  · split
    · rfl
    · split
      · exact hadd _ _
      · rfl
  · split
    · exact hadd _ _
    · rfl

end

theorem onFirst_map {α β : Type} {view : α → β} {p : α → Bool} {f : α → α}
    (h : ∀ x, view (f x) = view x) (limit : Nat) (l : List α) :
    (onFirst p f limit l).map view = l.map view := by
  induction l generalizing limit with
  | nil => rfl
  | cons x l ih =>
    cases limit with
    | zero => rfl
    | succ limit =>
      unfold onFirst
      split
      · simp only [map_cons, h, ih]
      · simp only [map_cons, ih]

/-- A view of the NHLFEs that none of the updates of `lsp_process` changes. -/
structure Unmoved {β : Type} (rib : Rib) (l : List Nhlfe) (view : Nhlfe → β) : Prop where
  refresh : ∀ n ∈ l, view (n.refresh rib) = view n
  mark : ∀ d n, view (Nhlfe.mark d n) = view n
  examined : ∀ n : Nhlfe, view { n with changed := false } = view n
  setInstalled : ∀ b n, view (Nhlfe.setInstalled b n) = view n

section

variable {β : Type} {rib : Rib} {view : Nhlfe → β}

theorem Unmoved.select (h : Unmoved rib lsp.nhlfeList view) :
    (lspSelectBestNhlfe rib lsp).nhlfeList.map view = lsp.nhlfeList.map view := by
  have hrefresh : (lsp.nhlfeList.map (·.refresh rib)).map view = lsp.nhlfeList.map view := by
    rw [map_map]
    exact map_congr_left h.refresh
  unfold lspSelectBestNhlfe
  dsimp only
  split
  · exact hrefresh
  · rw [← hrefresh]
    simp only [map_map]
    refine map_congr_left fun n _ => ?_
    exact (h.examined _).trans (h.mark _ _)

theorem Unmoved.add (h : ∀ b n, view (Nhlfe.setInstalled b n) = view n) (multipathNum : Nat)
    (nl : Netlink) (lsp : Lsp) (kernel : Label → Option (List Path)) :
    (kernelAddLsp multipathNum nl lsp kernel).1.nhlfeList.map view = lsp.nhlfeList.map view := by
  have hadd : (netlinkAdd multipathNum lsp.nhlfeList).1.map view = lsp.nhlfeList.map view := by
    unfold netlinkAdd
    split
    · exact onFirst_map (h true) _ _
    · rfl
  unfold kernelAddLsp
  dsimp only
  split
  · exact hadd
  · split
    · exact hadd
    · rw [← hadd, map_map]
      exact map_congr_left fun n _ => h false n

theorem Unmoved.del (h : ∀ b n, view (Nhlfe.setInstalled b n) = view n) (multipathNum : Nat)
    (nl : Netlink) (lsp : Lsp) (kernel : Label → Option (List Path)) :
    (kernelDel multipathNum nl lsp kernel).1.nhlfeList.map view = lsp.nhlfeList.map view := by
  unfold kernelDel netlinkDel
  dsimp only
  split
  · exact onFirst_map (h false) _ _
  · rfl

/-- Such a view is the same after processing. -/
theorem Unmoved.process (h : Unmoved rib lsp.nhlfeList view) (multipathNum : Nat) (nl : Netlink)
    (kernel : Label → Option (List Path)) :
    (lspProcess multipathNum nl rib lsp kernel).1.nhlfeList.map view =
      lsp.nhlfeList.map view := by
  have hadd := Unmoved.add h.setInstalled multipathNum nl
  have hdel := Unmoved.del h.setInstalled multipathNum nl
  unfold lspProcess
  dsimp only
  split
  · split
    · exact (hdel _ _).trans h.select
    · split
      · unfold kernelUpdLsp
        exact (hadd _ _).trans ((hdel _ _).trans h.select)
      · exact h.select
  · split
    · exact (hadd _ _).trans h.select
    · exact h.select

end

theorem better_eq {best : Option Nhlfe} {n b : Nhlfe} (h : better best n = some b) :
    best = some b ∨ (n = b ∧ n.usable = true) := by
  unfold better at h
  split at h
  · split at h
    · exact .inr ⟨Option.some.inj h, ‹_›⟩
    · split at h
      · exact .inr ⟨Option.some.inj h, ‹_›⟩
      · exact .inl h
  · exact .inl h

theorem bestOf_mem {l : List Nhlfe} {b : Nhlfe} (h : bestOf l = some b) :
    b ∈ l ∧ b.usable = true := by
  have hfold : ∀ (l : List Nhlfe) (acc : Option Nhlfe), l.foldl better acc = some b →
      acc = some b ∨ (b ∈ l ∧ b.usable = true) := by
    intro l
    induction l with
    | nil => exact fun acc h => .inl h
    | cons n l ih =>
      intro acc h
      rcases ih _ h with hacc | ⟨hmem, hu⟩
      · rcases better_eq hacc with hacc | ⟨rfl, hu⟩
        · exact .inl hacc
        · exact .inr ⟨mem_cons_self, hu⟩
      · exact .inr ⟨mem_cons_of_mem _ hmem, hu⟩
  rcases hfold l none h with h | h
  · cases h
  · exact h

theorem processItem_becomes {multipathNum : Nat} {nl : Netlink} {s s' : Zvrf} (h : Shape s)
    (hrun : (processItem multipathNum nl).run s = .ok () s') :
    (s.queue = [] ∧ s' = s) ∨
      ∃ lsp, s.findLsp lsp.inLabel = some lsp ∧ lsp.scheduled = true ∧
        s.queue = lsp.id :: s'.queue ∧
        Becomes s s' lsp.inLabel
          (lspProcessqDel (lspProcess multipathNum nl s.rib lsp s.kernel).1).kept ∧
        s'.kernel = (lspProcess multipathNum nl s.rib lsp s.kernel).2 ∧
        s'.slspTable = s.slspTable := by
  unfold processItem at hrun
  rw [run_bind_ok] at hrun
  obtain ⟨t, t', hget, hrun⟩ := hrun
  cases hget
  cases hqueue : s.queue with
  | nil =>
    rw [hqueue] at hrun
    cases hrun
    exact .inl ⟨rfl, rfl⟩
  | cons i queue =>
    right
    rw [hqueue] at hrun
    have hin : i ∈ s.queue := hqueue ▸ mem_cons_self
    obtain ⟨lsp, hmem, hid, hsched⟩ := (h.queued i).mp hin
    subst hid
    dsimp only at hrun
    rw [h.find_id_of_mem hmem] at hrun
    have hrun' : s' = { s with
        queue := queue
        kernel := (lspProcess multipathNum nl s.rib lsp s.kernel).2 }.keep
          (lspProcessqDel (lspProcess multipathNum nl s.rib lsp s.kernel).1) := by
      cases hrun
      rfl
    obtain ⟨hid, hlabel, -⟩ := lspProcess_frame multipathNum nl s.rib lsp s.kernel
    have hnodup := h.nodup
    rw [hqueue, nodup_cons] at hnodup
    have hput := h.putLsp
      (r := (lspProcessqDel (lspProcess multipathNum nl s.rib lsp s.kernel).1).kept) hmem
      (fun l hl => (kept_eq hl).1 ▸ ⟨hlabel, hid⟩) hnodup.2 ?_ ?_
    · refine ⟨lsp, h.find_of_mem hmem, hsched, ?_, ?_, ?_, ?_⟩
      · rw [hrun']
        rfl
      · rw [hrun']
        unfold Zvrf.keep
        have haddr : (lspProcessqDel (lspProcess multipathNum nl s.rib lsp s.kernel).1).id =
            lsp.id := hid
        rw [haddr]
        exact ⟨⟨hput.shape.distinct, hput.shape.fresh, hput.shape.nodup, hput.shape.queued⟩,
          hput.find, le_rfl, rfl⟩
      · rw [hrun']
        rfl
      · rw [hrun']
        rfl
    · intro i hi
      simp [hqueue, hi]
    · constructor
      · intro hin
        exact absurd hin hnodup.1
      · rintro ⟨l, hl, hs⟩
        rw [(kept_eq hl).1] at hs
        cases hs

theorem schedule_find (s : Zvrf) (l : Label) : (zebraMplsLspSchedule s).findLsp l =
      (s.findLsp l).map fun lsp => { lsp with scheduled := true } := by
  unfold zebraMplsLspSchedule findLsp
  rw [find?_map]
  rfl

theorem schedule_shape (h : Shape s) : Shape (zebraMplsLspSchedule s) where
  distinct := pairwise_map.mpr h.distinct
  fresh := by
    intro l hl
    obtain ⟨a, ha, rfl⟩ := mem_map.mp hl
    exact h.fresh a ha
  nodup := by
    refine List.Nodup.append h.nodup ?_ ?_
    · exact pairwise_map.mpr ((h.distinct.sublist filter_sublist).imp And.right)
    · intro i hq hi
      obtain ⟨a, ha, rfl⟩ := mem_map.mp hi
      obtain ⟨hmem, hs⟩ := mem_filter.mp ha
      rw [(h.mem_queue_iff hmem).mp hq] at hs
      cases hs
  queued := by
    intro i
    simp only [zebraMplsLspSchedule, mem_append, mem_map, mem_filter, h.queued]
    constructor
    · rintro (⟨l, hl, hid, -⟩ | ⟨l, ⟨hl, -⟩, hid⟩)
      · exact ⟨_, ⟨l, hl, rfl⟩, hid, rfl⟩
      · exact ⟨_, ⟨l, hl, rfl⟩, hid, rfl⟩
    · rintro ⟨_, ⟨l, hl, rfl⟩, hid, -⟩
      cases hs : l.scheduled with
      | true => exact .inl ⟨l, hl, hid, hs⟩
      | false => exact .inr ⟨l, ⟨hl, by simp [hs]⟩, hid⟩

end Mp2mp.Zebra
