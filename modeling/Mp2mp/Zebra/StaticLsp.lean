import Mp2mp.Zebra.Process

/-!
# Static configuration and the forwarding table

The static entries that are configured with `mpls lsp` are kept in a table of their own and
installed in the LSP table as NHLFEs of type static.  The two are searched by different
functions, and an NHLFE outlives its removal until the queue has run.

* `static_agree`: in every state that static commands and whatever else happens to the LSP
  table reach, the static NHLFEs that are not marked deleted are the configured ones with their
  labels, and the entries of an in-label all swap or all pop.
-/

namespace Mp2mp.Zebra

open Kit List Function Lsp Nhlfe Zvrf

variable {conf : List Snhlfe} {label inLabel : Label} {lsp lsp' : Lsp} {type : LspType}
  {g : Gateway} {n : Nhlfe} {f : Nhlfe → Nhlfe} {r : Option Lsp} {hop : Hop} {conf' : List Snhlfe}
  {multipathNum next : Nat} {outLabel : Label}

/-! ## The property -/

def Snhlfe.path (n : Snhlfe) : Path := ⟨hopOf n.gtype n.gate n.ifindex, n.outLabel⟩

/-- A static NHLFE of the forwarding table. -/
structure StaticNhlfe where
  hop : Hop
  label : Label
  deleted : Bool
deriving DecidableEq, Repr

def Nhlfe.toStatic (n : Nhlfe) : StaticNhlfe := ⟨n.nexthop.hop, n.nexthop.label, n.deleted⟩

def Lsp.statics (lsp : Lsp) : List StaticNhlfe :=
  (lsp.nhlfeList.filter (·.type = .static)).map (·.toStatic)

def statics : Option Lsp → List StaticNhlfe
  | none => []
  | some lsp => lsp.statics

/-- The paths of the static NHLFEs that are not marked deleted. -/
def livePaths (l : List StaticNhlfe) : List Path :=
  (l.filter (!·.deleted)).map fun n => ⟨n.hop, n.label⟩

/-- Configuration and forwarding table agree. -/
structure StaticAgree (s : Zvrf) : Prop where
  same : ∀ label, (livePaths (statics (s.findLsp label))).Perm ((s.snhlfes label).map (·.path))
  uniform : ∀ label, ∀ m ∈ s.snhlfes label, ∀ n ∈ s.snhlfes label,
    (m.outLabel = mplsImpNullLabel ↔ n.outLabel = mplsImpNullLabel)

/-- The gateways of the commands. -/
def Hop.Plain (h : Hop) : Prop := h.type = .ipv4 ∨ h.type = .ipv6

instance (h : Hop) : Decidable h.Plain := by
  unfold Hop.Plain
  infer_instance

/-- Static commands have IPv4 or IPv6 gateways, and all other requests are for NHLFEs that are
not static. -/
def StaticCommand (_ : Zvrf) : StaticEvent → Prop
  | .add _ _ g => g.hop.Plain
  | .other (.install type _ _ _) => type ≠ .static
  | .other (.uninstall type _ _) => type ≠ .static
  | .other (.uninstallAll type _) => type ≠ .static
  | _ => True

instance (s : Zvrf) : (e : StaticEvent) → Decidable (StaticCommand s e)
  | .add _ _ g => inferInstanceAs (Decidable g.hop.Plain)
  | .other (.install type _ _ _) | .other (.uninstall type _ _) | .other (.uninstallAll type _) =>
    inferInstanceAs (Decidable (type ≠ .static))
  | .del .. | .other (.reachability _) | .other (.processItem _) => .isTrue trivial

/-! ## Static NHLFEs and configured ones -/

/-- The static NHLFEs of an in-label and its configured entries. -/
structure StaticsOk (l : List StaticNhlfe) (conf : List Snhlfe) : Prop where
  hops : (l.map (·.hop)).Nodup
  plain : ∀ n ∈ l, n.hop.Plain
  confHops : (conf.map (·.path.hop)).Nodup
  same : ∀ p, p ∈ livePaths l ↔ p ∈ conf.map (·.path)
  uniform : ∀ m ∈ conf, ∀ n ∈ conf,
    (m.outLabel = mplsImpNullLabel ↔ n.outLabel = mplsImpNullLabel)

variable {l : List StaticNhlfe}

theorem mem_livePaths {p : Path} : p ∈ livePaths l ↔ ⟨p.hop, p.label, false⟩ ∈ l := by
  unfold livePaths
  simp only [mem_map, mem_filter, Bool.not_eq_true']
  constructor
  · rintro ⟨⟨hop, label, deleted⟩, ⟨hmem, rfl⟩, rfl⟩
    exact hmem
  · exact fun hmem => ⟨_, ⟨hmem, rfl⟩, rfl⟩

theorem StaticsOk.perm (h : StaticsOk l conf) : (livePaths l).Perm (conf.map (·.path)) := by
  refine (perm_ext_iff_of_nodup ?_ ?_).mpr h.same
  · refine Nodup.of_map (·.hop) ?_
    unfold livePaths
    rw [map_map]
    exact h.hops.sublist (filter_sublist.map _)
  · refine Nodup.of_map (·.hop) ?_
    rw [map_map]
    exact h.confHops

/-- What a static install does to the static NHLFEs. -/
def staticInstalled (hop : Hop) (label : Label) (l : List StaticNhlfe) : List StaticNhlfe :=
  if ∃ n ∈ l, n.hop = hop then l.map fun n => if n.hop = hop then ⟨hop, label, false⟩ else n
  else ⟨hop, label, false⟩ :: l

theorem staticInstalled_hops {hop : Hop} {label : Label} {l : List StaticNhlfe} :
    (staticInstalled hop label l).map (·.hop) =
      if ∃ n ∈ l, n.hop = hop then l.map (·.hop) else hop :: l.map (·.hop) := by
  unfold staticInstalled
  split
  · rw [map_map]
    refine map_congr_left fun n _ => ?_
    simp only [comp]
    split
    · exact Eq.symm ‹_›
    · rfl
  · rfl

theorem mem_staticInstalled {n : StaticNhlfe} :
    n ∈ staticInstalled hop label l ↔ n = ⟨hop, label, false⟩ ∨ (n ∈ l ∧ n.hop ≠ hop) := by
  unfold staticInstalled
  split
  · rename_i hex
    rw [mem_map]
    constructor
    · rintro ⟨m, hm, rfl⟩
      split
      · exact .inl rfl
      · exact .inr ⟨hm, ‹_›⟩
    · rintro (rfl | ⟨hn, hne⟩)
      · obtain ⟨m, hm, hhop⟩ := hex
        exact ⟨m, hm, if_pos hhop⟩
      · exact ⟨n, hn, if_neg hne⟩
  · rename_i hnone
    rw [mem_cons]
    refine or_congr_right ⟨fun hn => ⟨hn, fun hhop => hnone ⟨n, hn, hhop⟩⟩, And.left⟩

/-- A configured entry is added or relabelled. -/
theorem StaticsOk.install
    (h : StaticsOk l conf) (hplain : hop.Plain) (hconf : (conf'.map (·.path.hop)).Nodup)
    (hmem : ∀ p, p ∈ conf'.map (·.path) ↔ p = ⟨hop, label⟩ ∨ (p ∈ conf.map (·.path) ∧ p.hop ≠ hop))
    (huniform : ∀ m ∈ conf', ∀ n ∈ conf',
      (m.outLabel = mplsImpNullLabel ↔ n.outLabel = mplsImpNullLabel)) :
    StaticsOk (staticInstalled hop label l) conf' := by
  refine ⟨?_, ?_, hconf, ?_, huniform⟩
  · rw [staticInstalled_hops]
    split
    · exact h.hops
    · rename_i hnone
      refine nodup_cons.mpr ⟨fun hin => hnone ?_, h.hops⟩
      obtain ⟨n, hn, hhop⟩ := mem_map.mp hin
      exact ⟨n, hn, hhop⟩
  · intro n hn
    rcases mem_staticInstalled.mp hn with rfl | ⟨hn, -⟩
    · exact hplain
    · exact h.plain n hn
  · intro p
    rw [mem_livePaths, mem_staticInstalled, hmem, ← h.same, mem_livePaths]
    constructor
    · rintro (heq | hn)
      · left
        cases p
        cases heq
        rfl
      · exact .inr hn
    · rintro (rfl | hn)
      · exact .inl rfl
      · exact .inr hn

theorem StaticsOk.remove {l' : List StaticNhlfe}
    (h : StaticsOk l conf) (gone : Hop → Prop) (hconf : conf'.Sublist conf)
    (hhops : (l'.map (·.hop)).Sublist (l.map (·.hop)))
    (hlive : ∀ p, p ∈ livePaths l' ↔ p ∈ livePaths l ∧ ¬gone p.hop)
    (hmem : ∀ p, p ∈ conf'.map (·.path) ↔ p ∈ conf.map (·.path) ∧ ¬gone p.hop) :
    StaticsOk l' conf' := by
  refine ⟨h.hops.sublist hhops, ?_, h.confHops.sublist (hconf.map _), ?_, ?_⟩
  · intro n hn
    obtain ⟨m, hm, hhop⟩ := mem_map.mp (hhops.subset (mem_map_of_mem hn))
    rw [← hhop]
    exact h.plain m hm
  · intro p
    rw [hlive, hmem, h.same]
  · exact fun m hm n hn => h.uniform m (hconf.subset hm) n (hconf.subset hn)

/-! ## Entries -/

/-- No two NHLFEs of an entry share their address. -/
structure IdsSound (next : Nat) (lsp : Lsp) : Prop where
  nodup : (lsp.nhlfeList.map (·.id)).Nodup
  fresh : ∀ i ∈ lsp.nhlfeList.map (·.id), i < next

theorem IdsSound.sublist {next' : Nat} (h : IdsSound next lsp)
    (hsub : (lsp'.nhlfeList.map (·.id)).Sublist (lsp.nhlfeList.map (·.id))) (hnext : next ≤ next') :
    IdsSound next' lsp' :=
  ⟨h.nodup.sublist hsub, fun i hi => Nat.lt_of_lt_of_le (h.fresh i (hsub.subset hi)) hnext⟩

theorem setNhlfe_ids {id : Nat} (hf : ∀ n, (f n).id = n.id) :
    (lsp.setNhlfe id f).nhlfeList.map (·.id) = lsp.nhlfeList.map (·.id) := by
  unfold setNhlfe
  rw [map_map]
  refine map_congr_left fun n _ => ?_
  simp only [comp]
  split
  · exact hf n
  · rfl

theorem IdsSound.install (h : IdsSound next lsp) (type : LspType)
    (outLabel : Label) (g : Gateway) : IdsSound (next + 1) (lsp.install next type outLabel g) := by
  have hsame : ∀ {lsp' : Lsp}, lsp'.nhlfeList.map (·.id) = lsp.nhlfeList.map (·.id) →
      IdsSound (next + 1) lsp' :=
    fun heq => h.sublist (heq ▸ .refl _) (Nat.le_succ _)
  unfold Lsp.install
  split
  · split
    · exact hsame (setNhlfe_ids fun _ => rfl)
    · exact hsame (setNhlfe_ids (f := (·.relabel outLabel)) fun _ => rfl)
  · split
    · exact hsame rfl
    · refine ⟨nodup_cons.mpr ⟨fun hin => ?_, h.nodup⟩, fun i hi => ?_⟩
      · exact lt_irrefl _ (h.fresh next hin)
      · rcases mem_cons.mp hi with rfl | hi
        · exact lt_add_one _
        · exact Nat.lt_succ_of_lt (h.fresh i hi)

theorem uninstallType_ids {type : LspType} {l : List Nhlfe} :
    ((uninstallType type l).map (·.id)).Sublist (l.map (·.id)) := by
  have hkeys := (uninstallType_keys type l).map Prod.fst
  simpa [key, comp_def] using hkeys

section

variable (h : IdsSound next lsp)

include h

/-- An entry that is changed and kept. -/
theorem IdsSound.kept (hkept : lsp.kept = some lsp') : IdsSound next lsp' := by
  rw [(kept_eq hkept).1]
  exact h

theorem IdsSound.uninstall (heq : lsp.uninstall type g = some lsp') : IdsSound next lsp' := by
  unfold Lsp.uninstall at heq
  split at heq
  · cases heq
    exact h
  · split at heq
    · cases heq
      refine h.sublist ?_ le_rfl
      rw [setNhlfe_ids (f := (·.markDeleted)) fun _ => rfl]
    · exact (h.sublist (filter_sublist.map _) le_rfl).kept heq

theorem IdsSound.uninstallAll (heq : lsp.uninstallAll type = some lsp') : IdsSound next lsp' := by
  unfold Lsp.uninstallAll at heq
  split at heq
  · cases heq
    exact h
  · split at heq
    · cases heq
      exact h.sublist uninstallType_ids le_rfl
    · have hids : IdsSound next { lsp with nhlfeList := uninstallType type lsp.nhlfeList } :=
        h.sublist uninstallType_ids le_rfl
      exact hids.kept heq

theorem IdsSound.process {nl : Netlink} {rib : Rib} {kernel : Label → Option (List Path)}
    (heq : (lspProcessqDel (lspProcess multipathNum nl rib lsp kernel).1).kept = some lsp') :
    IdsSound next lsp' := by
  refine IdsSound.kept (h.sublist ?_ le_rfl) heq
  have hdel := (unmoved_deleted rib lsp.nhlfeList).process multipathNum nl kernel
  have hids := congrArg (List.map Prod.fst) hdel
  rw [map_map, map_map] at hids
  have hids' : (lspProcess multipathNum nl rib lsp kernel).1.nhlfeList.map (·.id) =
      lsp.nhlfeList.map (·.id) := hids
  rw [← hids']
  exact filter_sublist.map _

end

/-! ### Requests for other types -/

theorem statics_kept {lsp : Lsp} : statics lsp.kept = lsp.statics := by
  unfold kept
  split
  · rename_i hnil
    unfold Lsp.statics
    rw [hnil.1]
    rfl
  · rfl

theorem filter_setNhlfe {lsp : Lsp} {id : Nat} (hf : ∀ n, (f n).type = n.type) :
    (lsp.setNhlfe id f).nhlfeList.filter (·.type = .static) =
      (lsp.nhlfeList.filter (·.type = .static)).map fun m => if m.id = id then f m else m := by
  rw [setNhlfe, filter_map]
  refine congrArg _ (filter_congr fun m _ => ?_)
  simp only [comp]
  split
  · rw [hf]
  · rfl

theorem type_of_nhlfeFind (hfind : nhlfeFind lsp type g = some n) : n.type = type := by
  have hfor := find?_some hfind
  unfold isFor at hfor
  exact beq_iff_eq.mp (Bool.and_eq_true_iff.mp hfor).1

theorem uninstallType_statics (lsp : Lsp) (type : LspType) :
    ({ lsp with nhlfeList := uninstallType type lsp.nhlfeList } : Lsp).statics =
      (lsp.nhlfeList.filter fun n => n.type = .static && (n.type ≠ type || n.installed)).map
        fun n => (if n.type = type then n.markDeleted else n).toStatic := by
  unfold Lsp.statics
  dsimp only
  rw [uninstallType_eq, filter_map, map_map, filter_filter]
  refine congrArg _ (filter_congr fun n _ => ?_)
  by_cases hn : n.type = type
  · simp [hn, markDeleted]
  · simp [hn]

section

variable (h : IdsSound next lsp)

include h

theorem setNhlfe_statics (hn : n ∈ lsp.nhlfeList)
    (htype : n.type ≠ .static) (hf : ∀ n, (f n).type = n.type) :
    (lsp.setNhlfe n.id f).statics = lsp.statics := by
  rw [Lsp.statics, filter_setNhlfe hf, map_map, Lsp.statics]
  refine map_congr_left fun m hm => ?_
  obtain ⟨hmem, hstatic⟩ := mem_filter.mp hm
  have hne : m.id ≠ n.id := by
    intro hid
    rw [inj_on_of_nodup_map h.nodup hmem hn hid] at hstatic
    exact htype (by simpa using hstatic)
  simp only [comp, if_neg hne]

theorem install_statics_other (htype : type ≠ .static) (outLabel : Label)
    (g : Gateway) : (lsp.install next type outLabel g).statics = lsp.statics := by
  unfold install
  split
  · rename_i n hfind
    have hn := mem_of_find?_eq_some hfind
    have hntype : n.type ≠ .static := type_of_nhlfeFind hfind ▸ htype
    split
    · exact setNhlfe_statics h hn hntype fun _ => rfl
    · exact setNhlfe_statics (f := (·.relabel outLabel)) h hn hntype fun _ => rfl
  · split
    · rfl
    · unfold Lsp.statics
      rw [filter_cons_of_neg]
      simp [newNhlfe, htype]

theorem uninstall_statics_other (htype : type ≠ .static) (g : Gateway) :
    statics (lsp.uninstall type g) = lsp.statics := by
  unfold uninstall
  split
  · rfl
  · rename_i n hfind
    have hn := mem_of_find?_eq_some hfind
    have hntype : n.type ≠ .static := type_of_nhlfeFind hfind ▸ htype
    split
    · exact setNhlfe_statics (f := (·.markDeleted)) h hn hntype fun _ => rfl
    · rw [statics_kept]
      unfold Lsp.statics Lsp.nhlfeDel
      rw [filter_filter]
      refine congrArg _ (filter_congr fun m hm => ?_)
      by_cases hid : m.id = n.id
      · rw [inj_on_of_nodup_map h.nodup hm hn hid]
        simp [hntype]
      · simp [hid]

omit h in
theorem uninstallAll_statics_other (htype : type ≠ .static) :
    statics (lsp.uninstallAll type) = lsp.statics := by
  have hlist : ({ lsp with nhlfeList := uninstallType type lsp.nhlfeList } : Lsp).statics =
      lsp.statics := by
    have hfilter : (lsp.nhlfeList.filter fun n => n.type = .static && (n.type ≠ type || n.installed)) =
        lsp.nhlfeList.filter (·.type = .static) := by
      refine filter_congr fun n _ => ?_
      by_cases hn : n.type = .static
      · simp [hn, htype.symm]
      · simp [hn]
    rw [uninstallType_statics, hfilter]
    refine map_congr_left fun n hn => ?_
    rw [if_neg]
    rw [show n.type = .static by simpa using of_mem_filter hn]
    exact htype.symm
  unfold uninstallAll
  split
  · rfl
  · split
    · exact hlist
    · rw [statics_kept]
      exact hlist

end

/-! ### Static requests -/

theorem Hop.Plain.fixed {h : Hop} (hplain : h.Plain) : h.Fixed := by
  rcases hplain with h4 | h6
  · exact .inl h4
  · exact .inr (.inl h6)

theorem isFor_iff (hg : (storedGateway g).isSome) :
    n.isFor type g = true ↔ n.type = type ∧ n.nexthop.hop = g.hop := by
  unfold isFor
  rw [Bool.and_eq_true, beq_iff_eq, hopMatch_iff hg]
  rfl

theorem mem_statics {r : StaticNhlfe} :
    r ∈ lsp.statics ↔ ∃ n ∈ lsp.nhlfeList, n.type = .static ∧ n.toStatic = r := by
  unfold Lsp.statics
  simp only [mem_map, mem_filter, decide_eq_true_eq, and_assoc]

section

variable (h : IdsSound next lsp) (hhops : (lsp.statics.map (·.hop)).Nodup)

include hhops in
theorem eq_of_hop {m : Nhlfe} (hm : m ∈ lsp.nhlfeList) (hn : n ∈ lsp.nhlfeList)
    (hms : m.type = .static) (hns : n.type = .static) (hhop : m.nexthop.hop = n.nexthop.hop) :
    m = n := by
  have hnodup : ((lsp.nhlfeList.filter (·.type = .static)).map (·.nexthop.hop)).Nodup := by
    simpa [Lsp.statics, toStatic, comp_def] using hhops
  exact inj_on_of_nodup_map hnodup (mem_filter.mpr ⟨hm, by simpa using hms⟩)
    (mem_filter.mpr ⟨hn, by simpa using hns⟩) hhop

include h hhops

theorem setNhlfe_static (hn : n ∈ lsp.nhlfeList)
    (htype : n.type = .static) (hf : ∀ n, (f n).type = n.type) :
    (lsp.setNhlfe n.id f).statics =
      lsp.statics.map fun r => if r.hop = n.nexthop.hop then (f n).toStatic else r := by
  rw [Lsp.statics, filter_setNhlfe hf, map_map, Lsp.statics, map_map]
  refine map_congr_left fun m hm => ?_
  obtain ⟨hmem, hstatic⟩ := mem_filter.mp hm
  simp only [comp]
  by_cases hid : m.id = n.id
  · rw [inj_on_of_nodup_map h.nodup hmem hn hid, if_pos rfl]
    exact (if_pos rfl).symm
  · rw [if_neg hid, if_neg]
    intro hhop
    exact hid (congrArg Nhlfe.id (eq_of_hop hhops hmem hn (by simpa using hstatic) htype hhop))

theorem install_statics (hg : g.hop.Plain) (outLabel : Label) :
    (lsp.install next .static outLabel g).statics =
      staticInstalled g.hop outLabel lsp.statics := by
  have hstored := storedGateway_of_fixed hg.fixed
  unfold install
  cases hfind : nhlfeFind lsp .static g with
  | some n =>
    have hn := mem_of_find?_eq_some hfind
    obtain ⟨htype, hhop⟩ := (isFor_iff hstored).mp (find?_some hfind)
    have hex : ∃ r ∈ lsp.statics, r.hop = g.hop :=
      ⟨n.toStatic, mem_statics.mpr ⟨n, hn, htype, rfl⟩, hhop⟩
    dsimp only
    unfold staticInstalled
    rw [if_pos hex, ← hhop]
    split
    · rename_i hsame
      rw [setNhlfe_static (f := (·.undelete)) h hhops hn htype fun _ => rfl, ← hsame]
      rfl
    · exact setNhlfe_static (f := (·.relabel outLabel)) h hhops hn htype fun _ => rfl
  | none =>
    obtain ⟨gate, hgate⟩ := Option.isSome_iff_exists.mp hstored
    have hnone : ¬∃ r ∈ lsp.statics, r.hop = g.hop := by
      rintro ⟨r, hr, hhop⟩
      obtain ⟨n, hn, htype, rfl⟩ := mem_statics.mp hr
      exact find?_eq_none.mp hfind n hn ((isFor_iff hstored).mpr ⟨htype, hhop⟩)
    rw [hgate]
    dsimp only
    unfold staticInstalled Lsp.statics at *
    rw [if_neg hnone, filter_cons_of_pos rfl, map_cons]
    refine congrArg (· :: _) ?_
    unfold toStatic
    rw [newNhlfe_hop hgate]
    rfl

theorem uninstall_statics (hg : g.hop.Plain) :
    ((statics (lsp.uninstall .static g)).map (·.hop)).Sublist (lsp.statics.map (·.hop)) ∧
      ∀ p, p ∈ livePaths (statics (lsp.uninstall .static g)) ↔
        p ∈ livePaths lsp.statics ∧ ¬p.hop = g.hop := by
  have hstored := storedGateway_of_fixed hg.fixed
  unfold uninstall
  cases hfind : nhlfeFind lsp .static g with
  | none =>
    refine ⟨.refl _, fun p => ⟨fun hp => ⟨hp, fun hhop => ?_⟩, And.left⟩⟩
    obtain ⟨n, hn, htype, heq⟩ := mem_statics.mp (mem_livePaths.mp hp)
    have hnhop : n.nexthop.hop = g.hop := (congrArg StaticNhlfe.hop heq).trans hhop
    exact find?_eq_none.mp hfind n hn ((isFor_iff hstored).mpr ⟨htype, hnhop⟩)
  | some n =>
    have hn := mem_of_find?_eq_some hfind
    obtain ⟨htype, hhop⟩ := (isFor_iff hstored).mp (find?_some hfind)
    dsimp only
    split
    · have hset := setNhlfe_static (f := (·.markDeleted)) h hhops hn htype fun _ => rfl
      change ((lsp.setNhlfe n.id (·.markDeleted)).statics.map (·.hop)).Sublist _ ∧
        ∀ p, p ∈ livePaths (lsp.setNhlfe n.id (·.markDeleted)).statics ↔ _
      rw [hset]
      constructor
      · have hmap : (lsp.statics.map fun r =>
            if r.hop = n.nexthop.hop then n.markDeleted.toStatic else r).map (·.hop) =
            lsp.statics.map (·.hop) := by
          rw [map_map]
          refine map_congr_left fun r _ => ?_
          simp only [comp]
          split
          · exact Eq.symm ‹_›
          · rfl
        rw [hmap]
      · intro p
        rw [mem_livePaths, mem_livePaths, mem_map]
        constructor
        · rintro ⟨r, hr, heq⟩
          split at heq
          · have hdel : true = false := congrArg StaticNhlfe.deleted heq
            cases hdel
          · cases heq
            exact ⟨hr, hhop ▸ ‹_›⟩
        · rintro ⟨hp, hne⟩
          exact ⟨_, hp, if_neg (hhop ▸ hne)⟩
    · rw [statics_kept]
      have hdel : (lsp.nhlfeDel n.id).statics = lsp.statics.filter fun r => r.hop ≠ g.hop := by
        unfold Lsp.statics Lsp.nhlfeDel
        rw [filter_filter, filter_map, filter_filter]
        refine congrArg _ (filter_congr fun m hm => ?_)
        by_cases hstatic : m.type = .static
        · by_cases hid : m.id = n.id
          · rw [inj_on_of_nodup_map h.nodup hm hn hid]
            simp [toStatic, hhop]
          · have hmhop : m.nexthop.hop ≠ g.hop := fun heq =>
              hid (congrArg Nhlfe.id (eq_of_hop hhops hm hn hstatic htype (heq.trans hhop.symm)))
            simp [Nhlfe.toStatic, hid, hmhop]
        · simp [hstatic]
      rw [hdel]
      refine ⟨filter_sublist.map _, fun p => ?_⟩
      rw [mem_livePaths, mem_livePaths, mem_filter]
      simp

omit h hhops in
theorem uninstallAll_statics :
    ((statics (lsp.uninstallAll .static)).map (·.hop)).Sublist (lsp.statics.map (·.hop)) ∧
      ∀ p, p ∉ livePaths (statics (lsp.uninstallAll .static)) := by
  have hlist : ({ lsp with nhlfeList := uninstallType .static lsp.nhlfeList } : Lsp).statics =
      (lsp.nhlfeList.filter fun n => decide (n.type = .static) && n.installed).map
        fun n => n.markDeleted.toStatic := by
    have hfilter : (lsp.nhlfeList.filter fun n =>
        n.type = .static && (n.type ≠ LspType.static || n.installed)) =
        lsp.nhlfeList.filter fun n => decide (n.type = .static) && n.installed := by
      refine filter_congr fun n _ => ?_
      by_cases hn : n.type = .static
      · simp [hn]
      · simp [hn]
    rw [uninstallType_statics, hfilter]
    refine map_congr_left fun n hn => ?_
    have hstatic := (Bool.and_eq_true_iff.mp (mem_filter.mp hn).2).1
    rw [if_pos (of_decide_eq_true hstatic)]
  have hmarked : ∀ l : List StaticNhlfe,
      l = (lsp.nhlfeList.filter fun n => decide (n.type = .static) && n.installed).map
        (fun n => n.markDeleted.toStatic) →
      (l.map (·.hop)).Sublist (lsp.statics.map (·.hop)) ∧ ∀ p, p ∉ livePaths l := by
    rintro l rfl
    constructor
    · unfold Lsp.statics
      rw [map_map, map_map]
      refine .map _ (monotone_filter_right _ fun n hn => ?_)
      exact (Bool.and_eq_true_iff.mp hn).1
    · intro p hp
      obtain ⟨n, -, heq⟩ := mem_map.mp (mem_livePaths.mp hp)
      have hdel : true = false := congrArg StaticNhlfe.deleted heq
      cases hdel
  unfold uninstallAll
  split
  · rename_i hnil
    have hempty : lsp.statics = [] := by
      unfold Lsp.statics
      rw [hnil]
      rfl
    change (lsp.statics.map _).Sublist _ ∧ ∀ p, p ∉ livePaths lsp.statics
    rw [hempty]
    exact ⟨.refl _, fun p hp => by cases hp⟩
  · split
    · exact hmarked _ hlist
    · rw [statics_kept]
      exact hmarked _ hlist

end

/-- Processing takes the static NHLFEs out that are marked deleted. -/
theorem process_statics (hplain : ∀ n ∈ lsp.statics, n.hop.Plain) (multipathNum : Nat)
    (nl : Netlink) (rib : Rib) (kernel : Label → Option (List Path)) :
    statics (lspProcessqDel (lspProcess multipathNum nl rib lsp kernel).1).kept =
      lsp.statics.filter (!·.deleted) := by
  have hview : ∀ l : List Nhlfe, (l.filter (·.type = .static)).map (·.toStatic) =
      (l.map fun n => if n.type = .static then some n.toStatic else none).reduceOption := by
    intro l
    induction l with
    | nil => rfl
    | cons n l ih =>
      by_cases hn : n.type = .static
      · simpa [hn, List.reduceOption] using ih
      · simpa [hn, List.reduceOption] using ih
  have hunmoved : Unmoved rib lsp.nhlfeList
      fun n => if n.type = .static then some n.toStatic else none := by
    refine ⟨fun n hn => ?_, fun d n => ?_, fun n => rfl, fun b n => rfl⟩
    · have htype : (n.refresh rib).type = n.type := rfl
      rw [htype]
      by_cases hstatic : n.type = .static
      · have hfixed := (hplain n.toStatic (mem_statics.mpr ⟨n, hn, hstatic, rfl⟩)).fixed
        obtain ⟨hhop, hlabel, -⟩ := refresh_nexthop rib hfixed
        rw [if_pos hstatic, if_pos hstatic]
        unfold toStatic
        rw [hhop, hlabel]
        rfl
      · rw [if_neg hstatic, if_neg hstatic]
    · rw [mark_eq]
      rfl
  have hsame := congrArg List.reduceOption (hunmoved.process multipathNum nl kernel)
  rw [← hview, ← hview] at hsame
  rw [statics_kept]
  unfold Lsp.statics lspProcessqDel
  rw [← hsame, filter_map, filter_filter, filter_filter]
  refine congrArg _ (filter_congr fun n _ => ?_)
  exact Bool.and_comm _ _

section

variable (s : Zvrf) (inLabel : Label) (l : List Snhlfe) (label : Label)

theorem snhlfes_putSlsp :
    (s.putSlsp inLabel l).snhlfes label = if label = inLabel then l else s.snhlfes label := by
  unfold snhlfes findSlsp putSlsp
  by_cases hl : label = inLabel
  · subst hl
    simp
  · rw [if_neg hl, find?_cons_of_neg (by simpa using Ne.symm hl), Keyed.find?_filter_ne, if_neg hl]

theorem snhlfes_keepSlsp :
    (s.keepSlsp inLabel l).snhlfes label = if label = inLabel then l else s.snhlfes label := by
  unfold keepSlsp
  split
  · subst l
    unfold snhlfes findSlsp
    rw [Keyed.find?_filter_ne]
    by_cases hl : label = inLabel
    · rw [if_pos hl, if_pos hl]
    · rw [if_neg hl, if_neg hl]
  · exact snhlfes_putSlsp s inLabel l label

end

/-! ## Runs -/

/-- The static NHLFEs of every in-label are the configured ones. -/
structure StaticTable (s : Zvrf) : Prop where
  shape : Shape s
  ids : ∀ label lsp, s.findLsp label = some lsp → IdsSound s.next lsp
  statics : ∀ label, StaticsOk (statics (s.findLsp label)) (s.snhlfes label)

section

variable {s s' : Zvrf}

/-- One entry changes, and its configuration with it. -/
theorem StaticTable.becomes (h : StaticTable s) (hb : Becomes s s' label r) (conf : List Snhlfe)
    (hconf : ∀ l, s'.snhlfes l = if l = label then conf else s.snhlfes l)
    (hids : ∀ lsp, r = some lsp → IdsSound s'.next lsp)
    (hok : StaticsOk (Zebra.statics r) conf) : StaticTable s' := by
  refine ⟨hb.shape, fun l lsp hfind => ?_, fun l => ?_⟩
  · rw [hb.find] at hfind
    split at hfind
    · exact hids lsp hfind
    · exact (h.ids l lsp hfind).sublist (.refl _) hb.next
  · rw [hb.find, hconf]
    split
    · exact hok
    · exact h.statics l

theorem StaticTable.ids_bind (h : StaticTable s) (hnext : s.next ≤ next) {f : Lsp → Option Lsp}
    (hf : ∀ {lsp lsp'}, IdsSound s.next lsp → f lsp = some lsp' → IdsSound s.next lsp') (lsp' : Lsp)
    (heq : (s.findLsp label).bind f = some lsp') : IdsSound next lsp' := by
  obtain ⟨lsp, hfind, heq⟩ := Option.bind_eq_some_iff.mp heq
  exact (hf (h.ids label lsp hfind) heq).sublist (.refl _) hnext

/-- The configuration only depends on its table. -/
theorem snhlfes_congr (h : s'.slspTable = s.slspTable) (label : Label) :
    s'.snhlfes label = s.snhlfes label := by
  unfold snhlfes findSlsp
  rw [h]

theorem snhlfes_same (h : s'.slspTable = s.slspTable) (label l : Label) :
    s'.snhlfes l = if l = label then s.snhlfes label else s.snhlfes l := by
  rw [snhlfes_congr h]
  split
  · subst l
    rfl
  · rfl

/-- The entry that an install is made in, which may be new. -/
theorem entry_statics (hids : ∀ lsp, s.findLsp inLabel = some lsp → IdsSound s.next lsp) :
    IdsSound (s.getLsp inLabel).2.next (s.entry inLabel) ∧
      (s.entry inLabel).statics = Zebra.statics (s.findLsp inLabel) := by
  unfold entry getLsp
  cases hfind : s.findLsp inLabel with
  | some lsp => exact ⟨hids lsp hfind, rfl⟩
  | none => exact ⟨⟨nodup_nil, by simp [lspAlloc]⟩, rfl⟩

theorem StaticTable.install (h : StaticTable s) (hg : g.hop.Plain)
    (hok : StaticsOk (staticInstalled g.hop outLabel (Zebra.statics (s.findLsp inLabel))) conf) :
    StaticTable (mplsLspInstall (s.putSlsp inLabel conf) .static inLabel outLabel g) := by
  have hshape : Shape (s.putSlsp inLabel conf) :=
    ⟨h.shape.distinct, h.shape.fresh, h.shape.nodup, h.shape.queued⟩
  obtain ⟨hb, hnext⟩ := install_becomes hshape .static inLabel outLabel g
  obtain ⟨hids, hstatics⟩ := entry_statics (s := s.putSlsp inLabel conf) (h.ids inLabel)
  have hhops : (((s.putSlsp inLabel conf).entry inLabel).statics.map (·.hop)).Nodup := by
    rw [hstatics]
    exact (h.statics inLabel).hops
  refine h.becomes ⟨hb.shape, hb.find, hb.next, hb.rib⟩ conf (fun l => ?_) ?_ ?_
  · rw [snhlfes_congr (install_frame _ _ _ _ _).2, snhlfes_putSlsp]
  · rintro lsp ⟨rfl⟩
    rw [hnext]
    exact hids.install .static outLabel g
  · change StaticsOk (Lsp.statics _) conf
    rw [install_statics hids hhops hg, hstatics]
    exact hok

theorem hopMatch_hop {type : NexthopType} {gate : GAddr} {ifindex : UInt32}
    (h : hopMatch type gate ifindex g = true) : hopOf type gate ifindex = g.hop := by
  refine (hopMatch_iff ?_).mp h
  obtain ⟨gtype, ggate, gifindex⟩ := g
  unfold hopMatch at h
  cases gtype <;> cases type <;> simp [storedGateway] at h ⊢

theorem findSlsp_of_mem {n : Snhlfe} (hn : n ∈ s.snhlfes inLabel) :
    ∃ slsp, s.findSlsp inLabel = some slsp ∧ s.snhlfes inLabel = slsp.snhlfeList := by
  unfold snhlfes at hn ⊢
  cases hfind : s.findSlsp inLabel with
  | none =>
    rw [hfind] at hn
    cases hn
  | some slsp => exact ⟨slsp, rfl, rfl⟩

theorem StaticTable.add (h : StaticTable s)
    (hg : g.hop.Plain) (hcons : zebraMplsLspLabelConsistent s inLabel outLabel g = true) :
    StaticTable (zebraMplsStaticLspAdd s inLabel outLabel g) := by
  have hstored := storedGateway_of_fixed hg.fixed
  have hok := h.statics inLabel
  unfold zebraMplsStaticLspAdd
  dsimp only
  unfold zebraMplsLspLabelConsistent at hcons
  cases hfind : (s.snhlfes inLabel).find? (·.isFor g) with
  | some n =>
    dsimp only
    by_cases hsame : n.outLabel = outLabel
    · rw [if_pos hsame]
      exact h
    · rw [if_neg hsame]
      have hn := mem_of_find?_eq_some hfind
      have hfor : n.isFor g = true := by simpa using find?_some hfind
      have hhop : n.path.hop = g.hop := hopMatch_hop hfor
      obtain ⟨slsp, hslsp, hconf⟩ := findSlsp_of_mem hn
      -- a label is only changed in an entry that is alone
      have hone : s.snhlfes inLabel = [n] := by
        rw [hslsp] at hcons
        rw [hconf] at hfind hn ⊢
        unfold snhlfeFind at hcons
        dsimp only at hcons
        rw [hfind] at hcons
        obtain ⟨m, hm⟩ : ∃ m, slsp.snhlfeList = [m] := by
          rw [← length_eq_one_iff]
          simpa [hsame] using hcons
        rw [hm] at hn ⊢
        rw [mem_singleton.mp hn]
      refine h.install hg ?_
      rw [hone] at hok ⊢
      have hmap : [n].map (fun m => if m = n then { n with outLabel := outLabel } else m) =
          [{ n with outLabel := outLabel }] := by simp
      rw [hmap]
      refine hok.install hg (nodup_singleton _) (fun p => ?_) ?_
      · rw [map_singleton, mem_singleton, map_singleton, mem_singleton]
        constructor
        · rintro rfl
          left
          rw [← hhop]
          rfl
        · rintro (rfl | ⟨rfl, hne⟩)
          · rw [← hhop]
            rfl
          · exact absurd hhop hne
      · intro a ha b hb
        rw [mem_singleton.mp ha, mem_singleton.mp hb]
  | none =>
    obtain ⟨gate, hgate⟩ := Option.isSome_iff_exists.mp hstored
    have hnew : (⟨g.gtype, gate.1, gate.2, outLabel⟩ : Snhlfe).path = ⟨g.hop, outLabel⟩ := by
      rw [← newNhlfe_hop hgate 0 .static outLabel]
      rfl
    have hother : ∀ m ∈ s.snhlfes inLabel, m.path.hop ≠ g.hop := by
      intro m hm heq
      exact find?_eq_none.mp hfind m hm ((hopMatch_iff hstored).mpr heq)
    have hop : ∀ m ∈ s.snhlfes inLabel,
        (m.outLabel = mplsImpNullLabel ↔ outLabel = mplsImpNullLabel) := by
      intro m hm
      obtain ⟨slsp, hslsp, hconf⟩ := findSlsp_of_mem hm
      rw [hslsp] at hcons
      unfold snhlfeFind at hcons
      rw [hconf] at hfind
      dsimp only at hcons
      rw [hfind] at hcons
      rw [hconf] at hm hok
      cases hhead : slsp.snhlfeList with
      | nil =>
        rw [hhead] at hm
        cases hm
      | cons first rest =>
        rw [hhead] at hcons hm hok
        have heq : (first.outLabel = mplsImpNullLabel) = (outLabel = mplsImpNullLabel) := by
          simpa using hcons
        rw [hok.uniform m hm first mem_cons_self, heq]
    rw [hgate]
    refine h.install hg (hok.install hg ?_ (fun p => ?_) ?_)
    · rw [map_cons, hnew]
      refine nodup_cons.mpr ⟨fun hin => ?_, hok.confHops⟩
      obtain ⟨m, hm, heq⟩ := mem_map.mp hin
      exact hother m hm heq
    · rw [map_cons, hnew, mem_cons]
      refine or_congr_right ⟨fun hp => ⟨hp, ?_⟩, And.left⟩
      obtain ⟨m, hm, rfl⟩ := mem_map.mp hp
      exact hother m hm
    · intro a ha b hb
      rcases mem_cons.mp ha with rfl | ha
      · rcases mem_cons.mp hb with rfl | hb
        · exact Iff.rfl
        · exact (hop b hb).symm
      · rcases mem_cons.mp hb with rfl | hb
        · exact hop a ha
        · exact hok.uniform a ha b hb

theorem Becomes.keepSlsp (hb : Becomes s s' label r)
    (inLabel : Label) (conf : List Snhlfe) : Becomes s (s'.keepSlsp inLabel conf) label r := by
  obtain ⟨⟨hdistinct, hfresh, hnodup, hqueued⟩, hfind, hnext, hrib⟩ := hb
  unfold Zvrf.keepSlsp
  split <;> exact ⟨⟨hdistinct, hfresh, hnodup, hqueued⟩, hfind, hnext, hrib⟩

/-- One of the configured entries is removed. -/
theorem mem_erase_path {n : Snhlfe} (hnodup : (conf.map (·.path.hop)).Nodup)
    (hn : n ∈ conf) (p : Path) :
    p ∈ (conf.erase n).map (·.path) ↔ p ∈ conf.map (·.path) ∧ ¬p.hop = n.path.hop := by
  have hconf : conf.Nodup := hnodup.of_map _
  simp only [mem_map, hconf.mem_erase_iff]
  constructor
  · rintro ⟨m, ⟨hne, hm⟩, rfl⟩
    exact ⟨⟨m, hm, rfl⟩, fun heq => hne (inj_on_of_nodup_map hnodup hm hn heq)⟩
  · rintro ⟨⟨m, hm, rfl⟩, hne⟩
    exact ⟨m, ⟨fun heq => hne (by rw [heq]), hm⟩, rfl⟩

theorem StaticTable.del (h : StaticTable s) (inLabel : Label) (g : Gateway) :
    StaticTable (zebraMplsStaticLspDel s inLabel g) := by
  have hok := h.statics inLabel
  unfold zebraMplsStaticLspDel
  cases hslsp : s.findSlsp inLabel with
  | none => exact h
  | some slsp =>
    have hconf : s.snhlfes inLabel = slsp.snhlfeList := by
      unfold snhlfes
      rw [hslsp]
    dsimp only
    split
    · have hb := (uninstallAll_becomes h.shape .static inLabel).keepSlsp inLabel []
      refine h.becomes hb [] (fun l => ?_) (h.ids_bind hb.next .uninstallAll) ?_
      · rw [snhlfes_keepSlsp, snhlfes_congr (uninstallAll_frame _ _ _).2]
      · refine hok.remove (fun _ => True) (nil_sublist _) ?_ (fun p => ?_) (fun p => by simp)
        · cases hfind : s.findLsp inLabel with
          | none => exact .refl _
          | some lsp => exact uninstallAll_statics.1
        · cases hfind : s.findLsp inLabel with
          | none => exact ⟨fun hp => absurd hp not_mem_nil, fun hp => absurd trivial hp.2⟩
          | some lsp =>
            exact ⟨fun hp => absurd hp (uninstallAll_statics.2 p), fun hp => absurd trivial hp.2⟩
    · cases hn : snhlfeFind slsp g with
      | none => exact h
      | some n =>
        have hmem : n ∈ s.snhlfes inLabel := hconf ▸ mem_of_find?_eq_some hn
        have hfor : n.isFor g = true := by simpa using find?_some hn
        have hhop : n.path.hop = g.hop := hopMatch_hop hfor
        have hplain : g.hop.Plain := by
          obtain ⟨r, hr, heq⟩ : ∃ r ∈ Zebra.statics (s.findLsp inLabel), r.hop = g.hop := by
            have hlive := (hok.same n.path).mpr (mem_map_of_mem hmem)
            exact ⟨_, mem_livePaths.mp hlive, hhop⟩
          exact heq ▸ hok.plain r hr
        have hb := (uninstall_becomes h.shape .static inLabel g).keepSlsp inLabel
          (slsp.snhlfeList.erase n)
        refine h.becomes hb (slsp.snhlfeList.erase n) (fun l => ?_) (h.ids_bind hb.next .uninstall) ?_
        · rw [snhlfes_keepSlsp, snhlfes_congr (uninstall_frame _ _ _ _).2]
        · rw [hconf] at hok hmem
          have hremove : ((Zebra.statics ((s.findLsp inLabel).bind (·.uninstall .static g))).map
                (·.hop)).Sublist ((Zebra.statics (s.findLsp inLabel)).map (·.hop)) ∧
              ∀ p, p ∈ livePaths (Zebra.statics ((s.findLsp inLabel).bind
                (·.uninstall .static g))) ↔
                p ∈ livePaths (Zebra.statics (s.findLsp inLabel)) ∧ ¬p.hop = g.hop := by
            have hhops := hok.hops
            cases hfind : s.findLsp inLabel with
            | none => exact ⟨.refl _, fun p => by simp [livePaths, Zebra.statics]⟩
            | some lsp =>
              rw [hfind] at hhops
              exact uninstall_statics (h.ids inLabel lsp hfind) hhops hplain
          refine hok.remove (· = g.hop) erase_sublist hremove.1 hremove.2 (fun p => ?_)
          rw [← hhop]
          exact mem_erase_path hok.confHops hmem p

/-- A request for NHLFEs that are not static leaves the static ones alone. -/
theorem StaticTable.unmoved (h : StaticTable s)
    (hb : Becomes s s' label r) (hslsp : s'.slspTable = s.slspTable)
    (hids : ∀ lsp, r = some lsp → IdsSound s'.next lsp)
    (hsame : Zebra.statics r = Zebra.statics (s.findLsp label)) : StaticTable s' := by
  exact h.becomes hb _ (snhlfes_same hslsp label) hids (hsame ▸ h.statics label)

theorem StaticTable.step {e : StaticEvent} (h : StaticTable s)
    (hgood : StaticCommand s e) (hrun : (staticStep multipathNum e).run s = .ok () s') :
    StaticTable s' := by
  cases e with
  | add inLabel outLabel g =>
    cases hrun
    dsimp only
    split
    · exact h.add hgood ‹_›
    · exact h
  | del inLabel g =>
    cases hrun
    exact h.del inLabel g
  | other e =>
    cases e with
    | install type inLabel outLabel g =>
      cases hrun
      obtain ⟨hb, hnext⟩ := install_becomes h.shape type inLabel outLabel g
      obtain ⟨hids, hstatics⟩ := entry_statics (h.ids inLabel)
      refine h.unmoved hb (install_frame _ _ _ _ _).2 ?_ ?_
      · rintro lsp ⟨rfl⟩
        rw [hnext]
        exact hids.install type outLabel g
      · rw [← hstatics]
        exact install_statics_other hids hgood outLabel g
    | uninstall type inLabel g =>
      cases hrun
      have hb := uninstall_becomes h.shape type inLabel g
      refine h.unmoved hb (uninstall_frame _ _ _ _).2 (h.ids_bind hb.next .uninstall) ?_
      cases hfind : s.findLsp inLabel with
      | none => rfl
      | some lsp => exact uninstall_statics_other (h.ids inLabel lsp hfind) hgood g
    | uninstallAll type inLabel =>
      cases hrun
      have hb := uninstallAll_becomes h.shape type inLabel
      refine h.unmoved hb (uninstallAll_frame _ _ _).2 (h.ids_bind hb.next .uninstallAll) ?_
      cases hfind : s.findLsp inLabel with
      | none => rfl
      | some lsp => exact uninstallAll_statics_other hgood
    | reachability rib =>
      cases hrun
      refine ⟨schedule_shape (h.shape.withRib rib), fun l lsp hfind => ?_, fun l => ?_⟩
      · rw [schedule_find] at hfind
        obtain ⟨old, hold, rfl⟩ := Option.map_eq_some_iff.mp hfind
        exact (h.ids l old hold).sublist (.refl _) le_rfl
      · have hok := h.statics l
        rw [schedule_find]
        change StaticsOk (Zebra.statics ((s.findLsp l).map _)) (s.snhlfes l)
        cases hfind : s.findLsp l with
        | none => rwa [hfind] at hok
        | some lsp => rwa [hfind] at hok
    | processItem nl =>
      rcases processItem_becomes h.shape hrun with ⟨-, rfl⟩ | ⟨lsp, hfind, -, -, hb, -, hslsp⟩
      · exact h
      · have hok := h.statics lsp.inLabel
        rw [hfind] at hok
        refine h.becomes hb _ (snhlfes_same hslsp _) (fun lsp' heq => ?_) ?_
        · exact ((h.ids _ lsp hfind).process heq).sublist (.refl _) hb.next
        · rw [process_statics hok.plain]
          refine hok.remove (fun _ => False) (.refl _)
            (filter_sublist.map _) (fun p => ?_) (fun p => by simp)
          rw [mem_livePaths, mem_livePaths, mem_filter]
          simp [Zebra.statics]

/-- In every state that static commands with IPv4 or IPv6 gateways, requests for NHLFEs that are
not static, reachability changes and queue processing reach, configuration and forwarding table
agree. -/
theorem static_agree {multipathNum : Nat} {rib : Rib} {tr : List StaticEvent}
    (h : Run (staticStep multipathNum) (Zvrf.init rib) StaticCommand tr s) : StaticAgree s := by
  have htable : StaticTable s := by
    refine h.invariant (I := StaticTable) ?_ ?_
    · refine ⟨(soundTable_init rib).shape, ?_, fun label => ?_⟩
      · intro label lsp hfind
        cases hfind
      · exact ⟨nodup_nil, fun n hn => absurd hn not_mem_nil, nodup_nil,
          fun p => Iff.rfl, fun m hm => absurd hm not_mem_nil⟩
    · intro s e s' hs hgood hrun
      exact hs.step hgood hrun
  exact ⟨fun label => (htable.statics label).perm, fun label => (htable.statics label).uniform⟩

end

/-- Two static paths, one of which is removed and comes back with the queue in between. -/
def staticPaths : List StaticEvent :=
  [.add 100 200 (gatewayOf 1), .add 100 201 (gatewayOf 2), .other (.processItem ⟨true, true⟩),
    .other (.install .ldp 100 300 (gatewayOf 1)), .del 100 (gatewayOf 2), .add 100 202 (gatewayOf 2),
    .other (.processItem ⟨true, true⟩)]

theorem staticPaths_agree :
    ∃ s, Run (staticStep 2) (Zvrf.init oneLink) StaticCommand staticPaths s ∧
      (s.snhlfes 100).length = 2 ∧ StaticAgree s :=
  ⟨_, .of_play (by decide +kernel), by decide +kernel, static_agree (.of_play (by decide +kernel))⟩

end Mp2mp.Zebra
