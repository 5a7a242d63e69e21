import Mp2mp.Kit.Bytes
import Mp2mp.Ospfd.SeqWrap

/-!
# Link State IDs of summary-LSAs

`ospf_summary_lsa_originate` takes the address of a prefix as the Link State ID, or the address
with all host bits set, when an LSA for another prefix has the first (`ospf_lsa_unique_id`);
`ospf_lsa_lookup_by_prefix` looks at the same two IDs.  Whether the second one is free is looked up
in the database of the AS, where there are no summary-LSAs, and the lookup does not compare the
mask of what it finds there.

* `summary_ids_iff`: in which states of a run the ID is free and the lookup right.
-/

namespace Mp2mp.Ospfd

open Kit Function

def masklen2ip (masklen : Nat) : Addr := 0xffffffff <<< (32 - masklen)

def ipMasklen (netmask : Addr) : Nat :=
  let tmp := ~~~netmask
  if tmp ≠ 0 then tmp.clz.toNat else 32

theorem ipMasklen_masklen2ip {masklen : Nat} (le : masklen ≤ 32) :
    ipMasklen (masklen2ip masklen) = masklen := by
  have all : ∀ masklen : Fin 33, ipMasklen (masklen2ip masklen) = masklen := by decide
  exact all ⟨masklen, Nat.lt_succ_of_le le⟩

/-- A `struct prefix_ipv4` without host bits. -/
structure PrefixIpv4 where
  addr : Addr
  prefixlen : Nat
  le : prefixlen ≤ 32
  masked : addr &&& masklen2ip prefixlen = addr

open PrefixIpv4

namespace PrefixIpv4

def mask (p : PrefixIpv4) : Addr := masklen2ip p.prefixlen

/-- The address with all host bits set. -/
def wildcard (p : PrefixIpv4) : Addr := p.addr ||| ~~~p.mask

variable {p p' : PrefixIpv4}

theorem prefixlen_of_mask (same : p.mask = p'.mask) : p.prefixlen = p'.prefixlen := by
  rw [← ipMasklen_masklen2ip p.le, ← ipMasklen_masklen2ip p'.le]
  exact congrArg ipMasklen same

theorem eq_of_mask (same : p.mask = p'.mask) (addr : p.addr = p'.addr) : p = p' := by
  have len := prefixlen_of_mask same
  cases p
  cases p'
  cases len
  cases addr
  rfl

/-- Both IDs have the address under the mask. -/
theorem network_of_id {id : Addr} (h : id = p.addr ∨ id = p.wildcard) : id &&& p.mask = p.addr := by
  rcases h with rfl | rfl
  · exact p.masked
  · have masked := p.masked
    rw [wildcard, BitVec.and_or_distrib_right, show p.addr &&& p.mask = p.addr from masked]
    simp

end PrefixIpv4

/-- The mask, with which the body of an LSA begins. -/
def LsaData.mask (data : LsaData) : Addr := BitVec.ofNat 32 (ofBe (data.body.take 4))

namespace Ospf

variable {n : Nat} (s : Ospf n)

/-- The key of a summary-LSA of this router. -/
def summaryKey (id : Addr) : LsaKey := ⟨.summary, id, s.routerId⟩

def ospfLsaUniqueId (lsdb : Option Nat) (type : LsaType) (p : PrefixIpv4) : Addr :=
  match s.lsdb lsdb ⟨type, p.addr, s.routerId⟩ with
  | none => p.addr
  | some lsa =>
    if ipMasklen (s.lsa lsa).mask = p.prefixlen then 0xffffffff
    else
      -- the database of the AS, whatever the type
      match s.lsdb none ⟨type, p.wildcard, s.routerId⟩ with
      | some _ => 0xffffffff
      | none => p.wildcard

def ospfLsaLookupByPrefix (lsdb : Option Nat) (type : LsaType) (p : PrefixIpv4) (routerId : Addr) :
    Option Ptr :=
  match s.lsdb lsdb ⟨type, p.addr, routerId⟩ with
  | none => none
  | some lsa =>
    if p.mask ≠ (s.lsa lsa).mask then s.lsdb lsdb ⟨type, p.wildcard, routerId⟩ else some lsa

/-- The LSA of `ospf_summary_lsa_new`. -/
def summaryLsa (area : Nat) (p : PrefixIpv4) (metric : Nat) (id : Addr) : Lsa :=
  { key := s.summaryKey id, seqnum := ospfInitialSequenceNumber, checksum := 0, age := 0
    body := toBe 4 p.mask.toNat ++ 0 :: toBe 3 metric, tvRecv := s.now, area, oi := none
    self := true, selfChecked := true, received := false, prematureAge := false
    localXlt := false }

def ospfSummaryLsaNew (area : Nat) (p : PrefixIpv4) (metric : Nat) (id : Addr) :
    Option (Ptr × Ospf n) :=
  if id = 0xffffffff then none
  else
    let lsa := update s.lsa s.next (s.summaryLsa area p metric id)
    some (s.next, { s with lsa, next := s.next + 1 })

def ospfSummaryLsaOriginate (p : PrefixIpv4) (metric area : Nat) : Ospf n :=
  let id := s.ospfLsaUniqueId (some area) .summary p
  if id = 0xffffffff then s
  else
    match s.ospfSummaryLsaNew area p metric id with
    | none => s
    | some (new, s) => (s.ospfLsaInstall new).2.ospfFloodThroughArea area none new

inductive SummaryEvent where
  | originate (p : PrefixIpv4) (metric : Nat)
  | flush (id : Addr)

/-- A flush is followed by what `ospf_maxage_lsa_remover` does when all neighbours have
acknowledged it. -/
def summaryStep (area : Nat) (s : Ospf n) : SummaryEvent → Ospf n
  | .originate p metric => s.ospfSummaryLsaOriginate p metric area
  | .flush id =>
    match s.lsdb (some area) (s.summaryKey id) with
    | none => s
    | some lsa =>
      let s := (s.ospfLsaFlushArea area lsa).ospfDiscardFromDb (some area) lsa
      s.ospfLsdbDelete (some area) lsa

/-! ## The LSA for a prefix -/

/-- LSA `q` is in the database, for prefix `p`. -/
def Live (area : Nat) (p : PrefixIpv4) (q : Ptr) : Prop :=
  ∃ id, s.lsdb (some area) (s.summaryKey id) = some q ∧ (s.lsa q).mask = p.mask ∧
    id &&& p.mask = p.addr

/-- The ID for `p` is not the one of another LSA. -/
def UniqueId (area : Nat) (p : PrefixIpv4) : Prop :=
  s.ospfLsaUniqueId (some area) .summary p = 0xffffffff ∨
    s.lsdb (some area) (s.summaryKey (s.ospfLsaUniqueId (some area) .summary p)) = none

/-- The lookup finds the LSA for `p`, if there is one. -/
def Found (area : Nat) (p : PrefixIpv4) : Prop :=
  ∀ q, s.ospfLsaLookupByPrefix (some area) .summary p s.routerId = some q ↔ s.Live area p q

/-- If the second ID of `p` is in use, then the first one is not, or is by an LSA with the mask of
`p`, and the LSA with the second one has another mask or is the same. -/
def Clear (area : Nat) (p : PrefixIpv4) : Prop :=
  ∀ q, s.lsdb (some area) (s.summaryKey p.wildcard) = some q →
    (∀ q', s.lsdb (some area) (s.summaryKey p.addr) = some q' → (s.lsa q').mask = p.mask) ∧
    ((s.lsa q).mask = p.mask → s.lsdb (some area) (s.summaryKey p.addr) = some q)

/-- The summary-LSAs of the area have one of the IDs of their prefix. -/
structure Placed (area : Nat) : Prop where
  as : ∀ id, s.lsdb none (s.summaryKey id) = none
  entry : ∀ id q, s.lsdb (some area) (s.summaryKey id) = some q → q < s.next ∧
    (s.lsa q).key = s.summaryKey id ∧ id ≠ 0xffffffff ∧
    ∃ p : PrefixIpv4, (s.lsa q).mask = p.mask ∧ (id = p.addr ∨ id = p.wildcard)

variable {s} {s' : Ospf n} {area : Nat} {p : PrefixIpv4} {q : Ptr}

theorem uniqueId_cases : s.ospfLsaUniqueId (some area) .summary p = 0xffffffff ∨
    s.ospfLsaUniqueId (some area) .summary p = p.addr ∨
    s.ospfLsaUniqueId (some area) .summary p = p.wildcard := by
  rw [ospfLsaUniqueId]
  repeat' split
  all_goals simp

/-- The LSA of an origination. -/
theorem originate_installs (metric : Nat)
    (free : s.ospfLsaUniqueId (some area) .summary p ≠ 0xffffffff) :
    (s.ospfSummaryLsaOriginate p metric area).routerId = s.routerId ∧
    (s.ospfSummaryLsaOriginate p metric area).next = s.next + 1 ∧
    (∀ scope key, (s.ospfSummaryLsaOriginate p metric area).lsdb scope key =
      if scope = some area ∧ key = s.summaryKey (s.ospfLsaUniqueId (some area) .summary p)
      then some s.next else s.lsdb scope key) ∧
    ((s.ospfSummaryLsaOriginate p metric area).lsa s.next).key =
      s.summaryKey (s.ospfLsaUniqueId (some area) .summary p) ∧
    ((s.ospfSummaryLsaOriginate p metric area).lsa s.next).mask = p.mask ∧
    ∀ q ≠ s.next, (s.ospfSummaryLsaOriginate p metric area).lsa q = s.lsa q := by
  rw [ospfSummaryLsaOriginate, if_neg free, ospfSummaryLsaNew, if_neg free]
  set id := s.ospfLsaUniqueId (some area) .summary p
  set m : Ospf n :=
    { s with lsa := update s.lsa s.next (s.summaryLsa area p metric id), next := s.next + 1 }
    with m_eq
  have here : m.lsa s.next = s.summaryLsa area p metric id := update_self ..
  have first : (m.lsa s.next).seqnum - 1 ≠ ospfMaxSequenceNumber := by
    rw [here]
    show ospfInitialSequenceNumber - 1 ≠ _
    decide
  obtain ⟨routerId, next, lsdb, lsa⟩ := install_stores (fun refused => first refused.1)
  rw [if_neg first, here] at lsa
  have scope : m.scope s.next = some area := by
    rw [Ospf.scope, here]
    rfl
  have stored : (m.ospfLsaInstall s.next).2.lsa s.next =
      m.summed (s.summaryLsa area p metric id) := by
    rw [lsa, update_self]
  refine ⟨routerId, next, fun scope' key => ?_, ?_, ?_, fun q differ => ?_⟩
  · show (m.ospfLsaInstall s.next).2.lsdb scope' key = _
    rw [lsdb, lsdbAdd_lsdb, scope, here]
    rfl
  · show ((m.ospfLsaInstall s.next).2.lsa s.next).key = _
    rw [stored]
    rfl
  · show ((m.ospfLsaInstall s.next).2.lsa s.next).mask = _
    rw [stored]
    show BitVec.ofNat 32 (ofBe ((toBe 4 p.mask.toNat ++ _).take 4)) = _
    rw [List.take_left' (length_toBe 4 _), ofBe_toBe,
      Nat.mod_eq_of_lt (show _ < 256 ^ 4 from p.mask.isLt),
      BitVec.ofNat_toNat, BitVec.setWidth_eq]
  · show (m.ospfLsaInstall s.next).2.lsa q = _
    rw [lsa, update_of_ne differ, m_eq]
    exact update_of_ne differ ..

section

variable (h : s.Placed area)

include h

theorem Placed.originate (metric : Nat) :
    (s.ospfSummaryLsaOriginate p metric area).Placed area := by
  by_cases free : s.ospfLsaUniqueId (some area) .summary p = 0xffffffff
  · rw [ospfSummaryLsaOriginate, if_pos free]
    exact h
  · obtain ⟨routerId, next, lsdb, key, mask, others⟩ := originate_installs metric free
    have keys (id : Addr) :
        (s.ospfSummaryLsaOriginate p metric area).summaryKey id = s.summaryKey id := by
      rw [summaryKey, routerId, summaryKey]
    constructor
    · intro id
      rw [keys, lsdb, if_neg fun same => nomatch same.1]
      exact h.as id
    · intro id q found
      rw [keys, lsdb] at found
      rw [keys, next]
      split at found
      · next here =>
        obtain rfl := Option.some.inj found
        have same : id = s.ospfLsaUniqueId (some area) .summary p := congrArg LsaKey.id here.2
        refine ⟨lt_add_one _, ?_, ?_, p, mask, ?_⟩
        · rw [key, ← same]
        · exact same ▸ free
        · exact same ▸ uniqueId_cases.resolve_left free
      · obtain ⟨old, rest⟩ := h.entry id q found
        rw [others q old.ne]
        exact ⟨Nat.lt_succ_of_lt old, rest⟩

theorem Placed.mono (routerId : s'.routerId = s.routerId) (next : s'.next = s.next)
    (lsdb : ∀ scope key q, s'.lsdb scope key = some q → s.lsdb scope key = some q)
    (data : ∀ q, (s'.lsa q).key = (s.lsa q).key ∧ (s'.lsa q).body = (s.lsa q).body) :
    s'.Placed area := by
  have keys (id : Addr) : s'.summaryKey id = s.summaryKey id := by
    rw [summaryKey, routerId, summaryKey]
  constructor
  · intro id
    rw [keys]
    by_contra used
    obtain ⟨q, found⟩ := Option.ne_none_iff_exists'.mp used
    have old := lsdb none _ q found
    rw [h.as id] at old
    cases old
  · intro id q found
    rw [keys] at found
    rw [keys, next, LsaData.mask, (data q).1, (data q).2]
    exact h.entry id q (lsdb _ _ q found)

theorem Placed.flush (id : Addr) : (summaryStep area s (.flush id)).Placed area := by
  rw [summaryStep]
  split
  · exact h
  · next p _ =>
    obtain ⟨left, queue, frame⟩ := discardFromDb_frame (s.ospfLsaFlushArea area p) (some area) p
    have flushed : (s.ospfLsaFlushArea area p).Placed area := by
      refine h.mono rfl rfl (fun _ _ _ found => found) fun q => ?_
      have aged : (s.ospfLsaFlushArea area p).lsa q =
          if q = p then { s.lsa q with age := ospfLsaMaxage, tvRecv := s.now } else s.lsa q :=
        setLsa_lsa fun lsa => { lsa with age := ospfLsaMaxage, tvRecv := s.now }
      rw [aged]
      split <;> exact ⟨rfl, rfl⟩
    have discarded : ((s.ospfLsaFlushArea area p).ospfDiscardFromDb (some area) p).Placed area := by
      rw [frame]
      exact flushed.mono rfl rfl (fun _ _ _ found => found) fun q => ⟨rfl, rfl⟩
    dsimp only
    generalize (s.ospfLsaFlushArea area p).ospfDiscardFromDb (some area) p = m at discarded
    rw [ospfLsdbDelete]
    split
    · refine discarded.mono rfl rfl (fun scope key q found => ?_) fun q => ⟨rfl, rfl⟩
      replace found : update m.lsdb (some area) _ scope key = some q := found
      rw [update_apply] at found
      split at found
      · next same =>
        rw [update_apply] at found
        split at found
        · cases found
        · rw [same, found]
      · exact found
    · exact discarded

theorem Placed.run (events : List SummaryEvent) :
    (events.foldl (summaryStep area) s).Placed area := by
  induction events generalizing s with
  | nil => exact h
  | cons e events ih =>
    cases e with
    | originate p metric => exact ih (h.originate metric)
    | flush id => exact ih (h.flush id)

/-- The LSA for a prefix has one of its two IDs. -/
theorem Placed.live_iff : s.Live area p q ↔ (s.lsdb (some area) (s.summaryKey p.addr) = some q ∨
      s.lsdb (some area) (s.summaryKey p.wildcard) = some q) ∧ (s.lsa q).mask = p.mask := by
  constructor
  · rintro ⟨id, found, mask, network⟩
    obtain ⟨-, -, -, p', mask', place⟩ := h.entry id q found
    have same : p' = p := by
      refine eq_of_mask (mask'.symm.trans mask) ?_
      rw [← network_of_id place, ← mask', mask, network]
    subst same
    refine ⟨?_, mask⟩
    rcases place with rfl | rfl
    · exact .inl found
    · exact .inr found
  · rintro ⟨found | found, mask⟩
    · exact ⟨p.addr, found, mask, network_of_id (.inl rfl)⟩
    · exact ⟨p.wildcard, found, mask, network_of_id (.inr rfl)⟩

theorem Placed.masklen_iff {id : Addr} (found : s.lsdb (some area) (s.summaryKey id) = some q) :
    ipMasklen (s.lsa q).mask = p.prefixlen ↔ (s.lsa q).mask = p.mask := by
  obtain ⟨-, -, -, p', mask, -⟩ := h.entry id q found
  rw [mask]
  constructor
  · intro len
    rw [PrefixIpv4.mask, ipMasklen_masklen2ip p'.le] at len
    rw [PrefixIpv4.mask, len, PrefixIpv4.mask]
  · intro same
    rw [same]
    exact ipMasklen_masklen2ip p.le

theorem Placed.uniqueId_iff : s.UniqueId area p ↔
    ∀ q', s.lsdb (some area) (s.summaryKey p.addr) = some q' → (s.lsa q').mask ≠ p.mask →
      s.lsdb (some area) (s.summaryKey p.wildcard) = none := by
  have as := h.as p.wildcard
  rw [summaryKey] at as
  rw [UniqueId, ospfLsaUniqueId]
  cases found : s.lsdb (some area) ⟨.summary, p.addr, s.routerId⟩ with
  | none =>
    dsimp only
    simp [summaryKey, found]
  | some q' =>
    have len := h.masklen_iff (p := p) found
    dsimp only
    by_cases mask : (s.lsa q').mask = p.mask
    · rw [if_pos (len.mpr mask)]
      simp [summaryKey, found, mask]
    · rw [if_neg (mt len.mp mask), as]
      have free : p.wildcard = 0xffffffff →
          s.lsdb (some area) (s.summaryKey p.wildcard) = none := by
        intro ones
        cases used : s.lsdb (some area) (s.summaryKey p.wildcard) with
        | none => rfl
        | some q => exact absurd ones (h.entry _ q used).2.2.1
      constructor
      · intro unique _ _ _
        exact unique.elim free id
      · intro clear
        exact .inr (clear q' found mask)

theorem Placed.clear_iff : s.UniqueId area p ∧ s.Found area p ↔ s.Clear area p := by
  rw [h.uniqueId_iff, Found, ospfLsaLookupByPrefix, Clear]
  simp only [h.live_iff, summaryKey]
  generalize s.lsdb (some area) ⟨.summary, p.wildcard, s.routerId⟩ = second
  cases first : s.lsdb (some area) ⟨.summary, p.addr, s.routerId⟩ with
  | none =>
    simp
  | some q' =>
    by_cases mask : (s.lsa q').mask = p.mask
    · simp [mask]
      grind
    · cases second with
      | none => simp [mask, Ne.symm mask]
      | some q => simp [mask, Ne.symm mask]

end

/-- In every state of a run, the ID for a prefix is free and the LSA for it is found if and only if
the two IDs are not in use in the wrong way. -/
theorem summary_ids_iff (start : ∀ id, s.lsdb none (s.summaryKey id) = none ∧
      s.lsdb (some area) (s.summaryKey id) = none)
    (events : List SummaryEvent) (run : events.foldl (summaryStep area) s = s') (p : PrefixIpv4) :
    s'.UniqueId area p ∧ s'.Found area p ↔ s'.Clear area p := by
  have placed : s.Placed area := by
    refine ⟨fun id => (start id).1, fun id q found => ?_⟩
    rw [(start id).2] at found
    cases found
  rw [← run]
  exact (placed.run events).clear_iff

/-! ## A host route -/

def tenSlash8 : PrefixIpv4 := ⟨0x0a000000, 8, by decide, by decide⟩
def tenSlash16 : PrefixIpv4 := ⟨0x0a000000, 16, by decide, by decide⟩

/-- The host `10.0.255.255`. -/
def hostPrefix : PrefixIpv4 := ⟨0x0a00ffff, 32, by decide, by decide⟩

def emptyRouter : Ospf 0 where
  routerId := 1
  now := 0
  minLsArrival := 1000
  oiflist := []
  externalRouting := fun _ => .default
  nbr := nofun
  lsa := fun _ => sampleLsa 0 0 0
  next := 0
  lsdb := fun _ _ => none
  maxageLsa := []
  lsaRefreshQueue := []
  lsaChecksum := fun _ _ _ => 0
  registerOpaqueLsa := fun _ => true

def twoSummaries : List SummaryEvent := [.originate tenSlash8 1, .originate hostPrefix 1]

theorem twoSummaries_host : (twoSummaries.foldl (summaryStep 0) emptyRouter).UniqueId 0 hostPrefix ∧
    (twoSummaries.foldl (summaryStep 0) emptyRouter).Found 0 hostPrefix := by
  refine (summary_ids_iff (fun _ => ⟨rfl, rfl⟩) twoSummaries rfl hostPrefix).mpr
    fun q found => ⟨fun q' found' => ?_, fun _ => found⟩
  have second : (twoSummaries.foldl (summaryStep 0) emptyRouter).lsdb (some 0)
      ((twoSummaries.foldl (summaryStep 0) emptyRouter).summaryKey hostPrefix.addr) = some 1 := by
    decide +kernel
  rw [second] at found'
  cases found'
  decide +kernel

/-- The LSA for `10.0.0.0/16` takes the place of the one for the host, and is then found for the
host. -/
theorem hostRoute_overwritten : let s := twoSummaries.foldl (summaryStep 0) emptyRouter
    let s' := s.ospfSummaryLsaOriginate tenSlash16 1 0
    s.lsdb (some 0) (s.summaryKey hostPrefix.addr) = some 1 ∧
    s.ospfLsaUniqueId (some 0) .summary tenSlash16 = hostPrefix.addr ∧
    s'.lsdb (some 0) (s'.summaryKey hostPrefix.addr) = some 2 ∧
    s'.ospfLsaLookupByPrefix (some 0) .summary hostPrefix 1 = some 2 := by
  decide +kernel

end Ospf

end Mp2mp.Ospfd
