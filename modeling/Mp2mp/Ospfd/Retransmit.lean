import Mathlib.Data.Set.Card
import Mp2mp.Ospfd.SeqWrap

/-!
# The retransmission counter

`retransmit_counter` is kept in the LSA, and the retransmission lists are kept by neighbour and key.
`Counting` is a router with the counter as the source stores it, and the operations below change
lists and counters as the source does.  The address of an LSA stands for one allocation of it, so
its key is fixed from the start; what else the router writes is arbitrary (`other`).

* `retransmit_counter_exact`: in every run the counter of an LSA is the number of neighbours whose
  list holds it, and `ospf_maxage_lsa_remover` removes no LSA that a list holds.
-/

namespace Mp2mp.Ospfd

open List Ospf
open Function (update update_self update_apply update_of_ne)

/-- A router with the `retransmit_counter` of every LSA. -/
structure Counting (n : Nat) where
  ospf : Ospf n
  counter : Ptr → Int

namespace Counting

variable {n : Nat} (c : Counting n)

/-- `ospf_ls_retransmit_lookup`. -/
def lookup (i : Fin n) (key : LsaKey) : Option Ptr :=
  (c.ospf.nbr i).lsRxmt key

def addToCounter (p : Ptr) (d : Int) : Counting n :=
  { c with counter := update c.counter p (c.counter p + d) }

def setNbr (i : Fin n) (nbr : Neighbor) : Counting n :=
  { c with ospf := { c.ospf with nbr := update c.ospf.nbr i nbr } }

/-- `ospf_ls_retransmit_add`. -/
def retransmitAdd (i : Fin n) (p : Ptr) : Counting n :=
  let nbr := c.ospf.nbr i
  let old := c.lookup i (c.ospf.lsa p).key
  if c.ospf.ospfLsaMoreRecent old (some p) < 0 then
    let c := match old with
      | some old => c.addToCounter old (-1)
      | none => c
    (c.addToCounter p 1).setNbr i (c.ospf.ospfLsRetransmitAdd nbr p)
  else c

/-- `ospf_ls_retransmit_delete`; the counter goes down whichever instance the list holds. -/
def retransmitDelete (i : Fin n) (p : Ptr) : Counting n :=
  if (c.lookup i (c.ospf.lsa p).key).isSome then
    (c.addToCounter p (-1)).setNbr i (c.ospf.ospfLsRetransmitDelete (c.ospf.nbr i) p)
  else c

/-- What the callers of `ospf_ls_retransmit_delete` do: they look the LSA up first. -/
def deleteIf (i : Fin n) (key : LsaKey) (test : Ptr → Bool) : Counting n :=
  match c.lookup i key with
  | some lsr => if test lsr then c.retransmitDelete i lsr else c
  | none => c

/-- The implied acknowledgement of `ospf_ls_upd`. -/
def impliedAck (i : Fin n) (key : LsaKey) : Counting n :=
  c.deleteIf i key fun _ => true

/-- `ospf_ls_ack`, for one header. -/
def ackHeader (i : Fin n) (header : LsaData) : Counting n :=
  c.deleteIf i header.key fun lsr =>
    (c.ospf.ospfLsaNew i header).ospfLsaMoreRecent (some lsr) (some c.ospf.next) = 0

/-- `ospf_ls_ack`. -/
def lsAck (i : Fin n) (headers : List LsaData) : Counting n :=
  if (c.ospf.nbr i).state < nsmExchange then c else headers.foldl (ackHeader · i) c

/-- `ospf_ls_retransmit_clear`; the walk over the tables meets `keys`. -/
def retransmitClear (i : Fin n) (keys : List LsaKey) : Counting n :=
  keys.foldl (impliedAck · i) c

/-- `ospf_ls_retransmit_delete_nbr_if`, for one neighbour. -/
def retransmitDeleteNbr (p : Ptr) (i : Fin n) : Counting n :=
  c.deleteIf i (c.ospf.lsa p).key fun lsr => (c.ospf.lsa lsr).seqnum = (c.ospf.lsa p).seqnum

/-- `ospf_ls_retransmit_delete_nbr_if` for some interfaces. -/
def retransmitDeleteNbrs (on : Interface → Bool) (p : Ptr) : Counting n :=
  let nbrs := (List.finRange n).filter fun i => (c.ospf.nbr i).oi.enable && on (c.ospf.nbr i).oi
  nbrs.foldl (retransmitDeleteNbr · p) c

def retransmitDeleteNbrArea (area : Nat) (p : Ptr) : Counting n :=
  c.retransmitDeleteNbrs (·.area = area) p

def retransmitDeleteNbrAs (p : Ptr) : Counting n :=
  c.retransmitDeleteNbrs (fun _ => true) p

/-- What the rest of the router may write. -/
def other (s : Ospf n) : Counting n :=
  { c with
    ospf := { s with
      nbr := fun i => { s.nbr i with lsRxmt := (c.ospf.nbr i).lsRxmt }
      lsa := fun p => { s.lsa p with key := (c.ospf.lsa p).key } } }

inductive RetransmitEvent (n : Nat) where
  | add (i : Fin n) (p : Ptr)
  | implied (i : Fin n) (key : LsaKey)
  | ack (i : Fin n) (headers : List LsaData)
  | deleteNbrArea (area : Nat) (p : Ptr)
  | deleteNbrAs (p : Ptr)
  | clear (i : Fin n) (keys : List LsaKey)
  | other (s : Ospf n)

def handle : RetransmitEvent n → Counting n
  | .add i p => c.retransmitAdd i p
  | .implied i key => c.impliedAck i key
  | .ack i headers => c.lsAck i headers
  | .deleteNbrArea area p => c.retransmitDeleteNbrArea area p
  | .deleteNbrAs p => c.retransmitDeleteNbrAs p
  | .clear i keys => c.retransmitClear i keys
  | .other s => c.other s

/-- `ospf_discard_from_db`. -/
def discardFromDb (scope : Option Nat) (p : Ptr) : Counting n :=
  match c.ospf.lsdb scope (c.ospf.lsa p).key with
  | none => c
  | some old =>
    let c := if (c.ospf.lsa old).key.type.isAs then c.retransmitDeleteNbrAs old
      else c.retransmitDeleteNbrArea (c.ospf.lsa old).area old
    c.other { c.ospf with
      lsaRefreshQueue := c.ospf.lsaRefreshQueue.erase old
      maxageLsa := c.ospf.maxageLsa.erase old }

/-- `ospf_lsa_refresh`, for an LSA that was aged prematurely. -/
def refreshed (refresh : List (RetransmitEvent n)) (p : Ptr) : Counting n :=
  (if (c.ospf.lsa p).prematureAge then refresh else []).foldl handle c

/-- `ospf_maxage_lsa_remover`, for one LSA whose refresh, if there is one, does `refresh`; as in
`Ospf.removeMaxage`, the LSA can still be read afterwards. -/
def removeMaxage (refresh : List (RetransmitEvent n)) (p : Ptr) : Counting n :=
  if p ∉ c.ospf.maxageLsa ∨ 0 < c.counter p then c
  else
    let lsdb := c.ospf.scope p
    let c := (c.refreshed refresh p).discardFromDb lsdb p
    { c with ospf := c.ospf.ospfLsdbDelete lsdb p }

/-- The list of neighbour `i` holds the LSA. -/
def Holds (i : Fin n) (p : Ptr) : Prop :=
  ∃ key, c.lookup i key = some p

/-- A database holds the LSA. -/
def InDb (scope : Option Nat) (p : Ptr) : Prop :=
  c.ospf.lsdb scope (c.ospf.lsa p).key = some p

/-- The interfaces whose neighbours `ospf_discard_from_db` takes an LSA off. -/
def discards (p : Ptr) (oi : Interface) : Bool :=
  oi.enable && ((c.ospf.lsa p).key.type.isAs || oi.area = (c.ospf.lsa p).area)

/-! ## Lists and counters -/

/-- Entries are filed under the key of their LSA, and the counters count them. -/
structure Exact : Prop where
  keyed : ∀ i key p, c.lookup i key = some p → (c.ospf.lsa p).key = key
  counter : ∀ p, c.counter p = c.ospf.retransmitCounter p

/-- One list has a new entry for one key, and the counters are moved by what it gains and loses. -/
structure Files (i : Fin n) (key : LsaKey) (new : Option Ptr) (c c' : Counting n) : Prop where
  lsa : c'.ospf.lsa = c.ospf.lsa
  lookup : ∀ j key', c'.lookup j key' = if j = i ∧ key' = key then new else c.lookup j key'
  counter : ∀ p, c'.counter p + (decide (c.lookup i key = some p)).toNat =
    c.counter p + (decide (new = some p)).toNat

variable {c} {c' : Counting n} {i : Fin n} {key : LsaKey} {p : Ptr} {new : Option Ptr}

theorem files_setNbr {nbr : Neighbor} {counter : Ptr → Int}
    (list : nbr.lsRxmt = update (c.ospf.nbr i).lsRxmt key new)
    (moved : ∀ p, counter p + (decide (c.lookup i key = some p)).toNat =
      c.counter p + (decide (new = some p)).toNat) :
    Files i key new c (setNbr ⟨c.ospf, counter⟩ i nbr) := by
  refine ⟨rfl, fun j key' => ?_, moved⟩
  rw [lookup, setNbr]
  dsimp only
  by_cases same : j = i
  · rw [same, update_self, list, update_apply]
    simp [lookup]
  · rw [update_of_ne same, if_neg fun both => same both.1, lookup]

theorem retransmitDelete_files (held : c.lookup i (c.ospf.lsa p).key = some p) :
    Files i (c.ospf.lsa p).key none c (c.retransmitDelete i p) := by
  rw [retransmitDelete, held, if_pos Option.isSome_some]
  apply files_setNbr
  · rw [lookup] at held
    rw [ospfLsRetransmitDelete, if_pos held]
  · intro q
    rw [held, update_apply]
    by_cases same : q = p
    · simp [same]
    · simp [same, Ne.symm same]

theorem retransmitAdd_files : Files i (c.ospf.lsa p).key (some p) c (c.retransmitAdd i p) ∨
    c.retransmitAdd i p = c := by
  rw [retransmitAdd]
  split
  · next recent =>
    left
    have filed : (c.ospf.ospfLsRetransmitAdd (c.ospf.nbr i) p).lsRxmt =
        update (c.ospf.nbr i).lsRxmt (c.ospf.lsa p).key (some p) := by
      rw [lookup] at recent
      rw [ospfLsRetransmitAdd, if_pos recent]
    cases old : c.lookup i (c.ospf.lsa p).key with
    | none =>
      apply files_setNbr filed
      intro q
      rw [old, update_apply]
      by_cases same : q = p
      · simp [same]
      · simp [same, Ne.symm same]
    | some r =>
      -- an instance is not more recent than itself
      have other : r ≠ p := by
        intro same
        simp [old, same, ospfLsaMoreRecent] at recent
      apply files_setNbr filed
      intro q
      rw [old]
      dsimp only [addToCounter]
      rw [update_apply, update_apply, update_apply, if_neg other.symm]
      by_cases same : q = p
      · simp [same, other]
      · by_cases replaced : q = r
        · subst replaced
          simp [same, Ne.symm same]
        · simp [same, replaced, Ne.symm same, Ne.symm replaced]
  · exact .inr rfl

theorem countP_add_of_agree {α : Type} [DecidableEq α] {l : List α} {a : α} {q r : α → Bool}
    (nodup : l.Nodup) (mem : a ∈ l) (agree : ∀ b ≠ a, r b = q b) :
    l.countP r + (q a).toNat = l.countP q + (r a).toNat := by
  have rest : (l.erase a).countP r = (l.erase a).countP q := by
    apply countP_congr
    intro b member
    rw [agree b (nodup.mem_erase_iff.mp member).1]
  have perm := perm_cons_erase mem
  rw [perm.countP_eq r, perm.countP_eq q, countP_cons, countP_cons, rest]
  cases q a <;> cases r a <;> simp

theorem Exact.files (exact : c.Exact) (files : Files i key new c c')
    (keyed : ∀ p, new = some p → (c.ospf.lsa p).key = key) : c'.Exact := by
  constructor
  · intro j key' p found
    rw [files.lookup] at found
    rw [files.lsa]
    split at found
    · next same => rw [same.2, keyed p found]
    · exact exact.keyed j key' p found
  · intro p
    have counted : c'.ospf.retransmitCounter p + _ = c.ospf.retransmitCounter p + _ :=
      countP_add_of_agree (nodup_finRange n) (mem_finRange i) fun j other => by
        change decide (c'.lookup j _ = some p) = decide (c.lookup j _ = some p)
        rw [files.lookup, if_neg fun both => other both.1, files.lsa]
    have before := exact.counter p
    have moved := files.counter p
    change _ + (decide (c.lookup i _ = some p)).toNat =
      _ + (decide (c'.lookup i _ = some p)).toNat at counted
    rw [files.lookup, files.lsa] at counted
    by_cases same : (c.ospf.lsa p).key = key
    · rw [if_pos ⟨rfl, same⟩, same] at counted
      omega
    · have unheld : c.lookup i key ≠ some p := fun held => same (exact.keyed i key p held)
      have unfiled : new ≠ some p := fun filed => same (keyed p filed)
      rw [decide_eq_false unheld, decide_eq_false unfiled] at moved
      rw [if_neg fun both => same both.2] at counted
      omega

theorem Exact.retransmitDelete (exact : c.Exact) (held : c.lookup i key = some p) :
    (c.retransmitDelete i p).Exact := by
  obtain rfl := exact.keyed i key p held
  exact exact.files (retransmitDelete_files held) nofun

theorem Exact.retransmitAdd (exact : c.Exact) : (c.retransmitAdd i p).Exact := by
  rcases retransmitAdd_files (c := c) (i := i) (p := p) with files | same
  · apply exact.files files
    intro q new
    rw [Option.some.inj new]
  · rw [same]
    exact exact

section

variable {P : Counting n → Prop} (keeps : P c)
  (delete : ∀ {c i key p}, P c → c.lookup i key = some p → P (c.retransmitDelete i p))
include keeps delete

theorem deleteIf_keeps (test : Ptr → Bool) : P (c.deleteIf i key test) := by
  rw [deleteIf]
  split
  · next lsr held =>
    split
    · exact delete keeps held
    · exact keeps
  · exact keeps

theorem retransmitDeleteNbr_keeps (l : List (Fin n)) : P (l.foldl (retransmitDeleteNbr · p) c) :=
  foldlRecOn _ _ keeps fun _ keeps _ _ => deleteIf_keeps keeps delete _

/-- What adding an entry, deleting one and the rest of the router keep is kept by an event. -/
theorem handle_keeps (e : RetransmitEvent n) (add : ∀ i p, e = .add i p → P (c.retransmitAdd i p))
    (other : ∀ s, P (c.other s)) : P (c.handle e) := by
  cases e with
  | add i p => exact add i p rfl
  | implied i key => exact deleteIf_keeps keeps delete _
  | ack i headers =>
    rw [handle, lsAck]
    split
    · exact keeps
    · exact foldlRecOn _ _ keeps fun _ keeps _ _ => deleteIf_keeps keeps delete _
  | deleteNbrArea area p => exact retransmitDeleteNbr_keeps keeps delete _
  | deleteNbrAs p => exact retransmitDeleteNbr_keeps keeps delete _
  | clear i keys => exact foldlRecOn _ _ keeps fun _ keeps _ _ => deleteIf_keeps keeps delete _
  | other s => exact other s

end

theorem Exact.handle (exact : c.Exact) (e : RetransmitEvent n) : (c.handle e).Exact := by
  apply handle_keeps exact retransmitDelete
  · intro i p _
    exact exact.retransmitAdd
  · intro s
    exact ⟨exact.keyed, exact.counter⟩

theorem Exact.run (exact : c.Exact) (events : List (RetransmitEvent n)) :
    (events.foldl Counting.handle c).Exact :=
  foldlRecOn _ _ exact fun _ exact e _ => exact.handle e

theorem Exact.holds_iff (exact : c.Exact) : c.Holds i p ↔ c.lookup i (c.ospf.lsa p).key = some p := by
  constructor
  · intro ⟨key, held⟩
    rw [exact.keyed i key p held, held]
  · intro held
    exact ⟨_, held⟩

theorem Exact.counter_eq_ncard (exact : c.Exact) : c.counter p = {i | c.Holds i p}.ncard := by
  have held : {i | c.Holds i p} =
      ((List.finRange n).filter fun i => c.lookup i (c.ospf.lsa p).key = some p).toFinset := by
    ext i
    simp [exact.holds_iff]
  rw [exact.counter, held, Set.ncard_coe_finset,
    toFinset_card_of_nodup ((nodup_finRange n).filter _), ← countP_eq_length_filter]
  rfl

/-! ## The removal of an LSA -/

/-- A neighbour that does not hold the LSA. -/
structure Free (i : Fin n) (p : Ptr) (c : Counting n) : Prop where
  exact : c.Exact
  free : ¬c.Holds i p

theorem Free.retransmitDelete {j : Fin n} {q : Ptr} (free : Free i p c)
    (held : c.lookup j key = some q) : Free i p (c.retransmitDelete j q) := by
  refine ⟨free.exact.retransmitDelete held, fun ⟨key', holds⟩ => free.free ⟨key', ?_⟩⟩
  obtain rfl := free.exact.keyed j key q held
  rw [(retransmitDelete_files held).lookup] at holds
  split at holds
  · cases holds
  · exact holds

theorem Free.other (free : Free i p c) (s : Ospf n) : Free i p (c.other s) :=
  ⟨⟨free.exact.keyed, free.exact.counter⟩, free.free⟩

theorem Free.handle (free : Free i p c) {e : RetransmitEvent n} (event : e ≠ .add i p) :
    Free i p (c.handle e) := by
  apply handle_keeps free retransmitDelete
  · intro j q added
    refine ⟨free.exact.retransmitAdd, fun ⟨key, holds⟩ => free.free ⟨key, ?_⟩⟩
    rcases retransmitAdd_files (c := c) (i := j) (p := q) with files | same
    · rw [files.lookup] at holds
      split at holds
      · next same =>
        rw [added, same.1, Option.some.inj holds] at event
        exact (event rfl).elim
      · exact holds
    · rw [same] at holds
      exact holds
  · exact free.other

/-- The search through some neighbours takes the LSA off the list of each of them. -/
theorem Exact.free_of_searched (exact : c.Exact) {l : List (Fin n)} (mem : i ∈ l) :
    Free i p (l.foldl (retransmitDeleteNbr · p) c) := by
  obtain ⟨before, after, rfl⟩ := append_of_mem mem
  have reached : (before.foldl (retransmitDeleteNbr · p) c).Exact :=
    retransmitDeleteNbr_keeps exact Exact.retransmitDelete _
  rw [foldl_append, foldl_cons]
  apply retransmitDeleteNbr_keeps _ Free.retransmitDelete
  generalize before.foldl (retransmitDeleteNbr · p) c = c at reached
  rw [retransmitDeleteNbr, deleteIf]
  cases held : c.lookup i (c.ospf.lsa p).key with
  | none =>
    refine ⟨reached, fun holds => ?_⟩
    cases held.symm.trans (reached.holds_iff.mp holds)
  | some lsr =>
    by_cases same : lsr = p
    · subst same
      dsimp only
      rw [decide_eq_true rfl, if_pos rfl]
      refine ⟨reached.retransmitDelete held, fun holds => ?_⟩
      have files := retransmitDelete_files held
      have gone := (reached.retransmitDelete held).holds_iff.mp holds
      rw [files.lookup, files.lsa, if_pos ⟨rfl, rfl⟩] at gone
      cases gone
    · have free : Free i p c := by
        refine ⟨reached, fun holds => same ?_⟩
        exact Option.some.inj (held.symm.trans (reached.holds_iff.mp holds))
      dsimp only
      split
      · exact free.retransmitDelete held
      · exact free

theorem Free.refreshed (free : Free i p c) {refresh : List (RetransmitEvent n)}
    (unadded : .add i p ∉ refresh) : Free i p (c.refreshed refresh p) := by
  apply foldlRecOn _ _ free
  intro c free e mem
  apply free.handle
  intro added
  subst added
  split at mem
  · exact unadded mem
  · cases mem

theorem Exact.free_of_discarded (exact : c.Exact) {scope : Option Nat} (stored : c.InDb scope p)
    (freed : Free i p c ∨ c.discards p (c.ospf.nbr i).oi) : Free i p (c.discardFromDb scope p) := by
  have searched {on : Interface → Bool} (reached : c.discards p (c.ospf.nbr i).oi →
      (c.ospf.nbr i).oi.enable && on (c.ospf.nbr i).oi) : Free i p (c.retransmitDeleteNbrs on p) := by
    rcases freed with free | discards
    · exact retransmitDeleteNbr_keeps free Free.retransmitDelete _
    · exact exact.free_of_searched (mem_filter.mpr ⟨mem_finRange i, reached discards⟩)
  rw [discardFromDb, stored]
  apply Free.other
  split
  · next as => exact searched fun discards => by simpa [Counting.discards, as] using discards
  · next area => exact searched fun discards => by simpa [Counting.discards, area] using discards

theorem Exact.free_of_removed (exact : c.Exact) {refresh : List (RetransmitEvent n)}
    (added : .add i p ∈ refresh →
      (c.refreshed refresh p).discards p ((c.refreshed refresh p).ospf.nbr i).oi)
    (before : c.InDb (c.ospf.scope p) p) (stored : (c.refreshed refresh p).InDb (c.ospf.scope p) p)
    (removed : ¬(c.removeMaxage refresh p).InDb (c.ospf.scope p) p) :
    ¬c.Holds i p ∧ ¬(c.removeMaxage refresh p).Holds i p := by
  rw [removeMaxage] at removed ⊢
  split at removed
  · exact (removed before).elim
  · next turn =>
    have idle : {i | c.Holds i p}.ncard = 0 := by
      have counted := exact.counter_eq_ncard (p := p)
      have passed : ¬0 < c.counter p := fun busy => turn (.inr busy)
      omega
    have unheld : ¬c.Holds i p := by
      rw [Set.ncard_eq_zero] at idle
      exact Set.eq_empty_iff_forall_notMem.mp idle i
    have freed : Free i p (c.refreshed refresh p) ∨
        (c.refreshed refresh p).discards p ((c.refreshed refresh p).ospf.nbr i).oi := by
      by_cases mem : .add i p ∈ refresh
      · exact .inr (added mem)
      · exact .inl (Free.refreshed ⟨exact, unheld⟩ mem)
    have settled : (c.refreshed refresh p).Exact := exact.run _
    have gone := (settled.free_of_discarded stored freed).free
    have kept (s : Ospf n) (scope : Option Nat) : (s.ospfLsdbDelete scope p).nbr = s.nbr := by
      rw [ospfLsdbDelete]
      split <;> rfl
    rw [if_neg turn]
    refine ⟨unheld, fun held => gone ?_⟩
    obtain ⟨key, held⟩ := held
    refine ⟨key, ?_⟩
    rw [← held, lookup, lookup, kept]

/-- The counter of every LSA is the number of neighbours whose list holds it; and an LSA that the
remover takes out of its database is held neither when its turn comes nor when it is taken out,
where the refresh that may come in between floods it to neighbours that the removal searches. -/
theorem retransmit_counter_exact {c₀ : Counting n} (empty : ∀ i key, c₀.lookup i key = none)
    (zero : ∀ p, c₀.counter p = 0) (events : List (RetransmitEvent n)) :
    let c := events.foldl handle c₀
    (∀ p, c.counter p = {i | c.Holds i p}.ncard) ∧
    ∀ p refresh,
      (∀ i, .add i p ∈ refresh →
        (c.refreshed refresh p).discards p ((c.refreshed refresh p).ospf.nbr i).oi) →
      c.InDb (c.ospf.scope p) p → (c.refreshed refresh p).InDb (c.ospf.scope p) p →
      ¬(c.removeMaxage refresh p).InDb (c.ospf.scope p) p →
      ∀ i, ¬c.Holds i p ∧ ¬(c.removeMaxage refresh p).Holds i p := by
  have start : c₀.Exact := by
    constructor
    · intro i key p held
      cases (empty i key).symm.trans held
    · intro p
      have counted : c₀.ospf.retransmitCounter p = 0 := by
        apply countP_eq_zero.mpr
        intro i _ held
        cases (empty i _).symm.trans (of_decide_eq_true held)
      rw [zero, counted]
      rfl
  have exact := start.run events
  constructor
  · intro p
    exact exact.counter_eq_ncard
  · intro p refresh added before stored removed i
    exact exact.free_of_removed (added i) before stored removed

/-- A router with the MaxAge LSA 1 in its database. -/
def sampleCounting : Counting 2 where
  ospf := { Ospf.sampleRouter none 6 ospfLsaMaxage with
    lsdb := fun _ _ => some 1
    maxageLsa := [1] }
  counter := 0

/-- The LSA is sent to both neighbours, and one after the other acknowledges it. -/
theorem sampleCounting_exact :
    let sent : List (RetransmitEvent 2) := [.add 0 1, .add 1 1, .implied 0 sampleKey]
    let c := sent.foldl handle sampleCounting
    let c' := (sent ++ [RetransmitEvent.implied 1 sampleKey]).foldl handle sampleCounting
    c.counter 1 = 1 ∧ c.counter 1 = {i | c.Holds i 1}.ncard ∧
    ∀ i, ¬c'.Holds i 1 ∧ ¬(c'.removeMaxage [] 1).Holds i 1 := by
  have empty (i : Fin 2) (key : LsaKey) : sampleCounting.lookup i key = none := by
    simp [lookup, sampleCounting, sampleRouter]
  refine ⟨by decide, (retransmit_counter_exact empty (fun _ => rfl) _).1 1, ?_⟩
  apply (retransmit_counter_exact empty (fun _ => rfl) _).2 1 []
  · intro i mem
    cases mem
  · rfl
  · rfl
  · show ¬_ = _
    decide

end Counting

end Mp2mp.Ospfd
