import Mp2mp.Lib.Prefix

/-!
# A prefix-list line and its negation

`vty_prefix_list_install` and `vty_prefix_list_uninstall` of `lib/plist.c` on the entries of one
list.  The text of a line is parsed already; a list that does not exist has no entries.

* `negation_iff`: the negation of a line removes the entry that the line installed, unless the
  line has both a `ge` and an `le` of the length of an address.
-/

namespace Mp2mp.Lib

open List

inductive Afi
  | ip
  | ip6
deriving DecidableEq, Repr

/-- `IPV4_MAX_BITLEN`, `IPV6_MAX_BITLEN` -/
def Afi.maxBitlen : Afi → Nat
  | .ip => 32
  | .ip6 => 128

inductive PrefixListType
  | deny
  | permit
deriving DecidableEq, Repr

structure PrefixListEntry where
  seq : Int
  type : PrefixListType
  net : Prefix
  ge : Int
  le : Int
deriving DecidableEq, Repr

open PrefixListEntry

/-- The arguments of both functions; a line for `any` has no prefix. -/
structure PrefixListLine where
  seq : Option Int
  type : PrefixListType
  net : Option Prefix
  ge : Option Int
  le : Option Int

/-- The messages of a `CMD_WARNING`. -/
inductive PrefixListWarning
  | invalidPrefixRange
  | entryExists (dup : PrefixListEntry)
  | cantFind
deriving DecidableEq, Repr

variable (afi : Afi) (plist : List PrefixListEntry) (new : PrefixListEntry) (line : PrefixListLine)

/-- `prefix_new_seq_get`, in the arithmetic of `int`. -/
def prefixNewSeqGet : Int :=
  let maxseq := (plist.map seq).foldl max 0
  (maxseq.tdiv 5 * 5 + 5).bmod (2 ^ 32)

/-- The number of an entry; -1 stands for the next one. -/
def PrefixListEntry.number : Int := if new.seq = -1 then prefixNewSeqGet plist else new.seq

def PrefixListEntry.SamePolicy (pentry : PrefixListEntry) : Prop :=
  pentry.net = new.net ∧ pentry.type = new.type ∧ pentry.le = new.le ∧ pentry.ge = new.ge

instance (pentry : PrefixListEntry) : Decidable (new.SamePolicy pentry) :=
  inferInstanceAs (Decidable (_ ∧ _))

def prefixEntryDupCheck : Option PrefixListEntry :=
  plist.find? fun pentry => new.SamePolicy pentry ∧ pentry.seq ≠ new.number plist

/-- The list without the entry that an entry of this number replaces. -/
def prefixListReplace (seq : Int) : List PrefixListEntry :=
  plist.eraseP fun pentry => pentry.seq = seq

def prefixListEntryAdd : List PrefixListEntry :=
  let seq := new.number plist
  let rest := prefixListReplace plist seq
  rest.takeWhile (fun point => point.seq < seq) ++
    { new with seq } :: rest.dropWhile fun point => point.seq < seq

/-- The entry as the line is typed. -/
def PrefixListLine.entry : PrefixListEntry :=
  let seqnum := line.seq.getD (-1)
  match line.net with
  | none => ⟨seqnum, line.type, ⟨0, replicate (afi.maxBitlen / 8) 0⟩, 0, afi.maxBitlen⟩
  | some p => ⟨seqnum, line.type, p, line.ge.getD 0, line.le.getD 0⟩

/-- An upper bound that bounds nothing is not stored beside a lower one. -/
def PrefixListEntry.stored : PrefixListEntry :=
  if new.ge ≠ 0 ∧ new.le = afi.maxBitlen then { new with le := 0 } else new

def vtyPrefixListInstall : Except PrefixListWarning (List PrefixListEntry) :=
  let typed := line.entry afi
  if typed.ge ≠ 0 ∧ typed.ge ≤ typed.net.prefixlen then .error .invalidPrefixRange
  else if typed.le ≠ 0 ∧ typed.le ≤ typed.net.prefixlen then .error .invalidPrefixRange
  else if typed.le ≠ 0 ∧ typed.ge > typed.le then .error .invalidPrefixRange
  else
    let pentry := typed.stored afi
    match prefixEntryDupCheck plist pentry with
    | some dup => .error (.entryExists dup)
    | none => .ok (prefixListEntryAdd plist pentry)

/-- The test of `prefix_list_entry_lookup`. -/
def PrefixListEntry.found (pentry : PrefixListEntry) : Bool :=
  new.SamePolicy pentry ∧ ¬(new.seq ≥ 0 ∧ pentry.seq ≠ new.seq)

def vtyPrefixListUninstall : Except PrefixListWarning (List PrefixListEntry) :=
  if plist.any (line.entry afi).found then .ok (plist.eraseP (line.entry afi).found)
  else .error .cantFind

/-- The line has a lower bound, and an upper one that bounds nothing. -/
def PrefixListLine.Unbounded : Prop :=
  line.net ≠ none ∧ line.ge.getD 0 ≠ 0 ∧ line.le = some (afi.maxBitlen : Int)

variable {afi plist new line} {plist' : List PrefixListEntry}

theorem install_ok (installed : vtyPrefixListInstall afi plist line = .ok plist') :
    prefixEntryDupCheck plist ((line.entry afi).stored afi) = none ∧
      plist' = prefixListEntryAdd plist ((line.entry afi).stored afi) := by
  rw [vtyPrefixListInstall] at installed
  split_ifs at installed
  dsimp only at installed
  split at installed
  · cases installed
  · next unique =>
    cases installed
    exact ⟨unique, rfl⟩

/-- The lookup passes the entries before a new one, and finds it. -/
theorem eraseP_entryAdd (unique : prefixEntryDupCheck plist new = none) :
    (prefixListEntryAdd plist new).any new.found ∧
      (prefixListEntryAdd plist new).eraseP new.found =
        prefixListReplace plist (new.number plist) := by
  have fresh : new.found { new with seq := new.number plist } := by
    simp only [found, PrefixListEntry.SamePolicy, decide_eq_true_eq]
    exact ⟨⟨trivial, trivial, trivial, trivial⟩, fun other => other.2 (if_neg (by omega))⟩
  refine ⟨any_eq_true.mpr ⟨_, mem_append_right _ mem_cons_self, fresh⟩, ?_⟩
  rw [prefixListEntryAdd, eraseP_append_right, eraseP_cons_of_pos fresh, takeWhile_append_dropWhile]
  intro pentry before found
  have earlier := mem_takeWhile_imp before
  have held : pentry ∈ plist := mem_of_mem_eraseP ((takeWhile_sublist _).subset before)
  have same := find?_eq_none.mp unique pentry held
  simp only [PrefixListEntry.found, decide_eq_true_eq] at earlier same found
  exact same ⟨found.1, earlier.ne⟩

theorem entryAdd_perm : prefixListEntryAdd plist new ~
    { new with seq := new.number plist } :: prefixListReplace plist (new.number plist) := by
  rw [prefixListEntryAdd]
  apply perm_middle.trans
  rw [takeWhile_append_dropWhile]

theorem number_stored : (new.stored afi).number plist = new.number plist := by
  unfold stored
  split <;> rfl

theorem stored_eq_of_bounded (bounded : ¬line.Unbounded afi) :
    (line.entry afi).stored afi = line.entry afi := by
  refine if_neg fun ⟨ge, le⟩ => bounded ?_
  unfold PrefixListLine.entry at ge le
  split at ge
  · contradiction
  · next given =>
    refine ⟨by simp [given], ge, ?_⟩
    cases h : line.le with
    | none => cases afi <;> simp [h, given, Afi.maxBitlen] at le
    | some n => simpa [h, given] using le

theorem stored_of_unbounded (unbounded : line.Unbounded afi) :
    ((line.entry afi).stored afi).le = 0 ∧ (line.entry afi).le ≠ 0 := by
  obtain ⟨given, ge, le⟩ := unbounded
  obtain ⟨p, net⟩ := Option.ne_none_iff_exists'.mp given
  have bits : afi.maxBitlen ≠ 0 := by cases afi <;> decide
  simp [stored, PrefixListLine.entry, net, ge, le, bits]

/-- The list that the new entry was put into is what its removal leaves. -/
theorem negation_iff (installed : vtyPrefixListInstall afi plist line = .ok plist') :
    vtyPrefixListUninstall afi plist' line =
        .ok (prefixListReplace plist ((line.entry afi).number plist)) ↔
      ¬line.Unbounded afi := by
  obtain ⟨unique, rfl⟩ := install_ok installed
  constructor
  · intro undone unbounded
    obtain ⟨stored, asked⟩ := stored_of_unbounded unbounded
    rw [vtyPrefixListUninstall] at undone
    split at undone
    · next any =>
      obtain ⟨x, held, hit⟩ := any_eq_true.mp any
      obtain ⟨removed, l₁, l₂, -, found, whole, rest⟩ := exists_of_eraseP held hit
      rw [rest] at undone
      have perm := entryAdd_perm.symm.trans ((Perm.of_eq whole).trans perm_middle)
      rw [Except.ok.inj undone, number_stored] at perm
      have same : [_] ~ [removed] := (perm_append_right_iff (prefixListReplace plist _)).mp perm
      rw [← singleton_perm_singleton.mp same, PrefixListEntry.found, decide_eq_true_eq] at found
      exact asked (found.1.2.2.1.symm.trans stored)
    · cases undone
  · intro bounded
    rw [stored_eq_of_bounded bounded] at unique ⊢
    obtain ⟨some, erased⟩ := eraseP_entryAdd unique
    rw [vtyPrefixListUninstall, if_pos some, erased]

/-- `permit 10.0.0.0/8 ge 16`, with an upper bound or none. -/
def geLine (le : Option Int) : PrefixListLine :=
  ⟨none, .permit, some ⟨8, [10, 0, 0, 0]⟩, some 16, le⟩

def geList : List PrefixListEntry := [⟨5, .permit, ⟨8, [10, 0, 0, 0]⟩, 16, 0⟩]

def denyList : List PrefixListEntry := [⟨5, .deny, ⟨16, [11, 1, 0, 0]⟩, 0, 0⟩]

theorem geLine_negated : vtyPrefixListUninstall .ip
    (denyList ++ [⟨10, .permit, ⟨8, [10, 0, 0, 0]⟩, 16, 0⟩]) (geLine none) = .ok denyList := by
  have installed : vtyPrefixListInstall .ip denyList (geLine none) =
      .ok (denyList ++ [⟨10, .permit, ⟨8, [10, 0, 0, 0]⟩, 16, 0⟩]) := rfl
  exact (negation_iff installed).mpr nofun

/-- With `le 32` the line installs an entry that it cannot take back. -/
theorem geLine_stays : vtyPrefixListInstall .ip [] (geLine (some 32)) = .ok geList ∧
    vtyPrefixListUninstall .ip geList (geLine (some 32)) = .error .cantFind :=
  ⟨rfl, rfl⟩

end Mp2mp.Lib
