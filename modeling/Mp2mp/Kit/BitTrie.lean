import Mathlib

/-!
# Linked tries over bit strings

A path-compressed binary trie whose nodes are known by their address: each node has a key, two
links and a pointer to its parent.  Whatever writes the nodes, the trie is only observed through
these four functions.

* `Ok`: links lead from a key to a longer one on the side of its next bit, and the search for a
  key that is present never leaves the trie.
* `Ok.inj`: no two nodes have one key.
* `Ok.graft`: a node is put in place of a link; `Ok.splice`: a node with at most one child is
  taken out.
* `Ok.least_at`, `Climb.right`, `Climb.up`: the next node in the order of the keys, on the way
  down and on the way up.
-/

namespace Mp2mp.Kit.BitTrie

open List Option

variable {k k' kn kx : List Bool} {b : Bool}

/-- A linked trie; a node that is not present has no key. -/
structure Trie (ι : Type) where
  key : ι → Option (List Bool)
  link : ι → Bool → Option ι
  parent : ι → Option ι
  top : Option ι

variable {ι : Type} {t t' : Trie ι} {n : ι}

/-- Keys grow along links, parents mirror links, and the search for a present key succeeds. -/
structure Ok (t : Trie ι) : Prop where
  child : ∀ {n b c k}, t.key n = some k → t.link n b = some c →
    t.parent c = some n ∧ ∃ k', t.key c = some k' ∧ k ++ [b] <+: k'
  search : ∀ {c n b k k'}, t.key c = some k → t.key n = some k' → k ++ [b] <+: k' →
    ∃ d kd, t.link c b = some d ∧ t.key d = some kd ∧ kd <+: k'
  parent : ∀ {c k q}, t.key c = some k → t.parent c = some q →
    (∃ kq, t.key q = some kq) ∧ ∃ b, t.link q b = some c
  top : ∀ {d}, t.top = some d → t.parent d = none ∧ ∃ k, t.key d = some k
  root : ∀ {c k}, t.key c = some k → t.parent c = none → t.top = some c
  least : ∀ {n k}, t.key n = some k → ∃ d kd, t.top = some d ∧ t.key d = some kd ∧ kd <+: k

/-! ## Bit strings -/

theorem exists_bit (h : k <+: k') (hne : k ≠ k') : ∃ b, k ++ [b] <+: k' := by
  obtain ⟨r, rfl⟩ := h
  cases r with
  | nil => exact absurd (append_nil k).symm hne
  | cons b r => exact ⟨b, r, by simp⟩

theorem prefix_of_bit (h : k ++ [b] <+: k') : k <+: k' :=
  (prefix_append k [b]).trans h

theorem length_lt_of_bit (h : k ++ [b] <+: k') : k.length < k'.length := by
  have := h.length_le
  simp only [length_append, length_singleton] at this
  omega

theorem bit_unique {b' : Bool} (h : k ++ [b] <+: k') (h' : k ++ [b'] <+: k') : b = b' := by
  obtain ⟨r, hr⟩ := h
  obtain ⟨r', hr'⟩ := h'
  have heq : k ++ [b] ++ r = k ++ [b'] ++ r' := hr.trans hr'.symm
  simp only [append_assoc, append_cancel_left_eq, singleton_append, List.cons.injEq] at heq
  exact heq.1

/-- Two prefixes of one key: one goes on to the other, or they are the same. -/
theorem prefix_cases {k'' : List Bool} (h : k <+: k'') (h' : k' <+: k'') :
    k = k' ∨ (∃ b, k ++ [b] <+: k') ∨ ∃ b, k' ++ [b] <+: k := by
  by_cases hne : k = k'
  · exact .inl hne
  · rcases prefix_or_prefix_of_prefix h h' with hp | hp
    · exact .inr (.inl (exists_bit hp hne))
    · exact .inr (.inr (exists_bit hp (Ne.symm hne)))

/-- A start that two keys share ends where they part. -/
theorem prefix_of_fork {g k₁ k₂ : List Bool} (h₁ : k <+: k₁) (h₂ : k <+: k₂)
    (hg₁ : g ++ [b] <+: k₁) (hg₂ : g ++ [!b] <+: k₂) : k <+: g := by
  rcases prefix_or_prefix_of_prefix h₁ (prefix_of_bit hg₁) with hp | hp
  · exact hp
  · by_cases hne : g = k
    · rw [hne]
    · obtain ⟨c, hc⟩ := exists_bit hp hne
      have hb := bit_unique (hc.trans h₁) hg₁
      have hnb := bit_unique (hc.trans h₂) hg₂
      rw [hb] at hnb
      cases b <;> cases hnb

section

variable (h : Ok t)

include h

theorem Ok.up {c q : ι} (hc : t.key c = some k) (hq : t.parent c = some q) :
    ∃ kq b, t.key q = some kq ∧ t.link q b = some c ∧ kq ++ [b] <+: k := by
  obtain ⟨⟨kq, hkq⟩, b, hlink⟩ := h.parent hc hq
  obtain ⟨-, k', hk', hp⟩ := h.child hkq hlink
  rw [hc] at hk'
  cases hk'
  exact ⟨kq, b, hkq, hlink, hp⟩

theorem Ok.inj {m : ι} (hm : t.key m = some k) (hn : t.key n = some k) : m = n := by
  -- by induction on the length of the key, as parents have shorter keys
  induction hlen : k.length using Nat.strong_induction_on generalizing m n k with
  | _ len ih =>
    cases hpm : t.parent m with
    | none =>
      have htop := h.root hm hpm
      obtain ⟨d, kd, hd, hkd, hp⟩ := h.least hn
      rw [htop] at hd
      cases hd
      cases hpn : t.parent n with
      | none => exact some.inj (htop.symm.trans (h.root hn hpn))
      | some q =>
        obtain ⟨kq, b, hkq, -, hq⟩ := h.up hn hpn
        obtain ⟨d, kd', hd, hkd', hp'⟩ := h.least hkq
        rw [htop] at hd
        cases hd
        rw [hm] at hkd'
        cases hkd'
        have := hp'.length_le
        have := length_lt_of_bit hq
        omega
    | some q =>
      obtain ⟨kq, b, hkq, hlink, hq⟩ := h.up hm hpm
      obtain ⟨d, kd, hd, hkd, hp⟩ := h.search hkq hn hq
      rw [hlink] at hd
      cases hd
      cases hpn : t.parent n with
      | none =>
        have htop := h.root hn hpn
        obtain ⟨d, kd', hd, hkd', hp'⟩ := h.least hkq
        rw [htop] at hd
        cases hd
        rw [hn] at hkd'
        cases hkd'
        have := hp'.length_le
        have := length_lt_of_bit hq
        omega
      | some q' =>
        obtain ⟨kq', b', hkq', hlink', hq'⟩ := h.up hn hpn
        rcases prefix_cases (prefix_of_bit hq) (prefix_of_bit hq') with heq | ⟨c, hc⟩ | ⟨c, hc⟩
        · subst heq
          have hqq := ih kq.length (hlen ▸ length_lt_of_bit hq) hkq hkq' rfl
          subst hqq
          rw [bit_unique hq hq', hlink'] at hlink
          exact (some.inj hlink).symm
        · -- the search for the longer parent would end at a node with the whole key
          obtain ⟨e, ke, he, hke, hpe⟩ := h.search hkq hkq' hc
          rw [bit_unique (hc.trans (prefix_of_bit hq')) hq, hlink] at he
          cases he
          rw [hm] at hke
          cases hke
          have := hpe.length_le
          have := length_lt_of_bit hq'
          omega
        · obtain ⟨e, ke, he, hke, hpe⟩ := h.search hkq' hkq hc
          rw [bit_unique (hc.trans (prefix_of_bit hq)) hq', hlink'] at he
          cases he
          rw [hn] at hke
          cases hke
          have := hpe.length_le
          have := length_lt_of_bit hq
          omega

end

/-! ## Places -/

/-- Where a node can hang. -/
inductive Place (ι : Type)
  | top
  | link (n : ι) (b : Bool)
deriving DecidableEq

/-- What hangs there. -/
def Trie.at (t : Trie ι) : Place ι → Option ι
  | .top => t.top
  | .link n b => t.link n b

/-- The parent of what hangs there. -/
def Place.owner : Place ι → Option ι
  | .top => none
  | .link n _ => some n

/-- The search for `k` comes by this place. -/
def OnPath (t : Trie ι) (k : List Bool) : Place ι → Prop
  | .top => True
  | .link n b => ∃ kn, t.key n = some kn ∧ kn ++ [b] <+: k

variable {p q : Place ι}

section

variable (h : Ok t)

include h

/-- Where a node hangs, its parent is the owner. -/
theorem Ok.owner (hp : OnPath t k p) {x : ι} (hx : t.at p = some x) :
    t.parent x = p.owner ∧ ∃ kx, t.key x = some kx ∧ OnPath t kx p := by
  cases p with
  | top =>
    obtain ⟨hparent, kx, hkx⟩ := h.top hx
    exact ⟨hparent, kx, hkx, trivial⟩
  | link n b =>
    obtain ⟨kn, hkn, -⟩ := hp
    obtain ⟨hparent, kx, hkx, hb⟩ := h.child hkn hx
    exact ⟨hparent, kx, hkx, kn, hkn, hb⟩

theorem Ok.hangs (hn : t.key n = some k) : ∃ p, OnPath t k p ∧ t.at p = some n := by
  cases hparent : t.parent n with
  | none => exact ⟨.top, trivial, h.root hn hparent⟩
  | some q =>
    obtain ⟨kq, b, hkq, hlink, hb⟩ := h.up hn hparent
    exact ⟨.link q b, ⟨kq, hkq, hb⟩, hlink⟩

theorem Ok.place_unique {p' : Place ι} (hp : OnPath t k p)
    (hp' : OnPath t k' p') {x : ι} (hx : t.at p = some x) (hx' : t.at p' = some x) : p = p' := by
  have howner := (h.owner hp hx).1.symm.trans (h.owner hp' hx').1
  cases p with
  | top =>
    cases p' with
    | top => rfl
    | link n b => cases howner
  | link n b =>
    cases p' with
    | top => cases howner
    | link n' b' =>
      cases howner
      obtain ⟨kn, hkn, -⟩ := hp
      obtain ⟨-, kx, hkx, hb⟩ := h.child hkn hx
      obtain ⟨-, kx', hkx', hb'⟩ := h.child hkn hx'
      rw [hkx] at hkx'
      cases hkx'
      rw [bit_unique hb hb']

/-- What the search finds at a place on its way to a key that is present. -/
theorem Ok.search_at (hp : OnPath t k p)
    (hn : t.key n = some k) : ∃ d kd, t.at p = some d ∧ t.key d = some kd ∧ kd <+: k := by
  cases p with
  | top => exact h.least hn
  | link m b =>
    obtain ⟨km, hkm, hb⟩ := hp
    exact h.search hkm hn hb

end

theorem Ok.of_places (owner : ∀ p c k, OnPath t k p → t.at p = some c →
      t.parent c = p.owner ∧ ∃ kc, t.key c = some kc ∧ OnPath t kc p)
    (search : ∀ p n k, OnPath t k p → t.key n = some k →
      ∃ d kd, t.at p = some d ∧ t.key d = some kd ∧ kd <+: k)
    (hangs : ∀ n k, t.key n = some k → ∃ p, OnPath t k p ∧ t.at p = some n) : Ok t where
  child := by
    intro n b c k hn hlink
    obtain ⟨hparent, kc, hkc, kn, hkn, hb⟩ :=
      owner (.link n b) c (k ++ [b]) ⟨k, hn, prefix_refl _⟩ hlink
    rw [hn] at hkn
    cases hkn
    exact ⟨hparent, kc, hkc, hb⟩
  search := fun hc hn hb => search (.link _ _) _ _ ⟨_, hc, hb⟩ hn
  parent := by
    intro c k q hc hq
    obtain ⟨p, hp, hat⟩ := hangs c k hc
    have howner := hq.symm.trans (owner p c k hp hat).1
    cases p with
    | top => cases howner
    | link n b =>
      cases howner
      obtain ⟨kn, hkn, -⟩ := hp
      exact ⟨⟨kn, hkn⟩, b, hat⟩
  top := by
    intro d hd
    obtain ⟨hparent, k, hk, -⟩ := owner .top d [] trivial hd
    exact ⟨hparent, k, hk⟩
  root := by
    intro c k hc hparent
    obtain ⟨p, hp, hat⟩ := hangs c k hc
    have howner := hparent.symm.trans (owner p c k hp hat).1
    cases p with
    | top => exact hat
    | link n b => cases howner
  least := fun hn => search .top _ _ trivial hn

/-- Paths by a place depend on the key of its owner. -/
theorem onPath_congr
    (h : ∀ n, p.owner = some n → t'.key n = t.key n) : OnPath t' k p ↔ OnPath t k p := by
  cases p with
  | top => exact Iff.rfl
  | link n b => rw [OnPath, OnPath, h n rfl]

theorem OnPath.mono (hp : OnPath t k p) (hk : k <+: k') : OnPath t k' p := by
  cases p with
  | top => trivial
  | link n b =>
    obtain ⟨kn, hkn, hb⟩ := hp
    exact ⟨kn, hkn, hb.trans hk⟩

/-! ## Putting a node in -/

/-- A new node `x` with key `g` is put at a place on the path to `g`; what hung there becomes its
child. -/
structure Graft [DecidableEq ι] (t t' : Trie ι) (p : Place ι) (x : ι) (g : List Bool) : Prop where
  absent : t.key x = none
  path : OnPath t g p
  below : ∀ d, t.at p = some d → ∃ kd, t.key d = some kd ∧ ∃ b, g ++ [b] <+: kd ∧
    t'.link x b = some d
  key : ∀ n, t'.key n = if n = x then some g else t.key n
  placed : t'.at p = some x
  other : ∀ p', p' ≠ p → p'.owner ≠ some x → t'.at p' = t.at p'
  child : ∀ b c, t'.link x b = some c →
    t.at p = some c ∧ ∃ kc, t.key c = some kc ∧ g ++ [b] <+: kc
  parent : ∀ n, t'.parent n =
    if n = x then p.owner else if t.at p = some n then some x else t.parent n

section

variable [DecidableEq ι] {x : ι} {g : List Bool} (h : Ok t) (hg : Graft t t' p x g)

include h hg

/-- Nodes with longer keys are below what hung at the place. -/
theorem Graft.search_below (hn : t.key n = some kn) (hb : g ++ [b] <+: kn) :
    ∃ d kd, t'.link x b = some d ∧ t.at p = some d ∧ t.key d = some kd ∧ kd <+: kn := by
  obtain ⟨d, kd, hd, hkd, hpre⟩ := h.search_at (hg.path.mono (prefix_of_bit hb)) hn
  obtain ⟨kd', hkd', b', hb', hlink⟩ := hg.below d hd
  rw [hkd] at hkd'
  cases hkd'
  rw [bit_unique (hb'.trans hpre) hb] at hlink
  exact ⟨d, kd, hlink, hd, hkd, hpre⟩

/-- Other places on the path to the new key lead towards it. -/
theorem Graft.search_above (hq : OnPath t g q) (hne : q ≠ p) :
    ∃ d kd, t.at q = some d ∧ t.key d = some kd ∧ kd <+: g := by
  have hpath := hg.path
  -- what hung at the place is longer than the new key
  have hlong : ∀ {c kc b}, t.key c = some kc → OnPath t kc p → kc ++ [b] <+: g → False := by
    intro c kc b hc hp hb
    obtain ⟨d, kd, hd, hkd, hpre⟩ := h.search_at hp hc
    obtain ⟨kd', hkd', b', hb', -⟩ := hg.below d hd
    rw [hkd] at hkd'
    cases hkd'
    have := hpre.length_le
    have := length_lt_of_bit hb
    have := length_lt_of_bit hb'
    omega
  cases q with
  | top =>
    cases p with
    | top => exact absurd rfl hne
    | link m b' =>
      obtain ⟨km, hkm, hb'⟩ := hpath
      obtain ⟨d, kd, hd, hkd, hpre⟩ := h.least hkm
      exact ⟨d, kd, hd, hkd, hpre.trans (prefix_of_bit hb')⟩
  | link c b =>
    obtain ⟨kc, hc, hb⟩ := hq
    cases p with
    | top => exact (hlong hc trivial hb).elim
    | link m b' =>
      obtain ⟨km, hkm, hb'⟩ := hpath
      rcases prefix_cases (prefix_of_bit hb) (prefix_of_bit hb') with heq | ⟨b₁, hb₁⟩ | ⟨b₁, hb₁⟩
      · subst heq
        obtain rfl := h.inj hc hkm
        exact absurd (by rw [bit_unique hb hb']) hne
      · rw [bit_unique (hb₁.trans (prefix_of_bit hb')) hb] at hb₁
        obtain ⟨d, kd, hd, hkd, hpre⟩ := h.search hc hkm hb₁
        exact ⟨d, kd, hd, hkd, hpre.trans (prefix_of_bit hb')⟩
      · rw [bit_unique (hb₁.trans (prefix_of_bit hb)) hb'] at hb₁
        exact (hlong hc ⟨km, hkm, hb₁⟩ hb).elim

omit h in
theorem Graft.key_old (hn : t.key n = some k) : t'.key n = some k ∧ n ≠ x := by
  have hne : n ≠ x := by
    rintro rfl
    rw [hg.absent] at hn
    cases hn
  rw [hg.key, if_neg hne]
  exact ⟨hn, hne⟩

omit h in
theorem Graft.key_cases (hn : t'.key n = some k) :
    (n = x ∧ k = g) ∨ (n ≠ x ∧ t.key n = some k) := by
  rw [hg.key] at hn
  split at hn
  · exact .inl ⟨‹_›, (some.inj hn).symm⟩
  · exact .inr ⟨‹_›, hn⟩

omit h in
theorem Graft.key_self : t'.key x = some g := by
  rw [hg.key, if_pos rfl]

omit h in
theorem Graft.link_old (hn : n ≠ x) (hne : p ≠ .link n b) : t'.link n b = t.link n b :=
  hg.other (.link n b) (Ne.symm hne) fun heq => hn (some.inj heq)

omit h in
theorem Graft.onPath (hq : q.owner ≠ some x) : OnPath t' k q ↔ OnPath t k q := by
  refine onPath_congr fun n hn => ?_
  have hne : n ≠ x := fun heq => hq (heq ▸ hn)
  rw [hg.key, if_neg hne]

omit h in
theorem Graft.owner_ne (hq : OnPath t k q) : q.owner ≠ some x := by
  cases q with
  | top => exact nofun
  | link n b =>
    obtain ⟨kn, hkn, -⟩ := hq
    exact fun heq => (hg.key_old hkn).2 (some.inj heq)

/-- The new node is put in, and what is known of each place before holds after it. -/
theorem Ok.graft : Ok t' := by
  have hpath : OnPath t' g p := (hg.onPath (hg.owner_ne hg.path)).mpr hg.path
  refine .of_places (fun q c k hq hc => ?_) (fun q n k hq hn => ?_) fun c k hc => ?_
  · by_cases ho : q.owner = some x
    · cases q with
      | top => cases ho
      | link m b =>
        cases ho
        obtain ⟨hat, kc, hkc, hb⟩ := hg.child b c hc
        obtain ⟨hkc', hcx⟩ := hg.key_old hkc
        refine ⟨?_, kc, hkc', g, hg.key_self, hb⟩
        rw [hg.parent, if_neg hcx, if_pos hat]
        rfl
    · by_cases hqp : q = p
      · subst hqp
        rw [hg.placed] at hc
        cases hc
        refine ⟨?_, g, hg.key_self, hpath⟩
        rw [hg.parent, if_pos rfl]
      · rw [hg.other q hqp ho] at hc
        have hq := (hg.onPath ho).mp hq
        obtain ⟨hparent, kc, hkc, hqc⟩ := h.owner hq hc
        obtain ⟨hkc', hcx⟩ := hg.key_old hkc
        refine ⟨?_, kc, hkc', (hg.onPath ho).mpr hqc⟩
        rw [hg.parent, if_neg hcx, if_neg fun hat => hqp (h.place_unique hq hg.path hc hat), hparent]
  · by_cases ho : q.owner = some x
    · cases q with
      | top => cases ho
      | link m b =>
        cases ho
        obtain ⟨kx, hkx, hb⟩ := hq
        rw [hg.key_self] at hkx
        cases hkx
        rcases hg.key_cases hn with ⟨rfl, rfl⟩ | ⟨-, hn⟩
        · exact absurd (length_lt_of_bit hb) (lt_irrefl _)
        · obtain ⟨d, kd, hlink, -, hkd, hpre⟩ := hg.search_below h hn hb
          exact ⟨d, kd, hlink, (hg.key_old hkd).1, hpre⟩
    · have hq := (hg.onPath ho).mp hq
      by_cases hqp : q = p
      · subst hqp
        refine ⟨x, g, hg.placed, hg.key_self, ?_⟩
        rcases hg.key_cases hn with ⟨rfl, rfl⟩ | ⟨-, hn⟩
        · exact prefix_refl _
        · obtain ⟨d, kd, hd, hkd, hpre⟩ := h.search_at hq hn
          obtain ⟨kd', hkd', b, hb, -⟩ := hg.below d hd
          rw [hkd] at hkd'
          cases hkd'
          exact (prefix_of_bit hb).trans hpre
      · have hold : ∃ d kd, t.at q = some d ∧ t.key d = some kd ∧ kd <+: k := by
          rcases hg.key_cases hn with ⟨rfl, rfl⟩ | ⟨-, hn⟩
          · exact hg.search_above h hq hqp
          · exact h.search_at hq hn
        obtain ⟨d, kd, hd, hkd, hpre⟩ := hold
        exact ⟨d, kd, (hg.other q hqp ho).trans hd, (hg.key_old hkd).1, hpre⟩
  · rcases hg.key_cases hc with ⟨rfl, rfl⟩ | ⟨-, hc⟩
    · exact ⟨p, hpath, hg.placed⟩
    · obtain ⟨q, hq, hat⟩ := h.hangs hc
      have ho := hg.owner_ne hq
      by_cases hqp : q = p
      · subst hqp
        obtain ⟨kc, hkc, b, hb, hlink⟩ := hg.below c hat
        rw [hc] at hkc
        cases hkc
        exact ⟨.link x b, ⟨g, hg.key_self, hb⟩, hlink⟩
      · exact ⟨q, (hg.onPath ho).mpr hq, (hg.other q hqp ho).trans hat⟩

end

/-! ## Taking a node out -/

/-- The node `x`, which has at most one child, is taken out; the child `o` takes its place. -/
structure Splice [DecidableEq ι] (t t' : Trie ι) (p : Place ι) (x : ι) (o : Option ι) : Prop where
  present : ∃ kx, t.key x = some kx ∧ OnPath t kx p
  hung : t.at p = some x
  child : ∀ b c, t.link x b = some c → o = some c
  only : ∀ c, o = some c → ∃ b, t.link x b = some c
  key : ∀ n, t'.key n = if n = x then none else t.key n
  placed : t'.at p = o
  other : ∀ p', p' ≠ p → p'.owner ≠ some x → t'.at p' = t.at p'
  parent : ∀ n, n ≠ x → t'.parent n = if o = some n then p.owner else t.parent n

section

variable [DecidableEq ι] {x : ι} {o : Option ι} (h : Ok t) (hs : Splice t t' p x o)

include hs in
theorem Splice.key_cases (hn : t'.key n = some k) : n ≠ x ∧ t.key n = some k := by
  rw [hs.key] at hn
  split at hn
  · cases hn
  · exact ⟨‹_›, hn⟩

include hs in
theorem Splice.key_old (hn : t.key n = some k) (hne : n ≠ x) : t'.key n = some k := by
  rw [hs.key, if_neg hne, hn]

include h hs

/-- The child has a longer key than the node that goes. -/
theorem Splice.child_key {c : ι} (hc : o = some c) :
    ∃ kx kc b, t.key x = some kx ∧ OnPath t kx p ∧ t.key c = some kc ∧ kx ++ [b] <+: kc ∧
      t.parent c = some x ∧ c ≠ x := by
  obtain ⟨kx, hkx, hpath⟩ := hs.present
  obtain ⟨b, hlink⟩ := hs.only c hc
  obtain ⟨hparent, kc, hkc, hb⟩ := h.child hkx hlink
  refine ⟨kx, kc, b, hkx, hpath, hkc, hb, hparent, ?_⟩
  rintro rfl
  rw [hkx] at hkc
  cases hkc
  exact lt_irrefl _ (length_lt_of_bit hb)

/-- What is searched for below the node that goes is below its child. -/
theorem Splice.search_below (hkx : t.key x = some kx) (hne : n ≠ x)
    (hn : t.key n = some kn) (hpre : kx <+: kn) :
    ∃ c kc, o = some c ∧ t'.key c = some kc ∧ kc <+: kn := by
  have hkne : kx ≠ kn := by
    rintro rfl
    exact hne (h.inj hn hkx)
  obtain ⟨b, hb⟩ := exists_bit hpre hkne
  obtain ⟨c, kc, hlink, hkc, hpre'⟩ := h.search hkx hn hb
  have hc := hs.child b c hlink
  obtain ⟨-, -, -, -, -, -, -, -, hcx⟩ := hs.child_key h hc
  exact ⟨c, kc, hc, hs.key_old hkc hcx, hpre'⟩

theorem Splice.at_old (hq : OnPath t k q) (ho : q.owner ≠ some x) :
    (p = q ∧ t.at q = some x ∧ t'.at q = o) ∨
      (p ≠ q ∧ t.at q ≠ some x ∧ t'.at q = t.at q) := by
  obtain ⟨kx, hkx, hpath⟩ := hs.present
  by_cases hp : p = q
  · exact .inl ⟨hp, hp ▸ hs.hung, hp ▸ hs.placed⟩
  · exact .inr ⟨hp, fun hat => hp (h.place_unique hpath hq hs.hung hat), hs.other q (Ne.symm hp) ho⟩

omit h in
theorem Splice.onPath : OnPath t' k q ↔ q.owner ≠ some x ∧ OnPath t k q := by
  by_cases ho : q.owner = some x
  · cases q with
    | top => cases ho
    | link m b =>
      cases ho
      simp [OnPath, hs.key, Place.owner]
  · have hsame : OnPath t' k q ↔ OnPath t k q := onPath_congr fun n hn => by
      have hne : n ≠ x := fun heq => ho (heq ▸ hn)
      rw [hs.key, if_neg hne]
    rw [hsame, and_iff_right ho]

omit h in
/-- The place of the node that goes, as its child gets there. -/
theorem Splice.onPath_place (hkx : t.key x = some kx) (hk : kx <+: k) : OnPath t' k p := by
  obtain ⟨kx', hkx', hpath⟩ := hs.present
  rw [hkx] at hkx'
  cases hkx'
  refine hs.onPath.mpr ⟨fun ho => ?_, hpath.mono hk⟩
  cases p with
  | top => cases ho
  | link m b =>
    cases ho
    obtain ⟨km, hkm, hb⟩ := hpath
    rw [hkx] at hkm
    cases hkm
    exact lt_irrefl _ (length_lt_of_bit hb)

theorem Ok.splice : Ok t' := by
  refine .of_places (fun q c k hq hc => ?_) (fun q n k hq hn => ?_) fun c k hc => ?_
  · obtain ⟨ho, hq⟩ := hs.onPath.mp hq
    rcases hs.at_old h hq ho with ⟨rfl, -, hat⟩ | ⟨-, hx, hat⟩
    · rw [hat] at hc
      obtain ⟨kx, kc, b, hkx, -, hkc, hb, -, hcx⟩ := hs.child_key h hc
      refine ⟨?_, kc, hs.key_old hkc hcx, hs.onPath_place hkx (prefix_of_bit hb)⟩
      rw [hs.parent c hcx, if_pos hc]
    · rw [hat] at hc
      obtain ⟨hparent, kc, hkc, hqc⟩ := h.owner hq hc
      have hcx : c ≠ x := fun heq => hx (heq ▸ hc)
      refine ⟨?_, kc, hs.key_old hkc hcx, hs.onPath.mpr ⟨ho, hqc⟩⟩
      rw [hs.parent c hcx, if_neg, hparent]
      intro hchild
      obtain ⟨-, -, -, -, -, -, -, hparent', -⟩ := hs.child_key h hchild
      exact ho (hparent.symm.trans hparent')
  · obtain ⟨ho, hq⟩ := hs.onPath.mp hq
    obtain ⟨hnx, hn⟩ := hs.key_cases hn
    obtain ⟨d, kd, hd, hkd, hpre⟩ := h.search_at hq hn
    rcases hs.at_old h hq ho with ⟨-, hx, hat⟩ | ⟨-, hx, hat⟩
    · rw [hx] at hd
      cases hd
      obtain ⟨e, ke, he, hke, hpre'⟩ := hs.search_below h hkd hnx hn hpre
      exact ⟨e, ke, hat.trans he, hke, hpre'⟩
    · exact ⟨d, kd, hat.trans hd, hs.key_old hkd fun heq => hx (heq ▸ hd), hpre⟩
  · obtain ⟨hcx, hc⟩ := hs.key_cases hc
    obtain ⟨q, hq, hat⟩ := h.hangs hc
    by_cases ho : q.owner = some x
    · -- a child of the node that goes
      cases q with
      | top => cases ho
      | link m b =>
        cases ho
        obtain ⟨kx, hkx, hb⟩ := hq
        exact ⟨p, hs.onPath_place hkx (prefix_of_bit hb), hs.placed.trans (hs.child b c hat)⟩
    · refine ⟨q, hs.onPath.mpr ⟨ho, hq⟩, ?_⟩
      rcases hs.at_old h hq ho with ⟨-, hx, -⟩ | ⟨-, -, hold⟩
      · exact absurd (some.inj (hat.symm.trans hx)) hcx
      · exact hold.trans hat

end

/-! ## The order of the keys -/

theorem lt_of_bit (h : k ++ [b] <+: k') : k < k' := by
  obtain ⟨r, rfl⟩ := h
  induction k with
  | nil => exact nil_lt_cons _ _
  | cons a k ih => exact cons_lt_cons_iff.mpr (.inr ⟨rfl, ih⟩)

theorem lt_of_fork {c : List Bool} (h : c ++ [false] <+: k) (h' : c ++ [true] <+: k') : k < k' := by
  obtain ⟨r, rfl⟩ := h
  obtain ⟨r', rfl⟩ := h'
  induction c with
  | nil => exact cons_lt_cons_iff.mpr (.inl (by decide))
  | cons a c ih => exact cons_lt_cons_iff.mpr (.inr ⟨rfl, ih⟩)

theorem lt_cases (h : k < k') :
    (∃ b, k ++ [b] <+: k') ∨ ∃ c, c ++ [false] <+: k ∧ c ++ [true] <+: k' := by
  induction k generalizing k' with
  | nil =>
    cases k' with
    | nil => exact absurd h (lt_irrefl _)
    | cons a k' => exact .inl ⟨a, k', rfl⟩
  | cons a k ih =>
    cases k' with
    | nil => exact absurd h (not_lt_nil _)
    | cons a' k' =>
      rcases cons_lt_cons_iff.mp h with hlt | ⟨rfl, hlt⟩
      · have hbits : a = false ∧ a' = true := by
          revert hlt
          cases a <;> cases a' <;> decide
        obtain ⟨rfl, rfl⟩ := hbits
        exact .inr ⟨[], ⟨k, rfl⟩, ⟨k', rfl⟩⟩
      · rcases ih hlt with ⟨b, r, hr⟩ | ⟨c, ⟨r, hr⟩, ⟨r', hr'⟩⟩
        · exact .inl ⟨b, r, by rw [← hr]; rfl⟩
        · exact .inr ⟨a :: c, ⟨r, by rw [← hr]; rfl⟩, ⟨r', by rw [← hr']; rfl⟩⟩

theorem le_of_start (h : k <+: k') : k ≤ k' := by
  by_cases heq : k = k'
  · exact le_of_eq heq
  · obtain ⟨b, hb⟩ := exists_bit h heq
    exact le_of_lt (lt_of_bit hb)

/-- A key beyond `k` is beyond everything that shares with `k` a start it does not have. -/
theorem lt_of_outside {s : List Bool} (hk : s <+: k) (hx : s <+: kx) (hlt : k < k')
    (hout : ¬s <+: k') : kx < k' := by
  rcases lt_cases hlt with ⟨b, hb⟩ | ⟨c, hc, hc'⟩
  · exact absurd (hk.trans (prefix_of_bit hb)) hout
  · -- they part before the end of `s`
    rcases prefix_cases hk hc with heq | ⟨b, hb⟩ | ⟨b, hb⟩
    · exact lt_of_fork (heq ▸ hx) hc'
    · have hlen := hb.length_le
      have hpre : s <+: c := by
        refine prefix_of_prefix_length_le (prefix_of_bit hb) (prefix_append c [false]) ?_
        simp only [length_append, length_singleton] at hlen
        omega
      exact absurd (hpre.trans (prefix_of_bit hc')) hout
    · exact lt_of_fork ((prefix_of_bit hb).trans hx) hc'

/-- The node `m` comes next after the key `k`. -/
def Least (t : Trie ι) (k : List Bool) (m : ι) : Prop :=
  ∃ km, t.key m = some km ∧ k < km ∧ ∀ n kn, t.key n = some kn → k < kn → km ≤ kn

/-- No node comes after the key `k`. -/
def Last (t : Trie ι) (k : List Bool) : Prop := ∀ n kn, t.key n = some kn → ¬k < kn

section

variable (h : Ok t)

include h

/-- A node at a place on the path to `k` that comes after `k` comes next. -/
theorem Ok.least_at {kr : List Bool} {r : ι} (hp : OnPath t k p)
    (hr : t.at p = some r) (hkr : t.key r = some kr) (hlt : k < kr) : Least t k r := by
  refine ⟨kr, hkr, hlt, fun m km hm hkm => ?_⟩
  cases p with
  | top =>
    obtain ⟨d, kd, hd, hkd, hpre⟩ := h.least hm
    rw [Trie.at, hd] at hr
    cases hr
    rw [hkd] at hkr
    cases hkr
    exact le_of_start hpre
  | link q b =>
    obtain ⟨kq, hkq, hb⟩ := hp
    obtain ⟨-, kr', hkr', hbr⟩ := h.child hkq hr
    rw [hkr] at hkr'
    cases hkr'
    by_cases hin : kq ++ [b] <+: km
    · obtain ⟨d, kd, hd, hkd, hpre⟩ := h.search hkq hm hin
      rw [Trie.at, hd] at hr
      cases hr
      rw [hkd] at hkr
      cases hkr
      exact le_of_start hpre
    · exact le_of_lt (lt_of_outside hb hbr hkm hin)

/-- The first child of a node comes next after it. -/
theorem Ok.least_child {c : ι} (hn : t.key n = some kn)
    (hc : t.link n b = some c) (hfirst : b = true → t.link n false = none) : Least t kn c := by
  obtain ⟨-, kc, hkc, hbc⟩ := h.child hn hc
  refine ⟨kc, hkc, lt_of_bit hbc, fun m km hm hlt => ?_⟩
  by_cases hin : kn <+: km
  · obtain ⟨b', hb'⟩ := exists_bit hin (ne_of_lt hlt)
    obtain ⟨d, kd, hd, hkd, hpre⟩ := h.search hn hm hb'
    by_cases hbb : b' = b
    · subst hbb
      rw [hc] at hd
      cases hd
      rw [hkd] at hkc
      cases hkc
      exact le_of_start hpre
    · cases b with
      | false =>
        rw [Bool.eq_true_of_not_eq_false hbb] at hb'
        exact le_of_lt (lt_of_fork hbc hb')
      | true =>
        rw [Bool.eq_false_of_not_eq_true hbb, hfirst rfl] at hd
        cases hd
  · exact le_of_lt (lt_of_outside (prefix_refl kn) (prefix_of_bit hbc) hlt hin)

/-- The right child of a node comes next after a key that is missing on its left. -/
theorem Ok.least_gap {r : ι} (hn : t.key n = some kn)
    (hb : kn ++ [false] <+: k) (hno : t.link n false = none) (hr : t.link n true = some r) :
    Least t k r := by
  obtain ⟨-, kr, hkr, hlong⟩ := h.child hn hr
  refine ⟨kr, hkr, lt_of_fork hb hlong, fun m km hm hlt => ?_⟩
  by_cases hpre : kn <+: km
  · have hne : kn ≠ km := by
      rintro rfl
      exact lt_asymm hlt (lt_of_bit hb)
    obtain ⟨c, hc⟩ := exists_bit hpre hne
    obtain ⟨d, kd, hd, hkd, hle⟩ := h.search hn hm hc
    cases c with
    | false =>
      rw [hno] at hd
      cases hd
    | true =>
      rw [hr] at hd
      cases hd
      rw [hkr] at hkd
      cases hkd
      exact le_of_start hle
  · exact (lt_of_outside (prefix_of_bit hb) (prefix_of_bit hlong) hlt hpre).le

end

/-- The search for what comes after `k` has come up to `n`: nothing below `n` does. -/
structure Climb (t : Trie ι) (k : List Bool) (n : ι) : Prop where
  here : ∃ kn, t.key n = some kn ∧ ∀ m km, t.key m = some km → k < km → ¬kn <+: km
  path : ∀ q b, t.parent n = some q → t.link q b = some n → OnPath t k (.link q b)

section

variable (h : Ok t)

include h

/-- The climb from a node that has nothing below it. -/
theorem Climb.of_leaf (hn : t.key n = some k) (hno : ∀ b, t.link n b = none) : Climb t k n := by
  refine ⟨⟨k, hn, fun m km hm hlt hpre => ?_⟩, fun q b hq hlink => ?_⟩
  · obtain ⟨b, hb⟩ := exists_bit hpre hlt.ne
    obtain ⟨d, kd, hd, -⟩ := h.search hn hm hb
    rw [hno] at hd
    cases hd
  · obtain ⟨⟨kq, hkq⟩, -⟩ := h.parent hn hq
    obtain ⟨-, k', hk', hb⟩ := h.child hkq hlink
    rw [hn] at hk'
    cases hk'
    exact ⟨kq, hkq, hb⟩

/-- The climb from the last node on the path to a key that is not there. -/
theorem Climb.of_gap (hn : t.key n = some kn) (hb : kn ++ [b] <+: k)
    (hno : t.link n b = none) (hright : t.link n true = none) : Climb t k n := by
  refine ⟨⟨kn, hn, fun m km hm hlt hpre => ?_⟩, fun q b' hq hlink => ?_⟩
  · have hne : kn ≠ km := by
      rintro rfl
      exact lt_asymm hlt (lt_of_bit hb)
    obtain ⟨c, hc⟩ := exists_bit hpre hne
    obtain ⟨d, kd, hd, -⟩ := h.search hn hm hc
    cases c with
    | true =>
      rw [hright] at hd
      cases hd
    | false =>
      cases b with
      | false =>
        rw [hno] at hd
        cases hd
      | true => exact lt_asymm hlt (lt_of_fork hc hb)
  · obtain ⟨⟨kq, hkq⟩, -⟩ := h.parent hn hq
    obtain ⟨-, k', hk', hb'⟩ := h.child hkq hlink
    rw [hn] at hk'
    cases hk'
    exact ⟨kq, hkq, hb'.trans (prefix_of_bit hb)⟩

/-- The climb from a node on the path to a key that comes after all below it. -/
theorem Climb.of_before (hp : OnPath t k p) (hat : t.at p = some n)
    (hn : t.key n = some kn) (hlt : kn < k) (hout : ¬kn <+: k) : Climb t k n := by
  refine ⟨⟨kn, hn, fun m km hm hlt' hpre => ?_⟩, fun q b hq hlink => ?_⟩
  · exact lt_asymm hlt' (lt_of_outside (prefix_refl kn) hpre hlt hout)
  · obtain ⟨⟨kq, hkq⟩, -⟩ := h.parent hn hq
    have hpath : OnPath t (kq ++ [b]) (.link q b) := ⟨kq, hkq, prefix_refl _⟩
    rw [← h.place_unique hp hpath hat hlink]
    exact hp

end

section

variable {q : ι} (h : Ok t) (hc : Climb t k n)

include h hc

theorem Climb.right {r : ι} (hq : t.parent n = some q) (hleft : t.link q false = some n)
    (hr : t.link q true = some r) : Least t k r := by
  obtain ⟨kq, hkq, hb⟩ := hc.path q false hq hleft
  obtain ⟨kn, hkn, hclear⟩ := hc.here
  obtain ⟨-, kr, hkr, hbr⟩ := h.child hkq hr
  refine ⟨kr, hkr, lt_of_fork hb hbr, fun m km hm hlt => ?_⟩
  by_cases hin : kq <+: km
  · have hne : kq ≠ km := fun heq => lt_asymm hlt (heq ▸ lt_of_bit hb)
    obtain ⟨b, hbm⟩ := exists_bit hin hne
    obtain ⟨d, kd, hd, hkd, hpre⟩ := h.search hkq hm hbm
    cases b with
    | false =>
      rw [hleft] at hd
      cases hd
      rw [hkn] at hkd
      cases hkd
      exact absurd hpre (hclear m km hm hlt)
    | true =>
      rw [hr] at hd
      cases hd
      rw [hkr] at hkd
      cases hkd
      exact le_of_start hpre
  · exact le_of_lt (lt_of_outside (prefix_of_bit hb) (prefix_of_bit hbr) hlt hin)

theorem Climb.up (hq : t.parent n = some q)
    (hno : t.link q false ≠ some n ∨ t.link q true = none) : Climb t k q := by
  obtain ⟨kn, hkn, hclear⟩ := hc.here
  obtain ⟨kq, b, hkq, hlink, hbn⟩ := h.up hkn hq
  obtain ⟨kq', hkq', hbk⟩ := hc.path q b hq hlink
  rw [hkq] at hkq'
  cases hkq'
  refine ⟨⟨kq, hkq, fun m km hm hlt hin => ?_⟩, fun q' b' hq' hlink' => ?_⟩
  · have hne : kq ≠ km := fun heq => lt_asymm hlt (heq ▸ lt_of_bit hbk)
    obtain ⟨b', hbm⟩ := exists_bit hin hne
    obtain ⟨d, kd, hd, hkd, hpre⟩ := h.search hkq hm hbm
    by_cases hbb : b' = b
    · subst hbb
      rw [hlink] at hd
      cases hd
      rw [hkn] at hkd
      cases hkd
      exact hclear m km hm hlt hpre
    · cases b with
      | false =>
        rw [Bool.eq_true_of_not_eq_false hbb] at hd
        rcases hno with hno | hno
        · exact hno hlink
        · rw [hno] at hd
          cases hd
      | true =>
        rw [Bool.eq_false_of_not_eq_true hbb] at hbm
        exact lt_asymm hlt (lt_of_fork hbm hbk)
  · obtain ⟨kq', b'', hkq', hlink'', hb''⟩ := h.up hkq hq'
    obtain ⟨-, kc, hkc, hbc⟩ := h.child hkq' hlink'
    rw [hkq] at hkc
    cases hkc
    exact ⟨kq', hkq', hbc.trans (prefix_of_bit hbk)⟩

theorem Climb.last (hq : t.parent n = none) : Last t k := by
  obtain ⟨kn, hkn, hclear⟩ := hc.here
  intro m km hm hlt
  obtain ⟨d, kd, hd, hkd, hpre⟩ := h.least hm
  rw [h.root hkn hq] at hd
  cases hd
  rw [hkn] at hkd
  cases hkd
  exact hclear m km hm hlt hpre

end

end Mp2mp.Kit.BitTrie
