import Mp2mp.Bgpd.AttrWire

/-!
# The tunnel encapsulation attribute

`bgp_attr_encap` reads the chain of sub-TLVs that `bgp_packet_mpattr_tea` writes.  It goes on
while four bytes are left, but the last sub-TLV may have two or three.

* `encap_roundtrip_iff`: a chain comes back exactly if its last value has at least two bytes.
-/

namespace Mp2mp.Bgpd

open Kit List

/-- A chain of sub-TLVs -/
abbrev Subtlvs := List (UInt8 × List UInt8)

/-- The loop of `bgp_attr_encap` and its check for leftover data, on the bytes left; `none` is an
error. -/
def encapLoop : Nat → List UInt8 → Option Subtlvs
  | rounds + 1, subtype :: sublength :: r =>
    if 4 ≤ r.length + 2 then
      if r.length < sublength.toNat then none
      else (encapLoop rounds (r.drop sublength.toNat)).map
        ((subtype, r.take sublength.toNat) :: ·)
    else none
  | _, r => if r = [] then some [] else none

/-- `bgp_attr_encap`, for an attribute set without sub-TLVs: the tunnel type and the chain. -/
def bgpAttrEncap (a : PathAttribute) : Option (Nat × Subtlvs) :=
  if a.flags &&& flagTrans = 0 ∨ a.flags &&& flagOptional = 0 ∨ a.value.length < 4 then none
  else (encapLoop a.value.length (a.value.drop 4)).map fun subtlvs =>
    -- the tunnel type is stored if there is a sub-TLV
    (if subtlvs = [] then 0 else ofBe (a.value.take 2), subtlvs)

/-- The chain as it is written. -/
def subtlvBytes (subtlvs : Subtlvs) : List UInt8 :=
  subtlvs.flatMap fun st => st.1 :: UInt8.ofNat st.2.length :: st.2

theorem encapLoop_iff {subtlvs : Subtlvs} (short : ∀ st ∈ subtlvs, st.2.length < 256) {rounds : Nat}
    (enough : (subtlvBytes subtlvs).length ≤ rounds) :
    encapLoop rounds (subtlvBytes subtlvs) = some subtlvs ↔
      ∀ st ∈ subtlvs.getLast?, 2 ≤ st.2.length := by
  induction subtlvs generalizing rounds with
  | nil => cases rounds <;> simp [encapLoop, subtlvBytes]
  | cons st rest ih =>
    rw [forall_mem_cons] at short
    have size : (UInt8.ofNat st.2.length).toNat = st.2.length := by
      rw [UInt8.toNat_ofNat', Nat.mod_eq_of_lt short.1]
    have next : subtlvBytes (st :: rest) =
        st.1 :: UInt8.ofNat st.2.length :: (st.2 ++ subtlvBytes rest) := rfl
    rw [next] at enough ⊢
    simp only [length_cons, length_append] at enough
    obtain ⟨rounds, rfl⟩ : ∃ n, rounds = n + 1 := ⟨rounds - 1, by omega⟩
    rw [encapLoop, size, drop_left, take_left, length_append]
    cases rest with
    | nil =>
      by_cases long : 2 ≤ st.2.length <;> cases rounds <;> simp [subtlvBytes, encapLoop, long]
    | cons st' rest =>
      have two : 2 ≤ (subtlvBytes (st' :: rest)).length := by simp [subtlvBytes]
      rw [if_pos (by omega), if_neg (by omega), Option.map_eq_some_iff, getLast?_cons_cons]
      simp only [cons.injEq, true_and, exists_eq_right]
      exact ih short.2 (by omega)

/-- The attributes with a chain that `bgp_packet_mpattr_tea` can write. -/
structure Encap (attr : AttrSet) (safi : Safi) : Prop where
  safi : safi = .encap ∨ safi = .mplsVpn
  nonempty : attr.encapSubtlvs ≠ []
  short : ∀ st ∈ attr.encapSubtlvs, st.2.length < 256
  fits : 2 + 2 + (attr.encapSubtlvs.map fun st => 2 + st.2.length).sum ≤ 0xffff
  tunneltype : attr.encapTunneltype < 256 ^ 2

variable {attr : AttrSet} {safi : Safi} (encap : Encap attr safi)

include encap in
theorem bgpAttrEncap_iff {flags code : UInt8} {size : List UInt8} (length : Nat)
    (trans : flags &&& flagTrans ≠ 0) (optional : flags &&& flagOptional ≠ 0) :
    bgpAttrEncap ⟨flags, code, size, toBe 2 attr.encapTunneltype ++ toBe 2 length ++
      subtlvBytes attr.encapSubtlvs⟩ = some (attr.encapTunneltype, attr.encapSubtlvs) ↔
      ∀ st ∈ attr.encapSubtlvs.getLast?, 2 ≤ st.2.length := by
  have outer : (toBe 2 attr.encapTunneltype ++ toBe 2 length).length = 4 := by
    simp only [length_append, length_toBe]
  have type : (toBe 2 attr.encapTunneltype ++ toBe 2 length ++
      subtlvBytes attr.encapSubtlvs).take 2 = toBe 2 attr.encapTunneltype := by
    rw [append_assoc, take_left' (length_toBe ..)]
  have whole : ¬4 + (subtlvBytes attr.encapSubtlvs).length < 4 := by omega
  rw [← encapLoop_iff encap.short (Nat.le_add_left _ 4), bgpAttrEncap]
  simp only [type, drop_left' outer, length_append, length_toBe, Nat.reduceAdd, trans, optional,
    whole, or_self, if_false, ofBe_toBe, Nat.mod_eq_of_lt encap.tunneltype,
    Option.map_eq_some_iff]
  constructor
  · intro ⟨subtlvs, read, same⟩
    rwa [(Prod.mk.inj same).2] at read
  · intro read
    exact ⟨_, read, by rw [if_neg encap.nonempty]⟩

include encap in
/-- The attribute that is written is read back exactly if the last value has two bytes. -/
theorem encap_roundtrip_iff : ((encapPuts attr safi).flatMap AttrPut.attributes).map bgpAttrEncap =
        [some (attr.encapTunneltype, attr.encapSubtlvs)] ↔
      ∀ st ∈ attr.encapSubtlvs.getLast?, 2 ≤ st.2.length := by
  rw [encapPuts, if_pos ⟨encap.safi, encap.nonempty⟩]
  simp only [if_neg (Nat.not_lt.mpr encap.fits), flatMap_cons, flatMap_nil, append_nil,
    AttrPut.attributes]
  split
  all_goals
    rw [map_singleton, singleton_inj]
    exact bgpAttrEncap_iff encap _ (by decide) (by decide)

/-- The attribute set with a tunnel type and a chain. -/
def tunnel (subtlvs : Subtlvs) : AttrSet :=
  { reflected [] with encapTunneltype := 7, encapSubtlvs := subtlvs }

theorem tunnel_two_bytes :
    ((encapPuts (tunnel [(2, []), (4, [0, 1])]) .encap).flatMap AttrPut.attributes).map
      bgpAttrEncap = [some (7, [(2, []), (4, [0, 1])])] :=
  (encap_roundtrip_iff ⟨.inl rfl, by decide, by decide, by decide, by decide⟩).mpr (by decide)

/-- A last value of one byte, and the attribute is rejected. -/
theorem tunnel_one_byte : Encap (tunnel [(2, [8])]) .encap ∧
    ((encapPuts (tunnel [(2, [8])]) .encap).flatMap AttrPut.attributes).map bgpAttrEncap = [none] :=
  ⟨⟨.inl rfl, by decide, by decide, by decide, by decide⟩, by decide⟩

end Mp2mp.Bgpd
