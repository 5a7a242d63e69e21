import Mp2mp.Ldpd.Types

/-!
# Prefix masks

`ldp_applymask` and `ldp_prefixcmp` of `ldpd/util.c`.

* `masks_agree`: two addresses compare as equal up to a length exactly if they have the same mask.
-/

namespace Mp2mp.Ldpd

open List

/-- `v4`, in host order, and `v6`, as its bytes. -/
abbrev MaskedAddr : Af → Type
  | .inet => UInt32
  | .inet6 => Fin 16 → UInt8

def Af.maxPrefixlen : Af → Nat
  | .inet => 32
  | .inet6 => 128

def prefixlen2mask (prefixlen : Nat) : UInt32 :=
  if prefixlen = 0 then 0 else 0xffffffff <<< UInt32.ofNat (32 - prefixlen)

/-- The mask of the byte that the prefix ends in. -/
def lastMask (prefixlen : Nat) : UInt8 := .ofNat (0xff00 >>> (prefixlen % 8))

def prefixlen2mask6 (prefixlen : Nat) (i : Fin 16) : UInt8 :=
  if i.val < prefixlen / 8 then 0xff
  else if i.val = prefixlen / 8 ∧ prefixlen % 8 ≠ 0 then lastMask prefixlen else 0

def ldpApplymask : (af : Af) → MaskedAddr af → Nat → MaskedAddr af
  | .inet, (src : UInt32), prefixlen => src &&& prefixlen2mask prefixlen
  | .inet6, src, prefixlen => fun i => src i &&& prefixlen2mask6 prefixlen i

/-- `ldp_prefixcmp`; `none` is `fatalx`. -/
def ldpPrefixcmp : (af : Af) → MaskedAddr af → MaskedAddr af → Nat → Option Int
  | .inet, (a : UInt32), (b : UInt32), prefixlen =>
    if prefixlen = 0 then some 0
    else if prefixlen > 32 then none
    else
      let mask := prefixlen2mask prefixlen
      some ((a &&& mask) - (b &&& mask)).toBitVec.toInt
  | .inet6, a, b, prefixlen =>
    if prefixlen = 0 then some 0
    else if prefixlen > 128 then none
    else
      match (finRange 16).find? fun i : Fin 16 => i.val < prefixlen / 8 ∧ a i ≠ b i with
      | some i => some ((a i).toNat - (b i).toNat)
      | none =>
        if h : prefixlen / 8 < 16 ∧ prefixlen % 8 ≠ 0 then
          let m := lastMask prefixlen
          some ((a ⟨_, h.1⟩ &&& m).toNat - (b ⟨_, h.1⟩ &&& m).toNat)
        else some 0

variable {prefixlen : Nat}

theorem byteDiff_iff {x y : UInt8} : some ((x.toNat : Int) - y.toNat) = some 0 ↔ x = y := by
  rw [Option.some_inj, ← UInt8.toNat_inj]
  omega

theorem and_full (x : UInt8) : x &&& 0xff = x := UInt8.and_neg_one

theorem prefixcmp_inet6 (len : prefixlen ≤ 128) (a b : Fin 16 → UInt8) :
    ldpPrefixcmp .inet6 a b prefixlen = some 0 ↔
      ∀ i, a i &&& prefixlen2mask6 prefixlen i = b i &&& prefixlen2mask6 prefixlen i := by
  simp only [ldpPrefixcmp]
  split
  · next none => simp [prefixlen2mask6, none]
  · rw [if_neg (by omega)]
    split
    · next i found =>
      have differs := find?_some found
      simp only [decide_eq_true_eq] at differs
      rw [byteDiff_iff, iff_false_left differs.2]
      intro same
      have byte := same i
      rw [prefixlen2mask6, if_pos differs.1, and_full, and_full] at byte
      exact differs.2 byte
    · next alike =>
      simp only [find?_eq_none, mem_finRange, true_implies, decide_eq_true_eq, not_and, not_not]
        at alike
      constructor
      · intro same i
        by_cases first : i.val < prefixlen / 8
        · rw [alike i first]
        · by_cases last : i.val = prefixlen / 8 ∧ prefixlen % 8 ≠ 0
          · rcases i with ⟨i, bound⟩
            obtain ⟨rfl, part⟩ := last
            rw [dif_pos ⟨bound, part⟩, byteDiff_iff] at same
            rwa [prefixlen2mask6, if_neg (lt_irrefl _), if_pos ⟨rfl, part⟩]
          · simp [prefixlen2mask6, first, last]
      · intro same
        split
        · next last =>
          have byte := same ⟨_, last.1⟩
          rw [prefixlen2mask6, if_neg (lt_irrefl _), if_pos ⟨rfl, last.2⟩] at byte
          exact byteDiff_iff.mpr byte
        · rfl

theorem prefixcmp_inet (len : prefixlen ≤ 32) (a b : UInt32) :
    ldpPrefixcmp .inet a b prefixlen = some 0 ↔
      a &&& prefixlen2mask prefixlen = b &&& prefixlen2mask prefixlen := by
  simp only [ldpPrefixcmp]
  split
  · next none => simp [prefixlen2mask, none]
  · rw [if_neg (by omega), Option.some_inj, ← BitVec.toInt_zero (w := 32), BitVec.toInt_inj,
      ← UInt32.toBitVec_zero, UInt32.toBitVec_inj, UInt32.sub_eq_iff_eq_add, UInt32.zero_add]

/-- Two addresses compare equal under a length exactly if they have the same masked address, and
masking is idempotent. -/
theorem masks_agree (af : Af) (prefixlen : Fin (af.maxPrefixlen + 1)) (a b : MaskedAddr af) :
    (ldpPrefixcmp af a b prefixlen = some 0 ↔
        ldpApplymask af a prefixlen = ldpApplymask af b prefixlen) ∧
      ldpApplymask af (ldpApplymask af a prefixlen) prefixlen = ldpApplymask af a prefixlen := by
  cases af with
  | inet =>
    refine ⟨prefixcmp_inet prefixlen.is_le a b, ?_⟩
    simp only [ldpApplymask, UInt32.and_assoc, UInt32.and_self]
  | inet6 =>
    refine ⟨(prefixcmp_inet6 prefixlen.is_le a b).trans funext_iff.symm, ?_⟩
    simp only [ldpApplymask, UInt8.and_assoc, UInt8.and_self]

end Mp2mp.Ldpd
