import Mathlib

/-!
# The Internet checksum

`in_cksum` of `lib/checksum.c` on the words of a buffer in the order of the host, with the word
`oddbyte` for the last byte of an odd length.

* `cksum_verifies`: a buffer with its checksum verifies, and with one other word it does not.
-/

namespace Mp2mp.Lib

open List

def wordSum (ptr : List UInt16) (oddbyte : Option UInt16) : Nat :=
  (ptr.map UInt16.toNat).sum + oddbyte.elim 0 UInt16.toNat

/-- The two carries. -/
def foldCarries (sum : Nat) : Nat :=
  let sum := sum / 2 ^ 16 + sum % 2 ^ 16
  (sum + sum / 2 ^ 16) % 2 ^ 16

def inCksum (ptr : List UInt16) (oddbyte : Option UInt16) : UInt16 :=
  ~~~.ofNat (foldCarries (wordSum ptr oddbyte))

variable {ptr : List UInt16} (oddbyte : Option UInt16) {i : Nat} {w : UInt16}

theorem foldCarries_spec {sum : Nat} (small : sum ≤ 2 ^ 15 * 65535) :
    foldCarries sum ≤ 65535 ∧ (foldCarries sum = 0 ↔ sum = 0) ∧
      ∃ k, sum = 65535 * k + foldCarries sum := by
  simp only [foldCarries]
  have carry : (sum / 2 ^ 16 + sum % 2 ^ 16) / 2 ^ 16 = 0 ∨
      (sum / 2 ^ 16 + sum % 2 ^ 16) / 2 ^ 16 = 1 := by omega
  refine ⟨by omega, by rcases carry with none | one <;> omega,
    sum / 2 ^ 16 + (sum / 2 ^ 16 + sum % 2 ^ 16) / 2 ^ 16, ?_⟩
  omega

theorem wordSum_le (long : ptr.length < 2 ^ 15) : wordSum ptr oddbyte ≤ 2 ^ 15 * 65535 := by
  have words := sum_le_card_nsmul (ptr.map UInt16.toNat) 65535 (by
    intro n mem
    obtain ⟨w, -, rfl⟩ := mem_map.mp mem
    exact Nat.le_of_lt_succ w.toNat_lt)
  have odd : oddbyte.elim 0 UInt16.toNat ≤ 65535 := by
    cases oddbyte with
    | none => exact zero_le
    | some w => exact Nat.le_of_lt_succ w.toNat_lt
  rw [length_map, Nat.nsmul_eq_mul] at words
  rw [wordSum]
  omega

theorem wordSum_set (inside : i < ptr.length) :
    wordSum (ptr.set i w) oddbyte + ptr[i].toNat = wordSum ptr oddbyte + w.toNat := by
  have whole := sum_take_add_sum_drop (ptr.map UInt16.toNat) i
  rw [drop_eq_getElem_cons (by simpa using inside), sum_cons, getElem_map] at whole
  rw [wordSum, wordSum, map_set, sum_set, if_pos (by simpa using inside), ← whole]
  omega

theorem toNat_inCksum (long : ptr.length < 2 ^ 15) :
    (inCksum ptr oddbyte).toNat = 65535 - foldCarries (wordSum ptr oddbyte) := by
  have le := (foldCarries_spec (wordSum_le oddbyte long)).1
  rw [inCksum, UInt16.toNat_not, UInt16.toNat_ofNat', Nat.mod_eq_of_lt (by omega), UInt16.size]

/-- The buffer verifies. -/
theorem inCksum_eq_zero_iff (long : ptr.length < 2 ^ 15) :
    inCksum ptr oddbyte = 0 ↔ wordSum ptr oddbyte % 65535 = 0 ∧ wordSum ptr oddbyte ≠ 0 := by
  obtain ⟨le, zero, k, eq⟩ := foldCarries_spec (wordSum_le oddbyte long)
  rw [← UInt16.toNat_inj, toNat_inCksum oddbyte long, UInt16.toNat_zero]
  omega

/-- Stored in a field that was clear, the checksum makes the whole check, and no change of one word
goes unnoticed unless it is between the two forms of zero. -/
theorem cksum_verifies (long : ptr.length < 2 ^ 15) (inside : i < ptr.length) (clear : ptr[i] = 0) :
    inCksum (ptr.set i (inCksum ptr oddbyte)) oddbyte = 0 ∧
      ∀ j w, ∀ old ∈ (ptr.set i (inCksum ptr oddbyte))[j]?, w ≠ old →
        ¬(old = 0 ∧ w = 0xffff) → ¬(old = 0xffff ∧ w = 0) →
          inCksum ((ptr.set i (inCksum ptr oddbyte)).set j w) oddbyte ≠ 0 := by
  obtain ⟨le, zero, k, eq⟩ := foldCarries_spec (wordSum_le oddbyte long)
  have stored := wordSum_set oddbyte (w := inCksum ptr oddbyte) inside
  have kept : (ptr.set i (inCksum ptr oddbyte)).length < 2 ^ 15 := by rwa [length_set]
  rw [clear, UInt16.toNat_zero, toNat_inCksum oddbyte long] at stored
  rw [inCksum_eq_zero_iff oddbyte kept]
  refine ⟨by omega, ?_⟩
  intro j w old mem new up down
  obtain ⟨here, rfl⟩ := List.getElem?_eq_some_iff.mp mem
  have changed := wordSum_set oddbyte (w := w) here
  rw [Ne, inCksum_eq_zero_iff oddbyte (by rwa [length_set])]
  rw [Ne, ← UInt16.toNat_inj] at new
  simp only [← UInt16.toNat_inj, UInt16.toNat_zero] at up down
  have top : (0xffff : UInt16).toNat = 65535 := rfl
  have := w.toNat_lt
  have := ((ptr.set i (inCksum ptr oddbyte))[j]).toNat_lt
  omega

theorem cksum_verifies_short : inCksum [0x1234, 0xedca] (some 1) = 0 :=
  (@cksum_verifies [0x1234, 0] (some 1) 1 (by decide) (by decide) rfl).1

end Mp2mp.Lib
