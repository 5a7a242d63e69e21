import Mathlib

/-!
# Byte strings

Numbers in network byte order, and memory read as byte strings.

* `toBe n x`: the `n` low base-256 digits of `x`, most significant first;
  `ofBe` reads them back.
* `slice mem off n`: the `n` bytes of memory from offset `off` on;
  `overwrite bytes region`: a region after a copy over its start.
-/

namespace Mp2mp.Kit

open List

/-! ## Network byte order -/

/-- The `n` low base-256 digits of `x`, most significant first. -/
def toBe : Nat → Nat → List UInt8
  | 0, _ => []
  | n + 1, x => toBe n (x / 256) ++ [UInt8.ofNat x]

/-- The number a byte string denotes, most significant byte first. -/
def ofBe (l : List UInt8) : Nat := l.foldl (fun x b => 256 * x + b.toNat) 0

@[simp]
theorem length_toBe (n x : Nat) : (toBe n x).length = n := by
  induction n generalizing x with
  | zero => rfl
  | succ n ih => simp [toBe, ih]

theorem ofBe_concat (l : List UInt8) (b : UInt8) : ofBe (l ++ [b]) = 256 * ofBe l + b.toNat := by
  simp [ofBe]

theorem ofBe_toBe (n x : Nat) : ofBe (toBe n x) = x % 256 ^ n := by
  induction n generalizing x with
  | zero => simp [toBe, ofBe, Nat.mod_one]
  | succ n ih =>
    have digits : x % 256 ^ (n + 1) = x % 256 + 256 * (x / 256 % 256 ^ n) := by
      rw [pow_succ', Nat.mod_mul]
    rw [toBe, ofBe_concat, ih, UInt8.toNat_ofNat', digits]
    omega

theorem toBe_ofBe (l : List UInt8) : toBe l.length (ofBe l) = l := by
  induction l using reverseRecOn with
  | nil => rfl
  | append_singleton l b ih =>
    have hb := b.toNat_lt
    have low : UInt8.ofNat (256 * ofBe l + b.toNat) = b := by
      apply UInt8.toNat_inj.mp
      rw [UInt8.toNat_ofNat']
      omega
    have high : (256 * ofBe l + b.toNat) / 256 = ofBe l := by omega
    rw [length_append, length_singleton, ofBe_concat, toBe, low, high, ih]

theorem ofBe_lt (l : List UInt8) : ofBe l < 256 ^ l.length := by
  have h := ofBe_toBe l.length (ofBe l)
  rw [toBe_ofBe] at h
  rw [h]
  exact Nat.mod_lt _ (by positivity)

/-- Byte strings of one length are equal when they denote the same number. -/
theorem eq_of_ofBe_eq {l l' : List UInt8} (hlen : l.length = l'.length)
    (h : ofBe l = ofBe l') : l = l' := by
  rw [← toBe_ofBe l, ← toBe_ofBe l', hlen, h]

/-! ## Memory -/

/-- Copy a byte string over the start of a region. -/
def overwrite (bytes region : List UInt8) : List UInt8 := bytes ++ region.drop bytes.length

theorem take_overwrite (bytes region : List UInt8) (k : Nat) :
    (overwrite bytes region).take k = bytes.take k ++ (region.take k).drop bytes.length := by
  rw [overwrite, take_append, drop_take]

/-- Memory from some address on, by offset. -/
abbrev Mem := Nat → UInt8

/-- The `n` bytes from offset `off` on. -/
def slice (mem : Mem) (off n : Nat) : List UInt8 := (List.range n).map fun i => mem (off + i)

/-- Memory that holds a byte string at offset zero. -/
def Mem.ofList (l : List UInt8) : Mem := fun i => l.getD i 0

@[simp]
theorem length_slice (mem : Mem) (off n : Nat) : (slice mem off n).length = n := by
  simp [slice]

theorem slice_one (mem : Mem) (off : Nat) : slice mem off 1 = [mem off] := by
  simp [slice]

theorem slice_add (mem : Mem) (off m n : Nat) :
    slice mem off (m + n) = slice mem off m ++ slice mem (off + m) n := by
  simp [slice, range_add, Function.comp_def, Nat.add_assoc]

/-- Memory that holds a concatenation holds its two halves one after the other. -/
theorem slice_append {mem : Mem} {off : Nat} {l l' : List UInt8}
    (h : slice mem off (l ++ l').length = l ++ l') :
    slice mem off l.length = l ∧ slice mem (off + l.length) l'.length = l' := by
  rw [length_append, slice_add] at h
  exact append_inj h (length_slice ..)

theorem slice_ofList (l : List UInt8) : slice (Mem.ofList l) 0 l.length = l := by
  apply ext_getElem
  · simp
  · intro i _ hi
    simp [slice, Mem.ofList, hi]

end Mp2mp.Kit
