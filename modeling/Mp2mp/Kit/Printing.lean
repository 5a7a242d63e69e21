import Mathlib

/-!
# Printed lists of numbers

Numbers in decimal, lists of them with a separator, and that a reader can tell where each
ends.

* `decimal_injective`: a number is determined by its digits.
* `joined_injective`: a list is determined by its text, as long as what follows the text
  cannot be taken for a continuation.
-/

namespace Mp2mp.Kit

open List

def digitChar (d : Nat) : Char := Char.ofNat (48 + d)

/-- The last `k` digits of `n`, without leading zeros. -/
def decimalFrom : Nat → Nat → List Char
  | 0, _ => []
  | k + 1, n => if n < 10 then [digitChar n] else decimalFrom k (n / 10) ++ [digitChar (n % 10)]

def decimal (n : Nat) : List Char := decimalFrom (n + 1) n

/-- The number a text denotes. -/
def ofDecimal (l : List Char) : Nat := l.foldl (fun n c => 10 * n + (c.toNat - 48)) 0

theorem digitChar_toNat : ∀ d < 10, (digitChar d).toNat - 48 = d := by decide

theorem digitChar_isDigit : ∀ d < 10, (digitChar d).isDigit = true := by decide

theorem ofDecimal_decimalFrom {k n : Nat} (h : n < k) : ofDecimal (decimalFrom k n) = n := by
  induction k generalizing n with
  | zero => omega
  | succ k ih =>
    rw [decimalFrom]
    split
    · next small => simp [ofDecimal, digitChar_toNat n small]
    · have rest := ih (n := n / 10) (by omega)
      rw [ofDecimal] at rest ⊢
      rw [foldl_append, rest, foldl_cons, foldl_nil, digitChar_toNat _ (Nat.mod_lt _ (by decide))]
      omega

theorem decimal_injective {m n : Nat} (h : decimal m = decimal n) : m = n := by
  rw [← ofDecimal_decimalFrom (Nat.lt_succ_self m), ← ofDecimal_decimalFrom (Nat.lt_succ_self n)]
  exact congrArg ofDecimal h

theorem isDigit_of_mem_decimalFrom {k n : Nat} : ∀ c ∈ decimalFrom k n, c.isDigit = true := by
  induction k generalizing n with
  | zero => simp [decimalFrom]
  | succ k ih =>
    intro c hc
    rw [decimalFrom] at hc
    split at hc
    · next small =>
        rw [mem_singleton.mp hc]
        exact digitChar_isDigit n small
    · rcases mem_append.mp hc with hc | hc
      · exact ih c hc
      · rw [mem_singleton.mp hc]
        exact digitChar_isDigit _ (Nat.mod_lt _ (by decide))

theorem decimal_ne_nil (n : Nat) : decimal n ≠ [] := by
  rw [decimal, decimalFrom]
  split <;> simp

/-! ## Lists of numbers -/

/-- The numbers with a separator between them. -/
def joined (sep : Char) : List Nat → List Char
  | [] => []
  | [n] => decimal n
  | n :: m :: l => decimal n ++ sep :: joined sep (m :: l)

/-- A text that does not start with a digit. -/
def NoDigit (r : List Char) : Prop := ∀ c ∈ r.head?, c.isDigit = false

/-- A text that does not go on with a number, nor with a separator and a number. -/
def Ends (sep : Char) (r : List Char) : Prop :=
  NoDigit r ∧ ∀ tail, r = sep :: tail → NoDigit tail

theorem takeWhile_digits {d r : List Char} (hd : ∀ c ∈ d, c.isDigit = true) (hr : NoDigit r) :
    (d ++ r).takeWhile Char.isDigit = d := by
  have stop : r.takeWhile Char.isDigit = [] := by
    cases r with
    | nil => rfl
    | cons c r => rw [takeWhile_cons, hr c (by simp)]; rfl
  rw [takeWhile_append_of_pos hd, stop, append_nil]

theorem decimal_append_inj {m n : Nat} {r r' : List Char} (hr : NoDigit r) (hr' : NoDigit r')
    (h : decimal m ++ r = decimal n ++ r') : m = n ∧ r = r' := by
  have left : (decimal m ++ r).takeWhile Char.isDigit = decimal m :=
    takeWhile_digits isDigit_of_mem_decimalFrom hr
  have right : (decimal n ++ r').takeWhile Char.isDigit = decimal n :=
    takeWhile_digits isDigit_of_mem_decimalFrom hr'
  have digits : decimal m = decimal n := by rw [← left, h, right]
  rw [digits] at h
  exact ⟨decimal_injective digits, append_cancel_left h⟩

theorem joined_head (sep : Char) {l : List Nat} (hl : l ≠ []) :
    ∃ c ∈ (joined sep l).head?, c.isDigit = true := by
  obtain ⟨n, l, rfl⟩ := exists_cons_of_ne_nil hl
  obtain ⟨c, cs, eq⟩ := exists_cons_of_ne_nil (decimal_ne_nil n)
  have digit : c.isDigit = true := by
    have hc : c ∈ decimal n := eq ▸ mem_cons_self
    exact isDigit_of_mem_decimalFrom c hc
  refine ⟨c, ?_, digit⟩
  cases l with
  | nil => simp [joined, eq]
  | cons m l => simp [joined, eq]

/-- After the first of several numbers the text does not end. -/
theorem not_ends_joined {sep : Char} {l : List Nat} {r : List Char} (hl : l ≠ [])
    (h : Ends sep (sep :: (joined sep l ++ r))) : False := by
  obtain ⟨c, head, digit⟩ := joined_head sep hl
  have := h.2 _ rfl c (mem_head?_append_of_mem_head? head)
  rw [digit] at this
  exact absurd this (by decide)

theorem joined_injective {sep : Char} {l l' : List Nat} {r r' : List Char}
    (hsep : sep.isDigit = false) (hl : l ≠ []) (hl' : l' ≠ []) (hr : Ends sep r)
    (hr' : Ends sep r') (h : joined sep l ++ r = joined sep l' ++ r') : l = l' ∧ r = r' := by
  have separated : ∀ s, NoDigit (sep :: s) := by
    intro s c hc
    obtain rfl : sep = c := by simpa using hc
    exact hsep
  induction l generalizing l' with
  | nil => exact absurd rfl hl
  | cons n l ih =>
    obtain ⟨n', l', rfl⟩ := exists_cons_of_ne_nil hl'
    cases l with
    | nil =>
      cases l' with
      | nil =>
        obtain ⟨rfl, rest⟩ := decimal_append_inj hr.1 hr'.1 h
        exact ⟨rfl, rest⟩
      | cons m' l' =>
        rw [joined, joined, append_assoc, cons_append] at h
        obtain ⟨-, rest⟩ := decimal_append_inj hr.1 (separated _) h
        exact (not_ends_joined (cons_ne_nil _ _) (rest ▸ hr)).elim
    | cons m l =>
      cases l' with
      | nil =>
        rw [joined, joined, append_assoc, cons_append] at h
        obtain ⟨-, rest⟩ := decimal_append_inj (separated _) hr'.1 h
        exact (not_ends_joined (cons_ne_nil _ _) (rest ▸ hr')).elim
      | cons m' l' =>
        rw [joined, joined, append_assoc, append_assoc, cons_append, cons_append] at h
        obtain ⟨rfl, rest⟩ := decimal_append_inj (separated _) (separated _) h
        obtain ⟨tail, last⟩ := ih (cons_ne_nil _ _) (cons_ne_nil _ _) (List.cons.inj rest).2
        exact ⟨by rw [tail], last⟩

end Mp2mp.Kit
