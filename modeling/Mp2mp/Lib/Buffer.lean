import Mathlib

/-!
# Buffered output

The chunks of `lib/buffer.c` between a program and a descriptor.  A `write` or `writev` accepts a
first part of what it is offered, or is to be tried again (`none`).

* `stream_kept`: no byte is lost, repeated or overtaken.
-/

namespace Mp2mp.Lib

open List

/-- `struct buffer_data` with `cp` bytes, of which some are left to flush. -/
structure BufferData (size : Nat) where
  data : List UInt8
  sp : Nat
  fits : data.length ≤ size
  left : sp < data.length

variable {size : Nat} (b : List (BufferData size)) (p : List UInt8) (accepts : Option Nat)

def bufferBytes : List UInt8 := b.flatMap fun d => d.data.drop d.sp

/-- The rounds of `buffer_put` that add chunks. -/
def bufferAdd [NeZero size] (p : List UInt8) : List (BufferData size) :=
  if more : 0 < p.length then
    ⟨p.take size, 0, length_take_le size p,
      by rw [length_take]; exact Nat.lt_min.mpr ⟨Nat.pos_of_neZero size, more⟩⟩ ::
        bufferAdd (p.drop size)
  else []
termination_by p.length
decreasing_by
  rw [length_drop]
  have := Nat.pos_of_neZero size
  omega

/-- The round of `buffer_put` that fills the last chunk. -/
def BufferData.fill (d : BufferData size) : BufferData size where
  data := d.data ++ p.take (size - d.data.length)
  sp := d.sp
  fits := by
    have := d.fits
    rw [length_append, length_take]
    omega
  left := by
    have := d.left
    rw [length_append]
    omega

def bufferPut [NeZero size] : List (BufferData size) → List UInt8 → List (BufferData size)
  | [], p => bufferAdd p
  | [d], p => d.fill p :: bufferAdd (p.drop (size - d.data.length))
  | d :: e :: b, p => d :: bufferPut (e :: b) p

/-- The results other than `BUFFER_ERROR`. -/
inductive BufferStatus
  | empty
  | pending

def bufferStatus : BufferStatus := if b.isEmpty then .empty else .pending

/-- What `writev` is offered, with `chunks` entries free and `nbyte` bytes in the others. -/
def bufferOffer (chunks nbyte : Nat) : List (BufferData size) → List UInt8
  | [] => []
  | d :: b =>
    if 0 < chunks ∧ nbyte < 131072 then
      d.data.drop d.sp ++ bufferOffer (chunks - 1) (nbyte + (d.data.length - d.sp)) b
    else []

/-- The written chunks are freed. -/
def bufferFree (written : Nat) : List (BufferData size) → List (BufferData size)
  | [] => []
  | d :: b =>
    if h : written < d.data.length - d.sp then
      { d with sp := d.sp + written, left := by omega } :: b
    else bufferFree (written - (d.data.length - d.sp)) b

/-- `buffer_flush_available`: the chunks, what the descriptor accepted, and the result. -/
def bufferFlushAvailable : (List (BufferData size) × List UInt8) × BufferStatus :=
  let iov := bufferOffer 16 0 b
  if iov.isEmpty then ((b, []), .empty)
  else
    match accepts with
    | none => ((b, []), .pending)
    | some n =>
      let written := min n iov.length
      let b' := bufferFree written b
      ((b', iov.take written), bufferStatus b')

def bufferWrite [NeZero size] : (List (BufferData size) × List UInt8) × BufferStatus :=
  let written := if b.isEmpty then accepts.getD 0 else 0
  let b' := bufferPut b (p.drop written)
  ((b', p.take written), bufferStatus b')

/-- The calls on a buffer, with what the descriptor accepts. -/
inductive BufferCall
  | put (p : List UInt8)
  | putc (c : UInt8)
  | putstr (c : List UInt8)
  | write (p : List UInt8) (accepts : Option Nat)
  | flushAvailable (accepts : Option Nat)

/-- The bytes a call submits; a string ends before its first zero. -/
def BufferCall.submitted : BufferCall → List UInt8
  | put p | write p _ => p
  | putc c => [c]
  | putstr c => c.takeWhile (· ≠ 0)
  | flushAvailable _ => []

/-- The chunks after a call and what was accepted. -/
def BufferCall.run [NeZero size] : BufferCall → List (BufferData size) × List UInt8
  | write p accepts => (bufferWrite b p accepts).1
  | flushAvailable accepts => (bufferFlushAvailable b accepts).1
  | call => (bufferPut b call.submitted, [])

/-- The chunks after calls on a new buffer, and all that was accepted. -/
def bufferRun (size : Nat) [NeZero size] (calls : List BufferCall) :
    List (BufferData size) × List UInt8 :=
  calls.foldl (fun s call => ((call.run s.1).1, s.2 ++ (call.run s.1).2)) ([], [])

variable {b}

theorem bytes_cons (d : BufferData size) :
    bufferBytes (d :: b) = d.data.drop d.sp ++ bufferBytes b :=
  flatMap_cons

theorem status_empty_iff : bufferStatus b = .empty ↔ bufferBytes b = [] := by
  cases b with
  | nil => simp [bufferStatus, bufferBytes]
  | cons d b => simp [bufferStatus, bytes_cons, Nat.not_le.mpr d.left]

theorem bytes_bufferAdd [NeZero size] : bufferBytes (bufferAdd p : List (BufferData size)) = p := by
  fun_induction bufferAdd with
  | case1 p more ih => rw [bytes_cons, ih, drop_zero, take_append_drop]
  | case2 p more => exact (length_eq_zero_iff.mp (by omega)).symm

theorem bytes_bufferPut [NeZero size] : bufferBytes (bufferPut b p) = bufferBytes b ++ p := by
  fun_induction bufferPut b p with
  | case1 p => exact bytes_bufferAdd p
  | case2 d p =>
    rw [bytes_cons, bytes_cons, bytes_bufferAdd, BufferData.fill,
      drop_append_of_le_length (Nat.le_of_lt d.left), append_assoc, take_append_drop]
    simp [bufferBytes]
  | case3 d e b p ih => rw [bytes_cons, ih, bytes_cons (b := e :: b), append_assoc]

theorem offer_isPrefix (chunks nbyte : Nat) : bufferOffer chunks nbyte b <+: bufferBytes b := by
  induction b generalizing chunks nbyte with
  | nil => exact prefix_rfl
  | cons d b ih =>
    rw [bufferOffer, bytes_cons]
    split
    · exact (prefix_append_right_inj _).mpr (ih _ _)
    · exact nil_prefix

theorem offer_eq_nil_iff : bufferOffer 16 0 b = [] ↔ bufferBytes b = [] := by
  cases b with
  | nil => exact Iff.rfl
  | cons d b => simp [bufferOffer, bytes_cons, Nat.not_le.mpr d.left]

theorem bytes_bufferFree (written : Nat) :
    bufferBytes (bufferFree written b) = (bufferBytes b).drop written := by
  induction b generalizing written with
  | nil => exact drop_nil.symm
  | cons d b ih =>
    rw [bufferFree, bytes_cons, drop_append, length_drop]
    split
    · next part => rw [bytes_cons, drop_drop, Nat.sub_eq_zero_of_le (Nat.le_of_lt part), drop_zero]
    · next whole =>
      have freed : (d.data.drop d.sp).length ≤ written := by
        rw [length_drop]
        omega
      rw [ih, drop_eq_nil_of_le freed, nil_append]

theorem flushAvailable_keeps :
    (bufferFlushAvailable b accepts).1.2 ++ bufferBytes (bufferFlushAvailable b accepts).1.1 =
        bufferBytes b ∧
      ((bufferFlushAvailable b accepts).2 = .empty ↔
        bufferBytes (bufferFlushAvailable b accepts).1.1 = []) := by
  by_cases h : bufferOffer 16 0 b = []
  · simp [bufferFlushAvailable, h, offer_eq_nil_iff.mp h]
  · have some_left := mt offer_eq_nil_iff.mpr h
    cases accepts with
    | none => simp [bufferFlushAvailable, h, some_left]
    | some n =>
      simp only [bufferFlushAvailable, List.isEmpty_iff, h, ↓reduceIte, status_empty_iff, iff_self,
        and_true, bytes_bufferFree]
      obtain ⟨rest, hrest⟩ := offer_isPrefix (b := b) 16 0
      rw [← hrest, drop_append_of_le_length (Nat.min_le_right _ _), ← append_assoc,
        take_append_drop]

/-- A call keeps the order of the bytes. -/
theorem BufferCall.run_keeps [NeZero size] (call : BufferCall) :
    (call.run b).2 ++ bufferBytes (call.run b).1 = bufferBytes b ++ call.submitted := by
  cases call with
  | put | putc | putstr => exact bytes_bufferPut _
  | write p accepts =>
    show p.take _ ++ bufferBytes (bufferPut b (p.drop _)) = bufferBytes b ++ p
    rw [bytes_bufferPut]
    cases b with
    | nil => exact take_append_drop _ p
    | cons d b => rfl
  | flushAvailable accepts =>
    rw [submitted, append_nil]
    exact (flushAvailable_keeps accepts).1

/-- What was written out and what is still buffered are together the bytes submitted, in order, and
a buffer is reported empty exactly when it holds none. -/
theorem stream_kept [NeZero size] (calls : List BufferCall) :
    (bufferRun size calls).2 ++ bufferBytes (bufferRun size calls).1 =
        calls.flatMap BufferCall.submitted ∧
      ∀ (b : List (BufferData size)) p accepts,
        ((bufferWrite b p accepts).2 = .empty ↔ bufferBytes (bufferWrite b p accepts).1.1 = []) ∧
          ((bufferFlushAvailable b accepts).2 = .empty ↔
            bufferBytes (bufferFlushAvailable b accepts).1.1 = []) := by
  constructor
  · induction calls using reverseRecOn with
    | nil => rfl
    | append_singleton calls call ih =>
      rw [flatMap_append, ← ih, append_assoc, flatMap_singleton, ← call.run_keeps, ← append_assoc]
      simp only [bufferRun, foldl_append, foldl_cons, foldl_nil]
  · intro b p accepts
    exact ⟨status_empty_iff, (flushAvailable_keeps accepts).2⟩

theorem puts_kept : (bufferRun 1 [.put [1, 2], .flushAvailable (some 1)]).2 ++
        bufferBytes (bufferRun 1 [.put [1, 2], .flushAvailable (some 1)]).1 = [1, 2] :=
  (stream_kept _).1

end Mp2mp.Lib
