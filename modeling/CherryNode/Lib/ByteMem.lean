import Mathlib

/-!
# Byte memories and little-endian words

A linear memory is a function from addresses to bytes.  `readBytes` reads `n`
bytes from an address and `writeBytes` stores a list of bytes there; a word is
stored as its little-endian bytes (`toLeBytes`) and read back with
`fromLeBytes`.  The lemmas are what a program that keeps its own records in
such a memory needs: a word read where it was written is the word
(`fromLeBytes_toLeBytes`, `readBytes_writeBytes_self`), and a write or any
other change outside a range leaves what is read there (`writeBytes_of_lt`,
`writeBytes_of_le`, `readBytes_congr`).
-/

namespace ByteMem

/-- The `n` low bytes of `v`, least significant first (`to_le_bytes`). -/
def toLeBytes : Nat → Nat → List UInt8
  | 0, _ => []
  | n + 1, v => (v % 256).toUInt8 :: toLeBytes n (v / 256)

/-- The number whose little-endian bytes are `bs` (`from_le_bytes`). -/
def fromLeBytes : List UInt8 → Nat
  | [] => 0
  | b :: bs => b.toNat + 256 * fromLeBytes bs

@[simp] theorem length_toLeBytes (n v : Nat) : (toLeBytes n v).length = n := by
  induction n generalizing v with
  | zero => rfl
  | succ n ih => simp [toLeBytes, ih]

/-- **Little-endian round trip**: the `n` bytes of `v` read back are `v`
modulo `256 ^ n`. -/
theorem fromLeBytes_toLeBytes (n v : Nat) : fromLeBytes (toLeBytes n v) = v % 256 ^ n := by
  induction n generalizing v with
  | zero => simp [toLeBytes, fromLeBytes, Nat.mod_one]
  | succ n ih =>
    have hbyte : ((v % 256).toUInt8).toNat = v % 256 := by simp
    simp only [toLeBytes, fromLeBytes, hbyte, ih]
    -- `v = v % 256 + 256 * (v / 256)`, and the high part is taken modulo `256 ^ n`
    rw [Nat.pow_succ, Nat.mul_comm (256 ^ n) 256, Nat.mod_mul]

/-- The `n` bytes of `byte` from `start` on. -/
def readBytes (byte : Nat → UInt8) (start n : Nat) : List UInt8 :=
  (List.range n).map fun i => byte (start + i)

/-- `byte` with `bs` stored from `start` on. -/
def writeBytes (byte : Nat → UInt8) (start : Nat) (bs : List UInt8) : Nat → UInt8 := fun a =>
  if start ≤ a ∧ a < start + bs.length then bs.getD (a - start) 0 else byte a

@[simp] theorem length_readBytes (byte : Nat → UInt8) (start n : Nat) : (readBytes byte start n).length = n := by
  simp [readBytes]

/-- Reading depends only on the bytes read. -/
theorem readBytes_congr {byte byte' : Nat → UInt8} {start n : Nat}
    (h : ∀ i < n, byte' (start + i) = byte (start + i)) : readBytes byte' start n = readBytes byte start n := by
  apply List.map_congr_left
  intro i hi
  exact h i (List.mem_range.mp hi)

variable {bs : List UInt8} {start a : Nat}

theorem writeBytes_of_lt {byte : Nat → UInt8} (h : a < start) :
    writeBytes byte start bs a = byte a := by
  simp only [writeBytes]
  rw [if_neg (by omega)]

theorem writeBytes_of_le {byte : Nat → UInt8} (h : start + bs.length ≤ a) :
    writeBytes byte start bs a = byte a := by
  simp only [writeBytes]
  rw [if_neg (by omega)]

/-- **What was written is read.** -/
theorem readBytes_writeBytes_self (byte : Nat → UInt8) (start : Nat) (bs : List UInt8) :
    readBytes (writeBytes byte start bs) start bs.length = bs := by
  apply List.ext_getElem (by simp)
  intro i hi _
  have hi' : i < bs.length := by simpa using hi
  simp only [readBytes, List.getElem_map, List.getElem_range, writeBytes]
  rw [if_pos (by omega), Nat.add_sub_cancel_left]
  simp [hi']

theorem readBytes_writeBytes_of_disjoint {byte : Nat → UInt8} {start q n : Nat}
    (h : q + n ≤ start ∨ start + bs.length ≤ q) : readBytes (writeBytes byte start bs) q n = readBytes byte q n := by
  apply readBytes_congr
  intro i hi
  rcases h with h | h
  · exact writeBytes_of_lt (by omega)
  · exact writeBytes_of_le (by omega)

end ByteMem
