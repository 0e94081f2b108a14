import ApproxSet.Codec

/-!
# Reading back what was written

`c.Reads x y` says that the bytes of `x`, whatever follows them, are read as `y` and are used up. A
sequence is read back if its values are; a number that is too wide for its bytes is read as its
remainder.
-/

namespace ApproxSet.Codec

variable {α β : Type}

theorem ok_bind {ε : Type} (x : α) (f : α → Except ε β) : (Except.ok x >>= f) = f x := rfl

theorem bind_eq_ok_iff {ε : Type} {x : Except ε α} {f : α → Except ε β} {y : β} :
    (x >>= f) = .ok y ↔ ∃ a, x = .ok a ∧ f a = .ok y := by
  cases x with
  | error e =>
      constructor
      · intro h
        cases h
      · rintro ⟨a, h, -⟩
        cases h
  | ok a =>
      rw [ok_bind]
      simp

/-- The bytes that `c` writes for `x` are read as `y`. -/
def Reads (c : Codec α) (x y : α) : Prop :=
  ∀ rest, c.decode (c.encode x ++ rest) = .ok (y, rest)

theorem readLittleEndian_littleEndian (width n : Nat) (rest : List UInt8) :
    readLittleEndian width (littleEndian width n ++ rest) = .ok (n % 256 ^ width, rest) := by
  induction width generalizing n with
  | zero => simp [littleEndian, readLittleEndian, Nat.mod_one]
  | succ width ih =>
      have hdigit : (UInt8.ofNat n).toNat = n % 256 := by simp
      simp only [littleEndian, List.cons_append, readLittleEndian, ih, hdigit]
      rw [Nat.pow_succ', Nat.mod_mul]
      rfl

theorem reads_nat (width n : Nat) : (nat width).Reads n (n % 256 ^ width) :=
  readLittleEndian_littleEndian width n

theorem readMany_flatMap (c : Codec α) (xs : List α) (read : Array α) (rest : List UInt8)
    (h : ∀ x ∈ xs, c.Reads x x) :
    readMany c xs.length read (xs.flatMap c.encode ++ rest) = .ok (read ++ xs.toArray, rest) := by
  induction xs generalizing read with
  | nil => simp [readMany]
  | cons x xs ih =>
      have hx := h x List.mem_cons_self (xs.flatMap c.encode ++ rest)
      have hxs := ih (read.push x) fun y hy => h y (List.mem_cons_of_mem x hy)
      simp only [List.flatMap_cons, List.append_assoc, List.length_cons, readMany]
      rw [hx]
      simpa using hxs

theorem reads_array {c : Codec α} {xs : Array α} (hsize : xs.size < 2 ^ 64)
    (h : ∀ x ∈ xs, c.Reads x x) : c.array.Reads xs xs := by
  intro rest
  have hlength := readLittleEndian_littleEndian 8 xs.size (xs.toList.flatMap c.encode ++ rest)
  rw [Nat.mod_eq_of_lt (by simpa using hsize)] at hlength
  have hmany := readMany_flatMap c xs.toList #[] rest fun x hx => h x (Array.mem_toList_iff.mp hx)
  simp only [array, List.append_assoc]
  rw [hlength, ok_bind]
  simpa using hmany

theorem readVector_flatMap (c : Codec α) {n : Nat} (xs : Vector α n) (rest : List UInt8)
    (h : ∀ x ∈ xs, c.Reads x x) :
    readVector c n (xs.toList.flatMap c.encode ++ rest) = .ok (xs, rest) := by
  induction n generalizing rest with
  | zero =>
      have hempty : xs = #v[] := Vector.eq_empty
      rw [hempty]
      rfl
  | succ n ih =>
      obtain ⟨ys, y, rfl⟩ := @Vector.exists_push _ _ xs
      have hys := ih ys (c.encode y ++ rest) fun x hx => h x (Vector.mem_push.mpr (Or.inl hx))
      have hy := h y (Vector.mem_push.mpr (Or.inr rfl)) rest
      simp only [Vector.toList_push, List.flatMap_append, List.flatMap_cons, List.flatMap_nil,
        List.append_nil, List.append_assoc, readVector]
      rw [hys, ok_bind, hy]
      rfl

theorem reads_vector {c : Codec α} {n : Nat} {xs : Vector α n} (h : ∀ x ∈ xs, c.Reads x x) :
    (c.vector n).Reads xs xs :=
  fun rest => readVector_flatMap c xs rest h

end ApproxSet.Codec
