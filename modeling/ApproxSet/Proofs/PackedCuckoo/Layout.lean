import ApproxSet.PackedCuckoo
import ApproxSet.Proofs.Cuckoo.Settle
import ApproxSet.Proofs.Word.Lanes

/-!
# Packed buckets

A bucket packs as a number with a digit for each slot, that number as five bytes, and a filter as the
bytes of all its buckets. What is read at the offset of a bucket is its number, and the lanes of that
are the digits.
-/

namespace ApproxSet

/-- Pieces of equal length are dropped together with what they came from. -/
theorem drop_flatMap_of_length {α β : Type} {f : α → List β} {n : Nat}
    (hf : ∀ x, (f x).length = n) (xs : List α) (i : Nat) :
    (xs.flatMap f).drop (i * n) = (xs.drop i).flatMap f := by
  induction i generalizing xs with
  | zero => simp
  | succ i ih =>
      cases xs with
      | nil => simp
      | cons x xs =>
          have hlen : (i + 1) * n = (f x).length + i * n := by
            rw [hf, Nat.add_mul, Nat.one_mul, Nat.add_comm]
          rw [List.flatMap_cons, hlen, List.drop_length_add_append, ih, List.drop_succ_cons]

namespace Word

theorem toNat_or_shiftLeft {x y : UInt64} {a b : Nat} (hx : x.toNat < 2 ^ b)
    (hy : y.toNat < 2 ^ a) (hb : b < 64) (hab : a + b ≤ 64) :
    (x ||| (y <<< UInt64.ofNat b)).toNat = x.toNat + 2 ^ b * y.toNat := by
  have hshift := toNat_shiftLeft_of_lt hy hb hab
  rw [UInt64.or_comm, toNat_or_of_mod_eq_zero (by rw [hshift, Nat.mul_mod_left]) hx, hshift,
    Nat.add_comm, Nat.mul_comm]

end Word

namespace PackedCuckoo

/-! ## Lanes -/

theorem laneOf_lt (s : Slot) : (laneOf s).toNat < 1024 := by
  unfold laneOf
  split
  · decide
  · simpa using s.fingerprint_lt

def digitsOf (slots : List Slot) : List Nat :=
  slots.map fun s => (laneOf s).toNat

theorem lt_of_mem_digitsOf {slots : List Slot} {d : Nat} (h : d ∈ digitsOf slots) : d < 1024 := by
  obtain ⟨s, -, rfl⟩ := List.mem_map.mp h
  exact laneOf_lt s

theorem toNat_foldr_laneOf (slots : List Slot) (h : slots.length ≤ 6) :
    (slots.foldr (fun s (lanes : UInt64) => laneOf s ||| (lanes <<< 10)) 0).toNat =
      Nat.ofDigits 1024 (digitsOf slots) := by
  induction slots with
  | nil => rfl
  | cons s slots ih =>
      rw [List.length_cons] at h
      have hrest := ih (Nat.le_of_succ_le h)
      have hlt : Nat.ofDigits 1024 (digitsOf slots) < 2 ^ (10 * slots.length) := by
        have hbound := Nat.ofDigits_lt_base_pow_length (b := 1024) (l := digitsOf slots)
          (by decide) fun _ => lt_of_mem_digitsOf
        rw [Nat.pow_mul]
        simpa [digitsOf] using hbound
      have hor := Word.toNat_or_shiftLeft (b := 10) (laneOf_lt s) (hrest ▸ hlt) (by decide)
        (by omega)
      rw [hrest] at hor
      exact hor

theorem toNat_wordOf (b : Bucket) :
    (wordOf b).toNat = Nat.ofDigits 1024 (digitsOf b.toList) := by
  unfold wordOf
  rw [← Vector.foldr_toList]
  exact toNat_foldr_laneOf _ (by rw [Vector.length_toList]; decide)

theorem wordOf_lt (b : Bucket) : (wordOf b).toNat < 256 ^ 5 := by
  have hbound := Nat.ofDigits_lt_base_pow_length (b := 1024) (l := digitsOf b.toList)
    (by decide) fun _ => lt_of_mem_digitsOf
  have hlen : (digitsOf b.toList).length = 4 := by simp [digitsOf]
  rw [toNat_wordOf]
  rw [hlen] at hbound
  omega

theorem lane_wordOf (b : Bucket) (i : Fin 4) :
    Lanes.lane (wordOf b) i = (laneOf (b.get i)).toNat := by
  rw [Lanes.lane_eq, toNat_wordOf, Lanes.ofDigits_digit fun _ => lt_of_mem_digitsOf]
  simp [digitsOf, Vector.get]

/-! ## Bytes -/

theorem toNat_wordAt (data : Array UInt8) (i : Nat) :
    (wordAt data i).toNat = Nat.ofDigits 256
      [(data.getD i 0).toNat, (data.getD (i + 1) 0).toNat, (data.getD (i + 2) 0).toNat,
        (data.getD (i + 3) 0).toNat, (data.getD (i + 4) 0).toNat] := by
  have hbyte (b : UInt8) : b.toUInt64.toNat < 2 ^ 8 := by
    rw [UInt8.toNat_toUInt64]
    exact b.toNat_lt
  have hput {x : UInt64} {k : Nat} (hx : x.toNat < 2 ^ k) (hk : k ≤ 32) (b : UInt8) :
      (x ||| (b.toUInt64 <<< UInt64.ofNat k)).toNat = x.toNat + 2 ^ k * b.toNat ∧
        (x ||| (b.toUInt64 <<< UInt64.ofNat k)).toNat < 2 ^ (k + 8) := by
    have hor := Word.toNat_or_shiftLeft hx (hbyte b) (by omega) (by omega)
    have hlt := Nat.mul_le_mul_left (2 ^ k) (Nat.le_of_lt_succ b.toNat_lt)
    rw [UInt8.toNat_toUInt64] at hor
    rw [hor, Nat.pow_add]
    exact ⟨rfl, by omega⟩
  have h₀ := hbyte (data.getD i 0)
  obtain ⟨e₁, h₁⟩ := hput h₀ (by decide) (data.getD (i + 1) 0)
  obtain ⟨e₂, h₂⟩ := hput h₁ (by decide) (data.getD (i + 2) 0)
  obtain ⟨e₃, h₃⟩ := hput h₂ (by decide) (data.getD (i + 3) 0)
  obtain ⟨e₄, -⟩ := hput h₃ (by decide) (data.getD (i + 4) 0)
  rw [e₃, e₂, e₁, UInt8.toNat_toUInt64] at e₄
  apply e₄.trans
  simp only [Nat.ofDigits_cons, Nat.ofDigits_nil]
  omega

/-- What is read where the bytes of a word begin is the word. -/
theorem wordAt_of_drop {data : Array UInt8} {i : Nat} {w : UInt64} {rest : List UInt8}
    (hw : w.toNat < 256 ^ 5) (h : data.toList.drop i = (bytesOf w).toList ++ rest) :
    wordAt data i = w := by
  have hbyte (j : Nat) : data.getD (i + j) 0 = ((bytesOf w).toList ++ rest).getD j 0 := by
    rw [← h]
    simp
  have hdigit {k : Nat} (hk : k < 64) : (w >>> UInt64.ofNat k).toUInt8.toNat =
      w.toNat / 2 ^ k % 256 := by
    rw [UInt64.toNat_toUInt8, Word.toNat_shiftRight_ofNat w hk]
  apply UInt64.toNat_inj.mp
  have hfirst := hbyte 0
  rw [Nat.add_zero] at hfirst
  rw [toNat_wordAt, hfirst, hbyte, hbyte, hbyte, hbyte]
  show Nat.ofDigits 256 [w.toUInt8.toNat, (w >>> UInt64.ofNat 8).toUInt8.toNat,
    (w >>> UInt64.ofNat 16).toUInt8.toNat, (w >>> UInt64.ofNat 24).toUInt8.toNat,
    (w >>> UInt64.ofNat 32).toUInt8.toNat] = w.toNat
  rw [UInt64.toNat_toUInt8, hdigit (by decide), hdigit (by decide), hdigit (by decide),
    hdigit (by decide)]
  simp only [Nat.ofDigits_cons, Nat.ofDigits_nil]
  omega

/-! ## The bytes of a filter -/

theorem toList_packTable (t : Table) :
    (packTable t).toList = t.buckets.toList.flatMap fun b => (bytesOf (wordOf b)).toList :=
  Array.toList_flatMap

theorem length_bytesOf (w : UInt64) : (bytesOf w).toList.length = bucketBytes := rfl

/-- All buckets in the order in which they are packed. -/
def bucketsOf (f : Cuckoo) : List Bucket :=
  f.tables.left.buckets.toList ++ f.tables.right.buckets.toList

theorem toList_data (f : Cuckoo) :
    (pack f).data.toList =
      (bucketsOf f).flatMap fun b => (bytesOf (wordOf b)).toList := by
  show (packTable f.tables.left ++ packTable f.tables.right).toList = _
  rw [Array.toList_append, toList_packTable, toList_packTable, bucketsOf, List.flatMap_append]

theorem length_bucketsOf {f : Cuckoo} (hf : f.Valid) :
    (bucketsOf f).length = 2 * 2 ^ f.logSide := by
  have hleft := hf.left_valid.size_eq
  have hright := hf.right_valid.size_eq
  simp only [bucketsOf, List.length_append, Array.length_toList]
  omega

theorem size_data {f : Cuckoo} (hf : f.Valid) :
    (pack f).data.size = 2 * bucketBytes * 2 ^ f.logSide := by
  rw [← Array.length_toList, toList_data, List.length_flatMap]
  simp only [length_bytesOf, List.map_const', List.sum_replicate_nat, length_bucketsOf hf]
  rw [Nat.mul_right_comm]

theorem valid_pack {f : Cuckoo} (hf : f.Valid) : (pack f).Valid :=
  ⟨hf.logSide_pos, hf.logSide_le, size_data hf⟩

theorem ofCuckoo_value (a : Allocator) (f : Cuckoo) :
    (ofCuckoo a f).value = (a.request (requests f)).map fun _ => pack f := by
  unfold ofCuckoo
  cases a.request (requests f) <;> rfl

theorem eq_pack_of_ofCuckoo {a : Allocator} {f : Cuckoo} {p : PackedCuckoo}
    (h : (ofCuckoo a f).value = .ok p) : p = pack f := by
  rw [ofCuckoo_value] at h
  cases hmemory : a.request (requests f) with
  | error e =>
      rw [hmemory] at h
      cases h
  | ok _ =>
      rw [hmemory] at h
      cases h
      rfl

theorem valid_ofCuckoo {a : Allocator} {f : Cuckoo} {p : PackedCuckoo} (hf : f.Valid)
    (h : (ofCuckoo a f).value = .ok p) : p.Valid := by
  rw [eq_pack_of_ofCuckoo h]
  exact valid_pack hf

theorem offset_eq {f : PackedCuckoo} (hf : f.Valid) (s : Side) (bucket : UInt64) :
    f.offset s bucket = (s.number * 2 ^ f.logSide + bucket.toNat) * bucketBytes := by
  unfold offset
  rw [hf.size_eq, Nat.mul_div_cancel_left _ (by decide)]

theorem getElem_bucketsOf {f : Cuckoo} (hf : f.Valid) (s : Side) {bucket : UInt64}
    (h : bucket.toNat < 2 ^ f.logSide) :
    (bucketsOf f)[s.number * 2 ^ f.logSide + bucket.toNat]? =
      some ((f.tables.get s).bucketAt bucket) := by
  have hsize := (hf.table s).size_eq
  have hleft := hf.left_valid.size_eq
  rw [Table.bucketAt_of_lt (hsize.symm ▸ h)]
  cases s with
  | left =>
      have hlt : bucket.toNat < f.tables.left.buckets.size := hleft.symm ▸ h
      simp [bucketsOf, Side.number, Both.get, List.getElem?_append_left, hlt]
  | right =>
      have hlt : bucket.toNat < f.tables.right.buckets.size := hf.right_valid.size_eq.symm ▸ h
      simp [bucketsOf, Side.number, Both.get, hleft, hlt]

/-- At the offset of a bucket stands its word. -/
theorem wordAt_offset {f : Cuckoo} (hf : f.Valid) (s : Side) {bucket : UInt64}
    (h : bucket.toNat < 2 ^ f.logSide) :
    wordAt (pack f).data ((pack f).offset s bucket) =
      wordOf ((f.tables.get s).bucketAt bucket) := by
  obtain ⟨hlt, hget⟩ := List.getElem?_eq_some_iff.mp (getElem_bucketsOf hf s h)
  have hdrop := drop_flatMap_of_length (f := fun b => (bytesOf (wordOf b)).toList)
    (fun b => length_bytesOf (wordOf b)) (bucketsOf f) (s.number * 2 ^ f.logSide + bucket.toNat)
  rw [List.drop_eq_getElem_cons hlt, hget, List.flatMap_cons] at hdrop
  apply wordAt_of_drop (wordOf_lt _)
  rw [toList_data, offset_eq (valid_pack hf)]
  exact hdrop

end PackedCuckoo

end ApproxSet
