import ApproxSet.Sampler
import Mathlib.Logic.Function.Iterate

/-!
# Draws as slices of a stream

A sampler cuts each word of its stream from below into as many slices of `width` bits as fit, and
goes on to the next word when too few bits are left for a slice. So draw number `k` has a place of
its own: a word of the stream and a run of bits in it.
-/

namespace ApproxSet

namespace Stream

/-- Word number `n` of a stream: the state after `n` steps, folded and rotated to the right. -/
def word (s : Stream) (n : Nat) : BitVec 32 :=
  let state := (advance^[n] s).state
  ((((state >>> 18) ^^^ state) >>> 27).toUInt32.toBitVec).rotateRight (state >>> 59).toNat

/-- A rotation by two shifts. By a turn of zero the left one shifts by 32 places, that is by none. -/
theorem toBitVec_rotate (x : UInt32) {turn : UInt32} (h : turn.toNat < 32) :
    ((x >>> turn) ||| (x <<< (32 - turn))).toBitVec = x.toBitVec.rotateRight turn.toNat := by
  have hright : (turn.toBitVec % 32).toNat = turn.toNat := Nat.mod_eq_of_lt h
  have hleft : ((32 - turn).toBitVec % 32).toNat = (32 - turn.toNat) % 32 := by
    have hsub : (32 - turn).toNat = 32 - turn.toNat :=
      UInt32.toNat_sub_of_le 32 turn (UInt32.le_iff_toNat_le.mpr (Nat.le_of_lt h))
    exact congrArg (· % 32) hsub
  rw [UInt32.toBitVec_or, UInt32.toBitVec_shiftRight, UInt32.toBitVec_shiftLeft,
    BitVec.ushiftRight_eq', BitVec.shiftLeft_eq', hright, hleft, BitVec.rotateRight_def,
    Nat.mod_eq_of_lt h]
  rcases Nat.eq_zero_or_pos turn.toNat with hzero | hpos
  · rw [hzero]
    simp
  · rw [Nat.mod_eq_of_lt (Nat.sub_lt (by decide) hpos)]

theorem toBitVec_output (s : Stream) : s.output.toBitVec = s.word 0 := by
  have hlt : (s.state >>> 59).toNat < 32 := by
    rw [UInt64.toNat_shiftRight, Nat.shiftRight_eq_div_pow]
    exact Nat.div_lt_of_lt_mul s.state.toNat_lt
  have hturn : (s.state >>> 59).toUInt32.toNat = (s.state >>> 59).toNat := by
    rw [UInt64.toNat_toUInt32]
    exact Nat.mod_eq_of_lt (Nat.lt_trans hlt (by decide))
  rw [output, toBitVec_rotate _ (hturn ▸ hlt), hturn]
  rfl

end Stream

namespace Sampler

variable {width : Nat}

/-- The slices that fit into a word. -/
def perWord (width : Nat) : Nat :=
  32 / width

/-- The sampler a draw takes its slice from: it has a new word if too few bits are left. -/
def ready (s : Sampler width) : Sampler width :=
  if s.left < width then s.refill else s

theorem draw_eq (s : Sampler width) : s.draw = s.ready.slice := by
  unfold draw ready
  split <;> rfl

theorem skip_succ (s : Sampler width) (n : Nat) : s.skip (n + 1) = (s.skip n).draw.2 := by
  induction n generalizing s with
  | zero => rfl
  | succ n ih => exact ih s.draw.2

theorem draws_eq (s : Sampler width) (n : Nat) :
    s.draws n = (List.range n).map fun k => (s.skip k).draw.1 := by
  induction n generalizing s with
  | zero => rfl
  | succ n ih =>
      rw [List.range_succ_eq_map, List.map_cons, List.map_map, draws, ih]
      rfl

/-- The count of bits left goes down by the width of a draw, from 32 where the word is a new one. -/
theorem left_draw (hle : width ≤ 32) (s : Sampler width) :
    s.draw.2.left + width = if s.left < width then 32 else s.left := by
  unfold draw
  split
  · exact Nat.sub_add_cancel hle
  · rename_i henough
    exact Nat.sub_add_cancel (Nat.not_lt.mp henough)

/-! ## Words cut up -/

/-- The sampler on word number `n` of a stream with `used` slices of that word gone. -/
def cut (width : Nat) (s : Stream) (n used : Nat) : Sampler width :=
  ⟨Stream.advance^[n + 1] s, UInt32.ofNat ((s.word n).toNat / 2 ^ (width * used)),
    32 - width * used⟩

theorem slice_cut (s : Stream) (n used : Nat) :
    (cut width s n used).slice =
      (((s.word n).extractLsb' (width * used) width).toNat, cut width s n (used + 1)) := by
  have hword : (cut width s n used).word.toNat = (s.word n).toNat / 2 ^ (width * used) := by
    apply UInt32.toNat_ofNat_of_lt'
    exact Nat.lt_of_le_of_lt (Nat.div_le_self _ _) (s.word n).isLt
  unfold slice
  rw [hword, BitVec.extractLsb'_toNat, Nat.shiftRight_eq_div_pow]
  congr 1
  unfold cut
  rw [Nat.div_div_eq_div_mul, ← Nat.pow_add, Nat.mul_succ, Nat.sub_sub]

theorem mul_used_add_le {used : Nat} (h : used < perWord width) : width * used + width ≤ 32 :=
  calc width * used + width = width * (used + 1) := (Nat.mul_succ _ _).symm
    _ ≤ width * perWord width := Nat.mul_le_mul_left _ h
    _ ≤ 32 := Nat.mul_div_le 32 width

theorem ready_cut_of_lt (s : Stream) (n : Nat) {used : Nat} (h : used < perWord width) :
    (cut width s n used).ready = cut width s n used := by
  have hfits := mul_used_add_le h
  apply if_neg
  show ¬ 32 - width * used < width
  omega

/-- A new word of the stream, before any slice of it. -/
theorem refill_eq_cut {s : Sampler width} {stream : Stream} {n : Nat}
    (h : s.stream = Stream.advance^[n] stream) : s.refill = cut width stream n 0 := by
  have hnext : s.stream.advance = Stream.advance^[n + 1] stream := by
    rw [Function.iterate_succ_apply', h]
  have hword : s.stream.output = UInt32.ofNat (stream.word n).toNat := by
    have houtput : s.stream.output.toBitVec = stream.word n := by
      rw [h, Stream.toBitVec_output]
      rfl
    rw [← houtput, UInt32.toNat_toBitVec, UInt32.ofNat_toNat]
  rw [refill, cut, hnext, hword, Nat.mul_zero, Nat.pow_zero, Nat.div_one, Nat.sub_zero]

/-- What is left over when no further slice fits is dropped. -/
theorem ready_cut_perWord (hpos : 0 < width) (s : Stream) (n : Nat) :
    (cut width s n (perWord width)).ready = cut width s (n + 1) 0 := by
  have hrest : 32 - width * perWord width < width := by
    have hsplit := Nat.div_add_mod 32 width
    have hmod := Nat.mod_lt 32 hpos
    unfold perWord
    omega
  exact (if_pos hrest).trans (refill_eq_cut rfl)

/-! ## Draws one after the other -/

/-- The next number goes on in its row, or begins the next row. -/
theorem succ_div_mod (k : Nat) {m : Nat} (hm : 0 < m) :
    (k % m + 1 < m ∧ (k + 1) / m = k / m ∧ (k + 1) % m = k % m + 1) ∨
      (k % m + 1 = m ∧ (k + 1) / m = k / m + 1 ∧ (k + 1) % m = 0) := by
  have hsplit := Nat.div_add_mod k m
  rcases Nat.lt_or_eq_of_le (Nat.succ_le_of_lt (Nat.mod_lt k hm)) with hlt | hend
  · exact .inl ⟨hlt, (Nat.div_mod_unique hm).mpr ⟨by omega, hlt⟩⟩
  · refine .inr ⟨hend, (Nat.div_mod_unique hm).mpr ⟨?_, hm⟩⟩
    rw [Nat.mul_succ]
    omega

/-- A sampler without a slice left of its word, after `k` draws: the slices go through the stream
row by row, each word one row. -/
theorem ready_skip {s : Sampler width} (hpos : 0 < width) (hle : width ≤ 32)
    (hleft : s.left < width) (k : Nat) :
    (s.skip k).ready = cut width s.stream (k / perWord width) (k % perWord width) := by
  have hrow : 0 < perWord width := Nat.div_pos hle hpos
  induction k with
  | zero =>
      rw [Nat.zero_div, Nat.zero_mod]
      exact (if_pos hleft).trans (refill_eq_cut rfl)
  | succ k ih =>
      rw [skip_succ, draw_eq, ih, slice_cut]
      rcases succ_div_mod k hrow with ⟨hlt, hdiv, hmod⟩ | ⟨hend, hdiv, hmod⟩
      · rw [hdiv, hmod, ready_cut_of_lt _ _ hlt]
      · rw [hdiv, hmod, hend, ready_cut_perWord hpos]

/-- The bits of a stream that draw number `k` hands out. -/
def sliceAt (width : Nat) (s : Stream) (k : Nat) : BitVec width :=
  (s.word (k / perWord width)).extractLsb' (width * (k % perWord width)) width

theorem draw_skip {s : Sampler width} (hpos : 0 < width) (hle : width ≤ 32)
    (hleft : s.left < width) (k : Nat) :
    (s.skip k).draw.1 = (sliceAt width s.stream k).toNat := by
  rw [draw_eq, ready_skip hpos hle hleft, slice_cut]
  rfl

/-! ## Bits -/

/-- Where a bit of a draw comes from: the number of the word in the stream, and the place in it. -/
def origin (width : Nat) (bit : Nat × Fin width) : Nat × Nat :=
  (bit.1 / perWord width, width * (bit.1 % perWord width) + bit.2)

theorem getLsbD_sliceAt (s : Stream) (k : Nat) (i : Fin width) :
    (sliceAt width s k).getLsbD i =
      (s.word (origin width (k, i)).1).getLsbD (origin width (k, i)).2 := by
  rw [sliceAt, BitVec.getLsbD_extractLsb', decide_eq_true i.isLt, Bool.true_and]
  rfl

theorem origin_lt (hpos : 0 < width) (hle : width ≤ 32) (bit : Nat × Fin width) :
    (origin width bit).2 < 32 := by
  have hused := Nat.mod_lt bit.1 (Nat.div_pos hle hpos)
  exact Nat.lt_of_lt_of_le (Nat.add_lt_add_left bit.2.isLt _) (mul_used_add_le hused)

/-- Two bits from one place are bits of one draw, since the rows of a word do not overlap. -/
theorem origin_injective : Function.Injective (origin width) := by
  rintro ⟨k, i⟩ ⟨l, j⟩ h
  obtain ⟨hword, hplace⟩ := Prod.mk.inj h
  have hpos : 0 < width := Nat.zero_lt_of_lt i.isLt
  have hdiv (a : Nat) (i : Fin width) : (width * a + i) / width = a := by
    rw [Nat.mul_add_div hpos, Nat.div_eq_of_lt i.isLt, Nat.add_zero]
  have hmod (a : Nat) (i : Fin width) : (width * a + i) % width = i := by
    rw [Nat.mul_add_mod, Nat.mod_eq_of_lt i.isLt]
  have hused : k % perWord width = l % perWord width := by
    rw [← hdiv (k % perWord width) i, hplace, hdiv]
  have hbit : i = j := by
    apply Fin.ext
    rw [← hmod (k % perWord width) i, hplace, hmod]
  have hnumber : k = l := by
    rw [← Nat.div_add_mod k (perWord width), hword, hused, Nat.div_add_mod]
  rw [hnumber, hbit]

/-- The draws of a new sampler are the slices of its stream in order. Each of their bits is a bit of
the stream, and no two are the same one. The count of bits left always covers the next draw. -/
theorem draws_cut_stream (hpos : 0 < width) (hle : width ≤ 32) :
    (∀ k, let s := (start width).skip k
      s.draw.1 = (sliceAt width Stream.start k).toNat ∧ s.draw.1 < 2 ^ width ∧
        s.draw.2.left + width = if s.left < width then 32 else s.left) ∧
      (∀ n, (start width).draws n =
        (List.range n).map fun k => (sliceAt width Stream.start k).toNat) ∧
      (∀ k (i : Fin width), (sliceAt width Stream.start k).getLsbD i =
        (Stream.start.word (origin width (k, i)).1).getLsbD (origin width (k, i)).2) ∧
      (∀ bit, (origin width bit).2 < 32) ∧ Function.Injective (origin width) := by
  have hdraw (k : Nat) : ((start width).skip k).draw.1 = (sliceAt width Stream.start k).toNat :=
    draw_skip hpos hle hpos k
  refine ⟨fun k => ⟨hdraw k, draw_lt _, left_draw hle _⟩, fun n => ?_, getLsbD_sliceAt _,
    origin_lt hpos hle, origin_injective⟩
  rw [draws_eq]
  exact List.map_congr_left fun k _ => hdraw k

/-- Six slices of five bits leave two bits of a word, which are dropped: draw number 6 is the lowest
slice of the next word. -/
theorem draws_cut_stream_of_width_five :
    0 < 5 ∧ 5 ≤ 32 ∧
      (start 5).draws 8 = [19, 0, 18, 6, 9, 15, 8, 14] ∧
      ((start 5).skip 6).draw.1 = ((Stream.start.word 1).extractLsb' 0 5).toNat ∧
      ((start 5).skip 6).left = 2 ∧ ((start 5).skip 6).draw.2.left + 5 = 32 ∧
      Function.Injective (origin 5) := by
  have hpos : 0 < 5 := by decide
  have hle : 5 ≤ 32 := by decide
  rcases draws_cut_stream hpos hle with ⟨hdraw, hdraws, -, -, hinjective⟩
  rcases hdraw 6 with ⟨hslice, -, hleft⟩
  have htwo : ((start 5).skip 6).left = 2 := by decide
  rw [htwo] at hleft
  exact ⟨hpos, hle, (hdraws 8).trans (by decide), hslice, htwo, hleft, hinjective⟩

end Sampler

end ApproxSet
