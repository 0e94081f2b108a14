import ApproxSet.Proofs.Codec

/-!
# Exact codecs

A codec is exact if reading and writing are inverse to each other in front of any rest: what is
read is one of the values that fit, and the bytes it was read from are the bytes written for it.
Whatever is built from exact codecs is exact.
-/

namespace ApproxSet.Codec

variable {α β : Type}

/-- `c` reads `x` from exactly the bytes that it writes for `x`, and reads nothing else than what
fits. -/
def Exact (c : Codec α) (Fits : α → Prop) : Prop :=
  ∀ x bytes rest, c.decode bytes = .ok (x, rest) ↔ Fits x ∧ bytes = c.encode x ++ rest

theorem Exact.reads {c : Codec α} {P : α → Prop} (hc : c.Exact P) {x : α} (hx : P x) :
    c.Reads x x :=
  fun _ => (hc _ _ _).mpr ⟨hx, rfl⟩

/-! ## Numbers -/

theorem readLittleEndian_eq_ok_iff (width n : Nat) (bytes rest : List UInt8) :
    readLittleEndian width bytes = .ok (n, rest) ↔
      n < 256 ^ width ∧ bytes = littleEndian width n ++ rest := by
  constructor
  · intro h
    induction width generalizing n bytes with
    | zero =>
        cases h
        exact ⟨Nat.one_pos, rfl⟩
    | succ width ih =>
        cases bytes with
        | nil => cases h
        | cons b bytes =>
            obtain ⟨⟨m, tail⟩, hm, hn⟩ := bind_eq_ok_iff.mp h
            cases hn
            rcases ih m bytes hm with ⟨hlt, rfl⟩
            have hb := b.toNat_lt
            have hfirst : UInt8.ofNat (b.toNat + 256 * m) = b := by
              apply UInt8.toNat_inj.mp
              rw [UInt8.toNat_ofNat']
              omega
            have hrest : (b.toNat + 256 * m) / 256 = m := by omega
            rw [littleEndian, hfirst, hrest, Nat.pow_succ]
            exact ⟨by omega, rfl⟩
  · intro hwritten
    rcases hwritten with ⟨hlt, rfl⟩
    rw [readLittleEndian_littleEndian, Nat.mod_eq_of_lt hlt]

theorem exact_nat (width : Nat) : (nat width).Exact (· < 256 ^ width) :=
  readLittleEndian_eq_ok_iff width

theorem littleEndian_mod (width n : Nat) :
    littleEndian width (n % 256 ^ width) = littleEndian width n := by
  rcases (exact_nat width _ _ _).mp (reads_nat width n []) with ⟨-, hbytes⟩
  exact (List.append_cancel_right hbytes).symm

/-! ## Records -/

theorem Exact.pair {c : Codec α} {d : Codec β} {P : α → Prop} {Q : β → Prop} (hc : c.Exact P)
    (hd : d.Exact Q) : (c.pair d).Exact fun x => P x.1 ∧ Q x.2 := by
  intro x bytes rest
  rcases x with ⟨x, y⟩
  constructor
  · intro h
    obtain ⟨⟨x', middle⟩, hx, hsecond⟩ := bind_eq_ok_iff.mp h
    obtain ⟨⟨y', tail⟩, hy, hpair⟩ := bind_eq_ok_iff.mp hsecond
    cases hpair
    rcases (hc _ _ _).mp hx with ⟨hp, rfl⟩
    rcases (hd _ _ _).mp hy with ⟨hq, rfl⟩
    exact ⟨⟨hp, hq⟩, (List.append_assoc _ _ _).symm⟩
  · intro hwritten
    obtain ⟨⟨hp, hq⟩, rfl⟩ := hwritten
    simp only [Codec.pair, List.append_assoc]
    rw [hc.reads hp, ok_bind, hd.reads hq]
    rfl

/-- Values are accepted when they are views of what they are accepted as. -/
theorem Exact.refine {c : Codec α} {P : α → Prop} {Q : β → Prop} {accept : α → Except Defect β}
    {view : β → α} (hc : c.Exact P) (haccept : ∀ x y, P x ∧ accept x = .ok y ↔ Q y ∧ x = view y) :
    (c.refine accept view).Exact Q := by
  intro y bytes rest
  constructor
  · intro h
    obtain ⟨⟨x, middle⟩, hx, hchecked⟩ := bind_eq_ok_iff.mp h
    rcases (hc _ _ _).mp hx with ⟨hp, rfl⟩
    cases hy : accept x with
    | error d =>
        simp only [hy] at hchecked
        cases hchecked
    | ok y' =>
        simp only [hy] at hchecked
        cases hchecked
        rcases (haccept x y).mp ⟨hp, hy⟩ with ⟨hq, rfl⟩
        exact ⟨hq, rfl⟩
  · intro hwritten
    obtain ⟨hq, rfl⟩ := hwritten
    rcases (haccept _ y).mpr ⟨hq, rfl⟩ with ⟨hp, hy⟩
    simp only [Codec.refine]
    rw [hc.reads hp, ok_bind, hy]
    rfl

theorem iso_eq_refine (c : Codec α) (make : α → β) (view : β → α) :
    c.iso make view = c.refine (fun x => .ok (make x)) view := rfl

theorem Exact.iso {c : Codec α} {P : α → Prop} {Q : β → Prop} {make : α → β} {view : β → α}
    (hc : c.Exact P) (hmake : ∀ x y, P x ∧ make x = y ↔ Q y ∧ x = view y) :
    (c.iso make view).Exact Q := by
  rw [iso_eq_refine]
  apply hc.refine
  intro x y
  rw [← hmake x y, Except.ok.injEq]

/-- Two views of the same values, nothing lost either way. -/
theorem Exact.equiv {c : Codec α} {P : α → Prop} {Q : β → Prop} {make : α → β} {view : β → α}
    (hc : c.Exact P) (hview : ∀ x, view (make x) = x) (hmake : ∀ y, make (view y) = y)
    (hfits : ∀ y, P (view y) ↔ Q y) : (c.iso make view).Exact Q := by
  apply hc.iso
  intro x y
  rw [← hfits]
  constructor
  · rintro ⟨hp, rfl⟩
    exact ⟨(hview x).symm ▸ hp, (hview x).symm⟩
  · rintro ⟨hp, rfl⟩
    exact ⟨hp, hmake y⟩

/-! ## Words -/

theorem exact_word {ω : Type} {width : Nat} {ofNat : Nat → ω} {toNat : ω → Nat}
    (hlt : ∀ x, toNat x < 256 ^ width) (hto : ∀ n < 256 ^ width, toNat (ofNat n) = n)
    (hof : ∀ x, ofNat (toNat x) = x) : ((nat width).iso ofNat toNat).Exact fun _ => True := by
  apply (exact_nat width).iso
  intro n x
  constructor
  · rintro ⟨hn, rfl⟩
    exact ⟨trivial, (hto n hn).symm⟩
  · rintro ⟨-, rfl⟩
    exact ⟨hlt x, hof x⟩

theorem exact_word8 : word8.Exact fun _ => True :=
  exact_word UInt8.toNat_lt (fun _ => UInt8.toNat_ofNat_of_lt') fun _ => UInt8.ofNat_toNat

theorem exact_word16 : word16.Exact fun _ => True :=
  exact_word UInt16.toNat_lt (fun _ => UInt16.toNat_ofNat_of_lt') fun _ => UInt16.ofNat_toNat

theorem exact_word32 : word32.Exact fun _ => True :=
  exact_word UInt32.toNat_lt (fun _ => UInt32.toNat_ofNat_of_lt') fun _ => UInt32.ofNat_toNat

theorem exact_word64 : word64.Exact fun _ => True :=
  exact_word UInt64.toNat_lt (fun _ => UInt64.toNat_ofNat_of_lt') fun _ => UInt64.ofNat_toNat

/-! ## Sequences -/

theorem Exact.readMany_eq_ok_iff {c : Codec α} {P : α → Prop} (hc : c.Exact P) (n : Nat)
    (read out : Array α) (bytes rest : List UInt8) :
    readMany c n read bytes = .ok (out, rest) ↔
      ∃ xs : List α, xs.length = n ∧ (∀ x ∈ xs, P x) ∧ out = read ++ xs.toArray ∧
        bytes = xs.flatMap c.encode ++ rest := by
  constructor
  · intro h
    induction n generalizing read bytes with
    | zero =>
        cases h
        exact ⟨[], rfl, by simp, by simp, by simp⟩
    | succ n ih =>
        cases hx : c.decode bytes with
        | error e =>
            simp only [readMany, hx] at h
            cases h
        | ok first =>
            rcases first with ⟨x, middle⟩
            simp only [readMany, hx] at h
            rcases ih _ _ h with ⟨xs, hlen, hxs, rfl, rfl⟩
            rcases (hc _ _ _).mp hx with ⟨hp, rfl⟩
            exact ⟨x :: xs, congrArg (· + 1) hlen, by simpa using ⟨hp, hxs⟩, by simp, by simp⟩
  · rintro ⟨xs, rfl, hxs, rfl, rfl⟩
    exact readMany_flatMap c xs read rest fun x hx => hc.reads (hxs x hx)

theorem Exact.array {c : Codec α} {P : α → Prop} (hc : c.Exact P) :
    c.array.Exact fun xs => xs.size < 2 ^ 64 ∧ ∀ x ∈ xs, P x := by
  intro xs bytes rest
  constructor
  · intro h
    obtain ⟨⟨n, middle⟩, hn, hmany⟩ := bind_eq_ok_iff.mp h
    rcases (readLittleEndian_eq_ok_iff _ _ _ _).mp hn with ⟨hlt, rfl⟩
    rcases (hc.readMany_eq_ok_iff _ _ _ _ _).mp hmany with ⟨ys, rfl, hys, rfl, rfl⟩
    refine ⟨⟨by simpa using hlt, by simpa using hys⟩, ?_⟩
    simp [Codec.array]
  · rintro ⟨⟨hsize, hxs⟩, rfl⟩
    exact reads_array hsize (fun x hx => hc.reads (hxs x hx)) rest

theorem Exact.vector {c : Codec α} {P : α → Prop} (hc : c.Exact P) (n : Nat) :
    (c.vector n).Exact fun xs => ∀ x ∈ xs, P x := by
  intro xs bytes rest
  constructor
  · intro h
    show (∀ x ∈ xs, P x) ∧ bytes = xs.toList.flatMap c.encode ++ rest
    replace h : readVector c n bytes = .ok (xs, rest) := h
    induction n generalizing rest with
    | zero =>
        cases h
        exact ⟨by simp, rfl⟩
    | succ n ih =>
        obtain ⟨⟨ys, middle⟩, hys, hlast⟩ := bind_eq_ok_iff.mp h
        obtain ⟨⟨y, tail⟩, hy, hpush⟩ := bind_eq_ok_iff.mp hlast
        cases hpush
        rcases ih ys middle hys with ⟨hall, rfl⟩
        rcases (hc _ _ _).mp hy with ⟨hp, rfl⟩
        constructor
        · intro x hx
          rcases Vector.mem_push.mp hx with hx | rfl
          · exact hall x hx
          · exact hp
        · simp [Vector.toList_push]
  · rintro ⟨hxs, rfl⟩
    exact reads_vector (fun x hx => hc.reads (hxs x hx)) rest

end ApproxSet.Codec
