import ApproxSet.Allocator
import ApproxSet.Proofs.Codec

/-!
# Granted and refused memory

Requests made together are granted if each of them is, and otherwise the refusal names one of them.
Steps that may be refused either do what they would do with all the memory they want, or end in the
refusal.
-/

namespace ApproxSet

open Codec (bind_eq_ok_iff)

namespace Allocator

variable {a : Allocator} {rs : List Request}

theorem request_eq_ok_iff : a.request rs = .ok () ↔ ∀ r ∈ rs, a.allows r = true := by
  unfold request
  cases hfind : rs.find? fun r => !a.allows r with
  | none => simpa using hfind
  | some r =>
      have hrefused := List.find?_some hfind
      have hmem := List.mem_of_find?_eq_some hfind
      constructor
      · intro h
        cases h
      · intro hall
        simp only [hall r hmem, Bool.not_true] at hrefused
        cases hrefused

theorem exists_refused {e : FilterError} (h : a.request rs = .error e) :
    ∃ r ∈ rs, a.allows r = false ∧ e = .allocationRefused r.bytes := by
  unfold request at h
  cases hfind : rs.find? fun r => !a.allows r with
  | none =>
      rw [hfind] at h
      cases h
  | some r =>
      rw [hfind] at h
      cases h
      have hrefused := List.find?_some hfind
      simp only [Bool.not_eq_true'] at hrefused
      exact ⟨r, List.mem_of_find?_eq_some hfind, hrefused, rfl⟩

theorem exists_bytes {e : FilterError} (h : a.request rs = .error e) :
    ∃ bytes, e = .allocationRefused bytes := by
  rcases exists_refused h with ⟨r, -, -, rfl⟩
  exact ⟨_, rfl⟩

theorem eq_of_refused {e : FilterError} {bytes : Nat} (hbytes : ∀ r ∈ rs, r.bytes = bytes)
    (h : a.request rs = .error e) : e = .allocationRefused bytes := by
  rcases exists_refused h with ⟨r, hr, -, rfl⟩
  rw [hbytes r hr]

theorem lt_of_request_fresh {array bytes : Nat} (h : a.request [.fresh array bytes] = .ok ()) :
    bytes < 2 ^ 63 := by
  have hallows := request_eq_ok_iff.mp h _ List.mem_cons_self
  unfold allows at hallows
  rcases Bool.or_eq_true_iff.mp hallows with hzero | hgrants
  · have hbytes : bytes = 0 := by simpa [Request.bytes] using hzero
    rw [hbytes]
    decide
  · exact a.lt_of_grants_fresh array bytes hgrants

theorem allows_of_grants {r : Request} (h : a.grants r = true) : a.allows r = true := by
  rw [allows, h, Bool.or_true]

/-- Arrays that exist may always grow. -/
def GrantsRoom (a : Allocator) : Prop :=
  ∀ array bytes held, a.grants (.room array bytes held) = true

theorem grantsRoom_upTo (limit : Nat) : (upTo limit).GrantsRoom := fun _ _ _ => rfl

/-- What is small enough is granted. -/
theorem request_upTo {limit : Nat} (h : ∀ r ∈ rs, r.bytes < min limit (2 ^ 63)) :
    (upTo limit).request rs = .ok () := by
  apply request_eq_ok_iff.mpr
  intro r hr
  apply allows_of_grants
  cases r with
  | fresh array bytes => exact decide_eq_true (h _ hr)
  | room array bytes held => rfl

theorem grantsRoom_standard : standard.GrantsRoom := grantsRoom_upTo _

/-- Refuses room in arrays that exist, and new arrays only if they are too large for any allocator. -/
def tight : Allocator where
  grants
    | .fresh _ bytes => decide (bytes < 2 ^ 63)
    | .room .. => false
  lt_of_grants_fresh _ _ h := of_decide_eq_true h

end Allocator

/-! ## Steps that may be refused -/

/-- If each step that succeeds is a step of another fold, so is the run. -/
theorem eq_foldl_of_foldlM {α β : Type} {step : β → α → Except FilterError β} {total : β → α → β}
    (hstep : ∀ b x c, step b x = .ok c → c = total b x) {xs : List α} {start last : β}
    (h : xs.foldlM step start = .ok last) : last = xs.foldl total start := by
  induction xs generalizing start with
  | nil =>
      cases h
      rfl
  | cons x xs ih =>
      rw [List.foldlM_cons] at h
      obtain ⟨next, hnext, hrest⟩ := bind_eq_ok_iff.mp h
      rw [List.foldl_cons, ← hstep start x next hnext]
      exact ih hrest

/-- If no step fails, the run does not. -/
theorem foldlM_eq_ok {α β : Type} {step : β → α → Except FilterError β} {total : β → α → β}
    (hstep : ∀ b x, step b x = .ok (total b x)) (xs : List α) (start : β) :
    xs.foldlM step start = .ok (xs.foldl total start) := by
  induction xs generalizing start with
  | nil => rfl
  | cons x xs ih =>
      rw [List.foldlM_cons, hstep, List.foldl_cons]
      exact ih _

end ApproxSet
