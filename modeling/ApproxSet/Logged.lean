import ApproxSet.Error
import ApproxSet.Event

/-!
# Values with their events

`Logged α` is a value together with the events of computing it, first to last. Statements about a
computation read its `value`: events never decide anything.
-/

namespace ApproxSet

/-- A value and what was reported on the way to it. -/
structure Logged (α : Type) where
  value : α
  events : Array Event

namespace Logged

variable {α β : Type}

@[inline] protected def pure (x : α) : Logged α := ⟨x, #[]⟩

@[inline] protected def bind (x : Logged α) (f : α → Logged β) : Logged β :=
  match x with
  | ⟨v, before⟩ =>
    match f v with
    | ⟨w, after⟩ => ⟨w, before ++ after⟩

def report (x : α) (e : Event) : Logged α := ⟨x, #[e]⟩

instance : Monad Logged where
  pure := Logged.pure
  bind := Logged.bind

/-- A fold whose steps may fail. The first failure ends it. -/
@[specialize] def foldTry (step : β → α → Logged (Except FilterError β)) (start : β)
    (xs : List α) : Logged (Except FilterError β) :=
  xs.foldl
    (fun acc x => acc.bind fun
      | .ok b => step b x
      | .error e => Logged.pure (.error e))
    (Logged.pure (.ok start))

theorem pure_bind (x : α) (f : α → Logged β) : (pure x : Logged α) >>= f = f x := by
  show Logged.mk (f x).value (#[] ++ (f x).events) = f x
  rw [Array.empty_append]

@[simp] theorem value_pure (x : α) : (pure x : Logged α).value = x := rfl

@[simp] theorem value_bind (x : Logged α) (f : α → Logged β) :
    (x >>= f).value = (f x.value).value := rfl

@[simp] theorem events_bind (x : Logged α) (f : α → Logged β) :
    (x >>= f).events = x.events ++ (f x.value).events := rfl

@[simp] theorem value_report (x : α) (e : Event) : (report x e).value = x := rfl

@[simp] theorem value_map (f : α → β) (x : Logged α) : (f <$> x).value = f x.value := rfl

theorem value_foldl_try (step : β → α → Logged (Except FilterError β))
    (acc : Logged (Except FilterError β)) (xs : List α) :
    (xs.foldl
      (fun acc x => acc.bind fun
        | .ok b => step b x
        | .error e => Logged.pure (.error e)) acc).value =
      acc.value >>= fun b => xs.foldlM (fun b x => (step b x).value) b := by
  induction xs generalizing acc with
  | nil => cases h : acc.value <;> exact h
  | cons x xs ih =>
      rw [List.foldl_cons, ih]
      show (match acc.value with
        | .ok b => step b x
        | .error e => Logged.pure (.error e)).value >>= _ = _
      cases acc.value <;> rfl

@[simp] theorem value_foldTry (step : β → α → Logged (Except FilterError β)) (start : β)
    (xs : List α) :
    (foldTry step start xs).value = xs.foldlM (fun b x => (step b x).value) start :=
  value_foldl_try step _ xs

end Logged

/-- What an operation leaves behind: a filter, and why it stopped if it did not finish. -/
structure Outcome (φ : Type) where
  filter : φ
  failure : Option FilterError

namespace Outcome

variable {φ : Type}

def done (f : φ) : Outcome φ := ⟨f, none⟩

def failed (f : φ) (e : FilterError) : Outcome φ := ⟨f, some e⟩

/-- What an operation leaves of `f` that changes nothing where it fails. -/
def ofExcept (f : φ) : Except FilterError φ → Outcome φ
  | .ok g => .done g
  | .error e => .failed f e

/-- The filter of an operation that finished. -/
def toExcept : Outcome φ → Except FilterError φ
  | ⟨f, none⟩ => .ok f
  | ⟨_, some e⟩ => .error e

/-- The same outcome in a larger type of filters. -/
def map {ψ : Type} (g : φ → ψ) : Outcome φ → Outcome ψ
  | ⟨f, failure⟩ => ⟨g f, failure⟩

end Outcome

end ApproxSet
