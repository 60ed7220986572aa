/-
PointPatch/Proofs/Machine/Basic.lean

Operations as a machine carries them out.

A machine counts in words of eight bytes and reaches into buffers by place.
Where a number does not fit into a word, where a place lies outside of a
buffer, and where something is divided by zero, it stops: that is neither a
result nor a fault.  A `Machine` operation gives a result or a fault, or it
stops; the ones that never stop are the `lift`s of the operations of the
library.

To show that an operation of the machine never stops, and gives what one of
the library gives, is to show that it is the lift of it.  Sequences are lifts
if their steps are, each on what the ones before it gave (`bind_eq_lift`), and
loops if their bodies are (`mapM_eq_lift`, `foldlM_eq_pure`).  Of an operation
that may stop, what is to be told is when it has a result (`bind_eq_pure_iff`).
-/
import PointPatch.Bytes.Chunk
import PointPatch.Fault
import PointPatch.Memory
import PointPatch.Proofs.Outcome
import Mathlib.Algebra.Group.Nat.Defs

namespace PointPatch

/-- An operation that gives a result or a fault, or stops. -/
abbrev Machine := ExceptT Fault Option

namespace Machine

variable {α β : Type}

/-- The operation that stops. -/
def halt : Machine α := ExceptT.mk none

/-- An operation of the library, which does not stop. -/
def lift (x : Except Fault α) : Machine α := ExceptT.mk (some x)

/-- How many numbers a word tells apart. -/
def wordLimit : Nat := 2 ^ 64

/-! ### Words -/

/-- The sum, which has to fit into a word. -/
def add (a b : Nat) : Machine Nat := if a + b < wordLimit then pure (a + b) else halt

/-- The product, which has to fit into a word. -/
def mul (a b : Nat) : Machine Nat := if a * b < wordLimit then pure (a * b) else halt

/-- The difference, which has to be a number. -/
def sub (a b : Nat) : Machine Nat := if b ≤ a then pure (a - b) else halt

/-- The quotient by a number other than zero. -/
def quotient (a b : Nat) : Machine Nat := if b = 0 then halt else pure (a / b)

/-- The remainder by a number other than zero. -/
def remainder (a b : Nat) : Machine Nat := if b = 0 then halt else pure (a % b)

/-! ### Buffers -/

/-- The item in a place of a buffer. -/
def item (xs : List α) (i : Nat) : Machine α :=
  match xs[i]? with
  | some x => pure x
  | none => halt

/-- The items of a buffer from one place up to another. -/
def range (start stop : Nat) (xs : List α) : Machine (List α) :=
  if start ≤ stop ∧ stop ≤ xs.length then pure (slice start (stop - start) xs) else halt

/-- The buffer with the items from one place up to another replaced by as many others. -/
def replace (start stop : Nat) (new xs : List α) : Machine (List α) :=
  if start ≤ stop ∧ stop ≤ xs.length ∧ new.length = stop - start then
    pure (overwrite start new xs)
  else halt

/-- The whole pieces of a buffer, which cannot be of size zero. -/
def pieces (size : Nat) (xs : List α) : Machine (List (List α)) :=
  if size = 0 then halt else pure (chunks size xs)

/-- A buffer that is to be had has a length that a word counts, and is not as long as can be
counted. -/
theorem succ_lt_of_grants {memory : Memory} {length : Nat} (h : memory.grants length = true) :
    length + 1 < wordLimit := by
  have hlt : length < 2 ^ 63 := memory.lt_of_grants h
  rw [wordLimit]
  omega

theorem lt_of_grants {memory : Memory} {length : Nat} (h : memory.grants length = true) :
    length < wordLimit := Nat.lt_of_succ_lt (succ_lt_of_grants h)

/-! ### Operations that do not stop -/

theorem lift_ok (a : α) : lift (.ok a) = pure a := rfl

theorem add_eq {a b : Nat} (h : a + b < wordLimit) : add a b = pure (a + b) := if_pos h

theorem mul_eq {a b : Nat} (h : a * b < wordLimit) : mul a b = pure (a * b) := if_pos h

theorem sub_eq {a b : Nat} (h : b ≤ a) : sub a b = pure (a - b) := if_pos h

theorem quotient_eq {a b : Nat} (h : b ≠ 0) : quotient a b = pure (a / b) := if_neg h

theorem remainder_eq {a b : Nat} (h : b ≠ 0) : remainder a b = pure (a % b) := if_neg h

theorem pieces_eq {size : Nat} (h : size ≠ 0) (xs : List α) :
    pieces size xs = pure (chunks size xs) := if_neg h

theorem item_eq {xs : List α} {i : Nat} {x : α} (h : xs[i]? = some x) : item xs i = pure x := by
  rw [item, h]

theorem range_eq {start stop : Nat} {xs : List α} (hstart : start ≤ stop)
    (hstop : stop ≤ xs.length) : range start stop xs = pure (slice start (stop - start) xs) :=
  if_pos ⟨hstart, hstop⟩

theorem range_to_end {start : Nat} {xs : List α} (h : start ≤ xs.length) :
    range start xs.length xs = pure (xs.drop start) := by
  rw [range_eq h (Nat.le_refl _), slice, ← List.length_drop, List.take_length]

theorem replace_eq {start stop : Nat} {new xs : List α} (hstart : start ≤ stop)
    (hstop : stop ≤ xs.length) (hnew : new.length = stop - start) :
    replace start stop new xs = pure (overwrite start new xs) :=
  if_pos ⟨hstart, hstop, hnew⟩

/-! ### Sequences -/

/-- A sequence does not stop if no step does, on what the step before it gave. -/
theorem bind_eq_lift {m : Machine α} {f : α → Machine β} {x : Except Fault α}
    {g : α → Except Fault β} (hm : m = lift x) (hf : ∀ a, x = .ok a → f a = lift (g a)) :
    (m >>= f) = lift (x >>= g) := by
  subst hm
  cases x with
  -- after a fault nothing else is done
  | error e => rfl
  | ok a => exact hf a rfl

/-- A check leads to the same fault, or on to the rest. -/
theorem check_eq_lift {c : Prop} [Decidable c] {e : Fault} {f : Unit → Machine α}
    {g : Unit → Except Fault α} (h : ¬ c → f () = lift (g ())) :
    (if c then throw e >>= f else f ()) = lift (if c then throw e >>= g else g ()) := by
  by_cases hc : c
  · rw [if_pos hc, if_pos hc]
    rfl
  · rw [if_neg hc, if_neg hc]
    exact h hc

/-! ### Results -/

theorem pure_eq_pure_iff {a b : α} : (pure a : Machine α) = pure b ↔ a = b :=
  ⟨fun h => Except.ok.inj (Option.some.inj h), congrArg pure⟩

theorem lift_eq_pure_iff {x : Except Fault α} {a : α} : lift x = pure a ↔ x = .ok a :=
  ⟨Option.some.inj, congrArg some⟩

theorem halt_ne_pure {a : α} : halt ≠ (pure a : Machine α) := by
  intro h
  cases h

theorem throw_ne_pure {e : Fault} {a : α} : throw e ≠ (pure a : Machine α) := by
  intro h
  cases h

/-- A sequence has a result exactly if every step has one, on what the step before it gave. -/
theorem bind_eq_pure_iff {m : Machine α} {f : α → Machine β} {b : β} :
    (m >>= f) = pure b ↔ ∃ a, m = pure a ∧ f a = pure b := by
  constructor
  · intro h
    rcases hm : m with - | (e | a)
    · rw [hm] at h
      exact absurd h halt_ne_pure
    · rw [hm] at h
      exact absurd h throw_ne_pure
    · rw [hm] at h
      exact ⟨a, rfl, h⟩
  · rintro ⟨a, rfl, h⟩
    exact h

/-- A number that has to meet a condition is had exactly if it does. -/
theorem ite_halt_eq_pure_iff {c : Prop} [Decidable c] {a b : α} :
    (if c then pure a else halt) = (pure b : Machine α) ↔ c ∧ a = b := by
  by_cases h : c
  · rw [if_pos h, pure_eq_pure_iff]
    exact (and_iff_right h).symm
  · rw [if_neg h]
    exact iff_of_false halt_ne_pure fun h' => h h'.1

theorem add_eq_pure_iff {a b c : Nat} : add a b = pure c ↔ a + b < wordLimit ∧ a + b = c :=
  ite_halt_eq_pure_iff

theorem mul_eq_pure_iff {a b c : Nat} : mul a b = pure c ↔ a * b < wordLimit ∧ a * b = c :=
  ite_halt_eq_pure_iff

theorem sub_eq_pure_iff {a b c : Nat} : sub a b = pure c ↔ b ≤ a ∧ a - b = c :=
  ite_halt_eq_pure_iff

/-- A check that is passed leaves the rest. -/
theorem check_eq_pure_iff {c : Prop} [Decidable c] {e : Fault} {f : Unit → Machine α} {a : α} :
    (if c then throw e >>= f else f ()) = pure a ↔ ¬ c ∧ f () = pure a := by
  by_cases h : c
  · rw [if_pos h]
    exact iff_of_false throw_ne_pure fun h' => h'.1 h
  · rw [if_neg h]
    exact (and_iff_right h).symm

/-! ### Loops -/

theorem mapM_eq_lift {f : α → Machine β} {g : α → Except Fault β} {xs : List α}
    (h : ∀ x ∈ xs, f x = lift (g x)) : xs.mapM f = lift (xs.mapM g) := by
  induction xs with
  | nil => rfl
  | cons x xs ih =>
    rw [List.mapM_cons, List.mapM_cons]
    refine bind_eq_lift (h x List.mem_cons_self) ?_
    intro y _
    exact bind_eq_lift (ih fun z hz => h z (List.mem_cons_of_mem x hz)) fun ys _ => rfl

theorem mapM_eq_pure {f : α → Machine β} {g : α → β} {xs : List α}
    (h : ∀ x ∈ xs, f x = pure (g x)) : xs.mapM f = pure (xs.map g) := by
  induction xs with
  | nil => rfl
  | cons x xs ih =>
    rw [List.mapM_cons, h x List.mem_cons_self, pure_bind,
      ih fun z hz => h z (List.mem_cons_of_mem x hz), pure_bind, List.map_cons]

theorem forM_eq_lift {f : α → Machine Unit} {g : α → Except Fault Unit} {xs : List α}
    (h : ∀ x ∈ xs, f x = lift (g x)) : xs.forM f = lift (xs.forM g) := by
  induction xs with
  | nil => rfl
  | cons x xs ih =>
    refine bind_eq_lift (h x List.mem_cons_self) ?_
    intro _ _
    exact ih fun z hz => h z (List.mem_cons_of_mem x hz)

/-- A loop does not stop if no turn of it does.  `v` shows the state of the loop as the machine
holds it, and `P` is what the turns keep. -/
theorem foldlM_view_eq_pure {σ : Type} {v : σ → β} {f : β → α → Machine β} {g : σ → α → σ}
    {P : σ → Prop} {xs : List α}
    (hstep : ∀ s, ∀ x ∈ xs, P s → f (v s) x = pure (v (g s x)) ∧ P (g s x)) {s : σ}
    (hs : P s) : xs.foldlM f (v s) = pure (v (xs.foldl g s)) := by
  induction xs generalizing s with
  | nil => rfl
  | cons x xs ih =>
    obtain ⟨hx, hnext⟩ := hstep s x List.mem_cons_self hs
    rw [List.foldlM_cons, hx, pure_bind, List.foldl_cons]
    exact ih (fun t y hy => hstep t y (List.mem_cons_of_mem x hy)) hnext

theorem foldlM_eq_pure {f : β → α → Machine β} {g : β → α → β} {P : β → Prop} {xs : List α}
    (hstep : ∀ s, ∀ x ∈ xs, P s → f s x = pure (g s x) ∧ P (g s x)) {s : β} (hs : P s) :
    xs.foldlM f s = pure (xs.foldl g s) :=
  foldlM_view_eq_pure (v := id) hstep hs

end Machine

end PointPatch
