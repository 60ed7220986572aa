/-
PointPatch/Proofs/Outcome.lean

Operations that may fail, one after another.

A sequence of operations succeeds exactly if each of them does, each on what
the ones before it gave (`bind_eq_ok_iff`); the same operation on every item
of a list succeeds exactly if it does on each item (`mapM_eq_ok_iff`).  What
every step keeps, a sequence of steps keeps (`foldlM_invariant`).

An operation may also write into a state, where what it has written stays when
a later step fails.  The same steps are taken apart there by what they return
and leave behind (`run_bind`, `run_forM`).
-/
import Mathlib.Data.List.Forall2

namespace PointPatch

variable {ε α β : Type}

theorem ok_bind (a : α) (f : α → Except ε β) : (Except.ok a >>= f) = f a := rfl

theorem error_bind (e : ε) (f : α → Except ε β) : (Except.error e >>= f) = Except.error e := rfl

theorem bind_eq_ok_iff {x : Except ε α} {f : α → Except ε β} {b : β} :
    (x >>= f) = .ok b ↔ ∃ a, x = .ok a ∧ f a = .ok b := by
  cases x with
  | error e => simp [error_bind]
  | ok a => simp [ok_bind]

theorem map_eq_ok_iff {f : α → β} {x : Except ε α} {b : β} :
    x.map f = .ok b ↔ ∃ a, x = .ok a ∧ f a = b := by
  cases x with
  | error e => simp [Except.map]
  | ok a => simp [Except.map]

theorem exists_map_eq_ok_iff {f : α → β} {x : Except ε α} :
    (∃ b, x.map f = .ok b) ↔ ∃ a, x = .ok a := by
  constructor
  · rintro ⟨b, h⟩
    obtain ⟨a, ha, -⟩ := map_eq_ok_iff.1 h
    exact ⟨a, ha⟩
  · rintro ⟨a, rfl⟩
    exact ⟨f a, rfl⟩

/-- A check that is passed leaves the rest. -/
theorem check_eq_ok_iff {c : Prop} [Decidable c] {e : ε} {rest : Unit → Except ε α} {a : α} :
    (if c then throw e >>= rest else rest ()) = .ok a ↔ ¬ c ∧ rest () = .ok a := by
  by_cases h : c
  · simp [h, throw, throwThe, MonadExceptOf.throw, error_bind]
  · simp [h]

/-- What every step keeps, a sequence of steps keeps. -/
theorem foldlM_invariant {f : β → α → Except ε β} {Inv : β → Prop}
    (hstep : ∀ s x s', Inv s → f s x = .ok s' → Inv s') {xs : List α} {s s' : β} (hs : Inv s)
    (h : xs.foldlM f s = .ok s') : Inv s' := by
  induction xs generalizing s with
  | nil =>
    cases h
    exact hs
  | cons x xs ih =>
    rw [List.foldlM_cons] at h
    obtain ⟨t, ht, h⟩ := bind_eq_ok_iff.1 h
    exact ih (hstep s x t hs ht) h

/-- Where each step on what `v` shows of a state shows the outcome of a step on the state, so does a
sequence of steps. -/
theorem foldlM_map_eq {γ : Type} {v : β → γ} {f : γ → α → Except ε γ} {g : β → α → Except ε β}
    (hstep : ∀ s x, f (v s) x = (g s x).map v) (xs : List α) (s : β) :
    xs.foldlM f (v s) = (xs.foldlM g s).map v := by
  induction xs generalizing s with
  | nil => rfl
  | cons x xs ih =>
    rw [List.foldlM_cons, List.foldlM_cons, hstep]
    rcases g s x with e | t
    · rfl
    · exact ih t

/-- Where each step is known to succeed, so is a sequence of steps. -/
theorem foldlM_eq_ok_foldl {f : β → α → Except ε β} {g : β → α → β} {xs : List α}
    (h : ∀ x ∈ xs, ∀ s, f s x = .ok (g s x)) (s : β) : xs.foldlM f s = .ok (xs.foldl g s) := by
  induction xs generalizing s with
  | nil => rfl
  | cons x xs ih =>
    rw [List.foldlM_cons, h x List.mem_cons_self, ok_bind, List.foldl_cons]
    exact ih (fun y hy => h y (List.mem_cons_of_mem x hy)) (g s x)

/-- Where no step fails, a sequence of steps does not. -/
theorem exists_foldlM {f : β → α → Except ε β} {xs : List α}
    (h : ∀ x ∈ xs, ∀ s, ∃ s', f s x = .ok s') (s : β) : ∃ s', xs.foldlM f s = .ok s' := by
  induction xs generalizing s with
  | nil => exact ⟨s, rfl⟩
  | cons x xs ih =>
    obtain ⟨t, ht⟩ := h x List.mem_cons_self s
    obtain ⟨s', hs'⟩ := ih (fun y hy => h y (List.mem_cons_of_mem x hy)) t
    exact ⟨s', bind_eq_ok_iff.2 ⟨t, ht, hs'⟩⟩

/-- Items that are related by way of a third item each are related by way of a third list. -/
theorem forall₂_exists_iff {α β γ : Type} {R : β → γ → Prop} {S : α → γ → Prop} {as : List α}
    {bs : List β} :
    as.Forall₂ (fun a b => ∃ c, R b c ∧ S a c) bs ↔ ∃ cs, bs.Forall₂ R cs ∧ as.Forall₂ S cs := by
  constructor
  · intro h
    induction h with
    | nil => exact ⟨[], .nil, .nil⟩
    | cons hab _ ih =>
      obtain ⟨c, hbc, hac⟩ := hab
      obtain ⟨cs, hbs, has⟩ := ih
      exact ⟨c :: cs, .cons hbc hbs, .cons hac has⟩
  · rintro ⟨cs, hbs, has⟩
    induction hbs generalizing as with
    | nil =>
      cases has
      exact .nil
    | cons hbc _ ih =>
      cases has with
      | cons hac has => exact .cons ⟨_, hbc, hac⟩ (ih has)

theorem exists_of_mem_right {R : α → β → Prop} {as : List α} {bs : List β} (h : as.Forall₂ R bs)
    {b : β} (hb : b ∈ bs) : ∃ a ∈ as, R a b := by
  obtain ⟨i, hi, rfl⟩ := List.mem_iff_getElem.1 hb
  have hi' : i < as.length := by rwa [h.length_eq]
  exact ⟨as[i], List.getElem_mem hi', h.get hi' hi⟩

/-- Of two related lists, what is in a place of the first has something related to it in the same
place of the second. -/
theorem exists_getElem? {R : α → β → Prop} {as : List α} {bs : List β} (h : as.Forall₂ R bs)
    {i : Nat} {a : α} (ha : as[i]? = some a) : ∃ b, bs[i]? = some b ∧ R a b := by
  obtain ⟨hi, rfl⟩ := List.getElem?_eq_some_iff.1 ha
  have hi' : i < bs.length := by rwa [← h.length_eq]
  exact ⟨bs[i], List.getElem?_eq_getElem hi', h.get hi hi'⟩

theorem exists_forall₂ {R : α → β → Prop} {as : List α} (h : ∀ a ∈ as, ∃ b, R a b) :
    ∃ bs, as.Forall₂ R bs := by
  induction as with
  | nil => exact ⟨[], .nil⟩
  | cons a as ih =>
    obtain ⟨b, hb⟩ := h a List.mem_cons_self
    obtain ⟨bs, hbs⟩ := ih fun a' ha' => h a' (List.mem_cons_of_mem a ha')
    exact ⟨b :: bs, .cons hb hbs⟩

theorem flatMap_congr_forall₂ {γ : Type} {f : α → List γ} {g : β → List γ} {as : List α}
    {bs : List β} (h : as.Forall₂ (fun a b => f a = g b) bs) : as.flatMap f = bs.flatMap g := by
  induction h with
  | nil => rfl
  | cons heq _ ih => rw [List.flatMap_cons, List.flatMap_cons, heq, ih]

theorem forall₂_and_iff {R S : α → β → Prop} {as : List α} {bs : List β} :
    as.Forall₂ (fun a b => R a b ∧ S a b) bs ↔ as.Forall₂ R bs ∧ as.Forall₂ S bs := by
  constructor
  · intro h
    exact ⟨h.imp fun _ _ h => h.1, h.imp fun _ _ h => h.2⟩
  · rintro ⟨hr, hs⟩
    exact hr.mp (fun _ _ hr hs => ⟨hr, hs⟩) hs

theorem forall₂_comp {α β γ : Type} {R : α → β → Prop} {S : β → γ → Prop} {T : α → γ → Prop}
    (h : ∀ a b c, R a b → S b c → T a c) {as : List α} {bs : List β} {cs : List γ}
    (hab : as.Forall₂ R bs) (hbc : bs.Forall₂ S cs) : as.Forall₂ T cs := by
  induction hab generalizing cs with
  | nil =>
    cases hbc
    exact .nil
  | cons hr _ ih =>
    cases hbc with
    | cons hs hbc => exact .cons (h _ _ _ hr hs) (ih hbc)

theorem forM_eq_ok_iff {f : α → Except ε Unit} {xs : List α} :
    xs.forM f = .ok () ↔ ∀ x ∈ xs, f x = .ok () := by
  induction xs with
  | nil => simp [pure, Except.pure]
  | cons x xs ih =>
    show (f x >>= fun _ => xs.forM f) = .ok () ↔ _
    rw [bind_eq_ok_iff, List.forall_mem_cons, ← ih]
    exact ⟨fun ⟨_, hx, hxs⟩ => ⟨hx, hxs⟩, fun ⟨hx, hxs⟩ => ⟨(), hx, hxs⟩⟩

theorem mapM_eq_ok_iff {f : α → Except ε β} {xs : List α} {ys : List β} :
    xs.mapM f = .ok ys ↔ List.Forall₂ (fun x y => f x = .ok y) xs ys := by
  induction xs generalizing ys with
  | nil => simp [pure, Except.pure, eq_comm]
  | cons x xs ih =>
    rw [List.mapM_cons, bind_eq_ok_iff]
    constructor
    · rintro ⟨y, hy, h⟩
      obtain ⟨zs, hzs, h⟩ := bind_eq_ok_iff.1 h
      cases h
      exact .cons hy (ih.1 hzs)
    · rintro (_ | ⟨hy, hys⟩)
      exact ⟨_, hy, bind_eq_ok_iff.2 ⟨_, ih.2 hys, rfl⟩⟩

/-- Where an operation is known to succeed on every item, it does on the list. -/
theorem mapM_eq_ok_map {f : α → Except ε β} {g : α → β} {xs : List α}
    (h : ∀ x ∈ xs, f x = .ok (g x)) : xs.mapM f = .ok (xs.map g) :=
  mapM_eq_ok_iff.2 (List.forall₂_map_right_iff.2 (List.forall₂_same.2 h))

/-- Where the same operation fails on a list, it fails on one of the items. -/
theorem exists_of_mapM_eq_error {f : α → Except ε β} {xs : List α} {e : ε}
    (h : xs.mapM f = .error e) : ∃ x ∈ xs, f x = .error e := by
  induction xs with
  | nil => cases h
  | cons x xs ih =>
    rw [List.mapM_cons] at h
    rcases hx : f x with e' | y
    · rw [hx, error_bind] at h
      cases h
      exact ⟨x, List.mem_cons_self, hx⟩
    · rw [hx, ok_bind] at h
      rcases hxs : xs.mapM f with e' | ys
      · rw [hxs, error_bind] at h
        cases h
        obtain ⟨y, hy, hfault⟩ := ih hxs
        exact ⟨y, List.mem_cons_of_mem x hy, hfault⟩
      · rw [hxs] at h
        cases h

/-! ### Operations that write into a state -/

variable {σ : Type}

theorem run_bind (m : EStateM ε σ α) (f : α → EStateM ε σ β) (s : σ) :
    (m >>= f).run s = match m.run s with
      | .ok a s' => (f a).run s'
      | .error e s' => .error e s' := by
  show EStateM.bind m f s = _
  rw [EStateM.bind]
  show _ = match m s with
    | .ok a s' => (f a).run s'
    | .error e s' => .error e s'
  cases m s <;> rfl

theorem ofExcept_bind (x : Except ε α) (f : α → Except ε β) :
    (MonadExcept.ofExcept (x >>= f) : EStateM ε σ β)
      = MonadExcept.ofExcept x >>= fun a => MonadExcept.ofExcept (f a) := by
  cases x <;> rfl

theorem mapM_ofExcept (f : α → Except ε β) (xs : List α) :
    (xs.mapM fun x => (MonadExcept.ofExcept (f x) : EStateM ε σ β))
      = MonadExcept.ofExcept (xs.mapM f) := by
  induction xs with
  | nil => rfl
  | cons x xs ih =>
    rw [List.mapM_cons, List.mapM_cons, ih, ofExcept_bind]
    congr 1
    funext y
    rw [ofExcept_bind]
    rfl

theorem forM_ofExcept (f : α → Except ε Unit) (xs : List α) :
    (xs.forM fun x => (MonadExcept.ofExcept (f x) : EStateM ε σ Unit))
      = MonadExcept.ofExcept (xs.forM f) := by
  induction xs with
  | nil => rfl
  | cons x xs ih =>
    show (MonadExcept.ofExcept (f x) >>= fun _ => xs.forM fun x => MonadExcept.ofExcept (f x))
      = MonadExcept.ofExcept (f x >>= fun _ => xs.forM f)
    rw [ih, ofExcept_bind]

/-- Where each step is known to write, so is a sequence of steps. -/
theorem run_forM {m : α → EStateM ε σ Unit} {f : σ → α → σ}
    (h : ∀ s x, (m x).run s = .ok () (f s x)) (xs : List α) (s : σ) :
    (xs.forM m).run s = .ok () (xs.foldl f s) := by
  induction xs generalizing s with
  | nil => rfl
  | cons x xs ih =>
    show (m x >>= fun _ => xs.forM m).run s = _
    rw [run_bind, h]
    exact ih (f s x)

end PointPatch
