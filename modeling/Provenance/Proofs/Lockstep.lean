/-
Two runs in lockstep.

What two runs have in common is told by a relation between their states. Two actions go in
lockstep if, on states that are related, both fail in the same way or both succeed with
results that correspond, and leave states behind that are related again. Of what is put
together from actions that go in lockstep no more has to be known.

Some actions do so only from certain states. For these there is `Abreast`, which speaks of
two runs and not of all.
-/
import Provenance.Proofs.Action

set_option autoImplicit false

namespace Provenance

/-! ## Results that match -/

/-- Two results that match: both are errors, and the same one, or neither is. -/
inductive Matched {ε α β : Type} (Q : α → β → Prop) : Except ε α → Except ε β → Prop
  | ok {a : α} {b : β} (h : Q a b) : Matched Q (.ok a) (.ok b)
  | error (e : ε) : Matched Q (.error e) (.error e)

theorem Matched.refl {ε α : Type} {x : Except ε α} : Matched Eq x x := by
  cases x with
  | ok a => exact .ok rfl
  | error e => exact .error e

theorem Matched.eq {ε α : Type} {x y : Except ε α} (h : Matched Eq x y) : x = y := by
  cases h with
  | ok h => rw [h]
  | error e => rfl

theorem Matched.imp {ε α β : Type} {P Q : α → β → Prop} {x : Except ε α} {y : Except ε β}
    (h : Matched P x y) (hPQ : ∀ a b, P a b → Q a b) : Matched Q x y := by
  cases h with
  | ok h => exact .ok (hPQ _ _ h)
  | error e => exact .error e

namespace Action

variable {σ τ ε α β γ δ : Type} {R : σ → σ → Prop} {P : α → β → Prop} {Q : γ → δ → Prop}
  {act : Action σ α} {act' : Action σ β} {s s' : σ}

/-! ## Two runs -/

/-- The results of two runs match by `P`, and the states that they leave are related. -/
def Abreast (R : σ → σ → Prop) (P : α → β → Prop) (r : Except Failure α × σ)
    (r' : Except Failure β × σ) : Prop := Matched P r.1 r'.1 ∧ R r.2 r'.2

theorem abreast_ok {a : α} {b : β} (h : P a b) (hR : R s s') : Abreast R P (.ok a, s) (.ok b, s') :=
  ⟨.ok h, hR⟩

theorem abreast_error {f : Failure} (hR : R s s') :
    Abreast R P ((.error f : Except Failure α), s) ((.error f : Except Failure β), s') := ⟨.error f, hR⟩

/-- Two runs that are abreast and both succeed. -/
theorem Abreast.of_ok {a : α} {b : β} (h : Abreast R P (.ok a, s) (.ok b, s')) : P a b ∧ R s s' := by
  obtain ⟨hmatch, hR⟩ := h
  cases hmatch with
  | ok hP => exact ⟨hP, hR⟩

/-- Two runs go on abreast. What comes after their first parts need only do so if these were what they
were. -/
theorem abreast_bind {k : α → Action σ γ} {k' : β → Action σ δ}
    (h : Abreast R P (act.runOn s) (act'.runOn s'))
    (hk : ∀ a b s₁ s₁', act.runOn s = (.ok a, s₁) → act'.runOn s' = (.ok b, s₁') → P a b → R s₁ s₁' →
      Abreast R Q ((k a).runOn s₁) ((k' b).runOn s₁')) :
    Abreast R Q ((act >>= k).runOn s) ((act' >>= k').runOn s') := by
  rw [runOn_bind, runOn_bind]
  rcases hr : act.runOn s with ⟨f | a, s₁⟩
  all_goals
    rcases hr' : act'.runOn s' with ⟨f' | b, s₁'⟩
    all_goals
      rw [hr, hr'] at h
      obtain ⟨hmatch, hR⟩ := h
  · cases hmatch
    exact abreast_error hR
  · cases hmatch
  · cases hmatch
  · cases hmatch with
    | ok hP => exact hk a b s₁ s₁' hr hr' hP hR

/-- Runs over a list go on abreast if they do at each element, in the states in which the first of them
comes to it. -/
theorem abreast_forM {f : γ → Action σ PUnit} {f' : γ → Action σ PUnit} {xs : List γ} (hR : R s s')
    (h : ∀ x t t', ComesTo f xs s x t → R t t' → Abreast R Eq ((f x).runOn t) ((f' x).runOn t')) :
    Abreast R Eq ((xs.forM f).runOn s) ((xs.forM f').runOn s') := by
  induction xs generalizing s s' with
  | nil => exact abreast_ok rfl hR
  | cons x xs ih =>
    show Abreast R Eq ((f x >>= fun _ => xs.forM f).runOn s) ((f' x >>= fun _ => xs.forM f').runOn s')
    refine abreast_bind (h x s s' (comesTo_head ..) hR) fun _ _ t t' ht _ _ hR' => ?_
    exact ih hR' fun y u u' hy => h y u u' (comesTo_tail ht hy)

/-! ## Actions -/

/-- On related states the two actions have results that match by `P`, and they leave related states. -/
def Lockstep (R : σ → σ → Prop) (P : α → β → Prop) (act : Action σ α) (act' : Action σ β) : Prop :=
  ∀ s s', R s s' → Abreast R P (act.runOn s) (act'.runOn s')

theorem lockstep_pure {a : α} {b : β} (h : P a b) :
    Lockstep R P (pure a : Action σ α) (pure b : Action σ β) := fun _ _ hR => abreast_ok h hR

theorem lockstep_throw (f : Failure) :
    Lockstep R P (throw f : Action σ α) (throw f : Action σ β) := fun _ _ hR => abreast_error hR

theorem lockstep_fail (cause : Cause) :
    Lockstep R P (fail cause : Action σ α) (fail cause : Action σ β) := lockstep_throw _

theorem lockstep_get : Lockstep R R (get : Action σ σ) (get : Action σ σ) := fun _ _ hR => abreast_ok hR hR

theorem lockstep_modify {f f' : σ → σ} (h : ∀ s s', R s s' → R (f s) (f' s')) :
    Lockstep R Eq (modify f : Action σ PUnit) (modify f' : Action σ PUnit) :=
  fun s s' hR => abreast_ok rfl (h s s' hR)

theorem lockstep_ofExcept {toCause : ε → Cause} {r : Except ε α} {r' : Except ε β}
    (h : Matched P r r') : Lockstep R P (ofExcept toCause r) (ofExcept toCause r') := by
  cases h with
  | ok h => exact lockstep_pure h
  | error e => exact lockstep_fail _

theorem lockstep_bind {k : α → Action σ γ} {k' : β → Action σ δ} (h : Lockstep R P act act')
    (hk : ∀ a b, P a b → Lockstep R Q (k a) (k' b)) : Lockstep R Q (act >>= k) (act' >>= k') :=
  fun s s' hR => abreast_bind (h s s' hR) fun a b s₁ s₁' _ _ hP hR₁ => hk a b hP s₁ s₁' hR₁

/-- Where the results are the same, one action goes on after both. -/
theorem lockstep_bind_eq {act act' : Action σ α} {k : α → Action σ γ} {k' : α → Action σ δ}
    (h : Lockstep R Eq act act') (hk : ∀ a, Lockstep R Q (k a) (k' a)) :
    Lockstep R Q (act >>= k) (act' >>= k') := lockstep_bind h fun a _ hab => hab ▸ hk a

/-- An action that is chosen in view of the state. -/
theorem lockstep_get_bind {k : σ → Action σ γ} {k' : σ → Action σ δ}
    (hk : ∀ s s', R s s' → Abreast R Q ((k s).runOn s) ((k' s').runOn s')) :
    Lockstep R Q (get >>= k) (get >>= k') := by
  intro s s' hR
  rw [runOn_bind_ok (runOn_get s), runOn_bind_ok (runOn_get s')]
  exact hk s s' hR

theorem lockstep_attempt (h : Lockstep R P act act') :
    Lockstep R (Matched P) act.attempt act'.attempt := by
  intro s s' hR
  obtain ⟨hmatch, hafter⟩ := h s s' hR
  exact abreast_ok hmatch hafter

/-- Actions on the elements of a list that go in lockstep make two actions that do. -/
theorem lockstep_forM {f f' : γ → Action σ PUnit} (xs : List γ) (h : ∀ x ∈ xs, Lockstep R Eq (f x) (f' x)) :
    Lockstep R Eq (xs.forM f) (xs.forM f') := by
  induction xs with
  | nil => exact lockstep_pure rfl
  | cons x xs ih =>
    exact lockstep_bind_eq (h x (List.mem_cons_self ..)) fun _ =>
      ih fun y hy => h y (List.mem_cons_of_mem _ hy)

/-- Actions on a part of the state go in lockstep if they do on the part. -/
theorem lockstep_within {part : τ → σ} {setPart : σ → τ → τ} {W : τ → τ → Prop}
    (hpart : ∀ t t', W t t' → R (part t) (part t'))
    (hset : ∀ t t' p p', W t t' → R p p' → W (setPart p t) (setPart p' t'))
    (h : Lockstep R P act act') : Lockstep W P (act.within part setPart) (act'.within part setPart) := by
  intro t t' hW
  obtain ⟨hmatch, hafter⟩ := h _ _ (hpart t t' hW)
  exact ⟨hmatch, hset t t' _ _ hW hafter⟩

/-- Where both actions succeed, their results correspond and the states stay related. -/
theorem Lockstep.ok (h : Lockstep R P act act') (hR : R s s') {a : α} {b : β} {s₁ s₁' : σ}
    (hr : act.runOn s = (.ok a, s₁)) (hr' : act'.runOn s' = (.ok b, s₁')) : P a b ∧ R s₁ s₁' :=
  Abreast.of_ok (hr ▸ hr' ▸ h s s' hR)

/-- An action goes in lockstep with itself on states that are the same. -/
theorem lockstep_self (act : Action σ α) : Lockstep Eq Eq act act := by
  rintro s _ rfl
  exact ⟨.refl, rfl⟩

end Action

end Provenance
