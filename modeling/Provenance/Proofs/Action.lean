/-
Running actions.

An action is run on a state and leaves one behind, whether it succeeds or
fails. The equations here run one action after the other without opening the
monad, `Ends` says what holds at either end of a run, `Respects` is for what no step
of an action disturbs, `Blames` for what it fails with, and `FailsBy` for both where
the one depends on the other. Everything about updates is proved from these, so that
only this file knows how an action is made.

A run over a list can fail at one element. `ComesTo` says that it gets as far as
an element, and in which state; a run that fails has come to the element that it
fails at.
-/
import Provenance.Failure

set_option autoImplicit false

namespace Provenance.Action

variable {σ τ ε α β : Type}

/-! ## Computations without effects -/

/-- One computation after the other has a result when both have. -/
theorem except_bind_ok_iff {x : Except ε α} {k : α → Except ε β} {b : β} :
    (x >>= k) = .ok b ↔ ∃ a, x = .ok a ∧ k a = .ok b := by
  cases x with
  | error e => simp [bind, Except.bind]
  | ok a => simp [bind, Except.bind]

@[simp] theorem except_mapError_ok {δ : Type} (g : ε → δ) (a : α) :
    (Except.ok a : Except ε α).mapError g = .ok a := rfl

@[simp] theorem except_mapError_error {δ : Type} (g : ε → δ) (e : ε) :
    (Except.error e : Except ε α).mapError g = .error (g e) := rfl

theorem except_mapError_ok_iff {δ : Type} {x : Except ε α} {g : ε → δ} {a : α} :
    x.mapError g = .ok a ↔ x = .ok a := by
  cases x <;> simp

theorem except_toOption_eq_some_iff {x : Except ε α} {a : α} : x.toOption = some a ↔ x = .ok a := by
  cases x <;> simp [Except.toOption]

/-! ## One step -/

@[simp] theorem runOn_pure (a : α) (s : σ) : (pure a : Action σ α).runOn s = (.ok a, s) := rfl

@[simp] theorem runOn_throw (f : Failure) (s : σ) :
    (throw f : Action σ α).runOn s = (.error f, s) := rfl

@[simp] theorem runOn_fail (cause : Cause) (s : σ) :
    (fail cause : Action σ α).runOn s = (.error ⟨cause, []⟩, s) := rfl

@[simp] theorem runOn_get (s : σ) : (get : Action σ σ).runOn s = (.ok s, s) := rfl

@[simp] theorem runOn_set (s s' : σ) : (set s' : Action σ PUnit).runOn s = (.ok ⟨⟩, s') := rfl

@[simp] theorem runOn_modify (f : σ → σ) (s : σ) :
    (modify f : Action σ PUnit).runOn s = (.ok ⟨⟩, f s) := rfl

@[simp] theorem runOn_ofExcept_ok (toCause : ε → Cause) (a : α) (s : σ) :
    (ofExcept toCause (.ok a) : Action σ α).runOn s = (.ok a, s) := rfl

@[simp] theorem runOn_ofExcept_error (toCause : ε → Cause) (e : ε) (s : σ) :
    (ofExcept toCause (.error e) : Action σ α).runOn s = (.error ⟨toCause e, []⟩, s) := rfl

@[simp] theorem runOn_attempt (act : Action σ α) (s : σ) :
    act.attempt.runOn s = (.ok (act.runOn s).1, (act.runOn s).2) := rfl

@[simp] theorem runOn_within (part : τ → σ) (setPart : σ → τ → τ) (act : Action σ α) (t : τ) :
    (act.within part setPart).runOn t
      = ((act.runOn (part t)).1, setPart (act.runOn (part t)).2 t) := rfl

/-- One action after the other: a failure of the first ends the run. -/
theorem runOn_bind (act : Action σ α) (k : α → Action σ β) (s : σ) :
    (act >>= k).runOn s
      = match act.runOn s with
        | (.ok a, s') => (k a).runOn s'
        | (.error f, s') => (.error f, s') := by
  simp only [runOn, ExceptT.run, bind, ExceptT.bind, ExceptT.mk, StateT.bind, StateT.run]
  cases act s with
  | mk r s' => cases r <;> rfl

theorem runOn_bind_ok {act : Action σ α} {k : α → Action σ β} {s s' : σ} {a : α}
    (h : act.runOn s = (.ok a, s')) : (act >>= k).runOn s = (k a).runOn s' := by
  rw [runOn_bind, h]

theorem runOn_bind_error {act : Action σ α} {k : α → Action σ β} {s s' : σ} {f : Failure}
    (h : act.runOn s = (.error f, s')) : (act >>= k).runOn s = (.error f, s') := by
  rw [runOn_bind, h]

/-- A run of two actions succeeds when both do. -/
theorem bind_ok_iff {act : Action σ α} {k : α → Action σ β} {s s'' : σ} {b : β} :
    (act >>= k).runOn s = (.ok b, s'')
      ↔ ∃ a s', act.runOn s = (.ok a, s') ∧ (k a).runOn s' = (.ok b, s'') := by
  constructor
  · intro h
    rcases hr : act.runOn s with ⟨_ | a, s'⟩
    · rw [runOn_bind_error hr] at h
      simp at h
    · exact ⟨a, s', rfl, (runOn_bind_ok hr).symm.trans h⟩
  · rintro ⟨a, s', h, hk⟩
    exact (runOn_bind_ok h).trans hk

/-- A run of two actions fails when the first does, or the second after it. -/
theorem bind_error_iff {act : Action σ α} {k : α → Action σ β} {s s'' : σ} {f : Failure} :
    (act >>= k).runOn s = (.error f, s'')
      ↔ act.runOn s = (.error f, s'')
        ∨ ∃ a s', act.runOn s = (.ok a, s') ∧ (k a).runOn s' = (.error f, s'') := by
  constructor
  · intro h
    rcases hr : act.runOn s with ⟨e | a, s'⟩
    · rw [runOn_bind_error hr] at h
      obtain ⟨rfl, rfl⟩ : e = f ∧ s' = s'' := by simpa using h
      exact .inl rfl
    · exact .inr ⟨a, s', rfl, (runOn_bind_ok hr).symm.trans h⟩
  · rintro (h | ⟨a, s', h, hk⟩)
    · exact runOn_bind_error h
    · exact (runOn_bind_ok h).trans hk

/-- A result that was computed aside. -/
theorem ofExcept_ok_iff {toCause : ε → Cause} {r : Except ε α} {s s' : σ} {a : α} :
    (ofExcept toCause r : Action σ α).runOn s = (.ok a, s') ↔ r = .ok a ∧ s = s' := by
  cases r <;> simp

theorem get_ok_iff {s s' a : σ} : (get : Action σ σ).runOn s = (.ok a, s') ↔ s = a ∧ s = s' := by
  simp

/-! ## Both ends of a run -/

/-- What holds after a run: `Q` of the result and the state if it succeeded, `E` of the failure and
the state if it failed. -/
def Ends (r : Except Failure α × σ) (Q : α → σ → Prop) (E : Failure → σ → Prop) : Prop :=
  match r with
  | (.ok a, s) => Q a s
  | (.error f, s) => E f s

instance (Q : α → σ → Prop) (E : Failure → σ → Prop) [∀ a s, Decidable (Q a s)]
    [∀ f s, Decidable (E f s)] : (r : Except Failure α × σ) → Decidable (Ends r Q E)
  | (.ok a, s) => inferInstanceAs (Decidable (Q a s))
  | (.error f, s) => inferInstanceAs (Decidable (E f s))

@[simp] theorem ends_ok (a : α) (s : σ) (Q : α → σ → Prop) (E : Failure → σ → Prop) :
    Ends (.ok a, s) Q E ↔ Q a s := Iff.rfl

@[simp] theorem ends_error (f : Failure) (s : σ) (Q : α → σ → Prop) (E : Failure → σ → Prop) :
    Ends (.error f, s) Q E ↔ E f s := Iff.rfl

theorem Ends.imp {r : Except Failure α × σ} {Q Q' : α → σ → Prop} {E E' : Failure → σ → Prop}
    (h : Ends r Q E) (hQ : ∀ a s, Q a s → Q' a s) (hE : ∀ f s, E f s → E' f s) :
    Ends r Q' E' := by
  rcases r with ⟨_ | a, s⟩
  · exact hE _ _ h
  · exact hQ _ _ h

/-- A run that can only end well ends well. -/
theorem Ends.exists_ok {r : Except Failure α × σ} {Q : α → σ → Prop}
    (h : Ends r Q fun _ _ => False) : ∃ a s, r = (.ok a, s) ∧ Q a s := by
  rcases r with ⟨_ | a, s⟩
  · exact h.elim
  · exact ⟨a, s, rfl, h⟩

/-- A run that can only fail fails. -/
theorem Ends.exists_error {r : Except Failure α × σ} {E : Failure → σ → Prop}
    (h : Ends r (fun _ _ => False) E) : ∃ f s, r = (.error f, s) ∧ E f s := by
  rcases r with ⟨f | _, s⟩
  · exact ⟨f, s, rfl, h⟩
  · exact h.elim

/-- What holds at the ends of two actions, from what holds between them. -/
theorem ends_bind {act : Action σ α} {k : α → Action σ β} {s : σ} {M : α → σ → Prop}
    {Q : β → σ → Prop} {E : Failure → σ → Prop} (h : Ends (act.runOn s) M E)
    (hk : ∀ a s', M a s' → Ends ((k a).runOn s') Q E) : Ends ((act >>= k).runOn s) Q E := by
  rw [runOn_bind]
  rcases hr : act.runOn s with ⟨_ | a, s'⟩
  · rw [hr] at h; exact h
  · rw [hr] at h; exact hk a s' h

/-- A result that was computed aside: nothing has happened to the state. -/
theorem ends_ofExcept {toCause : ε → Cause} {r : Except ε α} {s : σ} {Q : α → σ → Prop}
    {E : Failure → σ → Prop} (hQ : ∀ a, r = .ok a → Q a s)
    (hE : ∀ e, r = .error e → E ⟨toCause e, []⟩ s) :
    Ends ((ofExcept toCause r : Action σ α).runOn s) Q E := by
  cases r with
  | ok a => exact hQ a rfl
  | error e => exact hE e rfl

/-- What comes after a look at the state runs on that state. -/
theorem ends_get_bind {k : σ → Action σ α} {s : σ} {Q : α → σ → Prop} {E : Failure → σ → Prop}
    (h : Ends ((k s).runOn s) Q E) : Ends ((get >>= k : Action σ α).runOn s) Q E := by
  rwa [runOn_bind, runOn_get]

/-- So does what comes after a result that was computed aside. -/
theorem ends_ofExcept_bind {toCause : ε → Cause} {r : Except ε α} {k : α → Action σ β} {s : σ}
    {Q : β → σ → Prop} {E : Failure → σ → Prop} (hE : ∀ e, r = .error e → E ⟨toCause e, []⟩ s)
    (hk : ∀ a, r = .ok a → Ends ((k a).runOn s) Q E) :
    Ends ((ofExcept toCause r >>= k : Action σ β).runOn s) Q E := by
  refine ends_bind (M := fun a s' => s' = s ∧ r = .ok a) (ends_ofExcept (fun _ ha => ⟨rfl, ha⟩) hE) ?_
  rintro a s ⟨rfl, ha⟩
  exact hk a ha

/-- Both ends are alike where they say the same of the state. -/
theorem ends_same_iff {r : Except Failure α × σ} {P : σ → Prop} :
    Ends r (fun _ => P) (fun _ => P) ↔ P r.2 := by
  rcases r with ⟨f | a, s⟩ <;> rfl

/-! ## What an action does not disturb -/

/-- The states before and after a run are related, however the run ends. -/
def Respects (R : σ → σ → Prop) (act : Action σ α) : Prop := ∀ s, R s (act.runOn s).2

theorem Respects.of_run {R : σ → σ → Prop} {act : Action σ α} (h : Respects R act)
    {r : Except Failure α} {s s' : σ} (hr : act.runOn s = (r, s')) : R s s' := by
  have hkeep := h s
  rwa [hr] at hkeep

/-- A relation that holds of a state and itself, and across two steps if across each. -/
structure Stepwise (R : σ → σ → Prop) : Prop where
  refl : ∀ s, R s s
  trans : ∀ {s s' s''}, R s s' → R s' s'' → R s s''

/-- Whatever part of a state stays the same, stays the same stepwise. -/
theorem stepwise_same (part : σ → α) : Stepwise fun s s' => part s' = part s :=
  ⟨fun _ => rfl, fun h h' => h'.trans h⟩

section Respects

variable {R : σ → σ → Prop}

theorem respects_pure (hR : Stepwise R) (a : α) : Respects R (pure a : Action σ α) :=
  fun s => hR.refl s

theorem respects_throw (hR : Stepwise R) (f : Failure) : Respects R (throw f : Action σ α) :=
  fun s => hR.refl s

theorem respects_fail (hR : Stepwise R) (c : Cause) : Respects R (fail c : Action σ α) :=
  fun s => hR.refl s

theorem respects_get (hR : Stepwise R) : Respects R (get : Action σ σ) := fun s => hR.refl s

theorem respects_modify {f : σ → σ} (hf : ∀ s, R s (f s)) :
    Respects R (modify f : Action σ PUnit) := hf

theorem respects_ofExcept (hR : Stepwise R) (toCause : ε → Cause) (r : Except ε α) :
    Respects R (ofExcept toCause r : Action σ α) := by
  intro s
  cases r <;> exact hR.refl s

theorem respects_bind (hR : Stepwise R) {act : Action σ α} {k : α → Action σ β}
    (h : Respects R act) (hk : ∀ a, Respects R (k a)) : Respects R (act >>= k) := by
  intro s
  have h₁ := h s
  rw [runOn_bind]
  rcases hr : act.runOn s with ⟨_ | a, s'⟩
  · rw [hr] at h₁; exact h₁
  · rw [hr] at h₁; exact hR.trans h₁ (hk a s')

/-- Two actions in a row, where the second is known only for what the first can result in. That may
depend on a condition outside of which the relation says nothing. -/
theorem respects_bind_under {I : σ → Prop} (hR : Stepwise R)
    (hI : ∀ {s s'}, (I s → R s s') → R s s') {act : Action σ α} {k : α → Action σ β}
    {P : α → Prop} (h : Respects R act) (hP : ∀ s a s', I s → act.runOn s = (.ok a, s') → P a)
    (hk : ∀ a, P a → Respects R (k a)) : Respects R (act >>= k) := by
  intro s
  refine hI fun hs => ?_
  have h₁ := h s
  rw [runOn_bind]
  rcases hr : act.runOn s with ⟨_ | a, s'⟩
  · rw [hr] at h₁; exact h₁
  · rw [hr] at h₁; exact hR.trans h₁ (hk a (hP s a s' hs hr) s')

theorem respects_bind_of (hR : Stepwise R) {act : Action σ α} {k : α → Action σ β}
    {P : α → Prop} (h : Respects R act) (hP : ∀ s a s', act.runOn s = (.ok a, s') → P a)
    (hk : ∀ a, P a → Respects R (k a)) : Respects R (act >>= k) :=
  respects_bind_under (I := fun _ => True) hR (fun h => h trivial) h (fun s a s' _ => hP s a s') hk

theorem respects_attempt {act : Action σ α} (h : Respects R act) : Respects R act.attempt := h

theorem respects_forM (hR : Stepwise R) {f : α → Action σ PUnit} (xs : List α)
    (h : ∀ x ∈ xs, Respects R (f x)) : Respects R (xs.forM f) := by
  induction xs with
  | nil => exact respects_pure hR _
  | cons x xs ih =>
    exact respects_bind hR (h x (List.mem_cons_self ..)) fun _ =>
      ih fun y hy => h y (List.mem_cons_of_mem _ hy)

end Respects

/-! ## What an action fails with -/

/-- Every failure of the action is of some kind, whatever state it runs on. -/
def Blames (P : Failure → Prop) (act : Action σ α) : Prop :=
  ∀ s f s', act.runOn s = (.error f, s') → P f

section Blames

variable {P : Failure → Prop}

theorem blames_pure (a : α) : Blames P (pure a : Action σ α) := fun s f s' h => by simp at h

theorem blames_get : Blames P (get : Action σ σ) := fun s f s' h => by simp at h

theorem blames_modify (f : σ → σ) : Blames P (modify f : Action σ PUnit) :=
  fun s g s' h => by simp at h

theorem blames_throw {f : Failure} (hf : P f) : Blames P (throw f : Action σ α) := by
  intro s g s' h
  obtain ⟨rfl, -⟩ : f = g ∧ s = s' := by simpa using h
  exact hf

theorem blames_fail {c : Cause} (hc : P ⟨c, []⟩) : Blames P (fail c : Action σ α) := blames_throw hc

theorem blames_ofExcept {toCause : ε → Cause} {r : Except ε α}
    (h : ∀ e, r = .error e → P ⟨toCause e, []⟩) : Blames P (ofExcept toCause r : Action σ α) := by
  cases r with
  | ok a => exact blames_pure a
  | error e => exact blames_fail (h e rfl)

theorem blames_bind {act : Action σ α} {k : α → Action σ β} (h : Blames P act)
    (hk : ∀ a, Blames P (k a)) : Blames P (act >>= k) := by
  intro s f s'' hr
  rcases bind_error_iff.mp hr with hr | ⟨a, s', -, hr⟩
  · exact h s f s'' hr
  · exact hk a s' f s'' hr

/-- Two actions in a row, where the second is known only for what the first can result in. -/
theorem blames_bind_of {act : Action σ α} {k : α → Action σ β} {Q : α → Prop} (h : Blames P act)
    (hQ : ∀ s a s', act.runOn s = (.ok a, s') → Q a) (hk : ∀ a, Q a → Blames P (k a)) :
    Blames P (act >>= k) := by
  intro s f s'' hr
  rcases bind_error_iff.mp hr with hr | ⟨a, s', ha, hr⟩
  · exact h s f s'' hr
  · exact hk a (hQ s a s' ha) s' f s'' hr

/-- What is done with the result of an action may fail again, with what that failed with. -/
theorem blames_attempt_bind {Q : Failure → Prop} {act : Action σ α}
    {k : Except Failure α → Action σ β} (h : Blames Q act) (hok : ∀ a, Blames P (k (.ok a)))
    (herror : ∀ f, Q f → Blames P (k (.error f))) : Blames P (act.attempt >>= k) := by
  intro s f s'' hr
  rcases bind_error_iff.mp hr with hr | ⟨r, s', ha, hr⟩
  -- catching does not fail itself
  · simp at hr
  · rcases hact : act.runOn s with ⟨g | a, s₁⟩
    · obtain ⟨rfl, rfl⟩ : .error g = r ∧ s₁ = s' := by simpa [hact] using ha
      exact herror g (h s g s₁ hact) s₁ f s'' hr
    · obtain ⟨rfl, rfl⟩ : .ok a = r ∧ s₁ = s' := by simpa [hact] using ha
      exact hok a s₁ f s'' hr

theorem blames_within {part : τ → σ} {setPart : σ → τ → τ} {act : Action σ α}
    (h : Blames P act) : Blames P (act.within part setPart) := by
  intro t f t' hr
  rw [runOn_within] at hr
  exact h (part t) f (act.runOn (part t)).2 (Prod.ext (Prod.mk.inj hr).1 rfl)

theorem blames_forM {f : α → Action σ PUnit} (xs : List α) (h : ∀ x ∈ xs, Blames P (f x)) :
    Blames P (xs.forM f) := by
  induction xs with
  | nil => exact blames_pure _
  | cons x xs ih =>
    exact blames_bind (h x (List.mem_cons_self ..)) fun _ =>
      ih fun y hy => h y (List.mem_cons_of_mem _ hy)

theorem Blames.imp {Q : Failure → Prop} {act : Action σ α} (h : Blames P act)
    (hPQ : ∀ f, P f → Q f) : Blames Q act := fun s f s' hr => hPQ _ (h s f s' hr)

/-- What holds at the ends of an action that respects a relation and has failures of a kind. -/
theorem ends_of_blames {R : σ → σ → Prop} {act : Action σ α} (hR : Respects R act)
    (h : Blames P act) (s : σ) :
    Ends (act.runOn s) (fun _ s' => R s s') (fun f _ => P f) := by
  have hrel := hR s
  rcases hr : act.runOn s with ⟨f | a, s'⟩
  · exact h s f s' hr
  · rw [hr] at hrel
    exact hrel

end Blames

/-! ## What is kept and what is failed with -/

/-- Every error of a computation is of a kind. -/
def Errs (P : ε → Prop) (x : Except ε α) : Prop := ∀ e, x = .error e → P e

/-- The action keeps what holds of the state, and fails only with causes of a kind. -/
def FailsBy (I : σ → Prop) (P : Cause → Prop) (act : Action σ α) : Prop :=
  ∀ s, I s → Ends (act.runOn s) (fun _ => I) fun f _ => P f.cause

section Errs

variable {P : ε → Prop}

theorem errs_ok (a : α) : Errs P (.ok a : Except ε α) := fun _ h => nomatch h

theorem errs_error {e : ε} (h : P e) : Errs P (.error e : Except ε α) := fun _ he =>
  Except.error.inj he ▸ h

theorem errs_bind {x : Except ε α} {k : α → Except ε β} (h : Errs P x)
    (hk : ∀ a, x = .ok a → Errs P (k a)) : Errs P (x >>= k) := by
  intro e he
  cases x with
  | error e' => exact h e (congrArg _ (Except.error.inj he))
  | ok a => exact hk a rfl e he

theorem errs_mapError {δ : Type} {toCause : δ → ε} {x : Except δ α} (h : ∀ e, P (toCause e)) :
    Errs P (x.mapError toCause) := by
  intro e he
  cases x with
  | error e' => exact Except.error.inj he ▸ h e'
  | ok a => exact nomatch he

theorem errs_map {x : Except ε α} {f : α → β} (h : Errs P x) : Errs P (x.map f) := by
  intro e he
  cases x with
  | error e' => exact h e (congrArg _ (Except.error.inj he))
  | ok a => exact nomatch he

end Errs

section FailsBy

variable {I : σ → Prop} {P : Cause → Prop}

theorem failsBy_pure (a : α) : FailsBy I P (pure a : Action σ α) := fun _ hs => hs

theorem failsBy_get : FailsBy I P (get : Action σ σ) := fun _ hs => hs

theorem failsBy_ofExcept {toCause : ε → Cause} {x : Except ε α} (h : Errs (fun e => P (toCause e)) x) :
    FailsBy I P (ofExcept toCause x : Action σ α) := by
  intro s hs
  cases x with
  | error e => exact h e rfl
  | ok a => exact hs

theorem failsBy_bind {act : Action σ α} {k : α → Action σ β} (h : FailsBy I P act)
    (hk : ∀ a, FailsBy I P (k a)) : FailsBy I P (act >>= k) := fun s hs =>
  ends_bind (h s hs) fun a s' hs' => hk a s' hs'

theorem failsBy_forM {f : α → Action σ PUnit} (xs : List α) (h : ∀ x, FailsBy I P (f x)) :
    FailsBy I P (xs.forM f) := by
  induction xs with
  | nil => exact failsBy_pure _
  | cons x xs ih => exact failsBy_bind (h x) fun _ => ih

end FailsBy

/-! ## Runs over lists -/

/-- A run over a list comes to an element in a state: it has succeeded with all elements before. -/
def ComesTo (f : α → Action σ PUnit) (xs : List α) (s : σ) (x : α) (s' : σ) : Prop :=
  ∃ before after, xs = before ++ x :: after ∧ (before.forM f).runOn s = (.ok ⟨⟩, s')

theorem comesTo_head (f : α → Action σ PUnit) (x : α) (xs : List α) (s : σ) :
    ComesTo f (x :: xs) s x s := ⟨[], xs, rfl, rfl⟩

theorem comesTo_tail {f : α → Action σ PUnit} {x y : α} {xs : List α} {s s' s'' : σ}
    (hx : (f x).runOn s = (.ok ⟨⟩, s')) (h : ComesTo f xs s' y s'') :
    ComesTo f (x :: xs) s y s'' := by
  obtain ⟨before, after, rfl, hrun⟩ := h
  exact ⟨x :: before, after, rfl, (runOn_bind_ok hx).trans hrun⟩

/-- What a run over a list has come to after its first element, it comes to. -/
theorem comesTo_cons_iff {f : α → Action σ PUnit} {x y : α} {xs : List α} {s s'' : σ} :
    ComesTo f (x :: xs) s y s''
      ↔ (y = x ∧ s'' = s) ∨ ∃ s', (f x).runOn s = (.ok ⟨⟩, s') ∧ ComesTo f xs s' y s'' := by
  constructor
  · rintro ⟨before, after, heq, hrun⟩
    -- what comes before the element is empty, or begins with the head
    cases before with
    | nil =>
      simp only [List.nil_append, List.cons.injEq] at heq
      have hs : (.ok ⟨⟩, s) = ((.ok ⟨⟩ : Except Failure PUnit), s'') := hrun
      exact .inl ⟨heq.1.symm, (Prod.mk.inj hs).2.symm⟩
    | cons z before =>
      simp only [List.cons_append, List.cons.injEq] at heq
      obtain ⟨rfl, rfl⟩ := heq
      obtain ⟨u, s', hx, hrest⟩ := bind_ok_iff.mp (show (f x >>= fun _ => before.forM f).runOn s
        = (.ok ⟨⟩, s'') from hrun)
      exact .inr ⟨s', hx, before, after, rfl, hrest⟩
  · rintro (⟨rfl, rfl⟩ | ⟨s', hx, h⟩)
    · exact comesTo_head ..
    · exact comesTo_tail hx h

/-- A run over a list keeps what each element keeps, up to the element that it fails at; there, what
that element leaves behind holds. -/
theorem ends_forM {f : α → Action σ PUnit} {I : σ → Prop} {E : α → σ → Failure → σ → Prop}
    {xs : List α} {s : σ} (hs : I s)
    (h : ∀ x ∈ xs, ∀ s, I s → Ends ((f x).runOn s) (fun _ s' => I s') (E x s)) :
    Ends ((xs.forM f).runOn s) (fun _ s' => I s')
      (fun e s' => ∃ x s₁, ComesTo f xs s x s₁ ∧ I s₁ ∧ E x s₁ e s') := by
  -- the invariant is carried along the list; the element that fails is what the run has come to
  induction xs generalizing s with
  | nil => exact hs
  | cons x xs ih =>
    have hx := h x (List.mem_cons_self ..) s hs
    have hrest := fun s' (hs' : I s') =>
      ih hs' fun y hy => h y (List.mem_cons_of_mem _ hy)
    show Ends ((f x >>= fun _ => xs.forM f).runOn s) _ _
    rw [runOn_bind]
    rcases hr : (f x).runOn s with ⟨e | _, s'⟩
    · rw [hr] at hx
      exact ⟨x, s, comesTo_head .., hs, hx⟩
    · rw [hr] at hx
      apply (hrest s' hx).imp (fun _ _ hq => hq)
      rintro e s'' ⟨y, s₁, hcomes, hi, he⟩
      exact ⟨y, s₁, comesTo_tail hr hcomes, hi, he⟩

/-- What every element keeps that succeeds, a run over a list keeps that succeeds. -/
theorem forM_ok {f : α → Action σ PUnit} {I : σ → Prop} {xs : List α} {s s' : σ} {u : PUnit}
    (hs : I s) (h : ∀ x ∈ xs, ∀ s u s', I s → (f x).runOn s = (.ok u, s') → I s')
    (hr : (xs.forM f).runOn s = (.ok u, s')) : I s' := by
  have hends := ends_forM (f := f) (I := I) (E := fun _ _ _ _ => True) hs fun x hx s hs => by
    rcases hx' : (f x).runOn s with ⟨e | u, s'⟩
    · trivial
    · exact h x hx s u s' hs hx'
  rw [hr] at hends
  exact hends

/-- A run over a list along which an invariant is kept that speaks of the elements done so far. -/
theorem forM_ok_along {f : α → Action σ PUnit} {I : List α → σ → Prop} {xs : List α} {s s' : σ}
    {u : PUnit} (hs : I [] s)
    (h : ∀ done x rest, xs = done ++ x :: rest → ∀ s s', I done s →
      (f x).runOn s = (.ok ⟨⟩, s') → I (done ++ [x]) s')
    (hr : (xs.forM f).runOn s = (.ok u, s')) : I xs s' := by
  suffices hgeneral : ∀ todo done s, xs = done ++ todo → I done s →
      (todo.forM f).runOn s = (.ok u, s') → I xs s' from hgeneral xs [] s rfl hs hr
  intro todo
  induction todo with
  | nil =>
    intro done s hxs hdone hrun
    obtain rfl : s = s' := (Prod.mk.inj hrun).2
    rwa [hxs, List.append_nil]
  | cons x rest ih =>
    intro done s hxs hdone hrun
    obtain ⟨_, s₁, hx, hrest⟩ := bind_ok_iff.mp
      (show (f x >>= fun _ => rest.forM f).runOn s = (.ok u, s') from hrun)
    exact ih (done ++ [x]) s₁ (by simp [hxs]) (h done x rest hxs s s₁ hdone hx) hrest

/-- A run over one list and then another one is a run over the first and a run over the second. -/
theorem forM_append_ok_iff {f : α → Action σ PUnit} {xs ys : List α} {s s' : σ} {u : PUnit} :
    ((xs ++ ys).forM f).runOn s = (.ok u, s')
      ↔ ∃ s₁, (xs.forM f).runOn s = (.ok u, s₁) ∧ (ys.forM f).runOn s₁ = (.ok u, s') := by
  induction xs generalizing s with
  | nil =>
    constructor
    · intro hr
      exact ⟨s, rfl, hr⟩
    · rintro ⟨s₁, hnil, hr⟩
      obtain rfl : s = s₁ := (Prod.mk.inj hnil).2
      exact hr
  | cons x xs ih =>
    show (f x >>= fun _ => (xs ++ ys).forM f).runOn s = _
      ↔ ∃ s₁, (f x >>= fun _ => xs.forM f).runOn s = _ ∧ _
    simp only [bind_ok_iff, ih]
    constructor
    · rintro ⟨v, s₂, hx, s₁, hxs, hys⟩
      exact ⟨s₁, ⟨v, s₂, hx, hxs⟩, hys⟩
    · rintro ⟨s₁, ⟨v, s₂, hx, hxs⟩, hys⟩
      exact ⟨v, s₂, hx, s₁, hxs, hys⟩

/-! ## Snags -/

/-- A run that may hit a snag. If it does it fails, and `S` holds of what it leaves; if it does not,
it may succeed or fail, and `Q` or `E` holds. -/
structure Forks (r : Except Failure α × σ) (snag : Prop) (Q : α → σ → Prop) (E S : σ → Prop) :
    Prop where
  snagged : snag → ∃ e s', r = (.error e, s') ∧ S s'
  clear : ¬ snag → Ends r Q fun _ => E

section Forks

variable {snag : Prop} {Q : β → σ → Prop} {E S : σ → Prop}

theorem Forks.congr {r : Except Failure β × σ} (h : Forks r snag Q E S) {snag' : Prop}
    (hs : snag' ↔ snag) : Forks r snag' Q E S := ⟨fun h' => h.snagged (hs.mp h'), fun h' =>
  h.clear fun hsnag => h' (hs.mpr hsnag)⟩

/-- A run in which there is no snag. -/
theorem forks_of_ends {r : Except Failure β × σ} (h : Ends r Q fun _ => E) (hs : ¬ snag) :
    Forks r snag Q E S := ⟨fun h' => absurd h' hs, fun _ => h⟩

/-- What comes after an action that may hit a snag has none. -/
theorem forks_bind {act : Action σ α} {k : α → Action σ β} {s : σ} {M : α → σ → Prop}
    (h : Forks (act.runOn s) snag M E S)
    (hk : ∀ a s', M a s' → Ends ((k a).runOn s') Q fun _ => E) :
    Forks ((act >>= k).runOn s) snag Q E S where
  snagged hs :=
    let ⟨e, s', hr, hS⟩ := h.snagged hs
    ⟨e, s', runOn_bind_error hr, hS⟩
  clear hs := ends_bind (h.clear hs) hk

/-- A run over a list hits a snag where it comes to an element that does. -/
theorem forks_forM {f : α → Action σ PUnit} {I E S : σ → Prop} {xs : List α} {s : σ}
    (snag : α → σ → Prop) (hs : I s)
    (h : ∀ x ∈ xs, ∀ s, I s → Forks ((f x).runOn s) (snag x s) (fun _ s' => I s') E S) :
    Forks ((xs.forM f).runOn s) (∃ x s₁, ComesTo f xs s x s₁ ∧ snag x s₁) (fun _ s' => I s') E S := by
  -- a snag is looked for at the head first; behind a head without one the run goes on
  induction xs generalizing s with
  | nil =>
    refine forks_of_ends hs ?_
    rintro ⟨x, s₁, ⟨before, after, hnil, -⟩, -⟩
    simp at hnil
  | cons x xs ih =>
    have hx := h x (List.mem_cons_self ..) s hs
    have hrest := fun s' (hs' : I s') => ih hs' fun y hy => h y (List.mem_cons_of_mem _ hy)
    by_cases hsnag : snag x s
    · refine ⟨fun _ => ?_, fun hno => absurd ⟨x, s, comesTo_head .., hsnag⟩ hno⟩
      obtain ⟨e, s', hr, hS⟩ := hx.snagged hsnag
      exact ⟨e, s', runOn_bind_error hr, hS⟩
    have hends := hx.clear hsnag
    show Forks ((f x >>= fun _ => xs.forM f).runOn s) _ _ _ _
    rcases hr : (f x).runOn s with ⟨e | u, s'⟩
    -- the head fails in another way, so the run comes to nothing after it
    · rw [hr] at hends
      rw [runOn_bind_error hr]
      apply forks_of_ends hends
      rintro ⟨y, s₁, hcomes, hy⟩
      rcases comesTo_cons_iff.mp hcomes with ⟨rfl, rfl⟩ | ⟨s₂, hok, -⟩
      · exact hsnag hy
      · simp [hr] at hok
    · rw [hr] at hends
      rw [runOn_bind_ok hr]
      refine (hrest s' hends).congr ⟨?_, ?_⟩
      · rintro ⟨y, s₁, hcomes, hy⟩
        rcases comesTo_cons_iff.mp hcomes with ⟨rfl, rfl⟩ | ⟨s₂, hok, hcomes⟩
        · exact absurd hy hsnag
        · obtain rfl : s' = s₂ := by
            rw [hr] at hok
            exact (Prod.mk.inj hok).2
          exact ⟨y, s₁, hcomes, hy⟩
      · rintro ⟨y, s₁, hcomes, hy⟩
        exact ⟨y, s₁, comesTo_tail hr hcomes, hy⟩

end Forks

end Provenance.Action
