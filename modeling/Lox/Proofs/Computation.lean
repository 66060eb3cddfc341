/-!
# Results of computations

Rules of the grammar, evaluation and execution are computations with a state that end in a value or
an error.  Here is how the result of a composed computation depends on the results of its parts.
`OrStops` compares two results up to one error, at which the first may stop early.
-/

namespace Lox.Computing

variable {ε σ α β : Type} {x : EStateM ε σ α} {f : α → EStateM ε σ β} {s s' s'' : σ} {a : α} {b : β}
  {e e' : ε}

/-! ## Results of composed computations -/

theorem bind_of_ok (h : x s = .ok a s') : (x >>= f) s = f a s' := by
  show EStateM.bind x f s = _
  unfold EStateM.bind
  rw [h]

theorem bind_of_error (h : x s = .error e s') : (x >>= f) s = .error e s' := by
  show EStateM.bind x f s = _
  unfold EStateM.bind
  rw [h]

/-- A composed computation ends well if its first part does and then its second. -/
theorem bind_eq_ok :
    (x >>= f) s = .ok b s'' ↔ ∃ a s', x s = .ok a s' ∧ f a s' = .ok b s'' := by
  cases h : x s with
  | ok a s' => simp [bind_of_ok h, and_assoc]
  | error e s' => simp [bind_of_error h]

/-- A composed computation ends in an error of its first part or of its second. -/
theorem bind_eq_error :
    (x >>= f) s = .error e s'' ↔
      x s = .error e s'' ∨ ∃ a s', x s = .ok a s' ∧ f a s' = .error e s'' := by
  cases h : x s with
  | ok a s' => simp [bind_of_ok h, and_assoc]
  | error e s' => simp [bind_of_error h]

/-- Composed computations with one first part agree if their second parts do where it ends. -/
theorem bind_congr_ok {f' : α → EStateM ε σ β} (h : ∀ a s', x s = .ok a s' → f a s' = f' a s') :
    (x >>= f) s = (x >>= f') s := by
  cases hx : x s with
  | ok a s' => rw [bind_of_ok hx, bind_of_ok hx, h a s' hx]
  | error e s' => rw [bind_of_error hx, bind_of_error hx]

/-- Composed computations with one second part agree if their first parts do. -/
theorem bind_congr_state {x' : EStateM ε σ α} (h : x s = x' s) : (x >>= f) s = (x' >>= f) s := by
  cases hx : x s with
  | ok a s' => rw [bind_of_ok hx, bind_of_ok (h.symm.trans hx)]
  | error e s' => rw [bind_of_error hx, bind_of_error (h.symm.trans hx)]

theorem pure_apply : (pure a : EStateM ε σ α) s = .ok a s := rfl

theorem pure_eq_ok {a' : α} : (pure a : EStateM ε σ α) s = .ok a' s' ↔ a = a' ∧ s = s' := by
  simp [pure_apply]

theorem pure_ne_error : (pure a : EStateM ε σ α) s ≠ .error e s' := by simp [pure_apply]

theorem throw_apply : (throw e : EStateM ε σ α) s = .error e s := rfl

theorem throw_ne_ok : (throw e : EStateM ε σ α) s ≠ .ok a s' := by simp [throw_apply]

theorem throw_eq_error : (throw e : EStateM ε σ α) s = .error e' s' ↔ e = e' ∧ s = s' := by
  simp [throw_apply]

theorem map_apply (g : α → β) : (g <$> x) s = (x >>= fun a => pure (g a)) s := rfl

theorem map_eq_ok (g : α → β) : (g <$> x) s = .ok b s' ↔ ∃ a, x s = .ok a s' ∧ g a = b := by
  rw [map_apply, bind_eq_ok]
  constructor
  · rintro ⟨a, s₁, hx, hp⟩
    obtain ⟨rfl, rfl⟩ := pure_eq_ok.1 hp
    exact ⟨a, hx, rfl⟩
  · rintro ⟨a, hx, rfl⟩
    exact ⟨a, s', hx, rfl⟩

/-- The state that a computation leaves, however it ends. -/
def endState : EStateM.Result ε σ α → σ
  | .ok _ s => s
  | .error _ s => s

/-- What leaves the state as it is can follow a computation without a trace. -/
theorem endState_bind_of_const (h : ∀ a s, endState (f a s) = s) :
    endState ((x >>= f) s) = endState (x s) := by
  cases hx : x s with
  | ok a s' =>
    rw [bind_of_ok hx]
    exact h a s'
  | error e s' =>
    rw [bind_of_error hx]
    rfl

theorem endState_map (g : α → β) : endState ((g <$> x) s) = endState (x s) :=
  endState_bind_of_const fun _ _ => rfl

/-- A relation that goes on from one step to the next holds along a composed computation if it holds
along the parts. -/
theorem endState_bind_of_trans {R : σ → σ → Prop} (trans : ∀ {s s' s''}, R s s' → R s' s'' → R s s'')
    (hx : R s (endState (x s))) (hf : ∀ a s', x s = .ok a s' → R s' (endState (f a s'))) :
    R s (endState ((x >>= f) s)) := by
  cases hr : x s with
  | ok a s' =>
    rw [hr] at hx
    rw [bind_of_ok hr]
    exact trans hx (hf a s' hr)
  | error e s' =>
    rw [hr] at hx
    rw [bind_of_error hr]
    exact hx

/-! ## Results up to an early stop -/

/-- The result `r` is `r'`, unless it stops early with the error `e`. -/
def OrStops (e : ε) (r r' : EStateM.Result ε σ α) : Prop := r = r' ∨ ∃ s, r = .error e s

theorem OrStops.rfl {r : EStateM.Result ε σ α} : OrStops e r r := Or.inl (Eq.refl r)

theorem OrStops.of_eq {r r' : EStateM.Result ε σ α} (h : r = r') : OrStops e r r' := Or.inl h

theorem OrStops.stop : OrStops e (.error e s : EStateM.Result ε σ α) r' := Or.inr ⟨s, Eq.refl _⟩

/-- Without the early stop the results are equal. -/
theorem OrStops.eq {r r' : EStateM.Result ε σ α} (h : OrStops e r r')
    (runs : ∀ s, r ≠ .error e s) : r = r' := by
  rcases h with h | ⟨s, h⟩
  · exact h
  · exact absurd h (runs s)

/-- Composed computations agree up to an early stop if their parts do. -/
theorem OrStops.bind {x' : EStateM ε σ α} {f' : α → EStateM ε σ β} (hx : OrStops e (x s) (x' s))
    (hf : ∀ a s', x s = .ok a s' → OrStops e (f a s') (f' a s')) :
    OrStops e ((x >>= f) s) ((x' >>= f') s) := by
  rcases hx with hx | ⟨s', hx⟩
  · cases h : x s with
    | ok a s' =>
      rw [bind_of_ok h, bind_of_ok (hx.symm.trans h)]
      exact hf a s' h
    | error d s' =>
      rw [bind_of_error h, bind_of_error (hx.symm.trans h)]
      exact .rfl
  · rw [bind_of_error hx]
    exact .stop

/-- The first part of a composed computation ends well, or all of it stops early. -/
theorem OrStops.bind_ok {r : EStateM.Result ε σ β} (hx : OrStops e (x s) (.ok a s'))
    (hf : OrStops e (f a s') r) : OrStops e ((x >>= f) s) r := by
  rcases hx with hx | ⟨s', hx⟩
  · rwa [bind_of_ok hx]
  · rw [bind_of_error hx]
    exact .stop

/-- The first part of a composed computation ends well. -/
theorem OrStops.bind_eq {r : EStateM.Result ε σ β} (hx : x s = .ok a s')
    (hf : OrStops e (f a s') r) : OrStops e ((x >>= f) s) r := OrStops.bind_ok (.of_eq hx) hf

end Lox.Computing
