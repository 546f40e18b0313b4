/-
Runs of labelled steps, and programs that perform them.

* `Run step s ls t` — the steps with the labels `ls`, in order, lead from `s`
  to `t`;
* `Run.invariant` — what every step keeps, the run keeps, where a step may rely
  on a condition that holds of its label and the state before it (`Guarded`);
* `Along step account` — steps with an account that is kept of them;
* `Run.of_foldlM`, `Run.countP_le` — runs of a step function, and bounds on the length of runs;
* `Run.simulated` — where every step of one system is a run of another, whose labels tell what
  has been seen, so is every run;
* `Performs step m s Q E` — the program `m` on a state with exceptions does
  nothing from `s` but a run of such steps; `Q` says of the result which ones,
  `E` says it of an exception, together with the state in which the steps have
  left it and the state at the exception;
* `Performs.bind` and its companions — the rules for the parts of a program;
* `Returns m P` — all results of the program meet `P`;
* `Avoids m e` — the program does not fail with `e`;
* `Blind φ m` — the program does not look at what `φ` changes in the state.
-/
import Mathlib

namespace Trace

variable {σ ℓ : Type} {step : σ → ℓ → σ → Prop}

inductive Run (step : σ → ℓ → σ → Prop) : σ → List ℓ → σ → Prop
  | nil (s : σ) : Run step s [] s
  | cons {s t u : σ} {l : ℓ} {ls : List ℓ} : step s l t → Run step t ls u → Run step s (l :: ls) u

/-- `ok s l` holds whenever the run is about to take the step `l` from `s`. -/
inductive Guarded (step : σ → ℓ → σ → Prop) (ok : σ → ℓ → Prop) : σ → List ℓ → σ → Prop
  | nil (s : σ) : Guarded step ok s [] s
  | cons {s t u : σ} {l : ℓ} {ls : List ℓ} :
    ok s l → step s l t → Guarded step ok t ls u → Guarded step ok s (l :: ls) u

theorem Run.single {s t : σ} {l : ℓ} (h : step s l t) : Run step s [l] t := .cons h (.nil t)

theorem Run.append {s t u : σ} {ls ms : List ℓ} (h : Run step s ls t) (h' : Run step t ms u) :
    Run step s (ls ++ ms) u := by
  induction h with
  | nil s => exact h'
  | cons hl _ ih => exact .cons hl (ih h')

theorem run_nil {s t : σ} : Run step s [] t ↔ t = s := by
  constructor
  · intro h
    cases h
    rfl
  · rintro rfl
    exact .nil t

theorem run_cons {s u : σ} {l : ℓ} {ls : List ℓ} :
    Run step s (l :: ls) u ↔ ∃ t, step s l t ∧ Run step t ls u := by
  constructor
  · intro h
    cases h with
    | cons hl hr => exact ⟨_, hl, hr⟩
  · rintro ⟨t, hl, hr⟩
    exact .cons hl hr

theorem run_append {s u : σ} {ls ms : List ℓ} :
    Run step s (ls ++ ms) u ↔ ∃ t, Run step s ls t ∧ Run step t ms u := by
  constructor
  · intro h
    induction ls generalizing s with
    | nil => exact ⟨s, .nil s, h⟩
    | cons l ls ih =>
      obtain ⟨r, hl, hr⟩ := run_cons.mp h
      obtain ⟨t, h1, h2⟩ := ih hr
      exact ⟨t, .cons hl h1, h2⟩
  · rintro ⟨t, h1, h2⟩
    exact h1.append h2

theorem Run.mono {step' : σ → ℓ → σ → Prop} (hstep : ∀ s l t, step s l t → step' s l t) {s t : σ}
    {ls : List ℓ} (h : Run step s ls t) : Run step' s ls t := by
  induction h with
  | nil s => exact .nil s
  | cons hl _ ih => exact .cons (hstep _ _ _ hl) ih

/-- What every step keeps, a run keeps. -/
theorem Run.invariant {I : σ → Prop} (hstep : ∀ s l t, I s → step s l t → I t) {s t : σ}
    {ls : List ℓ} (h : Run step s ls t) (hs : I s) : I t := by
  induction h with
  | nil s => exact hs
  | cons hl _ ih => exact ih (hstep _ _ _ hs hl)

/-- What every step with an admitted label keeps, a run of such steps keeps. -/
theorem Run.invariant_of {I : σ → Prop} {P : ℓ → Prop}
    (hstep : ∀ s l t, P l → I s → step s l t → I t) {s t : σ} {ls : List ℓ}
    (h : Run step s ls t) (hP : ∀ l ∈ ls, P l) (hs : I s) : I t := by
  induction h with
  | nil s => exact hs
  | cons hl _ ih =>
    exact ih (fun l hm => hP l (List.mem_cons_of_mem _ hm))
      (hstep _ _ _ (hP _ List.mem_cons_self) hs hl)

theorem Guarded.run {ok : σ → ℓ → Prop} {s t : σ} {ls : List ℓ} (h : Guarded step ok s ls t) :
    Run step s ls t := by
  induction h with
  | nil s => exact .nil s
  | cons _ hl _ ih => exact .cons hl ih

theorem Guarded.append {ok : σ → ℓ → Prop} {s t u : σ} {ls ms : List ℓ}
    (h : Guarded step ok s ls t) (h' : Guarded step ok t ms u) :
    Guarded step ok s (ls ++ ms) u := by
  induction h with
  | nil s => exact h'
  | cons hok hl _ ih => exact .cons hok hl (ih h')

/-- A run all of whose steps are admitted by what has been done before them. -/
theorem Run.guarded {ok : σ → ℓ → Prop} {s t : σ} {ls : List ℓ} (h : Run step s ls t)
    (hok : ∀ as l bs u, ls = as ++ l :: bs → Run step s as u → ok u l) :
    Guarded step ok s ls t := by
  induction h with
  | nil s => exact .nil s
  | @cons s t u l ls hl _ ih =>
    refine .cons (hok [] l ls s rfl (.nil s)) hl (ih fun as m bs v hls hr => ?_)
    exact hok (l :: as) m bs v (by rw [hls]; rfl) (.cons hl hr)

/-- The invariant rule for runs all of whose steps meet a condition. -/
theorem Guarded.invariant {I : σ → Prop} {ok : σ → ℓ → Prop}
    (hstep : ∀ s l t, I s → ok s l → step s l t → I t) {s t : σ} {ls : List ℓ}
    (h : Guarded step ok s ls t) (hs : I s) : I t := by
  induction h with
  | nil s => exact hs
  | cons hok hl _ ih => exact ih (hstep _ _ _ hs hok hl)

/-! ### Steps with an account of them -/

section Accounts

variable {α : Type} {account : σ → ℓ → α → α → Prop}

/-- Steps along which something is kept account of that they do not depend on. -/
def Along (step : σ → ℓ → σ → Prop) (account : σ → ℓ → α → α → Prop) (x : σ × α) (l : ℓ)
    (y : σ × α) : Prop :=
  step x.1 l y.1 ∧ account x.1 l x.2 y.2

theorem Run.of_along {x y : σ × α} {ls : List ℓ} (h : Run (Along step account) x ls y) :
    Run step x.1 ls y.1 := by
  induction h with
  | nil x => exact .nil x.1
  | cons hl _ ih => exact .cons hl.1 ih

/-- An account can be given of a run whose steps can be accounted for: `enough ls a` says that
`a` suffices for the steps `ls`. -/
theorem Run.along {s t : σ} {ls : List ℓ} (h : Run step s ls t) (enough : List ℓ → α → Prop)
    (haccount : ∀ {s t : σ} {l : ℓ} {ls : List ℓ} {a : α}, step s l t → enough (l :: ls) a →
      ∃ b, account s l a b ∧ enough ls b) {a : α} (ha : enough ls a) :
        ∃ b, Run (Along step account) (s, a) ls (t, b) ∧ enough [] b := by
  induction h generalizing a with
  | nil s => exact ⟨a, .nil (s, a), ha⟩
  | cons hl _ ih =>
    obtain ⟨b, hb, hrest⟩ := haccount hl ha
    obtain ⟨c, hrun, hc⟩ := ih hrest
    exact ⟨c, .cons ⟨hl, hb⟩ hrun, hc⟩

end Accounts

/-! ### Steps that are computed, and steps that are counted -/

theorem Run.of_foldlM {f : σ → ℓ → Option σ} {s t : σ} {ls : List ℓ} (h : ls.foldlM f s = some t) :
    Run (fun s l t => f s l = some t) s ls t := by
  induction ls generalizing s with
  | nil =>
    obtain rfl := Option.some_inj.mp h
    exact .nil s
  | cons l ls ih =>
    rw [List.foldlM_cons] at h
    obtain ⟨r, hstep, hrest⟩ := Option.bind_eq_some_iff.mp h
    exact .cons hstep (ih hrest)

/-- A run whose last state is tested. -/
theorem Run.of_any {f : σ → ℓ → Option σ} {s : σ} {ls : List ℓ} {p : σ → Bool}
    (h : (ls.foldlM f s).any p = true) :
    ∃ t, Run (fun s l t => f s l = some t) s ls t ∧ p t = true := by
  cases hfold : ls.foldlM f s with
  | none =>
    rw [hfold] at h
    cases h
  | some t =>
    rw [hfold] at h
    exact ⟨t, .of_foldlM hfold, h⟩

/-- A run whose steps and whose last state are tested. -/
theorem Guarded.of_any {f : σ → ℓ → Option σ} {ok : σ → ℓ → Prop}
    [∀ s, DecidablePred (ok s)] {s : σ}
    {ls : List ℓ} {p : σ → Bool}
    (h : (ls.foldlM (fun s l => if ok s l then f s l else none) s).any p = true) :
    ∃ t, Guarded (fun s l t => f s l = some t) ok s ls t ∧ p t = true := by
  induction ls generalizing s with
  | nil => exact ⟨s, .nil s, h⟩
  | cons l ls ih =>
    rw [List.foldlM_cons] at h
    split at h
    · rename_i hok
      cases hstep : f s l with
      | none =>
        rw [hstep] at h
        cases h
      | some r =>
        rw [hstep] at h
        obtain ⟨t, hrun, hp⟩ := ih h
        exact ⟨t, .cons hok hstep hrun, hp⟩
    · cases h

/-- Steps that lower a measure are limited by those that raise it. -/
theorem Run.countP_le {μ : σ → ℕ} {p q : ℓ → Bool} {k : ℕ}
    (hstep : ∀ s l t, step s l t → (if p l then 1 else 0) + μ t ≤ μ s + if q l then k else 0)
    {s t : σ} {ls : List ℓ} (h : Run step s ls t) : ls.countP p + μ t ≤ μ s + k * ls.countP q := by
  induction h with
  | nil s => simp
  | @cons s t u l ls hl _ ih =>
    have hone := hstep _ _ _ hl
    have hgain : k * (ls.countP q + if q l then 1 else 0) =
        k * ls.countP q + if q l then k else 0 := by
      rw [Nat.mul_add, mul_ite, Nat.mul_one, Nat.mul_zero]
    rw [List.countP_cons, List.countP_cons, hgain]
    omega

/-! ### Simulation -/

section Simulation

variable {τ ℓ' o : Type} {step' : τ → ℓ' → τ → Prop}

/-- Every step leads from related states to related states, as a run of the other system that shows
what the step adds to what has been seen. -/
theorem Run.simulated {R : σ → τ → Prop} {seen : σ → List o} {shows : ℓ' → List o}
    (hstep : ∀ {s t : σ} {l : ℓ} {u : τ}, R s u → step s l t →
      ∃ ms v, Run step' u ms v ∧ R t v ∧ seen t = seen s ++ ms.flatMap shows)
    {s t : σ} {ls : List ℓ} (h : Run step s ls t) {u : τ} (hu : R s u) :
    ∃ ms v, Run step' u ms v ∧ R t v ∧ seen t = seen s ++ ms.flatMap shows := by
  induction h generalizing u with
  | nil s => exact ⟨[], u, .nil u, hu, (List.append_nil _).symm⟩
  | cons hl _ ih =>
    obtain ⟨ms, v, hrun, hv, hseen⟩ := hstep hu hl
    obtain ⟨ns, w, hrun', hw, hseen'⟩ := ih hv
    refine ⟨ms ++ ns, w, hrun.append hrun', hw, ?_⟩
    rw [hseen', hseen, List.flatMap_append, List.append_assoc]

end Simulation

/-! ### Programs -/

section Programs

variable {ε α β : Type}

def Performs (step : σ → ℓ → σ → Prop) (m : EStateM ε σ α) (s : σ) (Q : α → List ℓ → σ → Prop)
    (E : ε → List ℓ → σ → σ → Prop) : Prop :=
  match m s with
  | .ok a t => ∃ ls, Run step s ls t ∧ Q a ls t
  | .error e t => ∃ ls u, Run step s ls u ∧ E e ls u t

variable {m : EStateM ε σ α} {s : σ} {Q : α → List ℓ → σ → Prop}
variable {E : ε → List ℓ → σ → σ → Prop}

theorem Performs.ok (h : Performs step m s Q E) {a : α} {t : σ} (hm : m s = .ok a t) :
    ∃ ls, Run step s ls t ∧ Q a ls t := by
  rw [Performs, hm] at h
  exact h

theorem Performs.error (h : Performs step m s Q E) {e : ε} {t : σ} (hm : m s = .error e t) :
    ∃ ls u, Run step s ls u ∧ E e ls u t := by
  rw [Performs, hm] at h
  exact h

/-- From a run of the program on this state. -/
theorem performs_of_ok {a : α} {t : σ} {ls : List ℓ} (hm : m s = .ok a t) (hr : Run step s ls t)
    (hq : Q a ls t) : Performs step m s Q E := by
  rw [Performs, hm]
  exact ⟨ls, hr, hq⟩

theorem performs_of_error {e : ε} {t : σ} (hm : m s = .error e t) (he : E e [] s t) :
    Performs step m s Q E := by
  rw [Performs, hm]
  exact ⟨[], s, .nil s, he⟩

theorem performs_pure {a : α} (h : Q a [] s) : Performs step (pure a) s Q E :=
  performs_of_ok rfl (.nil s) h

theorem performs_throw {e : ε} (h : E e [] s s) : Performs step (throw e : EStateM ε σ α) s Q E :=
  performs_of_error rfl h

theorem performs_get_bind {f : σ → EStateM ε σ α} (h : Performs step (f s) s Q E) :
    Performs step (get >>= f) s Q E := h

theorem Performs.mono {Q' : α → List ℓ → σ → Prop} {E' : ε → List ℓ → σ → σ → Prop}
    (h : Performs step m s Q E) (hQ : ∀ a ls t, Run step s ls t → Q a ls t → Q' a ls t)
    (hE : ∀ e ls u t, Run step s ls u → E e ls u t → E' e ls u t) :
    Performs step m s Q' E' := by
  unfold Performs at h ⊢
  cases hm : m s with
  | ok a t =>
    rw [hm] at h
    obtain ⟨ls, hr, hq⟩ := h
    exact ⟨ls, hr, hQ a ls t hr hq⟩
  | error e t =>
    rw [hm] at h
    obtain ⟨ls, u, hr, he⟩ := h
    exact ⟨ls, u, hr, hE e ls u t hr he⟩

theorem bind_ok {f : α → EStateM ε σ β} {a : α} {t : σ} (hm : m s = .ok a t) :
    (m >>= f) s = f a t := by
  simp only [bind, EStateM.bind, hm]

theorem bind_error {f : α → EStateM ε σ β} {e : ε} {t : σ} (hm : m s = .error e t) :
    (m >>= f) s = .error e t := by
  simp only [bind, EStateM.bind, hm]

/-- A result has come through both parts. -/
theorem bind_eq_ok {f : α → EStateM ε σ β} {b : β} {u : σ} :
    (m >>= f) s = .ok b u ↔ ∃ a t, m s = .ok a t ∧ f a t = .ok b u := by
  cases hm : m s with
  | ok a t =>
    rw [bind_ok hm]
    constructor
    · exact fun h => ⟨a, t, rfl, h⟩
    · rintro ⟨_, _, h, hf⟩
      cases h
      exact hf
  | error e t =>
    rw [bind_error hm]
    simp

/-- A first part whose result is only wrapped. -/
theorem bind_pure_ok {g : α → β} {b : β} {t : σ} :
    (m >>= fun a => pure (g a)) s = .ok b t ↔ ∃ a, m s = .ok a t ∧ g a = b := by
  cases hm : m s with
  | ok a u =>
    rw [bind_ok hm]
    constructor
    · intro h
      cases h
      exact ⟨a, rfl, rfl⟩
    · rintro ⟨a, h, rfl⟩
      cases h
      rfl
  | error e u =>
    rw [bind_error hm]
    simp

/-- The steps of the first part, and then those of the second part from where the
first one has ended. -/
theorem Performs.bind {f : α → EStateM ε σ β} {Q' : β → List ℓ → σ → Prop}
    {E' : ε → List ℓ → σ → σ → Prop} (hm : Performs step m s Q E)
    (hf : ∀ a ls t, Run step s ls t → Q a ls t →
      Performs step (f a) t (fun b ms u => Q' b (ls ++ ms) u)
        (fun e ms u w => E' e (ls ++ ms) u w))
    (hE : ∀ e ls u t, Run step s ls u → E e ls u t → E' e ls u t) :
    Performs step (m >>= f) s Q' E' := by
  unfold Performs at hm ⊢
  cases h : m s with
  | error e t =>
    rw [h] at hm
    rw [bind_error h]
    obtain ⟨ls, u, hr, he⟩ := hm
    exact ⟨ls, u, hr, hE e ls u t hr he⟩
  | ok a t =>
    rw [h] at hm
    rw [bind_ok h]
    -- the second part goes on from the state and the labels of the first one
    obtain ⟨ls, hr, hq⟩ := hm
    have hn := hf a ls t hr hq
    unfold Performs at hn
    cases h' : f a t with
    | ok b u =>
      rw [h'] at hn
      obtain ⟨ms, hr', hq'⟩ := hn
      exact ⟨ls ++ ms, hr.append hr', hq'⟩
    | error e w =>
      rw [h'] at hn
      obtain ⟨ms, u, hr', he⟩ := hn
      exact ⟨ls ++ ms, u, hr.append hr', he⟩

/-- A first part that is known to make no step. -/
theorem performs_bind_of_ok {f : α → EStateM ε σ β} {a : α} {Q' : β → List ℓ → σ → Prop}
    {E' : ε → List ℓ → σ → σ → Prop} (hm : m s = .ok a s) (hf : Performs step (f a) s Q' E') :
    Performs step (m >>= f) s Q' E' := by
  unfold Performs at hf ⊢
  rw [bind_ok hm]
  exact hf

theorem performs_bind_of_error {f : α → EStateM ε σ β} {e : ε} {t : σ}
    {Q' : β → List ℓ → σ → Prop} {E' : ε → List ℓ → σ → σ → Prop} (hm : m s = .error e t)
    (he : E' e [] s t) : Performs step (m >>= f) s Q' E' :=
  performs_of_error (bind_error hm) he

/-! What the result of a program is, wherever it starts. -/

def Returns (m : EStateM ε σ α) (P : α → Prop) : Prop := ∀ s a t, m s = .ok a t → P a

theorem returns_pure {P : α → Prop} {a : α} (h : P a) : Returns (pure a : EStateM ε σ α) P := by
  intro s b t hm
  cases hm
  exact h

/-- A program that starts by looking at the state. -/
theorem get_bind_returns {P : α → Prop} {f : σ → EStateM ε σ α} (h : ∀ a t, f s s = .ok a t → P a) :
    ∀ a t, (get >>= f) s = .ok a t → P a := h

theorem Returns.bind {P : β → Prop} {f : α → EStateM ε σ β} (hf : ∀ a, Returns (f a) P) :
    Returns (m >>= f) P := by
  intro s b u hm
  cases h : m s with
  | ok a t =>
    rw [bind_ok h] at hm
    exact hf a t b u hm
  | error e t =>
    rw [bind_error h] at hm
    cases hm

/-! What a program does not fail with, wherever it starts. -/

def Avoids (m : EStateM ε σ α) (e : ε) : Prop := ∀ s t, m s ≠ .error e t

theorem avoids_pure (a : α) (e : ε) : Avoids (pure a : EStateM ε σ α) e := by
  intro s t h
  cases h

theorem avoids_get (e : ε) : Avoids (get : EStateM ε σ σ) e := by
  intro s t h
  cases h

theorem avoids_modify (f : σ → σ) (e : ε) : Avoids (modify f : EStateM ε σ PUnit) e := by
  intro s t h
  cases h

theorem avoids_throw {e e' : ε} (h : e' ≠ e) : Avoids (throw e' : EStateM ε σ α) e := by
  intro s t hm
  cases hm
  exact h rfl

theorem Avoids.bind {f : α → EStateM ε σ β} {e : ε} (hm : Avoids m e) (hf : ∀ a, Avoids (f a) e) :
    Avoids (m >>= f) e := by
  intro s t h
  cases hs : m s with
  | ok a u =>
    rw [bind_ok hs] at h
    exact hf a u t h
  | error e' u =>
    rw [bind_error hs] at h
    cases h
    exact hm s _ hs

/-! What a program does not look at. -/

/-- A result in the changed state. -/
def onState (φ : σ → σ) : EStateM.Result ε σ α → EStateM.Result ε σ α
  | .ok a t => .ok a (φ t)
  | .error e t => .error e (φ t)

def Blind (φ : σ → σ) (m : EStateM ε σ α) : Prop := ∀ s, m (φ s) = onState φ (m s)

variable {φ : σ → σ}

theorem Blind.ok (h : Blind φ m) {a : α} {t : σ} (hm : m s = .ok a t) : m (φ s) = .ok a (φ t) := by
  rw [h s, hm]
  rfl

theorem Blind.error (h : Blind φ m) {e : ε} {t : σ} (hm : m s = .error e t) :
    m (φ s) = .error e (φ t) := by
  rw [h s, hm]
  rfl

theorem blind_pure (a : α) : Blind φ (pure a : EStateM ε σ α) := fun _ => rfl

theorem blind_throw (e : ε) : Blind φ (throw e : EStateM ε σ α) := fun _ => rfl

theorem blind_modify {f : σ → σ} (h : ∀ s, f (φ s) = φ (f s)) :
    Blind φ (modify f : EStateM ε σ PUnit) := by
  intro s
  exact congrArg (EStateM.Result.ok PUnit.unit) (h s)

/-- A program that starts by looking at the state, but not at that part. -/
theorem blind_get_bind {f : σ → EStateM ε σ α} (hf : ∀ s, f (φ s) = f s)
    (h : ∀ s, Blind φ (f s)) : Blind φ (get >>= f) := by
  intro s
  change f (φ s) (φ s) = onState φ (f s s)
  rw [hf s, h s s]

theorem Blind.bind {f : α → EStateM ε σ β} (hm : Blind φ m) (hf : ∀ a, Blind φ (f a)) :
    Blind φ (m >>= f) := by
  intro s
  cases h : m s with
  | ok a t =>
    rw [bind_ok h, bind_ok (hm.ok h)]
    exact hf a t
  | error e t =>
    rw [bind_error h, bind_error (hm.error h)]
    rfl

end Programs

end Trace
