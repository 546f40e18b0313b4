/-
Fixed arrays that are used as lists.

An array of `n` slots of which the first `m` are in use, with the loops that C
code runs over it.  Every access names its index and is checked; the error of a
loop is the first index outside the array that it touches.

* `findFirst_eq`, `findLast_spec` — the search loops, upwards with a stop at
  the first match or running on to the last one;
* `shiftDown_get`, `shiftDown_overrun` — removal in place, by copying every
  later slot one down after a change `f`;
* `inUse_write`, `inUse_push` — the same as operations on the list of the
  slots in use.
-/
import Mathlib

namespace Slots

variable {α : Type} {n : ℕ}

theorem ok_bind {ε β γ : Type} (x : β) (f : β → Except ε γ) : (Except.ok x >>= f) = f x := rfl

theorem bind_eq_ok {ε β γ : Type} {x : Except ε β} {f : β → Except ε γ} {c : γ}
    (h : (x >>= f) = .ok c) : ∃ b, x = .ok b ∧ f b = .ok c := by
  cases x with
  | error e => cases h
  | ok b => exact ⟨b, rfl, h⟩

theorem bind_eq_error {ε β γ : Type} {x : Except ε β} {f : β → Except ε γ} {e : ε}
    (h : (x >>= f) = .error e) : x = .error e ∨ ∃ b, x = .ok b ∧ f b = .error e := by
  cases x with
  | error e' =>
    cases h
    exact Or.inl rfl
  | ok b => exact Or.inr ⟨b, rfl, h⟩

theorem mapM_ok_mem {ε β : Type} {f : α → Except ε β} {l : List α} {ys : List β}
    (h : l.mapM f = .ok ys)
    {x : α} (hx : x ∈ l) : ∃ y ∈ ys, f x = .ok y := by
  induction l generalizing ys with
  | nil => cases hx
  | cons z l ih =>
    rw [List.mapM_cons] at h
    obtain ⟨y, hy, h⟩ := bind_eq_ok h
    obtain ⟨ys', hys, h⟩ := bind_eq_ok h
    cases h
    rcases List.mem_cons.mp hx with rfl | hx
    · exact ⟨y, List.mem_cons_self, hy⟩
    · obtain ⟨y', hmem, hy'⟩ := ih hys hx
      exact ⟨y', List.mem_cons_of_mem _ hmem, hy'⟩

theorem mapM_error {ε β : Type} {f : α → Except ε β} {e : ε} {l : List α}
    (h : l.mapM f = .error e) :
    ∃ x ∈ l, f x = .error e := by
  induction l with
  | nil => cases h
  | cons x l ih =>
    rw [List.mapM_cons] at h
    cases hx : f x with
    | error e' =>
      rw [hx] at h
      cases h
      exact ⟨x, List.mem_cons_self, hx⟩
    | ok y =>
      rw [hx, ok_bind] at h
      cases hl : l.mapM f with
      | error e' =>
        rw [hl] at h
        cases h
        obtain ⟨z, hz, hfz⟩ := ih hl
        exact ⟨z, List.mem_cons_of_mem _ hz, hfz⟩
      | ok ys =>
        rw [hl] at h
        cases h

/-- Calls that can only fail in one way. -/
theorem mapM_eq_error {ε β : Type} {f : α → Except ε β} {e : ε} {l : List α}
    (h : ∀ x ∈ l, ∀ e', f x = .error e' → e' = e) :
    l.mapM f = .error e ↔ ∃ x ∈ l, f x = .error e := by
  refine ⟨mapM_error, fun ⟨x, hx, hfx⟩ => ?_⟩
  cases hl : l.mapM f with
  | error e' =>
    obtain ⟨y, hy, hfy⟩ := mapM_error hl
    rw [h y hy e' hfy]
  | ok ys =>
    obtain ⟨y, -, hy⟩ := mapM_ok_mem hl hx
    rw [hfx] at hy
    cases hy

/-- Read slot `k`. -/
def read (a : Vector α n) (k : ℕ) : Except ℕ α :=
  if h : k < n then .ok a[k] else .error k

/-- Write slot `k`. -/
def write (a : Vector α n) (k : ℕ) (x : α) : Except ℕ (Vector α n) :=
  if k < n then .ok (a.setIfInBounds k x) else .error k

theorem read_eq {a : Vector α n} {k : ℕ} {x : α} (h : a[k]? = some x) : read a k = .ok x := by
  obtain ⟨hk, rfl⟩ := Vector.getElem?_eq_some_iff.mp h
  rw [read, dif_pos hk]

theorem read_error {a : Vector α n} {k : ℕ} (h : n ≤ k) : read a k = .error k := by
  rw [read, dif_neg (by omega)]

theorem write_eq {a : Vector α n} {k : ℕ} (x : α) (h : k < n) :
    write a k x = .ok (a.setIfInBounds k x) := by
  rw [write, if_pos h]

theorem write_error {a : Vector α n} {k : ℕ} (x : α) (h : n ≤ k) : write a k x = .error k := by
  rw [write, if_neg (by omega)]

/-- `for (j = i; j < i + steps; j++) if (p(a[j])) return j;` -/
def findFirst (p : α → Bool) (a : Vector α n) : ℕ → ℕ → Except ℕ (Option ℕ)
  | 0, _ => .ok none
  | steps + 1, i => do
    let x ← read a i
    if p x then .ok (some i) else findFirst p a steps (i + 1)

/-- `for (j = i; j < i + steps; j++) if (p(a[j])) index = j;` -/
def findLast (p : α → Bool) (a : Vector α n) : ℕ → ℕ → Option ℕ → Except ℕ (Option ℕ)
  | 0, _, index => .ok index
  | steps + 1, i, index => do
    let x ← read a i
    findLast p a steps (i + 1) (if p x then some i else index)

/-- `for (j = i; j < i + steps; j++) { a[j+1] = f(a[j+1]); a[j] = a[j+1]; }` -/
def shiftDown (f : α → α) : ℕ → ℕ → Vector α n → Except ℕ (Vector α n)
  | 0, _, a => .ok a
  | steps + 1, i, a => do
    let x ← read a (i + 1)
    let a ← write a (i + 1) (f x)
    let a ← write a i (f x)
    shiftDown f steps (i + 1) a

/-- `for (j = i; j < i + steps; j++) use(a[j]);` -/
def readAll (a : Vector α n) : ℕ → ℕ → Except ℕ (List α)
  | 0, _ => .ok []
  | steps + 1, i => do
    let x ← read a i
    let xs ← readAll a steps (i + 1)
    .ok (x :: xs)

/-- The slots in use, as a list. -/
def inUse (a : Vector α n) (m : ℕ) : List α := a.toList.take m

theorem getElem?_inUse (a : Vector α n) (m k : ℕ) :
    (inUse a m)[k]? = if k < m then a[k]? else none := by
  rw [inUse, List.getElem?_take, Vector.getElem?_toList]

theorem inUse_get {a : Vector α n} {m k : ℕ} {x : α} (h : (inUse a m)[k]? = some x) :
    k < m ∧ a[k]? = some x := by
  rw [getElem?_inUse] at h
  split at h
  · exact ⟨by assumption, h⟩
  · exact absurd h (by simp)

theorem length_inUse {a : Vector α n} {m : ℕ} (h : m ≤ n) : (inUse a m).length = m := by
  simp [inUse, h]

/-! ### Searching -/

theorem findFirst_drop (p : α → Bool) (a : Vector α n) {steps i : ℕ} (h : i + steps ≤ n) :
    findFirst p a steps i = .ok ((((inUse a (i + steps)).drop i).findIdx? p).map (· + i)) := by
  induction steps generalizing i with
  | zero => simp [findFirst, inUse]
  | succ steps ih =>
    have hi : i < (inUse a (i + (steps + 1))).length := by rw [length_inUse h]; omega
    have hget : (inUse a (i + (steps + 1)))[i] = a[i] := by simp [inUse]
    rw [findFirst, read, dif_pos (show i < n by omega), List.drop_eq_getElem_cons hi, hget,
      List.findIdx?_cons]
    rw [ok_bind]
    by_cases hp : p a[i] = true
    · rw [if_pos hp, if_pos hp]
      simp
    · rw [if_neg hp, if_neg hp, ih (by omega), show i + 1 + steps = i + (steps + 1) by omega,
        Option.map_map]
      congr 2
      funext k
      simp only [Function.comp]
      omega

theorem findFirst_eq (p : α → Bool) (a : Vector α n) {m : ℕ} (h : m ≤ n) :
    findFirst p a m 0 = .ok ((inUse a m).findIdx? p) := by
  rw [findFirst_drop p a (by omega)]
  simp

/-- The upward search that runs on: its result is the last match if there is
one, and the initial value otherwise. -/
theorem findLast_spec (p : α → Bool) (a : Vector α n) {steps i : ℕ} (index : Option ℕ)
    (h : i + steps ≤ n) :
    ∃ r, findLast p a steps i index = .ok r ∧
      ((r = index ∧ ∀ j x, i ≤ j → j < i + steps → a[j]? = some x → p x = false) ∨
        ∃ j x, r = some j ∧ i ≤ j ∧ j < i + steps ∧ a[j]? = some x ∧ p x = true ∧
          ∀ j' y, j < j' → j' < i + steps → a[j']? = some y → p y = false) := by
  induction steps generalizing i index with
  | zero => exact ⟨index, rfl, Or.inl ⟨rfl, fun j x h1 h2 => by omega⟩⟩
  | succ steps ih =>
    have hi : i < n := by omega
    have hai : a[i]? = some a[i] := by simp
    obtain ⟨r, hr, hcase⟩ := ih (i := i + 1) (if p a[i] then some i else index) (by omega)
    refine ⟨r, by rw [findLast, read_eq hai]; exact hr, ?_⟩
    rcases hcase with ⟨rfl, hnone⟩ | ⟨j, x, rfl, hij, hj, hx, hp, hlast⟩
    · by_cases hp : p a[i] = true
      · refine Or.inr ⟨i, a[i], by rw [if_pos hp], le_refl i, by omega, hai, hp, ?_⟩
        exact fun j' y h1 h2 => hnone j' y (by omega) (by omega)
      · refine Or.inl ⟨by rw [if_neg hp], fun j x h1 h2 hx => ?_⟩
        rcases Nat.eq_or_lt_of_le h1 with rfl | hlt
        · rw [hai, Option.some_inj] at hx
          subst hx
          simpa using hp
        · exact hnone j x hlt (by omega) hx
    · exact Or.inr ⟨j, x, rfl, by omega, by omega, hx, hp,
        fun j' y h1 h2 => hlast j' y h1 (by omega)⟩

theorem readAll_drop (a : Vector α n) {steps i : ℕ} (h : i + steps ≤ n) :
    readAll a steps i = .ok ((inUse a (i + steps)).drop i) := by
  induction steps generalizing i with
  | zero => simp [readAll, inUse]
  | succ steps ih =>
    have hi : i < (inUse a (i + (steps + 1))).length := by rw [length_inUse h]; omega
    have hget : (inUse a (i + (steps + 1)))[i] = a[i] := by simp [inUse]
    rw [readAll, read, dif_pos (show i < n by omega), ok_bind, ih (by omega),
      List.drop_eq_getElem_cons hi, hget, show i + 1 + steps = i + (steps + 1) by omega]
    rfl

theorem readAll_eq (a : Vector α n) {m : ℕ} (h : m ≤ n) : readAll a m 0 = .ok (inUse a m) := by
  rw [readAll_drop a (by omega)]
  simp

/-! ### Removing in place -/

theorem shiftDown_get (f : α → α) {steps i : ℕ} (a : Vector α n) (h : i + steps < n) :
    ∃ b, shiftDown f steps i a = .ok b ∧ ∀ k,
      b[k]? = if k < i then a[k]? else if k < i + steps then (a[k + 1]?).map f
        else if k = i + steps ∧ 0 < steps then (a[k]?).map f else a[k]? := by
  induction steps generalizing i a with
  | zero =>
    refine ⟨a, rfl, fun k => ?_⟩
    split <;> [rfl; skip]
    rw [if_neg (by omega), if_neg (by omega)]
  | succ steps ih =>
    have hread : a[i + 1]? = some a[i + 1] := by simp
    set a' := (a.setIfInBounds (i + 1) (f a[i + 1])).setIfInBounds i (f a[i + 1]) with ha'
    have hstep : shiftDown f (steps + 1) i a = shiftDown f steps (i + 1) a' := by
      rw [shiftDown, read_eq hread, ok_bind, write_eq _ (by omega), ok_bind,
        write_eq _ (by omega), ok_bind]
    have hget : ∀ k, a'[k]? = if k = i ∨ k = i + 1 then some (f a[i + 1]) else a[k]? := by
      intro k
      rw [ha', Vector.getElem?_setIfInBounds, Vector.getElem?_setIfInBounds]
      grind
    -- the copy at `i + 1` is overwritten by the next step, if there is one
    obtain ⟨b, hb, hbk⟩ := ih (i := i + 1) a' (by omega)
    refine ⟨b, by rw [hstep, hb], fun k => ?_⟩
    rw [hbk k, hget, hget]
    rcases Nat.lt_trichotomy k i with hk | rfl | hk
    · rw [if_pos (by omega), if_neg (by omega), if_pos hk]
    · rw [if_pos (by omega), if_pos (by omega), if_neg (by omega), if_pos (by omega), hread]
      rfl
    · rw [if_neg (show ¬k < i by omega)]
      by_cases hk1 : k = i + 1
      · subst hk1
        rcases steps with _ | steps <;> grind
      · rw [if_neg (show ¬k < i + 1 by omega), if_neg (show ¬(k + 1 = i ∨ k + 1 = i + 1) by omega),
          if_neg (show ¬(k = i ∨ k = i + 1) by omega)]
        grind

/-- Shifting down to the last slot touches the one behind it. -/
theorem shiftDown_overrun (f : α → α) {steps i : ℕ} (a : Vector α n) (hs : 0 < steps)
    (h : i + steps = n) : shiftDown f steps i a = .error n := by
  induction steps generalizing i a with
  | zero => omega
  | succ steps ih =>
    rcases Nat.eq_zero_or_pos steps with rfl | hpos
    · rw [shiftDown, read_error (by omega)]
      rw [show i + 1 = n by omega]
      rfl
    · have hread : a[i + 1]? = some a[i + 1] := by simp
      rw [shiftDown, read_eq hread, ok_bind, write_eq _ (by omega), ok_bind,
        write_eq _ (by omega), ok_bind]
      exact ih _ hpos (by omega)

/-- Two arrays whose slots are related are shifted alike. -/
theorem shiftDown_related {β : Type} {R : α → β → Prop} {f : α → α} {g : β → β}
    (hfg : ∀ x y, R x y → R (f x) (g y)) {steps i : ℕ} {a a' : Vector α n} {b : Vector β n}
    (hab : ∀ (k : ℕ) x y, a[k]? = some x → b[k]? = some y → R x y)
    (ha : shiftDown f steps i a = .ok a') :
    ∃ b', shiftDown g steps i b = .ok b' ∧
      ∀ (k : ℕ) x y, a'[k]? = some x → b'[k]? = some y → R x y := by
  induction steps generalizing i a b with
  | zero =>
    cases ha
    exact ⟨b, rfl, hab⟩
  | succ steps ih =>
    by_cases hi : i + 1 < n
    · have hreadA : a[i + 1]? = some a[i + 1] := by simp
      have hreadB : b[i + 1]? = some b[i + 1] := by simp
      rw [shiftDown, read_eq hreadA, ok_bind, write_eq _ (by omega), ok_bind,
        write_eq _ (by omega), ok_bind] at ha
      rw [shiftDown, read_eq hreadB, ok_bind, write_eq _ (by omega), ok_bind,
        write_eq _ (by omega), ok_bind]
      -- both slots get the element behind them
      refine ih (fun k x y hx hy => ?_) ha
      rw [Vector.getElem?_setIfInBounds, Vector.getElem?_setIfInBounds] at hx hy
      have hmoved := hfg _ _ (hab _ _ _ hreadA hreadB)
      grind
    · rw [shiftDown, read_error (by omega)] at ha
      cases ha

/-! ### The slots in use -/

theorem inUse_write (a : Vector α n) (m : ℕ) {k : ℕ} (x : α) :
    inUse (a.setIfInBounds k x) m = (inUse a m).set k x := by
  rw [inUse, inUse, Vector.toList_setIfInBounds, List.take_set]

theorem inUse_push (a : Vector α n) {m : ℕ} (x : α) (h : m < n) :
    inUse (a.setIfInBounds m x) (m + 1) = inUse a m ++ [x] := by
  apply List.ext_getElem?
  intro k
  rw [getElem?_inUse, Vector.getElem?_setIfInBounds, List.getElem?_append,
    length_inUse (by omega), getElem?_inUse]
  rcases Nat.lt_trichotomy k m with hk | rfl | hk
  · rw [if_pos (by omega), if_neg (by omega), if_pos hk, if_pos hk]
  · simp [h]
  · rw [if_neg (by omega), if_neg (by omega), List.getElem?_eq_none (by simp; omega)]

end Slots
