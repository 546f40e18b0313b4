/-
Scanners over a text that ends in terminators.

A C scanner holds a pointer into a buffer and looks at what it points to; past
the part of the buffer that is listed, it sees the terminator `0` for ever.  A
`Scanner` is that pointer, as the remaining text, together with two ways to stop:
it refuses the text, or it breaks the program that it is part of.

* `Parses m a v F` — on the text `a`, followed by anything whose first token
  satisfies `F`, the scanner `m` yields `v` and stops right behind `a`; on a
  proper prefix of `a` followed by terminators only, it refuses or runs dry;
* `Delimits m a v` — whatever follows `a`, the scanner yields `v` and stops
  right behind `a`; on a proper prefix followed by terminators only, it refuses;
* `Consumes m d` — when `m` succeeds it has moved over `d` tokens at least, so
  that scanners behind it see a shorter text (`Agree.bind`);
* `Ensures P m Q B` — from a text with `P`, a property that every later place of the
  text has with it (`Inherited`), `m` yields values with `Q`, and breaks in the ways `B`;
* `Parses.bind`, `Delimits.skipThen`, `Delimits.branch` and their companions
  compose these facts along a scanner written with `do`.
-/
import Mathlib

namespace Scan

variable {τ ε : Type} [Zero τ] {β γ : Type}

/-- Why a scanner has no value: the text is none of its own, or reading it is an error of the
program. -/
inductive Stop (ε : Type)
  | refused
  | broken (e : ε)
  deriving DecidableEq

/-- A scanner: from the text at the pointer to a value and the text at the
pointer's new place, or a stop. -/
abbrev Scanner (τ ε β : Type) := StateT (List τ) (Except (Stop ε)) β

/-- What a program gets from its scanner: a value or none, unless it breaks. -/
def outcome : Except (Stop ε) (β × List τ) → Except ε (Option β)
  | .ok r => .ok (some r.1)
  | .error .refused => .ok none
  | .error (.broken e) => .error e

omit [Zero τ] in
theorem outcome_eq_some {r : Except (Stop ε) (β × List τ)} {v : β} :
    outcome r = .ok (some v) ↔ ∃ t, r = .ok (v, t) := by
  rcases r with (_ | e) | ⟨w, t⟩ <;> simp [outcome]

omit [Zero τ] in
theorem outcome_eq_none {r : Except (Stop ε) (β × List τ)} :
    outcome r = .ok none ↔ r = .error .refused := by
  rcases r with (_ | e) | ⟨w, t⟩ <;> simp [outcome]

omit [Zero τ] in
theorem outcome_eq_error {r : Except (Stop ε) (β × List τ)} {e : ε} :
    outcome r = .error e ↔ r = .error (.broken e) := by
  rcases r with (_ | e') | ⟨w, t⟩ <;> simp [outcome]

/-- The token pointed at. -/
def peek (t : List τ) : τ := t.headD 0

@[simp] theorem peek_cons (c : τ) (t : List τ) : peek (c :: t) = c := rfl

def look : Scanner τ ε τ := fun t => .ok (peek t, t)

def advance (k : ℕ) : Scanner τ ε Unit := fun t => .ok ((), t.drop k)

/-- Move over the token `c`, or refuse. -/
def expect [DecidableEq τ] (c : τ) : Scanner τ ε Unit := fun t =>
  if peek t = c then .ok ((), t.drop 1) else .error .refused

def skipWhile (p : τ → Bool) : Scanner τ ε Unit := fun t => .ok ((), t.dropWhile p)

/-- Look ahead: over the token `d` go on with `m`, otherwise with `n`. -/
def branch [DecidableEq τ] (d : τ) (m n : Scanner τ ε β) : Scanner τ ε β := do
  if (← look) = d then
    advance 1
    m
  else
    n

omit [Zero τ] in
theorem bind_ok {m : Scanner τ ε β} {t u : List τ} {v : β} (h : m t = .ok (v, u))
    (f : β → Scanner τ ε γ) : (m >>= f) t = f v u := by
  show (m t >>= fun r => f r.1 r.2) = _
  rw [h]
  rfl

omit [Zero τ] in
theorem bind_error {m : Scanner τ ε β} {t : List τ} {e : Stop ε} (h : m t = .error e)
    (f : β → Scanner τ ε γ) : (m >>= f) t = .error e := by
  show (m t >>= fun r => f r.1 r.2) = _
  rw [h]
  rfl

omit [Zero τ] in
theorem bind_eq_ok {m : Scanner τ ε β} {f : β → Scanner τ ε γ} {t u : List τ} {w : γ} :
    (m >>= f) t = .ok (w, u) ↔ ∃ v r, m t = .ok (v, r) ∧ f v r = .ok (w, u) := by
  constructor
  · intro h
    cases hm : m t with
    | error e =>
      rw [bind_error hm] at h
      cases h
    | ok r =>
      rw [bind_ok hm] at h
      exact ⟨r.1, r.2, rfl, h⟩
  · rintro ⟨v, r, hm, h⟩
    rw [bind_ok hm, h]

omit [Zero τ] in
theorem skipThen_run (p : τ → Bool) (m : Scanner τ ε β) (t : List τ) :
    (skipWhile p >>= fun _ => m) t = m (t.dropWhile p) := rfl

theorem expect_run [DecidableEq τ] (c : τ) (m : Scanner τ ε β) (t : List τ) :
    (expect c >>= fun _ => m) t = if peek t = c then m (t.drop 1) else .error .refused := by
  by_cases h : peek t = c
  · have hexpect : (expect c : Scanner τ ε Unit) t = .ok ((), t.drop 1) := by
      rw [expect, if_pos h]
    rw [if_pos h, bind_ok hexpect]
  · have hexpect : (expect c : Scanner τ ε Unit) t = .error .refused := by
      rw [expect, if_neg h]
    rw [if_neg h, bind_error hexpect]

theorem branch_run [DecidableEq τ] (d : τ) (m n : Scanner τ ε β) (t : List τ) :
    branch d m n t = if peek t = d then m (t.drop 1) else n t := by
  rw [branch, bind_ok (rfl : look t = .ok (peek t, t))]
  split <;> rfl

/-! ### Exhausted texts -/

/-- Nothing is left but terminators. -/
def Exhausted (t : List τ) : Prop := ∀ b ∈ t, b = 0

theorem exhausted_nil : Exhausted ([] : List τ) := by
  intro b hb
  simp at hb

theorem exhausted_replicate (k : ℕ) : Exhausted (List.replicate k (0 : τ)) :=
  fun _ hb => List.eq_of_mem_replicate hb

theorem Exhausted.peek {t : List τ} (h : Exhausted t) : Scan.peek t = 0 := by
  cases t with
  | nil => rfl
  | cons c t => exact h c (by simp)

theorem Exhausted.drop {t : List τ} (h : Exhausted t) (k : ℕ) : Exhausted (t.drop k) :=
  fun b hb => h b (List.mem_of_mem_drop hb)

theorem Exhausted.dropWhile {t : List τ} (h : Exhausted t) {p : τ → Bool} (hp : p 0 = false) :
    t.dropWhile p = t := by
  cases t with
  | nil => rfl
  | cons c t => rw [h c (by simp), List.dropWhile_cons, hp]; rfl

/-- The scanner refuses an exhausted text. -/
def Refuses (m : Scanner τ ε β) : Prop := ∀ t, Exhausted t → m t = .error .refused

theorem Refuses.bind {m : Scanner τ ε β} (h : Refuses m) (f : β → Scanner τ ε γ) :
    Refuses (m >>= f) := by
  intro t ht
  exact bind_error (h t ht) f

theorem Refuses.skipThen {m : Scanner τ ε β} (h : Refuses m) {p : τ → Bool} (hp : p 0 = false) :
    Refuses (skipWhile p >>= fun _ => m) := by
  intro t ht
  rw [skipThen_run, ht.dropWhile hp]
  exact h t ht

theorem refuses_expect [DecidableEq τ] {c : τ} (hc : c ≠ 0) :
    Refuses (expect c : Scanner τ ε Unit) := by
  intro t ht
  rw [expect, if_neg]
  rw [ht.peek]
  exact hc.symm

theorem refuses_branch [DecidableEq τ] {d : τ} {m n : Scanner τ ε β} (hd : d ≠ 0)
    (hn : Refuses n) : Refuses (branch d m n) := by
  intro t ht
  rw [branch_run, if_neg (by rw [ht.peek]; exact hd.symm)]
  exact hn t ht

/-! ### How far a scanner gets -/

/-- When `m` succeeds it has moved over at least `d` of the listed tokens. -/
def Consumes (m : Scanner τ ε β) (d : ℕ) : Prop :=
  ∀ t v u, m t = .ok (v, u) → u.length + d ≤ t.length

/-- `m` and `m'` do the same on texts of at most `L` tokens. -/
def Agree (m m' : Scanner τ ε β) (L : ℕ) : Prop := ∀ t, t.length ≤ L → m t = m' t

omit [Zero τ] in
theorem Consumes.mono {m : Scanner τ ε β} {d e : ℕ} (h : Consumes m d) (hed : e ≤ d) :
    Consumes m e := by
  intro t v u hm
  have := h t v u hm
  omega

omit [Zero τ] in
theorem Consumes.bind {m : Scanner τ ε β} {f : β → Scanner τ ε γ} {d e : ℕ} (hm : Consumes m d)
    (hf : ∀ v, Consumes (f v) e) : Consumes (m >>= f) (d + e) := by
  intro t w u h
  obtain ⟨v, r, hr, h⟩ := bind_eq_ok.mp h
  have h1 := hm t v r hr
  have h2 := hf v r w u h
  omega

omit [Zero τ] in
theorem consumes_pure (v : β) : Consumes (pure v : Scanner τ ε β) 0 := by
  intro t w u h
  cases h
  exact le_refl _

omit [Zero τ] in
theorem consumes_skipWhile (p : τ → Bool) : Consumes (skipWhile p : Scanner τ ε Unit) 0 := by
  intro t v u h
  cases h
  exact (List.dropWhile_suffix p).length_le

theorem drop_one_of_peek {t : List τ} {c : τ} (hc : c ≠ 0) (h : peek t = c) :
    (t.drop 1).length + 1 ≤ t.length := by
  cases t with
  | nil => exact absurd h.symm hc
  | cons b t => simp

theorem consumes_expect [DecidableEq τ] {c : τ} (hc : c ≠ 0) :
    Consumes (expect c : Scanner τ ε Unit) 1 := by
  intro t v u h
  rw [expect] at h
  split at h
  · cases h
    exact drop_one_of_peek hc (by assumption)
  · cases h

theorem Consumes.branch [DecidableEq τ] {c : τ} {m n : Scanner τ ε β} {e : ℕ} (hc : c ≠ 0)
    (hm : Consumes m e) (hn : Consumes n (e + 1)) : Consumes (branch c m n) (e + 1) := by
  intro t v u h
  rw [branch_run] at h
  split at h
  · have h1 := drop_one_of_peek hc (by assumption)
    have h2 := hm _ v u h
    omega
  · exact hn t v u h

omit [Zero τ] in
theorem Agree.refl (m : Scanner τ ε β) (L : ℕ) : Agree m m L := fun _ _ => rfl

omit [Zero τ] in
/-- What stands behind a scanner sees a text that is shorter by what the scanner
consumes. -/
theorem Agree.bind {m m' : Scanner τ ε β} {f f' : β → Scanner τ ε γ} {d L : ℕ} (hm : Agree m m' L)
    (hd : Consumes m d) (hf : ∀ v t, t.length + d ≤ L → f v t = f' v t) :
    Agree (m >>= f) (m' >>= f') L := by
  intro t ht
  have hm' := hm t ht
  cases h : m t with
  | error e =>
    rw [h] at hm'
    rw [bind_error h, bind_error hm'.symm]
  | ok r =>
    rw [h] at hm'
    have := hd t r.1 r.2 h
    rw [bind_ok h, bind_ok hm'.symm]
    exact hf r.1 r.2 (by omega)

omit [Zero τ] in
theorem Agree.map {m m' : Scanner τ ε β} {L : ℕ} (h : Agree m m' L) (f : β → Scanner τ ε γ) :
    Agree (m >>= f) (m' >>= f) L := by
  intro t ht
  show (m t >>= fun r => f r.1 r.2) = (m' t >>= fun r => f r.1 r.2)
  rw [h t ht]

theorem Agree.branch [DecidableEq τ] {c : τ} {m m' n n' : Scanner τ ε β} {L : ℕ} (hc : c ≠ 0)
    (hm : ∀ t, t.length + 1 ≤ L → m t = m' t) (hn : Agree n n' L) :
    Agree (branch c m n) (branch c m' n') L := by
  intro t ht
  rw [branch_run, branch_run]
  split
  · have := drop_one_of_peek hc (by assumption)
    exact hm _ (by omega)
  · exact hn t ht

/-! ### What a scanner reads and leaves -/

section Ensures

/-- From a text with `P` the scanner reads values with `Q`, and it leaves texts with `P`; if it
breaks it does so in one of the ways `B`. -/
structure Ensures (P : List τ → Prop) (m : Scanner τ ε β) (Q : β → Prop) (B : ε → Prop) : Prop where
  reads : ∀ t v u, P t → m t = .ok (v, u) → Q v ∧ P u
  breaks : ∀ t e, P t → m t = .error (.broken e) → B e

/-- What holds of a text also holds from any later place on. -/
def Inherited (P : List τ → Prop) : Prop := ∀ t k, P t → P (t.drop k)

variable {P : List τ → Prop} {Q : β → Prop} {R : γ → Prop} {B : ε → Prop} {m n : Scanner τ ε β}

omit [Zero τ] in
theorem Ensures.bind {f : β → Scanner τ ε γ} (hm : Ensures P m Q B)
    (hf : ∀ v, Q v → Ensures P (f v) R B) : Ensures P (m >>= f) R B := by
  constructor
  · intro t w u ht h
    obtain ⟨v, r, hr, h⟩ := bind_eq_ok.mp h
    obtain ⟨hv, hP⟩ := hm.reads t v r ht hr
    exact (hf v hv).reads r w u hP h
  · intro t e ht h
    cases hr : m t with
    | error e' =>
      rw [bind_error hr] at h
      cases h
      exact hm.breaks t e ht hr
    | ok r =>
      rw [bind_ok hr] at h
      obtain ⟨hv, hP⟩ := hm.reads t r.1 r.2 ht hr
      exact (hf r.1 hv).breaks r.2 e hP h

omit [Zero τ] in
theorem ensures_pure {v : β} (hv : Q v) : Ensures P (pure v : Scanner τ ε β) Q B := by
  constructor
  · intro t w u ht h
    cases h
    exact ⟨hv, ht⟩
  · intro t e ht h
    cases h

omit [Zero τ] in
theorem Inherited.skipWhile (hP : Inherited P) (p : τ → Bool) :
    Ensures P (skipWhile p : Scanner τ ε Unit) (fun _ => True) B := by
  constructor
  · intro t v u ht h
    cases h
    refine ⟨trivial, ?_⟩
    rw [List.dropWhile_eq_drop_findIdx_not]
    exact hP t _ ht
  · intro t e ht h
    cases h

theorem Inherited.expect [DecidableEq τ] (hP : Inherited P) (c : τ) :
    Ensures P (expect c : Scanner τ ε Unit) (fun _ => True) B := by
  constructor
  · intro t v u ht h
    rw [Scan.expect] at h
    split at h
    · cases h
      exact ⟨trivial, hP t 1 ht⟩
    · cases h
  · intro t e ht h
    rw [Scan.expect] at h
    split at h <;> cases h

theorem Ensures.branch [DecidableEq τ] (hP : Inherited P) (d : τ) (hm : Ensures P m Q B)
    (hn : Ensures P n Q B) : Ensures P (branch d m n) Q B := by
  constructor
  · intro t v u ht h
    rw [branch_run] at h
    split at h
    · exact hm.reads _ v u (hP t 1 ht) h
    · exact hn.reads t v u ht h
  · intro t e ht h
    rw [branch_run] at h
    split at h
    · exact hm.breaks _ e (hP t 1 ht) h
    · exact hn.breaks t e ht h

end Ensures

/-! Texts that end within `N` tokens. -/

/-- Behind the first `N` tokens there are terminators only. -/
def EndsWithin (N : ℕ) (t : List τ) : Prop := Exhausted (t.drop N)

theorem inherited_endsWithin (N : ℕ) : Inherited (EndsWithin N : List τ → Prop) := by
  intro t k ht
  rw [EndsWithin, List.drop_drop, Nat.add_comm, ← List.drop_drop]
  exact ht.drop k

theorem EndsWithin.tail {N : ℕ} {c : τ} {t : List τ} (h : EndsWithin N (c :: t)) :
    EndsWithin (N - 1) t := by
  cases N with
  | zero => exact fun b hb => h b (List.mem_cons_of_mem _ hb)
  | succ N => exact h

theorem EndsWithin.lt {N k : ℕ} {t : List τ} (h : EndsWithin N t) (hk : t.getD k 0 ≠ 0) :
    k < N := by
  by_contra hN
  obtain ⟨j, rfl⟩ := Nat.exists_eq_add_of_le (Nat.le_of_not_lt hN)
  have hlt : N + j < t.length := by
    by_contra hlen
    exact hk (List.getD_eq_default _ _ (Nat.le_of_not_lt hlen))
  rw [List.getD_eq_getElem _ _ hlt] at hk
  exact hk (h _ (List.mem_drop_iff_getElem.mpr ⟨j, by omega, rfl⟩))

theorem EndsWithin.pos {N : ℕ} {c : τ} {t : List τ} (h : EndsWithin N (c :: t)) (hc : c ≠ 0) :
    0 < N := h.lt (k := 0) hc

/-! ### Reading a text exactly -/

/-- A result that is a refusal or leaves only terminators. -/
def Stalls (r : Except (Stop ε) (β × List τ)) : Prop :=
  r = .error .refused ∨ ∃ v t, r = .ok (v, t) ∧ Exhausted t

/-- `m` reads exactly `a`, with value `v`, in front of any text whose first
token satisfies `F`; on `a` cut short it refuses or runs dry. -/
structure Parses (m : Scanner τ ε β) (a : List τ) (v : β) (F : τ → Prop) : Prop where
  whole : ∀ x, F (peek x) → m (a ++ x) = .ok (v, x)
  cut : ∀ k < a.length, ∀ zs, Exhausted zs → Stalls (m (a.take k ++ zs))

/-- `m` reads exactly `a`, with value `v`, in front of any text; on `a` cut
short it refuses. -/
structure Delimits (m : Scanner τ ε β) (a : List τ) (v : β) : Prop where
  whole : ∀ x, m (a ++ x) = .ok (v, x)
  cut : ∀ k < a.length, ∀ zs, Exhausted zs → m (a.take k ++ zs) = .error .refused

theorem Delimits.parses {m : Scanner τ ε β} {a : List τ} {v : β} (h : Delimits m a v)
    (F : τ → Prop) : Parses m a v F := by
  exact ⟨fun x _ => h.whole x, fun k hk zs hz => Or.inl (h.cut k hk zs hz)⟩

/-- The first token of a prefix of a nonempty text, in front of terminators. -/
theorem peek_take_cons (c : τ) (b : List τ) {zs : List τ} (hz : Exhausted zs) (k : ℕ) :
    peek ((c :: b).take k ++ zs) = c ∨ peek ((c :: b).take k ++ zs) = 0 := by
  rcases k with _ | k
  · exact Or.inr (by simpa using hz.peek)
  · exact Or.inl rfl

section Compose

variable {m n : Scanner τ ε β} {f : β → Scanner τ ε γ} {a b ws : List τ} {c d : τ} {v : β} {w : γ}
variable {F : τ → Prop}

/-- A scanner that reads `a`, and then one that reads the text behind `a`. -/
theorem Parses.bind (hm : Parses m a v F) (hf : Delimits (f v) (c :: b) w)
    (hdead : ∀ u, Refuses (f u)) (hc : F c) (h0 : F 0) : Delimits (m >>= f) (a ++ c :: b) w := by
  refine ⟨fun x => ?_, fun k hk zs hz => ?_⟩
  · rw [List.append_assoc, bind_ok (hm.whole _ (by simpa using hc))]
    exact hf.whole x
  · rw [List.take_append, List.append_assoc]
    by_cases hka : k < a.length
    · -- the cut falls into the first text
      rw [show k - a.length = 0 by omega, List.take_zero, List.nil_append]
      rcases hm.cut k hka zs hz with h | ⟨u, t, h, ht⟩
      · exact bind_error h f
      · rw [bind_ok h]
        exact hdead u t ht
    · -- the cut falls into the second text
      have hF : F (peek ((c :: b).take (k - a.length) ++ zs)) := by
        rcases peek_take_cons c b hz (k - a.length) with h | h <;> rw [h] <;> assumption
      rw [List.take_of_length_le (by omega), bind_ok (hm.whole _ hF)]
      refine hf.cut _ ?_ zs hz
      simp only [List.length_append] at hk
      omega

theorem Parses.map (hm : Parses m a v F) (g : β → γ) :
    Parses (m >>= fun u => pure (g u)) a (g v) F := by
  refine ⟨fun x hx => bind_ok (hm.whole x hx) _, fun k hk zs hz => ?_⟩
  rcases hm.cut k hk zs hz with h | ⟨u, t, h, ht⟩
  · exact Or.inl (bind_error h _)
  · exact Or.inr ⟨g u, t, bind_ok h _, ht⟩

theorem Delimits.map (hm : Delimits m a v) (g : β → γ) :
    Delimits (m >>= fun u => pure (g u)) a (g v) := by
  exact ⟨fun x => bind_ok (hm.whole x) _, fun k hk zs hz => bind_error (hm.cut k hk zs hz) _⟩

theorem delimits_pure (v : β) : Delimits (pure v : Scanner τ ε β) [] v :=
  ⟨fun _ => rfl, fun k hk => absurd hk (by simp)⟩

theorem delimits_expect [DecidableEq τ] (hc : c ≠ 0) :
    Delimits (expect c : Scanner τ ε Unit) [c] () := by
  refine ⟨fun x => by simp [expect], fun k hk zs hz => ?_⟩
  obtain rfl : k = 0 := by simpa using hk
  exact refuses_expect hc zs hz

omit [Zero τ] in
theorem dropWhile_blanks {p : τ → Bool} (hws : ∀ b ∈ ws, p b = true) (x : List τ) :
    (ws ++ x).dropWhile p = x.dropWhile p := by
  induction ws with
  | nil => rfl
  | cons b ws ih =>
    rw [List.cons_append, List.dropWhile_cons, hws b (by simp)]
    exact ih fun b hb => hws b (by simp [hb])

/-- A text cut inside its leading blanks leaves nothing to the scanner behind
them; a text cut later is the text behind the blanks, cut. -/
theorem dropWhile_take {p : τ → Bool} (h0 : p 0 = false) (hws : ∀ b ∈ ws, p b = true)
    (hc : p c = false) (k : ℕ) {zs : List τ} (hz : Exhausted zs) :
    ((ws ++ c :: b).take k ++ zs).dropWhile p = (c :: b).take (k - ws.length) ++ zs := by
  rw [List.take_append, List.append_assoc,
    dropWhile_blanks fun b hb => hws b (List.mem_of_mem_take hb)]
  rcases hk : k - ws.length with _ | j
  · simpa using hz.dropWhile h0
  · rw [List.take_succ_cons, List.cons_append, List.dropWhile_cons, hc]
    rfl

theorem Delimits.skipThen {p : τ → Bool} (h0 : p 0 = false) (hws : ∀ b ∈ ws, p b = true)
    (hc : p c = false) (hm : Delimits m (c :: b) v) :
    Delimits (skipWhile p >>= fun _ => m) (ws ++ c :: b) v := by
  refine ⟨fun x => ?_, fun k hk zs hz => ?_⟩
  · rw [skipThen_run, List.append_assoc, dropWhile_blanks hws, List.cons_append,
      List.dropWhile_cons, hc]
    exact hm.whole x
  · rw [skipThen_run, dropWhile_take h0 hws hc k hz]
    simp only [List.length_append, List.length_cons] at hk
    exact hm.cut _ (by rw [List.length_cons]; omega) zs hz

theorem Delimits.branch [DecidableEq τ] (hd : d ≠ 0) (hm : Delimits m a v) (hn : Refuses n) :
    Delimits (branch d m n) (d :: a) v := by
  refine ⟨fun x => ?_, fun k hk zs hz => ?_⟩
  · rw [branch_run, List.cons_append, peek_cons, if_pos rfl]
    exact hm.whole x
  · rcases k with _ | k
    · exact refuses_branch hd hn _ (by simpa using hz)
    · rw [branch_run, List.take_succ_cons, List.cons_append, peek_cons, if_pos rfl]
      exact hm.cut k (by simpa using hk) zs hz

theorem Delimits.branch_else [DecidableEq τ] (hd : d ≠ 0) (hcd : c ≠ d)
    (hn : Delimits n (c :: b) v) : Delimits (Scan.branch d m n) (c :: b) v := by
  refine ⟨fun x => ?_, fun k hk zs hz => ?_⟩
  · rw [branch_run, List.cons_append, peek_cons, if_neg hcd]
    exact hn.whole x
  · rw [branch_run, if_neg]
    · exact hn.cut k hk zs hz
    · rcases peek_take_cons c b hz k with h | h <;> rw [h]
      · exact hcd
      · exact hd.symm

end Compose

end Scan
