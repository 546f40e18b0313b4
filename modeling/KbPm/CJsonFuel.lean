/-
The bound on the parser's recursion makes no difference.

`parseValue` and the scanners for the insides of arrays and objects carry a
number that their recursion counts down.  The C code has no such bound: here it
is shown to be out of reach.

* `consumes_parseValue` — a value that is read has at least one byte;
* `parseValue_fuel` — on a text of at most `L` bytes any two bounds above
  `2 * L` give the same result;
* `cJsonParse_eq` — so `cJsonParse` is `parseValue` with any large bound.
-/
import KbPm.CJson

namespace KbPm

open Scan

/-! ### Progress -/

theorem length_unescape (k : ℕ) (t : Text) : (unescape k t).2.length ≤ t.length := by
  induction t generalizing k with
  | nil => cases k <;> exact le_refl _
  | cons c t ih =>
    cases k with
    | succ k => exact le_trans (ih k) (by simp)
    | zero =>
      rw [unescape]
      split_ifs
      · exact le_refl _
      · exact le_trans (ih 0) (by simp)
      · exact le_trans (ih _) (by simp)

theorem consumes_parseString : Consumes parseString 1 := by
  intro t v u h
  obtain ⟨hq, -, -, rfl⟩ := parseString_ok.mp h
  have h1 := drop_one_of_peek (by decide) hq
  have h2 := length_unescape 0 (t.drop 1)
  split
  · rw [List.length_drop]
    omega
  · omega

theorem length_readDigits (n : ℚ) (t : Text) : (readDigits n t).2.length ≤ t.length := by
  induction t generalizing n with
  | nil => exact le_refl _
  | cons c t ih =>
    rw [readDigits]
    split
    · exact le_trans (ih _) (by simp)
    · exact le_refl _

theorem length_readSubscale (n : ℕ) (t : Text) : (readSubscale n t).2.length ≤ t.length := by
  induction t generalizing n with
  | nil => exact le_refl _
  | cons c t ih =>
    rw [readSubscale]
    split
    · exact le_trans (ih _) (by simp)
    · exact le_refl _

theorem length_readPositive (t : Text) :
    (if 49 ≤ peek t ∧ peek t ≤ 57 then readDigits 0 t else (0, t)).2.length ≤ t.length := by
  split
  · exact length_readDigits 0 t
  · exact le_refl _

theorem length_readInteger (t : Text) : (readInteger t).2.length ≤ t.length := by
  have hdrop : (if peek t = 48 then t.drop 1 else t).length ≤ t.length := by
    split
    · simp
    · exact le_refl _
  exact le_trans (length_readPositive _) hdrop

theorem readInteger_moves {t : Text} (h : isDigit (peek t) = true) :
    (readInteger t).2.length + 1 ≤ t.length := by
  cases t with
  | nil => exact absurd h (by decide)
  | cons c t =>
    rw [peek_cons] at h
    by_cases h48 : c = 48
    · subst h48
      exact Nat.succ_le_succ (length_readPositive t)
    · have h49 : 49 ≤ c ∧ c ≤ 57 := by
        simp only [isDigit, Bool.and_eq_true, decide_eq_true_eq, UInt8.le_iff_toNat_le,
          UInt8.reduceToNat] at h ⊢
        have : c.toNat ≠ 48 := fun h' => h48 (UInt8.toNat_inj.mp (by simpa using h'))
        omega
      have hread : readInteger (c :: t) = readDigits 0 (c :: t) := by
        simp [readInteger, h48, h49]
      rw [hread, readDigits, if_pos h]
      exact Nat.succ_le_succ (length_readDigits _ _)

theorem length_readFraction (n : ℚ) (t : Text) : (readFraction n t).2.2.length ≤ t.length := by
  simp only [readFraction]
  split
  · exact le_trans (length_readDigits _ _) (by simp)
  · exact le_refl _

theorem length_readExponent (t : Text) : (readExponent t).2.length ≤ t.length := by
  simp only [readExponent]
  split_ifs
  · exact le_trans (length_readSubscale _ _) (by simp)
  · exact le_trans (length_readSubscale _ _) (by simp)
  · exact le_trans (length_readSubscale _ _) (by simp)
  · exact le_refl _

theorem parseNumber_moves {t u : Text} {d : ℚ} (hc : peek t = minus ∨ isDigit (peek t) = true)
    (h : parseNumber t = .ok (d, u)) : u.length + 1 ≤ t.length := by
  simp only [parseNumber, Except.ok.injEq, Prod.mk.injEq] at h
  obtain ⟨-, rfl⟩ := h
  refine le_trans (Nat.succ_le_succ (le_trans (length_readExponent _) (length_readFraction _ _))) ?_
  by_cases hm : peek t = minus
  · rw [if_pos hm]
    have h1 := length_readInteger (t.drop 1)
    have h2 := drop_one_of_peek (by decide) hm
    omega
  · rw [if_neg hm]
    exact readInteger_moves (hc.resolve_left hm)

theorem parseWord_moves {t u : Text} {v : CJson} (h : parseWord t = some (v, u)) :
    u.length + 1 ≤ t.length := by
  have hdrop : ∀ k w, t.take (k + 1) = w → w ≠ [] → (t.drop (k + 1)).length + 1 ≤ t.length := by
    rintro k w rfl hne
    cases t with
    | nil => simp at hne
    | cons c t => simp
  rw [parseWord] at h
  split_ifs at h with h1 h2 h3
  · cases h
    exact hdrop 3 _ h1 (by decide)
  · cases h
    exact hdrop 4 _ h2 (by decide)
  · cases h
    exact hdrop 3 _ h3 (by decide)

/-- The two ways in which `parseValue` gets its result. -/
theorem parseValue_ok {n : ℕ} {t u : Text} {v : CJson}
    (h : parseValue (n + 1) t = .ok (v, u)) :
    parseWord t = some (v, u) ∨
      (parseString >>= fun s => pure (CJson.string s)) t = .ok (v, u) ∨
      ((peek t = minus ∨ isDigit (peek t) = true) ∧
        (parseNumber >>= fun d => pure (CJson.number d)) t = .ok (v, u)) ∨
      (parseArray (parseItems n) >>= fun vs => pure (CJson.array vs)) t = .ok (v, u) ∨
      (parseObject (parseMembers n) >>= fun ms => pure (CJson.object ms)) t = .ok (v, u) := by
  cases hw : parseWord t with
  | some r =>
    rw [parseValue_word hw] at h
    cases h
    exact Or.inl rfl
  | none =>
    rw [parseValue_rest hw] at h
    split_ifs at h with h1 h2 h3 h4
    · exact Or.inr (Or.inl h)
    · exact Or.inr (Or.inr (Or.inl ⟨h2, h⟩))
    · exact Or.inr (Or.inr (Or.inr (Or.inl h)))
    · exact Or.inr (Or.inr (Or.inr (Or.inr h)))

/-- And the ways in which it breaks. -/
theorem parseValue_broken {n : ℕ} {t : Text} {f : Fault}
    (h : parseValue (n + 1) t = .error (.broken f)) :
    (parseString >>= fun s => pure (CJson.string s)) t = .error (.broken f) ∨
      (parseArray (parseItems n) >>= fun vs => pure (CJson.array vs)) t = .error (.broken f) ∨
      (parseObject (parseMembers n) >>= fun ms => pure (CJson.object ms)) t =
        .error (.broken f) := by
  cases hw : parseWord t with
  | some r =>
    rw [parseValue_word hw] at h
    cases h
  | none =>
    rw [parseValue_rest hw] at h
    split_ifs at h
    · exact Or.inl h
    · cases h
    · exact Or.inr (Or.inl h)
    · exact Or.inr (Or.inr h)
    · cases h

theorem consumes_skip : Consumes skip 0 := consumes_skipWhile blank

theorem consumes_bracketed {β γ : Type} {l r : UInt8} {m : Scanner UInt8 Fault (List β)}
    (g : List β → γ) (hl : l ≠ 0) (hr : r ≠ 0) (hm : Consumes m 1) :
    Consumes ((do expect l; skip; branch r (pure []) m) >>= fun vs => pure (g vs)) 1 :=
  (((consumes_expect hl).bind fun _ => consumes_skip.bind fun _ =>
    (consumes_pure []).branch hr hm).bind fun _ => consumes_pure _).mono (by omega)

theorem consumes_rest {β : Type} {r : UInt8} {m : Scanner UInt8 Fault β} (w : β) (hr : r ≠ 0)
    (hm : Consumes m 0) :
    Consumes (skip >>= fun _ => branch comma m (expect r >>= fun _ => pure w)) 0 :=
  (consumes_skip.bind fun _ => hm.branch (by decide)
    ((consumes_expect hr).bind fun _ => consumes_pure w)).mono (by omega)

/-- Every value, and every list of items or members, has a byte. -/
theorem consumes_all (n : ℕ) :
    Consumes (parseValue n) 1 ∧ Consumes (parseItems n) 1 ∧ Consumes (parseMembers n) 1 := by
  induction n with
  | zero =>
    refine ⟨?_, ?_, ?_⟩ <;>
    · intro t v u h
      cases h
  | succ n ih =>
    obtain ⟨hv, hi, hm⟩ := ih
    have hitems : ∀ v, Consumes (parseItems n >>= fun vs => pure (v :: vs)) 0 :=
      fun v => (hi.bind fun _ => consumes_pure _).mono (by omega)
    have hmembers : ∀ k v, Consumes (parseMembers n >>= fun ms => pure ((k, v) :: ms)) 0 :=
      fun k v => (hm.bind fun _ => consumes_pure _).mono (by omega)
    refine ⟨fun t v u h => ?_, ?_, ?_⟩
    · -- one case for each first byte of a value
      rcases parseValue_ok h with h | h | ⟨hc, h⟩ | h | h
      · exact parseWord_moves h
      · exact (consumes_parseString.bind fun s => consumes_pure _) t v u h
      · obtain ⟨d, r, hr, h⟩ := bind_eq_ok.mp h
        cases h
        exact parseNumber_moves hc hr
      · exact consumes_bracketed CJson.array (by decide) (by decide) hi t v u h
      · exact consumes_bracketed CJson.object (by decide) (by decide) hm t v u h
    · exact (consumes_skip.bind fun _ => hv.bind fun v =>
        consumes_rest [v] (by decide) (hitems v)).mono (by omega)
    · exact (consumes_skip.bind fun _ => consumes_parseString.bind fun k =>
        consumes_skip.bind fun _ =>
        (consumes_expect (c := colon) (by decide)).bind fun _ => consumes_skip.bind fun _ =>
        hv.bind fun v => consumes_rest [(k, v)] (by decide) (hmembers k v)).mono (by omega)

theorem consumes_parseValue (n : ℕ) : Consumes (parseValue n) 1 := (consumes_all n).1

/-! ### The bound -/

theorem agree_bracketed {β γ : Type} {l r : UInt8} {m m' : Scanner UInt8 Fault (List β)} {L : ℕ}
    (g : List β → γ) (hl : l ≠ 0) (hr : r ≠ 0) (h : ∀ t, t.length + 1 ≤ L → m t = m' t) :
    Agree ((do expect l; skip; branch r (pure []) m) >>= fun vs => pure (g vs))
      ((do expect l; skip; branch r (pure []) m') >>= fun vs => pure (g vs)) L := by
  have hin : ∀ t, t.length + 1 ≤ L → (skip >>= fun _ => branch r (pure []) m) t =
      (skip >>= fun _ => branch r (pure []) m') t := by
    intro t ht
    refine (Agree.refl skip t.length).bind consumes_skip (fun _ u hu => ?_) t (le_refl _)
    exact Agree.branch (L := u.length) hr (fun _ _ => rfl)
      (fun x hx => h x (by omega)) u (le_refl _)
  exact ((Agree.refl (expect l) L).bind (consumes_expect hl) fun _ => hin).map _

theorem agree_rest {β : Type} {r : UInt8} {m m' : Scanner UInt8 Fault β} (w : β) {L : ℕ}
    (h : ∀ t, t.length + 1 ≤ L → m t = m' t) :
    Agree (skip >>= fun _ => branch comma m (expect r >>= fun _ => pure w))
      (skip >>= fun _ => branch comma m' (expect r >>= fun _ => pure w)) L := by
  refine (Agree.refl skip L).bind consumes_skip fun _ u hu => ?_
  exact Agree.branch (L := L) (by decide) h (Agree.refl _ _) u (by omega)

/-- Every byte pays for two rounds of the recursion. -/
theorem agree_all (n : ℕ) : ∀ m L, n ≤ m →
    (2 * L < n → Agree (parseValue n) (parseValue m) L) ∧
    (2 * L + 1 < n → Agree (parseItems n) (parseItems m) L) ∧
    (2 * L + 1 < n → Agree (parseMembers n) (parseMembers m) L) := by
  induction n with
  | zero => exact fun m L _ => ⟨fun h => by omega, fun h => by omega, fun h => by omega⟩
  | succ n ih =>
    intro m L hm
    obtain ⟨m, rfl⟩ : ∃ k, m = k + 1 := ⟨m - 1, by omega⟩
    have hvalue : ∀ K, 2 * K < n → Agree (parseValue n) (parseValue m) K :=
      fun K hK => (ih m K (by omega)).1 hK
    have hitems : ∀ t : Text, 2 * t.length + 1 < n → parseItems n t = parseItems m t :=
      fun t ht => (ih m t.length (by omega)).2.1 ht t (le_refl _)
    have hmembers : ∀ t : Text, 2 * t.length + 1 < n → parseMembers n t = parseMembers m t :=
      fun t ht => (ih m t.length (by omega)).2.2 ht t (le_refl _)
    -- a bracket, a brace or a comma is read between two calls, and pays for them
    refine ⟨fun hL t ht => ?_, fun hL => ?_, fun hL => ?_⟩
    · have harray := agree_bracketed (L := L) CJson.array (l := lbracket) (r := rbracket)
        (by decide) (by decide) (fun t ht => hitems t (by omega)) t ht
      have hobject := agree_bracketed (L := L) CJson.object (l := lbrace) (r := rbrace)
        (by decide) (by decide) (fun t ht => hmembers t (by omega)) t ht
      cases hw : parseWord t with
      | some r => rw [parseValue_word hw, parseValue_word hw]
      | none =>
      rw [parseValue_rest hw, parseValue_rest hw]
      split_ifs
      · rfl
      · rfl
      · exact harray
      · exact hobject
      · rfl
    · refine (Agree.refl skip L).bind consumes_skip fun _ t ht => ?_
      refine (hvalue t.length (by omega)).bind (consumes_parseValue n)
        (fun v u hu => ?_) t (le_refl _)
      refine agree_rest [v] (fun x hx => ?_) u (le_refl _)
      exact Agree.map (fun y hy => hitems y (by omega)) _ x (le_refl _)
    · refine (Agree.refl skip L).bind consumes_skip fun _ t ht => ?_
      refine (Agree.refl parseString t.length).bind consumes_parseString
        (fun k t1 h1 => ?_) t (le_refl _)
      refine (Agree.refl skip t1.length).bind consumes_skip (fun _ t2 h2 => ?_) t1 (le_refl _)
      refine (Agree.refl (expect colon) t2.length).bind (consumes_expect (by decide))
        (fun _ t3 h3 => ?_) t2 (le_refl _)
      refine (Agree.refl skip t3.length).bind consumes_skip (fun _ t4 h4 => ?_) t3 (le_refl _)
      refine (hvalue t4.length (by omega)).bind (consumes_parseValue n) (fun v u hu => ?_)
        t4 (le_refl _)
      refine agree_rest [(k, v)] (fun x hx => ?_) u (le_refl _)
      exact Agree.map (fun y hy => hmembers y (by omega)) _ x (le_refl _)

/-- Any two bounds above `2 * t.length` give the same result on `t`. -/
theorem parseValue_fuel {t : Text} {n m : ℕ} (hn : 2 * t.length < n) (hm : 2 * t.length < m) :
    parseValue n t = parseValue m t := by
  rcases Nat.le_total n m with h | h
  · exact (agree_all n m t.length h).1 hn t (le_refl _)
  · exact ((agree_all m n t.length h).1 hm t (le_refl _)).symm

theorem cJsonParse_eq {value : Text} {n : ℕ} (hn : 2 * value.length < n) :
    cJsonParse value = outcome (parseValue n (value.dropWhile blank)) := by
  have hle : (value.dropWhile blank).length ≤ value.length :=
    (List.dropWhile_suffix blank).length_le
  rw [cJsonParse]
  exact congrArg _ (parseValue_fuel (by omega) (by omega))

end KbPm
