/-
The strings that the parser reads, and the blocks that it reads them into.

* `ensures_all` — what holds of every string that is read from some place of a text holds
  of the strings of its items, and the parser breaks in the ways in which strings do;
* `cJsonParse_error` — the parser breaks nothing but a block of the heap;
* `Whole`, `cJsonParse_whole` — a text all of whose `\u` escapes have their four digits
  breaks none.
-/
import KbPm.CJsonFuel
import KbPm.CJsonString

namespace KbPm

open Scan

/-! ### Places behind a string -/

theorem unescape_keeps {P : Text → Prop} (hP : Inherited P) {k : ℕ} {t : Text} (h : P t) :
    P (unescape k t).2 := by
  induction t generalizing k with
  | nil => cases k <;> exact h
  | cons c t ih =>
    have htail : P t := hP _ 1 h
    cases k with
    | succ k => exact ih htail
    | zero =>
      rw [unescape]
      split_ifs
      · exact h
      · exact ih htail
      · exact ih htail

/-- A string is read, with the property `S`, or breaks its block. -/
theorem ensures_parseString {P : Text → Prop} {S : Text → Prop} {B : Fault → Prop}
    (hP : Inherited P) (hS : ∀ t, P (quote :: t) → S (unescape 0 t).1)
    (hB : ∀ t, P (quote :: t) → stringLength 0 t < (unescape 0 t).1.length → B .heap) :
    Ensures P parseString S B := by
  have hcons : ∀ {t : Text}, peek t = quote → t = quote :: t.drop 1 := by
    intro t hq
    cases t with
    | nil => exact absurd hq (by decide)
    | cons c t =>
      obtain rfl : c = quote := hq
      rfl
  constructor
  · intro t v u ht h
    obtain ⟨hq, rfl, -, rfl⟩ := parseString_ok.mp h
    have hrest := unescape_keeps hP (k := 0) (hP t 1 ht)
    refine ⟨hS _ (hcons hq ▸ ht), ?_⟩
    split
    · exact hP _ 1 hrest
    · exact hrest
  · intro t f ht h
    obtain ⟨hq, rfl, hlt⟩ := parseString_broken.mp h
    exact hB _ (hcons hq ▸ ht) hlt

/-! ### Numbers -/

section Numbers

variable {P : Text → Prop} {t : Text}

theorem readDigits_keeps (hP : Inherited P) (h : P t) (n : ℚ) : P (readDigits n t).2 := by
  induction t generalizing n with
  | nil => exact h
  | cons c t ih =>
    rw [readDigits]
    split
    · exact ih (hP _ 1 h) _
    · exact h

theorem readSubscale_keeps (hP : Inherited P) (h : P t) (n : ℕ) : P (readSubscale n t).2 := by
  induction t generalizing n with
  | nil => exact h
  | cons c t ih =>
    rw [readSubscale]
    split
    · exact ih (hP _ 1 h) _
    · exact h

theorem readInteger_keeps (hP : Inherited P) (h : P t) : P (readInteger t).2 := by
  have hzero : P (if peek t = 48 then t.drop 1 else t) := by
    split
    · exact hP t 1 h
    · exact h
  simp only [readInteger]
  generalize (if peek t = 48 then t.drop 1 else t) = num at hzero ⊢
  split
  · exact readDigits_keeps hP hzero 0
  · exact hzero

theorem readFraction_keeps (hP : Inherited P) (h : P t) (n : ℚ) : P (readFraction n t).2.2 := by
  simp only [readFraction]
  split
  · exact readDigits_keeps hP (hP t 1 h) n
  · exact h

theorem readExponent_keeps (hP : Inherited P) (h : P t) : P (readExponent t).2 := by
  have hsign : P (t.drop 1) := hP t 1 h
  simp only [readExponent]
  split_ifs
  · exact readSubscale_keeps hP (hP _ 1 hsign) 0
  · exact readSubscale_keeps hP (hP _ 1 hsign) 0
  · exact readSubscale_keeps hP hsign 0
  · exact h

theorem ensures_parseNumber (hP : Inherited P) {B : Fault → Prop} :
    Ensures P parseNumber (fun _ => True) B := by
  constructor
  · intro t d u ht h
    have hsign : P (if peek t = minus then t.drop 1 else t) := by
      split
      · exact hP t 1 ht
      · exact ht
    cases h
    exact ⟨trivial, readExponent_keeps hP (readFraction_keeps hP (readInteger_keeps hP hsign) _)⟩
  · intro t f ht h
    cases h

end Numbers

/-! ### Values -/

/-- The item, if it is a string, has the property `S`. -/
def StringsIn (S : Text → Prop) (json : CJson) : Prop := ∀ s, json.valuestring = some s → S s

/-- And so have the items that it holds. -/
def StringsInAll (S : Text → Prop) (json : CJson) : Prop :=
  StringsIn S json ∧ ∀ child ∈ json.children, StringsIn S child.2

section Values

variable {P : Text → Prop} {S : Text → Prop} {B : Fault → Prop}

theorem stringsIn_string {s : Text} (h : S s) : StringsInAll S (.string s) := by
  refine ⟨fun s' hs => ?_, fun child hchild => ?_⟩
  · cases hs
    exact h
  · cases hchild

theorem stringsIn_number (d : ℚ) : StringsInAll S (.number d) := by
  refine ⟨fun s hs => ?_, fun child hchild => ?_⟩
  · cases hs
  · cases hchild

theorem stringsIn_array {vs : List CJson} (h : ∀ v ∈ vs, StringsIn S v) :
    StringsInAll S (.array vs) := by
  refine ⟨fun s hs => ?_, fun child hchild => ?_⟩
  · cases hs
  · obtain ⟨v, hv, rfl⟩ := List.mem_map.mp hchild
    exact h v hv

theorem stringsIn_object {ms : List (Text × CJson)} (h : ∀ m ∈ ms, StringsIn S m.2) :
    StringsInAll S (.object ms) := by
  refine ⟨fun s hs => ?_, fun child hchild => ?_⟩
  · cases hs
  · obtain ⟨m, hm, rfl⟩ := List.mem_map.mp hchild
    exact h m hm

theorem stringsIn_word (hP : Inherited P) {t u : Text} {v : CJson} (ht : P t)
    (h : parseWord t = some (v, u)) : StringsInAll S v ∧ P u := by
  rw [parseWord] at h
  split_ifs at h
  all_goals
    cases h
    refine ⟨⟨fun s hs => ?_, fun child hchild => ?_⟩, hP _ _ ht⟩
    · cases hs
    · cases hchild

/-- From the strings to the values, the items of arrays and the members of objects. -/
theorem ensures_all (hP : Inherited P) (hstring : Ensures P parseString S B) (n : ℕ) :
    Ensures P (parseValue n) (StringsInAll S) B ∧
    Ensures P (parseItems n) (fun vs => ∀ v ∈ vs, StringsIn S v) B ∧
    Ensures P (parseMembers n) (fun ms => ∀ m ∈ ms, StringsIn S m.2) B := by
  induction n with
  | zero =>
    refine ⟨⟨?_, ?_⟩, ⟨?_, ?_⟩, ⟨?_, ?_⟩⟩
    all_goals
      intros
      rename_i h
      cases h
  | succ n ih =>
    obtain ⟨hv, hi, hm⟩ := ih
    have hskip : Ensures P skip (fun _ => True) B := hP.skipWhile blank
    have hs : Ensures P (parseString >>= fun s => pure (CJson.string s)) (StringsInAll S) B :=
      hstring.bind fun s hs => ensures_pure (stringsIn_string hs)
    have ha : Ensures P (parseArray (parseItems n) >>= fun vs => pure (CJson.array vs))
        (StringsInAll S) B := by
      refine Ensures.bind ?_ fun vs hvs => ensures_pure (stringsIn_array hvs)
      exact (hP.expect lbracket).bind fun _ _ => hskip.bind fun _ _ =>
        (ensures_pure (by simp)).branch hP rbracket hi
    have ho : Ensures P (parseObject (parseMembers n) >>= fun ms => pure (CJson.object ms))
        (StringsInAll S) B := by
      refine Ensures.bind ?_ fun ms hms => ensures_pure (stringsIn_object hms)
      exact (hP.expect lbrace).bind fun _ _ => hskip.bind fun _ _ =>
        (ensures_pure (by simp)).branch hP rbrace hm
    refine ⟨⟨fun t v u ht h => ?_, fun t f ht h => ?_⟩, ?_, ?_⟩
    · rcases parseValue_ok h with h | h | ⟨-, h⟩ | h | h
      · exact stringsIn_word hP ht h
      · exact hs.reads t v u ht h
      · exact ((ensures_parseNumber (B := B) hP).bind fun d _ =>
          ensures_pure (stringsIn_number d)).reads t v u ht h
      · exact ha.reads t v u ht h
      · exact ho.reads t v u ht h
    · rcases parseValue_broken h with h | h | h
      · exact hs.breaks t f ht h
      · exact ha.breaks t f ht h
      · exact ho.breaks t f ht h
    · refine hskip.bind fun _ _ => hv.bind fun v hv => hskip.bind fun _ _ => ?_
      refine Ensures.branch hP comma (hi.bind fun vs hvs => ensures_pure ?_)
        ((hP.expect rbracket).bind fun _ _ => ensures_pure ?_)
      · exact List.forall_mem_cons.mpr ⟨hv.1, hvs⟩
      · exact List.forall_mem_singleton.mpr hv.1
    · refine hskip.bind fun _ _ => hstring.bind fun k _ => hskip.bind fun _ _ =>
        (hP.expect colon).bind fun _ _ => hskip.bind fun _ _ => hv.bind fun v hv =>
        hskip.bind fun _ _ => ?_
      refine Ensures.branch hP comma (hm.bind fun ms hms => ensures_pure ?_)
        ((hP.expect rbrace).bind fun _ _ => ensures_pure ?_)
      · exact List.forall_mem_cons.mpr ⟨hv.1, hms⟩
      · exact List.forall_mem_singleton.mpr hv.1

/-- What a text makes of all its items. -/
theorem cJsonParse_ensures (hP : Inherited P) (hstring : Ensures P parseString S B) {text : Text}
    (htext : P text) :
    (∀ json, cJsonParse text = .ok (some json) → StringsInAll S json) ∧
      ∀ f, cJsonParse text = .error f → B f := by
  have hblank : P (text.dropWhile blank) := by
    rw [List.dropWhile_eq_drop_findIdx_not]
    exact hP _ _ htext
  constructor
  · intro json h
    obtain ⟨u, hparse⟩ := outcome_eq_some.mp h
    exact ((ensures_all hP hstring _).1.reads _ json u hblank hparse).1
  · intro f h
    exact (ensures_all hP hstring _).1.breaks _ f hblank (outcome_eq_error.mp h)

end Values

/-! ### What breaks the parser -/

theorem cJsonParse_error {text : Text} {f : Fault} (h : cJsonParse text = .error f) : f = .heap :=
  (cJsonParse_ensures (P := fun _ => True) (S := fun _ => True) (B := fun f => f = .heap)
    (fun _ _ _ => trivial)
    (ensures_parseString (fun _ _ _ => trivial) (fun _ _ => trivial) fun _ _ _ => rfl)
    trivial).2 f h

/-- Every `\u` of the text has four hexadecimal digits behind it. -/
def Whole (t : Text) : Prop :=
  ∀ k, t.getD k 0 = backslash → t.getD (k + 1) 0 = letterU →
    ∀ j < 4, (hexVal (t.getD (k + 2 + j) 0)).isSome

theorem inherited_whole : Inherited Whole := by
  intro t k ht j
  have hget : ∀ i, (t.drop k).getD i 0 = t.getD (k + i) 0 := by
    intro i
    rw [List.getD_eq_getElem?_getD, List.getElem?_drop, ← List.getD_eq_getElem?_getD]
  simp only [hget]
  intro hb hu i hi
  have h := ht (k + j) hb (by rwa [Nat.add_assoc]) i hi
  rwa [show k + j + 2 + i = k + (j + 2 + i) by omega] at h

theorem hexVal_plain {c : UInt8} (h : (hexVal c).isSome) : c ≠ quote ∧ c ≠ 0 ∧ c ≠ backslash := by
  refine ⟨?_, ?_, ?_⟩ <;>
  · rintro rfl
    exact absurd h (by decide)

/-- Digits are counted one by one. -/
theorem stringLength_digits {t : Text} {k : ℕ} (h : ∀ j < k, (hexVal (t.getD j 0)).isSome) :
    stringLength 0 t = k + stringLength 0 (t.drop k) := by
  induction k generalizing t with
  | zero => rw [List.drop_zero, Nat.zero_add]
  | succ k ih =>
    have hfirst := h 0 (Nat.succ_pos k)
    cases t with
    | nil => exact absurd hfirst (by decide)
    | cons c t =>
      obtain ⟨hq, h0, hb⟩ := hexVal_plain (c := c) hfirst
      have hrest := ih (t := t) fun j hj => h (j + 1) (by omega)
      rw [stringLength_plain hq h0 hb, hrest, List.drop_succ_cons]
      omega

theorem length_encodeUtf8 (uc : ℕ) : (encodeUtf8 uc).length ≤ 4 := by
  rw [encodeUtf8]
  split_ifs <;> simp

theorem drop_of_getD {t : Text} {k : ℕ} {c : UInt8} (hc : c ≠ 0) (h : t.getD k 0 = c) :
    t.drop k = c :: t.drop (k + 1) := by
  have hk : k < t.length := by
    by_contra hlen
    rw [List.getD_eq_default _ _ (Nat.le_of_not_lt hlen)] at h
    exact hc h.symm
  rw [List.drop_eq_getElem_cons hk, ← h, List.getD_eq_getElem _ _ hk]

/-- An escape, with its backslash, is counted as five bytes. -/
theorem stringLength_escape {t : Text} (h : Whole (backslash :: letterU :: t)) :
    stringLength 0 (backslash :: letterU :: t) = 5 + stringLength 0 (t.drop 4) := by
  have hdigits : ∀ j < 4, (hexVal (t.getD j 0)).isSome := by
    intro j hj
    have hdigit := h 0 rfl rfl j hj
    rwa [show 0 + 2 + j = j + 1 + 1 by omega] at hdigit
  rw [stringLength_backslash, List.drop_succ_cons, List.drop_zero, stringLength_digits hdigits]
  omega

/-- No more is written for an escape, or for a pair of them, than is counted. -/
theorem unicodeEscape_counted {t : Text} (h : Whole (backslash :: letterU :: t)) :
    (unicodeEscape (letterU :: t)).1.length +
        stringLength 0 ((letterU :: t).drop (unicodeEscape (letterU :: t)).2) ≤
      stringLength 0 (backslash :: letterU :: t) := by
  have hsecond : (letterU :: t).getD 5 0 = backslash → (letterU :: t).getD 6 0 = letterU →
      stringLength 0 (t.drop 4) = 5 + stringLength 0 (t.drop 10) := by
    intro hb hu
    have hdrop : t.drop 4 = backslash :: letterU :: t.drop 6 := by
      rw [drop_of_getD (by decide) (show t.getD 4 0 = backslash from hb),
        drop_of_getD (by decide) (show t.getD 5 0 = letterU from hu)]
    have hwhole : Whole (t.drop 4) := inherited_whole _ 6 h
    rw [hdrop] at hwhole ⊢
    rw [stringLength_escape hwhole, List.drop_drop]
  have hlen := length_encodeUtf8
  rw [stringLength_escape h]
  simp only [unicodeEscape]
  split_ifs with hnone hhigh hmissing hinvalid
  · exact Nat.add_le_add_right (Nat.zero_le 5) _
  · exact Nat.add_le_add_right (Nat.zero_le 5) _
  · obtain ⟨hb, hu⟩ := not_or.mp hmissing
    rw [hsecond (not_not.mp hb) (not_not.mp hu)]
    exact (Nat.add_le_add_right (Nat.zero_le 5) _).trans (Nat.le_add_left _ 5)
  · obtain ⟨hb, hu⟩ := not_or.mp hmissing
    rw [hsecond (not_not.mp hb) (not_not.mp hu)]
    exact (Nat.add_le_add_right ((hlen _).trans (by norm_num)) _).trans (Nat.le_add_left _ 5)
  · exact Nat.add_le_add_right ((hlen _).trans (by norm_num)) _

theorem escape_counted {t : Text} (h : Whole (backslash :: t)) :
    (escape t).1.length + stringLength 0 (t.drop (escape t).2) ≤
      stringLength 0 (backslash :: t) := by
  rw [escape]
  split
  case h_6 hu =>
    cases t with
    | nil => exact absurd hu (by decide)
    | cons c t =>
      obtain rfl : c = letterU := hu
      exact unicodeEscape_counted h
  all_goals
    rw [stringLength_backslash]
    exact le_refl _

/-- The first loop counts what the second one writes. -/
theorem unescape_counted {t : Text} (h : Whole t) :
    (unescape 0 t).1.length ≤ stringLength 0 t := by
  induction hn : t.length using Nat.strong_induction_on generalizing t with
  | _ n ih =>
    cases t with
    | nil => exact le_refl _
    | cons c t =>
      rw [List.length_cons] at hn
      have hshort : ∀ k, (unescape 0 (t.drop k)).1.length ≤ stringLength 0 (t.drop k) := fun k =>
        ih (t.drop k).length (by rw [List.length_drop]; omega) (inherited_whole _ (k + 1) h) rfl
      by_cases hstop : c = quote ∨ c = 0
      · rw [unescape, if_pos hstop]
        exact Nat.zero_le _
      by_cases hb : c = backslash
      · subst hb
        rw [unescape_backslash, List.length_append]
        exact (Nat.add_le_add_left (hshort _) _).trans (escape_counted h)
      · obtain ⟨hq, h0⟩ := not_or.mp hstop
        rw [unescape_plain hq h0 hb, stringLength_plain hq h0 hb, List.length_cons, Nat.add_comm]
        exact Nat.add_le_add_left (hshort 0) 1

/-- A text with whole escapes breaks no block, whether it is read or refused. -/
theorem cJsonParse_whole {text : Text} (h : Whole text) (f : Fault) :
    cJsonParse text ≠ .error f := by
  have hstring : Ensures Whole parseString (fun _ => True) fun _ => False := by
    refine ensures_parseString inherited_whole (fun _ _ => trivial) fun t ht hlt => ?_
    exact absurd (unescape_counted (inherited_whole _ 1 ht)) (Nat.not_le_of_lt hlt)
  exact (cJsonParse_ensures inherited_whole hstring h).2 f

/-- A digit less, and the quote behind the escape is skipped. -/
example : parseString (str "\"\\u12\",aaaa\"") = .error (.broken .heap) := by decide +kernel

end KbPm
