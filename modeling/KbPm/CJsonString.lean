/-
Strings of the JSON library: what is printed is read back, cut short it is not.

* `printStringPtr_eq` — both paths of the printer give the same kind of text;
* `textSize` — how long it is (`length_printStringPtr`);
* `unescape_escapeByte` — every byte but NUL survives escaping;
* `measured_flatMap` — the first loop of the parser counts enough bytes for what
  is printed;
* `runsDry_cut` — a string cut anywhere, inside an escape too, runs the
  parser dry;
* `parses_parseString` — the two together, for whole strings.
-/
import KbPm.CJson

namespace KbPm

open Scan

theorem escapeByte_plain {c : UInt8} (h0 : c ≠ 0) (h : special c = false) :
    escapeByte c = [c] := by
  simp only [special, Bool.or_eq_false_iff, Bool.and_eq_false_iff, bne_eq_false_iff_eq,
    beq_eq_false_iff_ne, decide_eq_false_iff_not] at h
  obtain ⟨⟨h1 | h1, hq⟩, hb⟩ := h
  · exact absurd h1 h0
  · have h31 : 31 < c := by
      rw [UInt8.lt_iff_toNat_lt] at h1 ⊢
      simp only [UInt8.reduceToNat] at h1 ⊢
      omega
    unfold escapeByte
    rw [if_pos ⟨h31, hq, hb⟩]

/-- The two paths of the printer agree: without a special byte, escaping changes
nothing. -/
theorem printStringPtr_eq {s : Text} (hs : 0 ∉ s) :
    printStringPtr s = quote :: s.flatMap escapeByte ++ [quote] := by
  rw [printStringPtr]
  split
  · rfl
  · rename_i h
    have hplain : s.flatMap escapeByte = s := by
      rw [Bool.not_eq_true, List.any_eq_false] at h
      induction s with
      | nil => rfl
      | cons c s ih =>
        simp only [List.mem_cons, not_or] at hs
        rw [List.flatMap_cons, escapeByte_plain (Ne.symm hs.1) (by simpa using h c (by simp)),
          ih hs.2 fun b hb => h b (by simp [hb])]
        rfl
    rw [hplain]

/-- How many bytes `print_string_ptr` writes for one. -/
def byteSize (c : UInt8) : ℕ :=
  if c = quote ∨ c = backslash ∨ c ∈ [8, 9, 10, 12, 13] then 2 else if c < 32 then 6 else 1

def textSize (s : Text) : ℕ := (s.map byteSize).sum

theorem length_escapeByte (c : UInt8) : (escapeByte c).length = byteSize c := by
  unfold escapeByte
  split
  case isTrue hplain =>
    obtain ⟨hlt, hq, hb⟩ := hplain
    have hle : ¬c < 32 := by
      rw [UInt8.lt_iff_toNat_lt] at hlt ⊢
      simp only [UInt8.reduceToNat] at hlt ⊢
      omega
    have hnone : ¬(c = quote ∨ c = backslash ∨ c ∈ [8, 9, 10, 12, 13]) := by
      rintro (h | h | h)
      · exact hq h
      · exact hb h
      · simp only [List.mem_cons, List.not_mem_nil, or_false] at h
        rcases h with rfl | rfl | rfl | rfl | rfl <;> exact hle (by decide)
    rw [byteSize, if_neg hnone, if_neg hle]
    rfl
  case isFalse hplain =>
    split
    case h_8 h92 h34 h8 h12 h10 h13 h9 =>
      have hlt : c < 32 := by
        by_contra hle
        refine hplain ⟨?_, h34, h92⟩
        rw [UInt8.lt_iff_toNat_lt] at hle ⊢
        simp only [UInt8.reduceToNat] at hle ⊢
        omega
      have hnone : ¬(c = quote ∨ c = backslash ∨ c ∈ [8, 9, 10, 12, 13]) := by
        simp only [List.mem_cons, List.not_mem_nil, or_false, not_or]
        exact ⟨h34, h92, h8, h9, h10, h12, h13⟩
      rw [byteSize, if_neg hnone, if_pos hlt]
      rfl
    all_goals rfl

theorem length_printStringPtr {s : Text} (hs : 0 ∉ s) :
    (printStringPtr s).length = 2 + textSize s := by
  have hbytes : (s.flatMap escapeByte).length = textSize s := by
    rw [List.length_flatMap, textSize]
    congr 1
    exact List.map_congr_left fun c _ => length_escapeByte c
  rw [printStringPtr_eq hs, List.cons_append, List.length_cons, List.length_append, hbytes,
    List.length_singleton]
  omega

/-! ### The unescaping loop -/

theorem unescape_drop (k : ℕ) (t : Text) : unescape k t = unescape 0 (t.drop k) := by
  induction t generalizing k with
  | nil =>
    rw [List.drop_nil]
    cases k <;> rfl
  | cons c t ih =>
    cases k with
    | zero => rfl
    | succ k => exact ih k

theorem unescape_exhausted {t : Text} (h : Exhausted t) : unescape 0 t = ([], t) := by
  cases t with
  | nil => rfl
  | cons c t =>
    rw [unescape, if_pos (Or.inr (h c (by simp)))]

theorem unescape_quote (t : Text) : unescape 0 (quote :: t) = ([], quote :: t) := by
  rw [unescape, if_pos (Or.inl rfl)]

theorem unescape_plain {c : UInt8} (hq : c ≠ quote) (h0 : c ≠ 0) (hb : c ≠ backslash) (t : Text) :
    unescape 0 (c :: t) = (c :: (unescape 0 t).1, (unescape 0 t).2) := by
  rw [unescape, if_neg (by simp [hq, h0]), if_pos hb]

theorem unescape_backslash (t : Text) :
    unescape 0 (backslash :: t) =
      ((escape t).1 ++ (unescape 0 (t.drop (escape t).2)).1,
        (unescape 0 (t.drop (escape t).2)).2) := by
  rw [unescape, if_neg (by decide), if_neg (by decide)]
  simp only [unescape_drop (escape t).2 t]

theorem unicodeText_eq (c : UInt8) : ∃ a b, unicodeText c = [letterU, 48, 48, a, b] :=
  ⟨_, _, rfl⟩

/-- The escape of a control byte is read back as this byte. -/
theorem escape_unicodeText {c : UInt8} (h0 : c ≠ 0) (h : c < 32) (t : Text) :
    escape (unicodeText c ++ t) = ([c], 5) := by
  have hall : ∀ n < 32, n ≠ 0 → unicodeEscape (unicodeText (UInt8.ofNat n)) =
      ([UInt8.ofNat n], 5) ∧ parseHex4 ((unicodeText (UInt8.ofNat n)).drop 1) < 0xD800 := by
    decide
  have hn : c.toNat < 32 := by
    rw [UInt8.lt_iff_toNat_lt] at h
    simpa using h
  have hc := hall c.toNat hn fun h => h0 (UInt8.toNat_inj.mp (by simpa using h))
  rw [UInt8.ofNat_toNat] at hc
  -- the escape looks at its own five bytes only, as it is no surrogate
  have hext : unicodeEscape (unicodeText c ++ t) = unicodeEscape (unicodeText c) := by
    obtain ⟨a, b, hab⟩ := unicodeText_eq c
    have hlt := hc.2
    rw [hab] at hlt ⊢
    have hp : parseHex4 (List.drop 1 ([letterU, 48, 48, a, b] ++ t)) =
        parseHex4 (List.drop 1 [letterU, 48, 48, a, b]) := rfl
    have hns : ¬(0xD800 ≤ parseHex4 (List.drop 1 [letterU, 48, 48, a, b]) ∧
        parseHex4 (List.drop 1 [letterU, 48, 48, a, b]) ≤ 0xDBFF) := by omega
    simp only [unicodeEscape, hp, if_neg hns]
  have hpeek : escape (unicodeText c ++ t) = unicodeEscape (unicodeText c ++ t) := rfl
  rw [hpeek, hext, hc.1]

/-- What is behind the backslash in the escape of a byte: one letter, or the
`u` and four digits. -/
theorem escapeByte_cases {c : UInt8} (h0 : c ≠ 0) :
    (escapeByte c = [c] ∧ c ≠ quote ∧ c ≠ backslash) ∨
      (∃ l, escapeByte c = [backslash, l] ∧ ∀ t, escape (l :: t) = ([c], 1)) ∨
      (escapeByte c = backslash :: unicodeText c ∧ c < 32) := by
  by_cases h : 31 < c ∧ c ≠ quote ∧ c ≠ backslash
  · refine Or.inl ⟨?_, h.2⟩
    unfold escapeByte
    rw [if_pos h]
  · refine Or.inr ?_
    unfold escapeByte
    rw [if_neg h]
    split
    case h_8 h92 h34 h8 h12 h10 h13 h9 =>
      refine Or.inr ⟨rfl, ?_⟩
      have h31 : ¬31 < c := fun h31 => h ⟨h31, h34, h92⟩
      rw [UInt8.lt_iff_toNat_lt] at h31 ⊢
      simp only [UInt8.reduceToNat] at h31 ⊢
      omega
    all_goals exact Or.inl ⟨_, rfl, fun t => rfl⟩

theorem unescape_escapeByte {c : UInt8} (h0 : c ≠ 0) (t : Text) :
    unescape 0 (escapeByte c ++ t) = (c :: (unescape 0 t).1, (unescape 0 t).2) := by
  rcases escapeByte_cases h0 with ⟨h, hq, hb⟩ | ⟨l, h, hl⟩ | ⟨h, hc⟩
  · rw [h]
    exact unescape_plain hq h0 hb t
  · rw [h, List.cons_append, List.cons_append, List.nil_append, unescape_backslash, hl t]
    rfl
  · have hdrop : (unicodeText c ++ t).drop 5 = t := rfl
    rw [h, List.cons_append, unescape_backslash, escape_unicodeText h0 hc, hdrop]
    rfl

theorem unescape_flatMap {s : Text} (hs : 0 ∉ s) (t : Text) :
    unescape 0 (s.flatMap escapeByte ++ quote :: t) = (s, quote :: t) := by
  induction s with
  | nil => exact unescape_quote t
  | cons c s ih =>
    simp only [List.mem_cons, not_or] at hs
    rw [List.flatMap_cons, List.append_assoc, unescape_escapeByte (Ne.symm hs.1), ih hs.2]

/-! ### The measuring loop -/

theorem stringLength_plain {c : UInt8} (hq : c ≠ quote) (h0 : c ≠ 0) (hb : c ≠ backslash)
    (t : Text) : stringLength 0 (c :: t) = 1 + stringLength 0 t := by
  rw [stringLength, if_neg (by simp [hq, h0]), if_neg hb]

theorem stringLength_backslash (t : Text) :
    stringLength 0 (backslash :: t) = 1 + stringLength 0 (t.drop 1) := by
  rw [stringLength, if_neg (by decide), if_pos rfl]
  cases t with
  | nil => rfl
  | cons c t => rfl

/-- Behind the backslash there is no quote, no NUL and no other backslash. -/
theorem unicodeText_digits (c : UInt8) :
    ∀ d ∈ (unicodeText c).drop 1, d ≠ quote ∧ d ≠ 0 ∧ d ≠ backslash := by
  have hhex : ∀ n < 16, ∀ d : UInt8, d = (if n < 10 then (48 + n).toUInt8 else (87 + n).toUInt8) →
      d ≠ quote ∧ d ≠ 0 ∧ d ≠ backslash := by
    rintro n hn d rfl
    revert n
    decide
  intro d hd
  simp only [unicodeText, List.drop_succ_cons, List.drop_zero, List.mem_cons, List.not_mem_nil,
    or_false] at hd
  rcases hd with rfl | rfl | hd | hd
  · decide
  · decide
  · have hlt := c.toNat_lt
    exact hhex _ (by omega) d hd
  · exact hhex _ (Nat.mod_lt _ (by decide)) d hd

/-- Every byte that is printed is counted. -/
theorem stringLength_escapeByte {c : UInt8} (h0 : c ≠ 0) (t : Text) :
    1 + stringLength 0 t ≤ stringLength 0 (escapeByte c ++ t) := by
  rcases escapeByte_cases h0 with ⟨h, hq, hb⟩ | ⟨l, h, -⟩ | ⟨h, -⟩
  · rw [h]
    exact le_of_eq (stringLength_plain hq h0 hb t).symm
  · rw [h, List.cons_append, stringLength_backslash]
    exact le_refl _
  · -- the digits of a control byte are no quotes
    have hdigits := unicodeText_digits c
    have hcount : ∀ ds : Text, (∀ d ∈ ds, d ≠ quote ∧ d ≠ 0 ∧ d ≠ backslash) →
        stringLength 0 t ≤ stringLength 0 (ds ++ t) := by
      intro ds hds
      induction ds with
      | nil => exact le_refl _
      | cons d ds ih =>
        obtain ⟨hq, h0, hb⟩ := hds d List.mem_cons_self
        rw [List.cons_append, stringLength_plain hq h0 hb]
        exact le_trans (ih fun d hd => hds d (List.mem_cons_of_mem _ hd)) (Nat.le_add_left _ _)
    rw [h, List.cons_append, stringLength_backslash]
    exact Nat.add_le_add_left (hcount _ hdigits) 1

theorem measured_flatMap {s : Text} (hs : 0 ∉ s) (t : Text) :
    s.length ≤ stringLength 0 (s.flatMap escapeByte ++ t) := by
  induction s with
  | nil => exact Nat.zero_le _
  | cons c s ih =>
    simp only [List.mem_cons, not_or] at hs
    rw [List.flatMap_cons, List.append_assoc, List.length_cons, Nat.add_comm]
    exact le_trans (Nat.add_le_add_left (ih hs.2) 1) (stringLength_escapeByte (Ne.symm hs.1) _)

/-! ### Cut strings -/

/-- The `u` escape moves the pointer by five bytes at least, whatever they are. -/
theorem unicodeEscape_moves (t : Text) : 5 ≤ (unicodeEscape t).2 := by
  simp only [unicodeEscape]
  split_ifs <;> simp

/-- Digits that are cut off are read as no number. -/
theorem parseHex4_cut {q zs : Text} (hq : q.length < 4) (hz : Exhausted zs) :
    parseHex4 (q ++ zs) = 0 := by
  have hend : hexVal (zs.getD 0 0) = none := by
    cases zs with
    | nil => rfl
    | cons z zs =>
      rw [List.getD_cons_zero, hz z List.mem_cons_self]
      rfl
  have hbind : ∀ (o : Option ℕ) {f : ℕ → Option ℕ}, (∀ x, f x = none) → (o >>= f) = none := by
    intro o f hf
    cases o with
    | none => rfl
    | some x => exact hf x
  have hnone : ∀ x, (hexVal (zs.getD 0 0) >>= x : Option ℕ) = none := by
    intro x
    rw [hend]
    rfl
  rw [parseHex4]
  -- the digit behind the cut is none
  rcases q with _ | ⟨a, _ | ⟨b, _ | ⟨c, _ | ⟨d, q⟩⟩⟩⟩
  · exact congrArg (Option.getD · 0) (hnone _)
  · exact congrArg (Option.getD · 0) (hbind _ fun _ => hnone _)
  · exact congrArg (Option.getD · 0) (hbind _ fun _ => hbind _ fun _ => hnone _)
  · exact congrArg (Option.getD · 0) (hbind _ fun _ => hbind _ fun _ => hbind _ fun _ => hnone _)
  · simp only [List.length_cons] at hq
    omega

/-- What the two loops of the parser make of a text that is cut: the second one runs dry, and the
first one has counted what it writes. -/
structure RunsDry (t : Text) : Prop where
  dry : Exhausted (unescape 0 t).2
  measured : (unescape 0 t).1.length ≤ stringLength 0 t

theorem runsDry_exhausted {t : Text} (h : Exhausted t) : RunsDry t := by
  constructor
  · rw [unescape_exhausted h]
    exact h
  · rw [unescape_exhausted h]
    exact Nat.zero_le _

/-- A byte's escape that is cut short runs the loop dry: the pointer moves over
what is left of it and into the terminators. -/
theorem runsDry_escapeByte_cut {c : UInt8} (h0 : c ≠ 0) {k : ℕ} (hk : k < (escapeByte c).length)
    {zs : Text} (hz : Exhausted zs) : RunsDry ((escapeByte c).take k ++ zs) := by
  -- a prefix of an escape is nothing, or a backslash and fewer bytes than are skipped
  have hskip : ∀ q : Text, q.length ≤ (escape (q ++ zs)).2 → (escape (q ++ zs)).1.length ≤ 1 →
      RunsDry (backslash :: q ++ zs) := by
    intro q hq hone
    have hdrop : Exhausted ((q ++ zs).drop (escape (q ++ zs)).2) := by
      rw [List.drop_append, List.drop_eq_nil_of_le hq, List.nil_append]
      exact hz.drop _
    constructor
    · rw [List.cons_append, unescape_backslash, unescape_exhausted hdrop]
      exact hdrop
    · rw [List.cons_append, unescape_backslash, unescape_exhausted hdrop, stringLength_backslash,
        List.append_nil]
      exact le_trans hone (Nat.le_add_right 1 _)
  rcases k with _ | k
  · rw [List.take_zero, List.nil_append]
    exact runsDry_exhausted hz
  rcases escapeByte_cases h0 with ⟨h, -, -⟩ | ⟨l, h, hl⟩ | ⟨h, hc⟩
  · rw [h] at hk
    simp at hk
  · rw [h] at hk ⊢
    obtain rfl : k = 0 := by simpa using hk
    refine hskip [] (by simp) ?_
    have hpeek : peek ([] ++ zs) = 0 := hz.peek
    rw [escape, hpeek]
    exact le_refl 1
  · rw [h] at hk ⊢
    rw [List.take_succ_cons]
    obtain ⟨a, b, hab⟩ := unicodeText_eq c
    rw [hab] at hk ⊢
    rcases k with _ | k
    · refine hskip _ (by simp) ?_
      have hpeek : peek (List.take 0 [letterU, 48, 48, a, b] ++ zs) = 0 := hz.peek
      rw [escape, hpeek]
      exact le_refl 1
    · have hu : ∀ q, escape (letterU :: q) = unicodeEscape (letterU :: q) := fun q => rfl
      have hlen : ([48, 48, a, b].take k : Text).length < 4 := by
        simp only [List.length_cons, List.length_take, List.length_nil] at hk ⊢
        omega
      rw [List.take_succ_cons]
      refine hskip _ ?_ ?_
      · rw [List.cons_append, hu]
        refine le_trans ?_ (unicodeEscape_moves _)
        rw [List.length_cons]
        omega
      · rw [List.cons_append, hu, unicodeEscape]
        simp only [List.drop_succ_cons, List.drop_zero, parseHex4_cut hlen hz]
        simp

theorem runsDry_cut {s : Text} (hs : 0 ∉ s) (k : ℕ) {zs : Text} (hz : Exhausted zs) :
    RunsDry ((s.flatMap escapeByte).take k ++ zs) := by
  induction s generalizing k with
  | nil =>
    rw [List.flatMap_nil, List.take_nil, List.nil_append]
    exact runsDry_exhausted hz
  | cons c s ih =>
    simp only [List.mem_cons, not_or] at hs
    rw [List.flatMap_cons]
    rcases Nat.lt_or_ge k (escapeByte c).length with hk | hk
    · rw [List.take_append_of_le_length (by omega)]
      exact runsDry_escapeByte_cut (Ne.symm hs.1) hk hz
    · obtain ⟨hdry, hmeasured⟩ := ih hs.2 (k - (escapeByte c).length)
      rw [List.take_append, List.take_of_length_le hk, List.append_assoc]
      constructor
      · rw [unescape_escapeByte (Ne.symm hs.1)]
        exact hdry
      · rw [unescape_escapeByte (Ne.symm hs.1), List.length_cons, Nat.add_comm]
        exact le_trans (Nat.add_le_add_left hmeasured 1)
          (stringLength_escapeByte (Ne.symm hs.1) _)

/-- A printed string is read back in front of anything; cut short, it runs the
parser dry. -/
theorem parses_parseString {s : Text} (hs : 0 ∉ s) (F : UInt8 → Prop) :
    Parses parseString (printStringPtr s) s F := by
  rw [printStringPtr_eq hs]
  refine ⟨fun x _ => ?_, fun k hk zs hz => ?_⟩
  · have hread := unescape_flatMap hs x
    refine parseString_ok.mpr ?_
    simp only [List.cons_append, List.append_assoc, List.drop_succ_cons, List.drop_zero,
      List.nil_append, hread, peek_cons, if_pos, true_and, and_true]
    exact measured_flatMap hs _
  · rcases k with _ | k
    · refine Or.inl ?_
      rw [List.take_zero, List.nil_append, parseString, if_pos]
      rw [hz.peek]
      decide
    · have hle : k ≤ (s.flatMap escapeByte).length := by
        simp only [List.cons_append, List.length_cons, List.length_append, List.length_nil] at hk
        omega
      obtain ⟨hdry, hmeasured⟩ := runsDry_cut hs k hz
      refine Or.inr ⟨_, _, parseString_ok.mpr ⟨?_, rfl, ?_, rfl⟩, ?_⟩
      · rw [List.cons_append, List.take_succ_cons, List.cons_append, peek_cons]
      all_goals
        rw [List.cons_append, List.take_succ_cons, List.take_append_of_le_length hle,
          List.cons_append, List.drop_succ_cons, List.drop_zero]
      · exact hmeasured
      · rw [hdry.peek, if_neg (by decide)]
        exact hdry

theorem refuses_parseString : Refuses parseString := by
  intro t ht
  rw [parseString, if_pos]
  rw [ht.peek]
  decide

end KbPm
