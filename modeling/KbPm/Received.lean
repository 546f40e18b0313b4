/-
Strings that are decoded from a request fit their fields.

Nothing checks a length when `parse_process` copies strings into buffers of
`STR_BUFFER_SIZE` bytes.  The bound is that of the operand: behind its bytes the
buffer holds zeros, and decoding never makes more bytes than it moves over.

* `unescape_within` — so it is for every escape, also for those that move over
  quotes and terminators without a look;
* `cJsonParse_below` — what the parser reads from a text that ends within `N` bytes has
  strings of fewer bytes;
* `decoded_fits` — no string that is copied is too long.
-/
import KbPm.CJsonBlocks
import KbPm.Process

namespace KbPm

open Scan

/-! ### Escapes -/

/-- Four digits are read, or there is no value. -/
theorem getD_of_parseHex4 {t : Text} (h : parseHex4 t ≠ 0) : t.getD 3 0 ≠ 0 := by
  intro h3
  have hnone : hexVal (t.getD 3 0) = none := by rw [h3]; decide
  refine h ?_
  rw [parseHex4, hnone]
  cases hexVal (t.getD 0 0) <;> cases hexVal (t.getD 1 0) <;> cases hexVal (t.getD 2 0) <;> rfl

/-- An escape writes no more than it moves over, and what it moves over beyond the text it does not
write. -/
theorem unicodeEscape_within {N : ℕ} {t : Text} (h : EndsWithin N t) :
    (unicodeEscape t).1.length ≤ (unicodeEscape t).2 ∧
      ((unicodeEscape t).1 = [] ∨ (unicodeEscape t).2 ≤ N) := by
  have hdigit : ∀ k, parseHex4 (t.drop k) ≠ 0 → k + 3 < N := fun k hk => h.lt (by
    have h3 := getD_of_parseHex4 hk
    rwa [List.getD_eq_getElem?_getD, List.getElem?_drop, ← List.getD_eq_getElem?_getD] at h3)
  have hlen := length_encodeUtf8
  simp only [unicodeEscape]
  split_ifs with hnone hpair hmissing hinvalid
  · exact ⟨Nat.zero_le _, Or.inl rfl⟩
  · exact ⟨Nat.zero_le _, Or.inl rfl⟩
  · exact ⟨Nat.zero_le _, Or.inl rfl⟩
  · -- the second half has been read
    have := hdigit 7 (by omega)
    exact ⟨(hlen _).trans (by norm_num), Or.inr (by omega)⟩
  · have := hdigit 1 (by omega)
    exact ⟨(hlen _).trans (by norm_num), Or.inr (by omega)⟩

theorem escape_within {N : ℕ} {t : Text} (h : EndsWithin N t) :
    (escape t).1.length ≤ (escape t).2 ∧ ((escape t).1.length ≤ 1 ∨ (escape t).2 ≤ N) := by
  rw [escape]
  split
  case h_6 =>
    obtain ⟨hmoves, hwrites | hwrites⟩ := unicodeEscape_within h
    · exact ⟨hmoves, Or.inl (by simp [hwrites])⟩
    · exact ⟨hmoves, Or.inr hwrites⟩
  all_goals exact ⟨le_refl 1, Or.inl (le_refl 1)⟩

/-- Decoding does not produce more bytes than there are. -/
theorem unescape_within {k N : ℕ} {t : Text} (h : EndsWithin N t) :
    (unescape k t).1.length ≤ N - k := by
  induction t generalizing k N with
  | nil => cases k <;> exact Nat.zero_le _
  | cons c t ih =>
    cases k with
    | succ k =>
      have hrest := ih (k := k) h.tail
      rw [unescape]
      omega
    | zero =>
      rw [unescape]
      split_ifs with hstop hplain
      · exact Nat.zero_le _
      · have hpos := h.pos (not_or.mp hstop).2
        have hrest := ih (k := 0) h.tail
        rw [List.length_cons]
        omega
      · have hpos := h.pos (not_or.mp hstop).2
        have hrest := ih (k := (escape t).2) h.tail
        obtain ⟨hmoves, hwrites⟩ := escape_within h.tail
        rw [List.length_append]
        omega

/-- A string is shorter than the text that it is read from. -/
theorem ensures_parseString_within (N : ℕ) :
    Ensures (EndsWithin N) parseString (fun s => s.length < N) (fun _ => True) := by
  refine ensures_parseString (inherited_endsWithin N) (fun t ht => ?_) fun _ _ _ => trivial
  have hpos := ht.pos (by decide)
  have hlen := unescape_within (k := 0) ht.tail
  omega

/-- The item is not a string of `N` bytes or more. -/
def StringsBelow (N : ℕ) : CJson → Prop := StringsIn fun s => s.length < N

theorem cJsonParse_below {N : ℕ} {text : Text} {json item : CJson} {name : Text}
    (htext : EndsWithin N text) (h : cJsonParse text = .ok (some json))
    (hitem : getObjectItem json name = some item) : StringsBelow N item := by
  have hbelow := (cJsonParse_ensures (inherited_endsWithin N) (ensures_parseString_within N)
    htext).1 json h
  obtain ⟨child, hchild, rfl⟩ := Option.map_eq_some_iff.mp hitem
  exact hbelow.2 child (List.mem_of_find?_eq_some hchild)

/-! ### Fields -/

/-- What can go wrong is the copy of a field. -/
theorem parseProcessCJson_error {process : Process} {json : CJson} {fault : Fault}
    (h : parseProcessCJson process json = .error fault) :
    ∃ name item, getObjectItem json name = some item ∧ copyValuestring item = .error fault := by
  unfold parseProcessCJson at h
  -- the three fields in turn
  split at h
  · cases h
  rename_i app happ
  rcases Slots.bind_eq_error h with hcopy | ⟨b, -, h⟩
  · exact ⟨_, app, happ, hcopy⟩
  split at h
  · cases h
  rename_i cmd hcmd
  rcases Slots.bind_eq_error h with hcopy | ⟨c, -, h⟩
  · exact ⟨_, cmd, hcmd, hcopy⟩
  split at h
  · cases h
  rename_i dir hdir
  rcases Slots.bind_eq_error h with hcopy | ⟨d, -, h⟩
  · exact ⟨_, dir, hdir, hcopy⟩
  split at h <;> cases h

theorem copyValuestring_fits {item : CJson} (h : StringsBelow strBufferSize item) :
    copyValuestring item ≠ .error .overflow := by
  rw [copyValuestring]
  cases hs : item.valuestring with
  | none => simp
  | some s =>
    have hfits := lt_of_le_of_lt (length_cstr_le s) (h s hs)
    simp only [strcpy, dif_pos hfits]
    simp

/-- Every string that is copied out of a text of `STR_BUFFER_SIZE` bytes fits. -/
theorem decoded_fits {message zs : Text} (hm : message.length ≤ strBufferSize)
    (hz : Exhausted zs) :
    (∀ json name item s, cJsonParse (message ++ zs) = .ok (some json) →
      getObjectItem json name = some item → item.valuestring = some s →
      s.length < strBufferSize) ∧
    ∀ process, parseProcess process (message ++ zs) ≠ .error .overflow := by
  have hwithin : EndsWithin strBufferSize (message ++ zs) := by
    rw [EndsWithin, List.drop_append, List.drop_eq_nil_of_le hm, List.nil_append]
    exact hz.drop _
  refine ⟨fun json name item s hjson hitem hs => ?_, fun process h => ?_⟩
  · exact cJsonParse_below hwithin hjson hitem s hs
  · rw [parseProcess] at h
    split at h
    · rename_i fault hjson
      cases h
      cases cJsonParse_error hjson
    · cases h
    · rename_i json hjson
      obtain ⟨name, item, hitem, hcopy⟩ := parseProcessCJson_error h
      exact copyValuestring_fits (cJsonParse_below hwithin hjson hitem) hcopy

/-- An escape with two digits moves over the quote and the comma behind it. -/
def shortEscape : Text := str "\x7b\"app_name\":\"\\u12\",a\"\x7d"

theorem decoded_fits_short :
    parseProcess .zero (shortEscape ++ [0]) ≠ .error .overflow ∧
    ∃ json item s, cJsonParse (shortEscape ++ [0]) = .ok (some json) ∧
      getObjectItem json (str "app_name") = some item ∧ item.valuestring = some s ∧
      s = str "a" ∧ s.length < strBufferSize := by
  have hlen : shortEscape.length ≤ strBufferSize := by decide +kernel
  have hfits := decoded_fits hlen (exhausted_replicate 1)
  have hread : (cJsonParse (shortEscape ++ [0])).map (fun json => json.bind fun json =>
      (getObjectItem json (str "app_name")).bind CJson.valuestring) = .ok (some (str "a")) := by
    decide +kernel
  obtain ⟨json, hjson, hread⟩ : ∃ json, cJsonParse (shortEscape ++ [0]) = .ok (some json) ∧
      (getObjectItem json (str "app_name")).bind CJson.valuestring = some (str "a") := by
    rcases hparse : cJsonParse (shortEscape ++ [0]) with f | _ | json
    · rw [hparse] at hread
      cases hread
    · rw [hparse] at hread
      cases hread
    · rw [hparse] at hread
      exact ⟨json, rfl, Except.ok.inj hread⟩
  obtain ⟨item, hitem, hs⟩ := Option.bind_eq_some_iff.mp hread
  exact ⟨hfits.2 .zero, json, item, _, hjson, hitem, hs, rfl, hfits.1 _ _ _ _ hjson hitem hs⟩

end KbPm
