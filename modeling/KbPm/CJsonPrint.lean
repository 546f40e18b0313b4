/-
What is printed is a C string.

* `NulFree` — items whose strings and names are C strings;
* `nulFree_printValue` — their texts have no NUL.
-/
import KbPm.CJsonText

namespace KbPm

mutual

def NulFree : CJson → Prop
  | .null => True
  | .bool _ => True
  | .number _ => True
  | .string s => 0 ∉ s
  | .array vs => NulFreeItems vs
  | .object ms => NulFreeMembers ms

def NulFreeItems : List CJson → Prop
  | [] => True
  | v :: vs => NulFree v ∧ NulFreeItems vs

def NulFreeMembers : List (Text × CJson) → Prop
  | [] => True
  | (k, v) :: ms => 0 ∉ k ∧ NulFree v ∧ NulFreeMembers ms

end

/-! ### Numbers and strings -/

theorem nulFree_digitsOf (n : ℕ) : 0 ∉ digitsOf n := by
  intro h0
  exact absurd (isDigit_digitsOf n 0 h0) (by decide)

theorem nulFree_formatWhole (n : ℤ) : 0 ∉ decimal n := by
  have hdigits := nulFree_digitsOf n.natAbs
  rw [decimal]
  split_ifs
  · decide
  · simp [hdigits]
  · exact hdigits

theorem nulFree_padded (k n : ℕ) : 0 ∉ padded k n := by
  simp [padded, List.mem_replicate, nulFree_digitsOf]

theorem nulFree_printNumber (d : ℚ) : 0 ∉ printNumber d := by
  have hsign : 0 ∉ (if d < 0 then [minus] else [] : Text) := by
    split <;> decide
  unfold printNumber
  simp only
  split_ifs
  · decide
  · exact nulFree_formatWhole _
  · exact nulFree_formatWhole _
  · simp only [formatScientific, List.mem_append, List.mem_cons, not_or]
    refine ⟨⟨⟨hsign, nulFree_formatWhole _⟩, by decide, nulFree_padded _ _⟩, by decide, ?_,
      nulFree_padded _ _⟩
    split_ifs <;> decide
  · simp only [formatFixed, List.mem_append, List.mem_cons, not_or]
    exact ⟨⟨hsign, nulFree_formatWhole _⟩, by decide, nulFree_padded _ _⟩

theorem nulFree_escapeByte {c : UInt8} (h0 : c ≠ 0) : 0 ∉ escapeByte c := by
  revert c
  decide +kernel

theorem nulFree_printStringPtr {s : Text} (hs : 0 ∉ s) : 0 ∉ printStringPtr s := by
  have hbytes : 0 ∉ s.flatMap escapeByte := by
    intro h0
    obtain ⟨c, hc, hmem⟩ := List.mem_flatMap.mp h0
    exact nulFree_escapeByte (fun h => hs (h ▸ hc)) hmem
  rw [printStringPtr_eq hs, List.cons_append, List.mem_cons, List.mem_append, not_or, not_or]
  exact ⟨by decide, hbytes, by decide⟩

theorem nulFree_tabs (depth : ℕ) : 0 ∉ tabs depth := by
  intro h0
  exact absurd (List.eq_of_mem_replicate h0) (by decide)

/-! ### Items -/

mutual

theorem nulFree_printValue : ∀ (v : CJson), NulFree v → ∀ depth, 0 ∉ printValue depth v
  | .null, _, _ => by
    change 0 ∉ str "null"
    decide
  | .bool false, _, _ => by
    change 0 ∉ str "false"
    decide
  | .bool true, _, _ => by
    change 0 ∉ str "true"
    decide
  | .number d, _, _ => nulFree_printNumber d
  | .string _, hv, _ => nulFree_printStringPtr hv
  | .array vs, hv, depth => by
    have hitems := nulFree_printItems vs hv (depth + 1)
    simp only [printValue, List.mem_append, List.mem_cons, not_or]
    exact ⟨⟨by decide, hitems⟩, by decide⟩
  | .object ms, hv, depth => by
    have hmembers := nulFree_printMembers ms hv (depth + 1)
    simp only [printValue, List.mem_append, List.mem_cons, not_or]
    exact ⟨⟨⟨by decide, by decide, hmembers⟩, nulFree_tabs depth⟩, by decide⟩

theorem nulFree_printItems : ∀ (vs : List CJson), NulFreeItems vs →
    ∀ depth, 0 ∉ printItems depth vs
  | [], _, _ => List.not_mem_nil
  | v :: vs, hv, depth => by
    have hfirst := nulFree_printValue v hv.1 depth
    have hrest := nulFree_printItems vs hv.2 depth
    have hbetween : 0 ∉ (if vs.isEmpty then [] else [comma, space] : Text) := by
      split <;> decide
    rw [printItems, List.mem_append, List.mem_append, not_or, not_or]
    exact ⟨⟨hfirst, hbetween⟩, hrest⟩

theorem nulFree_printMembers : ∀ (ms : List (Text × CJson)), NulFreeMembers ms →
    ∀ depth, 0 ∉ printMembers depth ms
  | [], _, _ => List.not_mem_nil
  | (k, v) :: ms, hv, depth => by
    have hkey := nulFree_printStringPtr hv.1
    have hfirst := nulFree_printValue v hv.2.1 depth
    have hrest := nulFree_printMembers ms hv.2.2 depth
    have hbetween : 0 ∉ (if ms.isEmpty then [] else [comma] : Text) := by
      split <;> decide
    simp only [printMembers, List.mem_append, not_or]
    exact ⟨⟨⟨⟨⟨⟨nulFree_tabs depth, hkey⟩, by decide⟩, hfirst⟩, hbetween⟩, by decide⟩, hrest⟩

end

end KbPm
