/-
What the service starts with.

* `parseProcessCJson_keeps` — decoding writes four fields of a slot;
* `parseSlots_ok` — a config fills the slots from 0 on, and no others;
* `Loaded`, `loaded_of_path` — the list that is loaded from a file;
* `serviceLoad_pids` — no slot of it has a pid.
-/
import KbPm.Entries
import KbPm.Bounds

namespace KbPm

/-- `q` is `p` up to the fields that a config gives. -/
def Process.Filled (p q : Process) : Prop :=
  q = { p with appName := q.appName, cmd := q.cmd, dir := q.dir, isRunning := q.isRunning }

theorem parseProcessCJson_keeps {p q : Process} {json : CJson} {res : ℤ}
    (h : parseProcessCJson p json = .ok (q, res)) : p.Filled q := by
  unfold parseProcessCJson at h
  split at h
  · cases h
    rfl
  obtain ⟨b, -, h⟩ := Slots.bind_eq_ok h
  split at h
  · cases h
    rfl
  obtain ⟨c, -, h⟩ := Slots.bind_eq_ok h
  split at h
  · cases h
    rfl
  obtain ⟨d, -, h⟩ := Slots.bind_eq_ok h
  split at h <;>
  · cases h
    rfl

/-- The slots from `i` on are filled one by one. -/
theorem parseSlots_ok {l l' : ProcessList} {i : ℕ} {n : ℕ} {items : List CJson} (hi : i ≤ listSize)
    (h : parseSlots l i items = .ok (l', (n : ℤ))) :
    i ≤ n ∧ n ≤ listSize ∧ ∀ k : ℕ,
      if i ≤ k ∧ k < n then ∃ p q, l[k]? = some p ∧ l'[k]? = some q ∧ p.Filled q
      else l'[k]? = l[k]? := by
  induction items generalizing l i with
  | nil =>
    cases h
    refine ⟨le_refl _, hi, fun k => ?_⟩
    rw [if_neg (by omega)]
  | cons item items ih =>
    rcases Nat.eq_or_lt_of_le hi with rfl | hlt
    · -- behind the array nothing is decoded
      rcases parseSlot_behind l item with ⟨-, hs⟩ | ⟨-, hs | hs⟩
      · rw [parseSlots_error hs] at h
        cases h
      · rw [parseSlots_refused hs] at h
        cases h
      · rw [parseSlots_error hs] at h
        cases h
    · have hp : l[i]? = some l[i] := by simp
      rcases parseProcessCJson_cases l[i] item with ⟨-, q, hq⟩ | ⟨-, ⟨q, hq⟩ | ⟨f, -, hq⟩⟩
      · have hs : parseSlot l i item = .ok (l.setIfInBounds i q, 0) := by
          rw [parseSlot, hp]
          simp only [hq]
          rfl
        rw [parseSlots_cons hs] at h
        obtain ⟨hle, hn, hget⟩ := ih (by omega) h
        refine ⟨by omega, hn, fun k => ?_⟩
        have hk := hget k
        rw [Vector.getElem?_setIfInBounds] at hk
        by_cases hki : i = k
        · subst hki
          rw [if_neg (by omega), if_pos rfl, if_pos hlt] at hk
          rw [if_pos (by omega)]
          exact ⟨_, q, hp, hk, parseProcessCJson_keeps hq⟩
        · rw [if_neg hki] at hk
          by_cases hin : i + 1 ≤ k ∧ k < n
          · rw [if_pos hin] at hk
            rw [if_pos (by omega)]
            exact hk
          · rw [if_neg hin] at hk
            rw [if_neg (by omega)]
            exact hk
      · have hs : parseSlot l i item = .ok (l.setIfInBounds i q, -1) := by
          rw [parseSlot, hp]
          simp only [hq]
          rfl
        rw [parseSlots_refused hs] at h
        cases h
      · have hs : parseSlot l i item = .error f := by
          rw [parseSlot, hp]
          simp only [hq]
          rfl
        rw [parseSlots_error hs] at h
        cases h

/-- A list of `n` processes that have not been started, and no name behind them. -/
structure Loaded (l : ProcessList) (n : ℕ) : Prop where
  inside : n ≤ listSize
  unnamed : ∀ (k : ℕ) p, n ≤ k → l[k]? = some p → p.appName = .empty
  idle : ∀ (k : ℕ) p, l[k]? = some p → p.pid = 0 ∧ p.startTime = 0

theorem loaded_zero : Loaded .zero 0 :=
  ⟨Nat.zero_le _, fun _ _ _ hp => zero_get hp ▸ rfl, fun _ _ hp => zero_get hp ▸ ⟨rfl, rfl⟩⟩

theorem Loaded.tidy {s : Server} (h : Loaded s.processList s.processCount) : Tidy s :=
  ⟨h.inside, h.unnamed⟩

theorem serviceLoad_of_parse {file : Option Text} {junk : Text} {l : ProcessList} {n : ℕ}
    (h : parseProcessListFromPath file junk .zero = .ok (l, (n : ℤ))) :
    serviceLoad file junk = .ok (l, n) := by
  rw [serviceLoad, h]
  rfl

/-- A config that is loaded leaves such a list. -/
theorem loaded_of_path {file : Option Text} {junk : Text} {l : ProcessList} {n : ℕ}
    (h : parseProcessListFromPath file junk .zero = .ok (l, (n : ℤ))) : Loaded l n := by
  unfold parseProcessListFromPath at h
  split at h
  · cases h
  split at h
  · cases h
  rcases parseProcessList_ok h with ⟨-, -, hres⟩ | ⟨json, -, h⟩
  · cases hres
  obtain ⟨-, hn, hget⟩ := parseSlots_ok (Nat.zero_le _) h
  -- slots behind the items are zero, and the others get four fields only
  refine ⟨hn, fun k p hk hp => ?_, fun k p hp => ?_⟩
  · have hk' := hget k
    rw [if_neg (by omega), hp] at hk'
    rw [zero_get hk'.symm]
    rfl
  · have hk := hget k
    split at hk
    · obtain ⟨r, q, hr, hq, hfilled⟩ := hk
      obtain rfl := Option.some_inj.mp (hp.symm.trans hq)
      rw [zero_get hr] at hfilled
      rw [hfilled]
      exact ⟨rfl, rfl⟩
    · rw [hp] at hk
      rw [zero_get hk.symm]
      exact ⟨rfl, rfl⟩

theorem parseSlots_result {l l' : ProcessList} {i : ℕ} {items : List CJson} {res : ℤ}
    (h : parseSlots l i items = .ok (l', res)) : res = -1 ∨ ∃ n : ℕ, res = n := by
  induction items generalizing l i with
  | nil =>
    cases h
    exact Or.inr ⟨i, rfl⟩
  | cons item items ih =>
    rw [parseSlots] at h
    obtain ⟨⟨l₁, res₁⟩, -, h⟩ := Slots.bind_eq_ok h
    by_cases hres : res₁ = -1
    · simp only [hres, if_true] at h
      cases h
      exact Or.inl rfl
    · simp only [hres, if_false] at h
      exact ih h

theorem parsePath_result {file : Option Text} {junk : Text} {l l' : ProcessList} {res : ℤ}
    (h : parseProcessListFromPath file junk l = .ok (l', res)) : res = -1 ∨ ∃ n : ℕ, res = n := by
  unfold parseProcessListFromPath at h
  split at h
  · cases h
    exact Or.inl rfl
  split at h
  · cases h
    exact Or.inl rfl
  rcases parseProcessList_ok h with ⟨-, -, hres⟩ | ⟨json, -, h⟩
  · exact Or.inl hres
  · exact parseSlots_result h

/-- The service starts with what it has loaded, or with no entry. -/
theorem serviceLoad_cases {file : Option Text} {junk : Text} {l : ProcessList} {n : ℕ}
    (h : serviceLoad file junk = .ok (l, n)) : Loaded l n ∨ n = 0 := by
  rw [serviceLoad] at h
  obtain ⟨⟨l₁, res⟩, hparse, h⟩ := Slots.bind_eq_ok h
  by_cases hres : res = -1
  · simp only [hres, if_true] at h
    cases h
    exact Or.inr rfl
  · simp only [hres, if_false] at h
    cases h
    obtain ⟨n, rfl⟩ := (parsePath_result hparse).resolve_left hres
    exact Or.inl (loaded_of_path hparse)

/-- Whatever becomes of a config, it gives no slot a pid. -/
theorem parseSlots_pids {l l' : ProcessList} {i : ℕ} {items : List CJson} {res : ℤ}
    (h : parseSlots l i items = .ok (l', res)) (k : ℕ) :
    (l'[k]?).map Process.pid = (l[k]?).map Process.pid := by
  induction items generalizing l i with
  | nil =>
    cases h
    rfl
  | cons item items ih =>
    rw [parseSlots] at h
    obtain ⟨⟨l₁, res₁⟩, hslot, h⟩ := Slots.bind_eq_ok h
    have hkept : (l₁[k]?).map Process.pid = (l[k]?).map Process.pid := by
      rw [parseSlot] at hslot
      cases hp : l[i]? with
      | some p =>
        simp only [hp] at hslot
        obtain ⟨⟨q, res₂⟩, hjson, hslot⟩ := Slots.bind_eq_ok hslot
        cases hslot
        have hfilled := parseProcessCJson_keeps hjson
        rw [Vector.getElem?_setIfInBounds]
        split
        · rename_i hik
          subst hik
          rw [if_pos (Vector.getElem?_eq_some_iff.mp hp).1, hp, Option.map_some, Option.map_some,
            hfilled]
        · rfl
      | none =>
        simp only [hp] at hslot
        split at hslot
        · cases hslot
          rfl
        · split at hslot <;> cases hslot
    by_cases hres : res₁ = -1
    · simp only [hres, if_true] at h
      cases h
      exact hkept
    · simp only [hres, if_false] at h
      exact (ih h).trans hkept

/-- Nothing is started when the service starts. -/
theorem serviceLoad_pids {file : Option Text} {junk : Text} {l : ProcessList} {n : ℕ}
    (h : serviceLoad file junk = .ok (l, n)) (k : ℕ) {p : Process} (hp : l[k]? = some p) :
    p.pid = 0 := by
  rw [serviceLoad] at h
  obtain ⟨⟨l₁, res⟩, hparse, h⟩ := Slots.bind_eq_ok h
  have hzero : (l₁[k]?).map Process.pid = (ProcessList.zero[k]?).map Process.pid := by
    unfold parseProcessListFromPath at hparse
    split at hparse
    · cases hparse
      rfl
    split at hparse
    · cases hparse
      rfl
    rcases parseProcessList_ok hparse with ⟨-, rfl, -⟩ | ⟨json, -, hslots⟩
    · rfl
    · exact parseSlots_pids hslots k
  have hl : l = l₁ := by
    simp only at h
    split at h <;>
    · cases h
      rfl
  rw [← hl, hp, zero_slot (Vector.getElem?_eq_some_iff.mp hp).1] at hzero
  exact Option.some_inj.mp hzero

end KbPm
