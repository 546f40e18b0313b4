/-
The process list as such: the length that is recomputed from it, and deletion.

* `count_eq` — `get_process_list_count` is the place of the first empty name;
* `delProcessByAppName_absent`, `delProcessByAppName_found` — deletion takes the
  last match, and fails on a list without any empty name.
-/
import KbPm.Process

namespace KbPm

/-! ### The first empty name -/

theorem count_le {l : ProcessList} {k : ℕ} {p : Process} (hp : l[k]? = some p)
    (hname : p.appName = .empty) : getProcessListCount l ≤ k := by
  obtain ⟨hk, rfl⟩ := Vector.getElem?_eq_some_iff.mp hp
  by_contra hlt
  have hlt' : k < l.toList.findIdx fun p => p.appName.isEmpty := by
    rw [getProcessListCount] at hlt
    omega
  have h := List.not_of_lt_findIdx hlt'
  rw [Vector.getElem_toList] at h
  exact absurd (StrBuf.isEmpty_iff.mpr hname) (by simpa using h)

theorem named_of_lt_count {l : ProcessList} {k : ℕ} {p : Process} (hp : l[k]? = some p)
    (hk : k < getProcessListCount l) : p.appName ≠ .empty :=
  fun hname => absurd (count_le hp hname) (by omega)

theorem getProcessListCount_le (l : ProcessList) : getProcessListCount l ≤ listSize := by
  have h : l.toList.findIdx (fun p => p.appName.isEmpty) ≤ l.toList.length :=
    List.findIdx_le_length
  rw [Vector.length_toList] at h
  exact h

/-- The first slot behind the named ones has no name. -/
theorem unnamed_count {l : ProcessList} {p : Process}
    (hp : l[getProcessListCount l]? = some p) : p.appName = .empty := by
  obtain ⟨hlt, rfl⟩ := Vector.getElem?_eq_some_iff.mp hp
  have hlt' : l.toList.findIdx (fun p => p.appName.isEmpty) < l.toList.length := by
    rw [Vector.length_toList]
    exact hlt
  have h := List.findIdx_getElem (w := hlt')
  rw [Vector.getElem_toList] at h
  exact StrBuf.isEmpty_iff.mp h

/-- The length that is recomputed is `n` if the names before slot `n` are nonempty
and the one in it is not. -/
theorem count_eq {l : ProcessList} {n : ℕ} (hn : n ≤ listSize)
    (hin : ∀ (k : ℕ) p, k < n → l[k]? = some p → p.appName ≠ .empty)
    (hend : ∀ p, l[n]? = some p → p.appName = .empty) : getProcessListCount l = n := by
  have hle := getProcessListCount_le l
  rcases Nat.lt_trichotomy (getProcessListCount l) n with hlt | heq | hgt
  · have hget : l[getProcessListCount l]? = some l[getProcessListCount l] := by simp
    exact absurd (unnamed_count hget) (hin _ _ hlt hget)
  · exact heq
  · have hget : l[n]? = some l[n] := by simp
    exact absurd (count_le hget (hend _ hget)) (by omega)

theorem getProcessListCount_congr {l l' : ProcessList}
    (h : ∀ k : ℕ, (l[k]?).map Process.appName = (l'[k]?).map Process.appName) :
    getProcessListCount l = getProcessListCount l' := by
  have hle := getProcessListCount_le l'
  refine count_eq hle (fun k p hk hp hname => ?_) fun p hp => ?_
  · have hname' := h k
    rw [hp, Option.map_some] at hname'
    obtain ⟨q, hq, hqname⟩ := Option.map_eq_some_iff.mp hname'.symm
    exact named_of_lt_count hq hk (hqname.trans hname)
  · have hname' := h (getProcessListCount l')
    rw [hp, Option.map_some] at hname'
    obtain ⟨q, hq, hqname⟩ := Option.map_eq_some_iff.mp hname'.symm
    exact hqname.symm.trans (unnamed_count hq)

/-! ### Deletion -/

/-- What deletion makes of the processes that move down. -/
def Process.shifted (process : Process) : Process := { process with id := process.id - 1 }

section Delete

variable {l : ProcessList} {name : StrBuf}

theorem delProcessByAppName_absent
    (h : ∀ (k : ℕ) p, k < getProcessListCount l → l[k]? = some p → p.appName ≠ name) :
    delProcessByAppName l name = .ok (l, -1) := by
  obtain ⟨r, hr, hcase⟩ := Slots.findLast_spec (fun p : Process => decide (p.appName = name)) l none
    (show 0 + getProcessListCount l ≤ listSize by have := getProcessListCount_le l; omega)
  rcases hcase with ⟨rfl, -⟩ | ⟨j, x, rfl, -, hj, hx, hname, -⟩
  · simp only [delProcessByAppName, hr]
    rfl
  · exact absurd (by simpa using hname) (h j x (by omega) hx)

/-- The last match is deleted, and the processes behind it move down; the first
process without a name moves along. -/
theorem delProcessByAppName_found {k : ℕ} {p : Process} (hk : k < getProcessListCount l)
    (hp : l[k]? = some p) (hname : p.appName = name) :
    ∃ (j : ℕ) (q : Process), k ≤ j ∧ j < getProcessListCount l ∧ l[j]? = some q ∧ q.appName = name ∧
      (∀ (i : ℕ) r, j < i → i < getProcessListCount l → l[i]? = some r → r.appName ≠ name) ∧
      (getProcessListCount l < listSize →
        ∃ l', delProcessByAppName l name = .ok (l', 0) ∧ ∀ i : ℕ, l'[i]? =
          if i < j then l[i]? else if i < getProcessListCount l then (l[i + 1]?).map Process.shifted
          else if i = getProcessListCount l then (l[i]?).map Process.shifted else l[i]?) ∧
      (getProcessListCount l = listSize →
        delProcessByAppName l name = .error (.index listSize)) := by
  have hle := getProcessListCount_le l
  obtain ⟨r, hr, hcase⟩ := Slots.findLast_spec (fun p : Process => decide (p.appName = name)) l none
    (show 0 + getProcessListCount l ≤ listSize by omega)
  rcases hcase with ⟨rfl, hnone⟩ | ⟨j, q, rfl, -, hj, hq, hqname, hlast⟩
  · exact absurd hname (by simpa using hnone k p (by omega) (by omega) hp)
  · -- the last match is not before a known one
    have hkj : k ≤ j := by
      by_contra hlt
      exact absurd hname (by simpa using hlast k p (by omega) (by omega) hp)
    refine ⟨j, q, hkj, by omega, hq, by simpa using hqname,
      fun i r hi hi' hir => by simpa using hlast i r hi (by omega) hir, fun hlt => ?_,
        fun hfull => ?_⟩
    · obtain ⟨b, hb, hget⟩ := Slots.shiftDown_get Process.shifted l
        (show j + (getProcessListCount l - j) < listSize by omega)
      refine ⟨b, ?_, fun i => ?_⟩
      · simp only [delProcessByAppName, hr]
        change (slot (Slots.shiftDown Process.shifted (getProcessListCount l - j) j l) >>= _) = _
        rw [hb]
        rfl
      · rw [hget i, show j + (getProcessListCount l - j) = getProcessListCount l by omega]
        have hpos : 0 < getProcessListCount l - j := by omega
        simp only [hpos, and_true]
    · simp only [delProcessByAppName, hr]
      change (slot (Slots.shiftDown Process.shifted (getProcessListCount l - j) j l) >>= _) = _
      rw [Slots.shiftDown_overrun Process.shifted l (by omega) (by omega)]
      rfl

end Delete

end KbPm
