/-
The children of a process, by the walk over `/proc`.

* `Shows` — how the kernel shows a table of processes in `/proc`;
* `getChildPids_shows` — the walk finds the children whose pid is at most 32767.
-/
import KbPm.CJsonNumber
import KbPm.Lib.Subtree
import KbPm.Server

namespace KbPm

open Subtree

/-! ### Numbers -/

theorem isNumber_decimal {k : ℕ} {buffer : Text} (h : cstr buffer = decimal k) :
    isNumber buffer = true := by
  rw [isNumber, h, (decimal_digits k).1]

theorem atoi_decimal {k : ℕ} {buffer : Text} (h : cstr buffer = decimal k) (hk : (k : ℤ) < 2 ^ 31) :
    (atoi buffer).toInt = k := by
  have hmin : min (k : ℤ) (2 ^ 63 - 1) = k := min_eq_left (by omega)
  rw [atoi, h, (decimal_digits k).2, hmin, Int32.toInt_ofInt_of_le (by omega) (by omega)]

theorem zero_notMem_decimal (k : ℕ) : 0 ∉ decimal (k : ℤ) := by
  intro h0
  have hdigit := List.all_eq_true.mp (decimal_digits k).1 0 h0
  simp [isDigit] at hdigit

theorem cstr_decimal (k : ℕ) : cstr (decimal (k : ℤ)) = decimal k :=
  cstr_of_notMem (zero_notMem_decimal k)

theorem decimal_ne_nil (k : ℕ) : decimal (k : ℤ) ≠ [] := by
  rw [decimal_natCast]
  split
  · simp
  · rename_i hk
    obtain ⟨c, ds, hds, -⟩ := digitsOf_cons hk
    simp [hds]

theorem decimal_inj {j k : ℕ} (h : decimal (j : ℤ) = decimal (k : ℤ)) : j = k := by
  rw [← (decimal_digits j).2, h, (decimal_digits k).2]

/-! ### What the kernel shows -/

/-- The line of a status file that names the parent. -/
def parentLine (ppid : ℕ) : Text := str "PPid:" ++ [tab] ++ decimal ppid ++ [newline]

/-- `/proc` shows a table of pids and the pids of the parents: a directory for every process, whose
status file names the parent, and other entries, whose names are no numbers. -/
inductive Shows : List (ℤ × ℤ) → List DirEntry → Prop
  | nil : Shows [] []
  | process {pid ppid : ℕ} {lines : List Text} {table : List (ℤ × ℤ)} {proc : List DirEntry}
    (hstatus : lines.find? (hasTag (str "PPid")) = some (parentLine ppid)) (h : Shows table proc) :
    Shows (((pid : ℤ), (ppid : ℤ)) :: table) (⟨decimal pid, true, some lines⟩ :: proc)
  | other {entry : DirEntry} {table : List (ℤ × ℤ)} {proc : List DirEntry}
    (hother : (entry.isDir && isNumber entry.name) = false) (h : Shows table proc) :
    Shows table (entry :: proc)

/-- A `/proc` that shows a table, without other entries. -/
def procDir (table : List (ℤ × ℤ)) : List DirEntry :=
  table.map fun link => ⟨decimal link.1, true, some [str "Name:\tsh\n", parentLine link.2.toNat]⟩

theorem shows_procDir {table : List (ℤ × ℤ)} (h : ∀ link ∈ table, 0 ≤ link.1 ∧ 0 ≤ link.2) :
    Shows table (procDir table) := by
  induction table with
  | nil => exact .nil
  | cons link table ih =>
    obtain ⟨pid, ppid⟩ := link
    obtain ⟨hpid, hppid⟩ := h _ List.mem_cons_self
    lift pid to ℕ using hpid
    lift ppid to ℕ using hppid
    refine .process (?_ : [str "Name:\tsh\n", parentLine ppid].find? _ = _)
      (ih fun link hlink => h link (List.mem_cons_of_mem _ hlink))
    have hname : hasTag (str "PPid") (str "Name:\tsh\n") = false := by decide +kernel
    have htag : str "PPid:" = str "PPid" ++ str ":" := by decide +kernel
    have hparent : hasTag (str "PPid") (parentLine ppid) = true := by
      rw [hasTag, parentLine, htag, List.append_assoc, List.append_assoc, List.append_assoc,
        List.take_left, beq_self_eq_true]
    -- the tag is on the second line
    rw [List.find?_cons_of_neg (by simp [hname]), List.find?_cons_of_pos hparent]

theorem parse_parentLine {ppid : ℕ} {lines : List Text} (pid : ℤ)
    (hstatus : lines.find? (hasTag (str "PPid")) = some (parentLine ppid)) :
    parseProcStatusValByTag (fun _ => some lines) pid (str "PPid") = .ok (decimal ppid) := by
  have hnul : 0 ∉ parentLine ppid := by
    have h0 := zero_notMem_decimal ppid
    simp only [parentLine, List.mem_append, not_or]
    exact ⟨⟨⟨by decide, by decide⟩, h0⟩, by decide⟩
  obtain ⟨c, ds, hds⟩ := List.exists_cons_of_ne_nil (decimal_ne_nil ppid)
  have hdigit : isDigit c = true := List.all_eq_true.mp (decimal_digits ppid).1 c (by simp [hds])
  have htag : ∀ b ∈ str "PPid:" ++ [tab], (!isDigit b) = true := by decide +kernel
  -- the value is what follows the tag and a tab
  have hline : (cstr (parentLine ppid)).dropLast.dropWhile (fun c => !isDigit c) = c :: ds := by
    rw [cstr_of_notMem hnul, parentLine, List.dropLast_concat, List.dropWhile_append_of_pos htag,
      hds, List.dropWhile_cons_of_neg (by simp [hdigit])]
  simp only [parseProcStatusValByTag, hstatus, hline, hds]

/-- The processes that the walk recognises. -/
def visible (table : List (ℤ × ℤ)) : List (ℤ × ℤ) := table.filter fun link => link.1 ≤ 32767

/-- The walk takes the directory of a process for one, if its pid is at most 32767. -/
theorem counts_decimal {pid : ℕ} (status : Option (List Text)) (hpos : 0 < (pid : ℤ))
    (hmax : (pid : ℤ) ≤ 4194304) :
    (⟨decimal pid, true, status⟩ : DirEntry).counts = decide ((pid : ℤ) ≤ 32767) := by
  have hname : (atoi (decimal (pid : ℤ))).toInt = pid := atoi_decimal (cstr_decimal pid) (by omega)
  have hnumber : isNumber (decimal (pid : ℤ)) = true := isNumber_decimal (cstr_decimal pid)
  simp only [DirEntry.counts, hnumber, hname, Bool.and_self, Bool.true_and]
  exact decide_eq_decide.mpr (and_iff_right hpos)

theorem getChildPidsFrom_shows {table : List (ℤ × ℤ)} {proc : List DirEntry} (h : Shows table proc)
    (hpids : ∀ link ∈ table, 0 < link.1 ∧ link.1 ≤ 4194304) {parent : ℕ} {pids : List ℤ}
    (hfits : (pids ++ children (visible table) parent).length ≤ childProcessLen) :
    getChildPidsFrom parent proc pids = .ok (pids ++ children (visible table) parent) := by
  induction h generalizing pids with
  | nil => simp [getChildPidsFrom, visible, children]
  | @process pid ppid lines table proc hstatus _ ih =>
    obtain ⟨hpos, hmax⟩ := hpids _ List.mem_cons_self
    have hrest : ∀ link ∈ table, 0 < link.1 ∧ link.1 ≤ 4194304 :=
      fun link hlink => hpids link (List.mem_cons_of_mem _ hlink)
    have hname : (atoi (decimal (pid : ℤ))).toInt = pid :=
      atoi_decimal (cstr_decimal pid) (by omega)
    by_cases hvisible : (pid : ℤ) ≤ 32767
    · have hcounts : (⟨decimal pid, true, some lines⟩ : DirEntry).counts = true := by
        rw [counts_decimal _ hpos hmax, decide_eq_true hvisible]
      have htable : visible (((pid : ℤ), (ppid : ℤ)) :: table) =
          ((pid : ℤ), (ppid : ℤ)) :: visible table := by
        rw [visible, List.filter_cons, if_pos (by simpa using hvisible)]
        rfl
      -- a number is not `ERR_RESULT`
      have hbuf : decimal (ppid : ℤ) ≠ errResult := by
        intro heq
        have hdigits := (decimal_digits ppid).1
        rw [heq] at hdigits
        exact absurd hdigits (by decide)
      rw [htable, children_cons] at hfits ⊢
      rw [getChildPidsFrom, if_pos hcounts]
      simp only [parse_parentLine _ hstatus, hname]
      change (if decimal (ppid : ℤ) ≠ errResult ∧ decimal (parent : ℤ) = decimal ppid then _ else
        _) = _
      by_cases hparent : ppid = parent
      · subst hparent
        rw [if_pos rfl] at hfits ⊢
        rw [List.append_cons] at hfits
        have hroom : pids.length < childProcessLen := by
          simp only [List.length_append, List.length_cons, List.length_nil] at hfits
          omega
        have hfound := ih hrest hfits
        rw [List.append_assoc] at hfound
        rw [if_pos ⟨hbuf, rfl⟩, if_pos hroom]
        exact hfound
      · have hother : ¬(ppid : ℤ) = parent := by exact_mod_cast hparent
        rw [if_neg hother] at hfits ⊢
        rw [if_neg fun h => hparent (decimal_inj h.2).symm]
        exact ih hrest hfits
    · -- the walk skips the process
      have hcounts : (⟨decimal pid, true, some lines⟩ : DirEntry).counts = false := by
        rw [counts_decimal _ hpos hmax, decide_eq_false hvisible]
      have htable : visible (((pid : ℤ), (ppid : ℤ)) :: table) = visible table := by
        rw [visible, List.filter_cons, if_neg (by simpa using hvisible)]
        rfl
      rw [htable] at hfits ⊢
      rw [getChildPidsFrom, if_neg (by simp [hcounts])]
      exact ih hrest hfits
  | @other entry table proc hother _ ih =>
    have hcounts : entry.counts = false := by simp [DirEntry.counts, hother]
    rw [getChildPidsFrom, if_neg (by simp [hcounts])]
    exact ih hpids hfits

/-- A process that the walk recognises has a directory that it takes for one. -/
theorem Shows.counts {table : List (ℤ × ℤ)} {proc : List DirEntry} (h : Shows table proc)
    {link : ℤ × ℤ} (hlink : link ∈ table) (hpos : 0 < link.1) (hle : link.1 ≤ 32767) :
    ∃ entry ∈ proc, entry.counts = true := by
  induction h with
  | nil => cases hlink
  | @process pid ppid lines table proc hstatus _ ih =>
    rcases List.mem_cons.mp hlink with rfl | hlink
    · refine ⟨_, List.mem_cons_self, ?_⟩
      rw [counts_decimal _ hpos (hle.trans (by norm_num)), decide_eq_true hle]
    · obtain ⟨entry, hentry, hcounts⟩ := ih hlink
      exact ⟨entry, List.mem_cons_of_mem _ hentry, hcounts⟩
  | other hother _ ih =>
    obtain ⟨entry, hentry, hcounts⟩ := ih hlink
    exact ⟨entry, List.mem_cons_of_mem _ hentry, hcounts⟩

/-- The walk finds the children among the processes that it recognises. -/
theorem getChildPids_shows {table : List (ℤ × ℤ)} {proc : List DirEntry} (h : Shows table proc)
    (hpids : ∀ link ∈ table, 0 < link.1 ∧ link.1 ≤ 4194304) {parent : ℕ}
    (hfits : (children (visible table) parent).length ≤ childProcessLen) :
    getChildPids parent (some proc) = .ok (children (visible table) parent) :=
  getChildPidsFrom_shows h hpids hfits

end KbPm
