/-
The status files of processes that may be gone.

`parse_proc_status_val_by_tag` reads from the file that it has tried to open.

* `parse_null`, `parse_yields` — a call is well if the file is there, and only then;
* `status_null` — a status request, which asks for the file of every running entry;
* `vanishes_of_null`, `null_of_vanishes` — the walk, on which processes go between `readdir` and
  `fopen`;
* `Walk.misses_of_kill`, `Walk.kill_of_misses` — a kill, which makes such walks.
-/
import KbPm.Persistence
import KbPm.ProcStatus
import KbPm.StatusText

namespace KbPm

open Trace

/-! ### A call -/

/-- The first line with the tag, if there is one, has a number. -/
def Numbered (tag : Text) (lines : List Text) : Prop :=
  ∀ line, lines.find? (hasTag tag) = some line → ∃ c ∈ (cstr line).dropLast, isDigit c = true

/-- The value of a tag: what is on its first line from the first digit on, or `ERR_RESULT` when
there is no such line. -/
inductive Yields (tag : Text) (lines : List Text) : Text → Prop
  | absent (h : lines.find? (hasTag tag) = none) : Yields tag lines errResult
  | found {line front digits : Text} {c : UInt8} (h : lines.find? (hasTag tag) = some line)
    (hline : (cstr line).dropLast = front ++ c :: digits) (hfront : ∀ b ∈ front, isDigit b = false)
    (hc : isDigit c = true) : Yields tag lines (c :: digits)

section Call

variable {procStatus : ℤ → Option (List Text)} {pid : ℤ} {tag : Text}

theorem parse_null :
    parseProcStatusValByTag procStatus pid tag = .error .nullFile ↔ procStatus pid = none := by
  rw [parseProcStatusValByTag]
  cases procStatus pid with
  | none => exact iff_of_true rfl rfl
  | some lines =>
    refine iff_of_false (fun h => ?_) (by simp)
    cases hfind : lines.find? (hasTag tag) with
    | none => simp [hfind] at h
    | some line =>
      simp only [hfind] at h
      split at h <;> cases h

theorem parse_yields {lines : List Text} (hfile : procStatus pid = some lines)
    (hlines : Numbered tag lines) :
    ∃ value, parseProcStatusValByTag procStatus pid tag = .ok value ∧ Yields tag lines value := by
  rw [parseProcStatusValByTag]
  simp only [hfile]
  cases hfind : lines.find? (hasTag tag) with
  | none => exact ⟨errResult, rfl, .absent hfind⟩
  | some line =>
    obtain ⟨c, hmem, hc⟩ := hlines line hfind
    have hsplit := List.takeWhile_append_dropWhile (p := fun c => !isDigit c)
      (l := (cstr line).dropLast)
    simp only
    -- there is a digit on the line, so it is not skipped to its end
    cases hdrop : (cstr line).dropLast.dropWhile fun c => !isDigit c with
    | nil =>
      have hnone := List.dropWhile_eq_nil_iff.mp hdrop c hmem
      simp [hc] at hnone
    | cons d digits =>
      rw [hdrop] at hsplit
      refine ⟨d :: digits, rfl, .found hfind hsplit.symm (fun b hb => ?_) ?_⟩
      · simpa using List.mem_takeWhile_imp hb
      · have hd := List.head_dropWhile_not (fun c => !isDigit c)
          (show (cstr line).dropLast.dropWhile _ ≠ [] by simp [hdrop])
        simpa [hdrop] using hd

/-- A call yields the value exactly if there is a file. -/
theorem parse_ok (hlines : ∀ lines, procStatus pid = some lines → Numbered tag lines) :
    (∃ lines value, procStatus pid = some lines ∧
      parseProcStatusValByTag procStatus pid tag = .ok value ∧
      Yields tag lines value) ↔ procStatus pid ≠ none := by
  constructor
  · rintro ⟨lines, -, hfile, -⟩
    rw [hfile]
    simp
  · intro hfile
    obtain ⟨lines, hlines'⟩ := Option.ne_none_iff_exists'.mp hfile
    obtain ⟨value, hvalue, hyields⟩ := parse_yields hlines' (hlines lines hlines')
    exact ⟨lines, value, hlines', hvalue, hyields⟩

end Call

/-! ### A status request -/

/-- A status file of the kernel, line by line as `fgets` reads it. -/
structure StatusFile (lines : List Text) : Prop where
  numbered : Numbered (str "VmHWM") lines
  short : ∀ line ∈ lines, line.length < strBufferSize

section Status

variable {procStatus : ℤ → Option (List Text)}

theorem getMemByPid_ok {pid : ℤ} {lines : List Text} (hfile : procStatus pid = some lines)
    (h : StatusFile lines) : ∃ memory, getMemByPid procStatus pid = .ok memory := by
  have hcopy : ∀ {src : Text}, src.length < strBufferSize → ∃ memory, strcpy src = .ok memory := by
    intro src hsrc
    rw [strcpy, dif_pos ((length_cstr_le src).trans_lt hsrc)]
    exact ⟨_, rfl⟩
  obtain ⟨value, hvalue, hyields⟩ := parse_yields hfile h.numbered
  rw [getMemByPid, hvalue, Slots.ok_bind]
  by_cases herr : value = errResult
  · rw [if_pos herr]
    exact hcopy (by decide +kernel)
  · rw [if_neg herr]
    -- the value is a part of the line, and the line is short
    cases hyields with
    | absent => exact absurd rfl herr
    | @found line front digits c hfind hline =>
      have hlength := congrArg List.length hline
      have hline' := length_cstr_le line
      have hshort := h.short line (List.mem_of_find?_eq_some hfind)
      simp only [List.length_dropLast, List.length_append, List.length_cons] at hlength
      exact hcopy (by rw [List.length_cons]; omega)

theorem createProcessCJsonWithStatus_null {p : Process} :
    createProcessCJsonWithStatus procStatus p = .error .nullFile ↔
      p.isRunning ≠ 0 ∧ procStatus p.pid = none := by
  by_cases hrun : p.isRunning = 0
  · rw [createProcessCJsonWithStatus_stopped hrun]
    exact iff_of_false (by simp) fun h => h.1 hrun
  · -- the copy of the value can overflow, but it reads from no file
    have hmem : getMemByPid procStatus p.pid = .error .nullFile ↔ procStatus p.pid = none := by
      have hnull : parseProcStatusValByTag procStatus p.pid (str "VmHWM") = .error .nullFile ↔
          procStatus p.pid = none := parse_null
      rw [← hnull, getMemByPid]
      cases parseProcStatusValByTag procStatus p.pid (str "VmHWM") with
      | error f => simp [bind, Except.bind]
      | ok memory =>
        refine iff_of_false (fun h => ?_) (by simp)
        rw [Slots.ok_bind] at h
        split at h <;> rw [strcpy] at h <;> split at h <;> cases h
    rw [createProcessCJsonWithStatus_running hrun, ← hmem, and_iff_right hrun]
    cases getMemByPid procStatus p.pid with
    | error f => simp [Except.map]
    | ok memory => simp [Except.map]

/-- Nothing else goes wrong with the files of the kernel. -/
theorem createProcessCJsonWithStatus_only {p : Process}
    (hfiles : ∀ lines, procStatus p.pid = some lines → StatusFile lines) {f : Fault}
    (h : createProcessCJsonWithStatus procStatus p = .error f) : f = .nullFile := by
  by_cases hrun : p.isRunning = 0
  · rw [createProcessCJsonWithStatus_stopped hrun] at h
    cases h
  · cases hfile : procStatus p.pid with
    | none =>
      rw [createProcessCJsonWithStatus_null.mpr ⟨hrun, hfile⟩] at h
      cases h
      rfl
    | some lines =>
      obtain ⟨memory, hmemory⟩ := getMemByPid_ok hfile (hfiles lines hfile)
      rw [createProcessCJsonWithStatus_running hrun, hmemory] at h
      cases h

variable {s : Server}

/-- The status text asks for the files of the running entries. -/
theorem getProcessListStatus_null (hn : s.processCount ≤ listSize) :
    (∃ t, getProcessListStatus s = .error .nullFile t) ↔
      s.entries.mapM (createProcessCJsonWithStatus s.kernel.answers.procStatus) =
        .error .nullFile := by
  obtain ⟨t, ht⟩ := getProcessListStatus_eq hn
  rw [ht, createProcessListJsonStrWithStatus]
  cases s.entries.mapM (createProcessCJsonWithStatus s.kernel.answers.procStatus) with
  | error f =>
    constructor
    · rintro ⟨u, hu⟩
      cases hu
      rfl
    · intro h
      cases h
      exact ⟨t, rfl⟩
  | ok pairs =>
    refine iff_of_false ?_ (by simp)
    rintro ⟨u, hu⟩
    rw [Slots.ok_bind] at hu
    change (if _ then _ else _) = _ at hu
    split at hu <;> cases hu

theorem status_null (hn : s.processCount ≤ listSize)
    (hfiles : ∀ pid lines, s.kernel.answers.procStatus pid = some lines → StatusFile lines) :
    (∃ t, getProcessListStatus s = .error .nullFile t) ↔
      ∃ p ∈ s.entries, p.isRunning ≠ 0 ∧ s.kernel.answers.procStatus p.pid = none := by
  rw [getProcessListStatus_null hn,
    Slots.mapM_eq_error fun p _ f => createProcessCJsonWithStatus_only (hfiles p.pid)]
  exact exists_congr fun p => and_congr_right fun _ => createProcessCJsonWithStatus_null

/-- Whatever the files hold, it is a missing one. -/
theorem missing_of_null (hn : s.processCount ≤ listSize) {t : Server}
    (h : getProcessListStatus s = .error .nullFile t) :
    ∃ p ∈ s.entries, p.isRunning ≠ 0 ∧ s.kernel.answers.procStatus p.pid = none := by
  obtain ⟨p, hp, herror⟩ := Slots.mapM_error ((getProcessListStatus_null hn).mp ⟨t, h⟩)
  exact ⟨p, hp, createProcessCJsonWithStatus_null.mp herror⟩

theorem handleRequest_status {request : Request}
    (h : readCommand (s.commandBuffer request) = .status) :
    handleRequest request s = getProcessListStatus s := by
  have hread : (get : ServerM Server) s = .ok s s := rfl
  rw [handleRequest, bind_ok hread, h]

end Status

/-! ### The walk -/

/-- The walk takes the entry for a child. -/
def DirEntry.isChildOf (parentPid : ℤ) (entry : DirEntry) : Bool :=
  entry.counts &&
    match parseProcStatusValByTag (fun _ => entry.status) (atoi entry.name).toInt (str "PPid") with
    | .ok buf => buf ≠ errResult ∧ decimal parentPid = buf
    | .error _ => false

/-- With `n` children found, the walk comes to a process whose file is gone: there is room for the
children before it. -/
def VanishesFrom (parentPid : ℤ) (n : ℕ) (dir : List DirEntry) : Prop :=
  ∃ before entry rest, dir = before ++ entry :: rest ∧ entry.counts = true ∧ entry.status = none ∧
    (∀ e ∈ before, e.counts = true → e.status ≠ none) ∧
    n + before.countP (DirEntry.isChildOf parentPid) ≤ childProcessLen

abbrev Vanishes (parentPid : ℤ) (dir : List DirEntry) : Prop := VanishesFrom parentPid 0 dir

section Walk

variable {parentPid : ℤ} {n : ℕ} {entry : DirEntry} {dir : List DirEntry}

theorem vanishes_here (hn : n ≤ childProcessLen) (hcounts : entry.counts = true)
    (hstatus : entry.status = none) :
    VanishesFrom parentPid n (entry :: dir) :=
  ⟨[], entry, dir, rfl, hcounts, hstatus, by simp, by simpa using hn⟩

theorem vanishes_cons (h : entry.counts = true → entry.status ≠ none) :
    VanishesFrom parentPid n (entry :: dir) ↔
      VanishesFrom parentPid (if entry.isChildOf parentPid then n + 1 else n) dir := by
  -- the head counts as a child that was found before
  have hcount : ∀ before : List DirEntry,
      n + (entry :: before).countP (DirEntry.isChildOf parentPid) =
      (if entry.isChildOf parentPid then n + 1 else n) + before.countP
        (DirEntry.isChildOf parentPid) := by
    intro before
    rw [List.countP_cons]
    split <;> omega
  constructor
  · rintro ⟨before, e, rest, hdir, hcounts, hstatus, hopen, hroom⟩
    cases before with
    | nil =>
      obtain ⟨rfl, -⟩ := List.cons_eq_cons.mp hdir
      exact absurd hstatus (h hcounts)
    | cons e' before =>
      obtain ⟨rfl, rfl⟩ := List.cons_eq_cons.mp hdir
      rw [hcount] at hroom
      exact ⟨before, e, rest, rfl, hcounts, hstatus, fun e he =>
        hopen e (List.mem_cons_of_mem _ he), hroom⟩
  · rintro ⟨before, e, rest, rfl, hcounts, hstatus, hopen, hroom⟩
    rw [← hcount] at hroom
    refine ⟨entry :: before, e, rest, rfl, hcounts, hstatus, fun e' he => ?_, hroom⟩
    rcases List.mem_cons.mp he with rfl | he
    · exact h
    · exact hopen e' he

theorem isChildOf_skipped (h : entry.counts ≠ true) : entry.isChildOf parentPid = false := by
  rw [DirEntry.isChildOf, Bool.eq_false_iff.mpr h, Bool.false_and]

/-- An entry whose file has been read is one child more, or it is not. -/
theorem getChildPidsFrom_value {buf : Text} (h : entry.counts = true)
    (hbuf : parseProcStatusValByTag (fun _ => entry.status) (atoi entry.name).toInt
      (str "PPid") = .ok buf) (pids : List ℤ) :
    getChildPidsFrom parentPid (entry :: dir) pids =
      if entry.isChildOf parentPid then
        if pids.length < childProcessLen then
          getChildPidsFrom parentPid dir (pids ++ [(atoi entry.name).toInt])
        else .error .overrun
      else getChildPidsFrom parentPid dir pids := by
  have hchild : entry.isChildOf parentPid =
      decide (buf ≠ errResult ∧ decimal parentPid = buf) := by
    rw [DirEntry.isChildOf, h, hbuf, Bool.true_and]
  rw [getChildPidsFrom, if_pos h, hchild]
  simp only [hbuf, Slots.ok_bind, decide_eq_true_eq]

theorem vanishes_of_null {pids : List ℤ}
    (h : getChildPidsFrom parentPid dir pids = .error .nullFile)
    (hpids : pids.length ≤ childProcessLen) : VanishesFrom parentPid pids.length dir := by
  induction dir generalizing pids with
  | nil => cases h
  | cons entry dir ih =>
    by_cases hcounts : entry.counts = true
    · cases hbuf : parseProcStatusValByTag (fun _ => entry.status) (atoi entry.name).toInt
        (str "PPid") with
      | error f =>
        rw [getChildPidsFrom_fails hcounts hbuf] at h
        obtain rfl : f = .nullFile := Except.error.inj h
        exact vanishes_here hpids hcounts (parse_null.mp hbuf)
      | ok buf =>
        have hstatus : entry.status ≠ none := by
          intro hnone
          rw [parse_null.mpr hnone] at hbuf
          cases hbuf
        rw [vanishes_cons fun _ => hstatus]
        rw [getChildPidsFrom_value hcounts hbuf] at h
        by_cases hchild : entry.isChildOf parentPid = true
        · rw [if_pos hchild] at h ⊢
          split at h
          · rename_i hroom
            have hlength : (pids ++ [(atoi entry.name).toInt]).length = pids.length + 1 := by simp
            rw [← hlength]
            exact ih h (by rw [hlength]; exact hroom)
          · cases h
        · rw [if_neg hchild] at h ⊢
          exact ih h hpids
    · rw [vanishes_cons fun h => absurd h hcounts, isChildOf_skipped hcounts]
      rw [getChildPidsFrom_skipped hcounts] at h
      exact ih h hpids

theorem null_of_vanishes {pids : List ℤ}
    (hlines : ∀ e ∈ dir, ∀ lines, e.status = some lines → Numbered (str "PPid") lines)
    (h : VanishesFrom parentPid pids.length dir) :
    getChildPidsFrom parentPid dir pids = .error .nullFile := by
  induction dir generalizing pids with
  | nil =>
    obtain ⟨before, e, rest, hdir, -⟩ := h
    simp at hdir
  | cons entry dir ih =>
    have hrest : ∀ e ∈ dir, ∀ lines, e.status = some lines → Numbered (str "PPid") lines :=
      fun e he => hlines e (List.mem_cons_of_mem _ he)
    by_cases hcounts : entry.counts = true
    · cases hstatus : entry.status with
      | none => exact getChildPidsFrom_fails hcounts (parse_null.mpr hstatus) pids
      | some lines =>
        obtain ⟨buf, hbuf, -⟩ : ∃ buf, parseProcStatusValByTag (fun _ => entry.status)
            (atoi entry.name).toInt (str "PPid") = .ok buf ∧ Yields (str "PPid") lines buf :=
          parse_yields hstatus (hlines entry List.mem_cons_self lines hstatus)
        rw [vanishes_cons (by simp [hstatus])] at h
        rw [getChildPidsFrom_value hcounts hbuf]
        by_cases hchild : entry.isChildOf parentPid = true
        · rw [if_pos hchild] at h ⊢
          -- there is room for the child, as there is for those before the file that is gone
          have hroom : pids.length < childProcessLen := by
            obtain ⟨before, e, rest, -, -, -, -, hle⟩ := h
            omega
          rw [if_pos hroom]
          exact ih hrest (by simpa using h)
        · rw [if_neg hchild] at h ⊢
          exact ih hrest h
    · rw [vanishes_cons fun h => absurd h hcounts, isChildOf_skipped hcounts] at h
      rw [getChildPidsFrom_skipped hcounts]
      exact ih hrest h

/-- `pid` is killed on the walk, and the walk comes to a process that has gone since `readdir`
returned it. -/
def Walk.Misses (walk : Walk) (pid : ℤ) : Prop :=
  ∃ killed parentPid dir,
    Subtree.Looks (fun killed pid => getChildPids pid (walk.proc killed))
      (if pid ≤ 0 then 1 else walk.depth) pid [] killed parentPid ∧
    walk.proc killed = some dir ∧ Vanishes parentPid dir

/-- The status files on the walk are files of the kernel. -/
def Walk.Readable (walk : Walk) : Prop :=
  ∀ killed dir, walk.proc killed = some dir → ∀ e ∈ dir, ∀ lines, e.status = some lines →
    Numbered (str "PPid") lines

/-- A kill that reads from a missing file does so on one of its walks over `/proc`. -/
theorem Walk.kill_traverse {walk : Walk} {pid : ℤ} :
    walk.kill pid = .error .nullFile ↔
      Subtree.traverse (fun killed pid => getChildPids pid (walk.proc killed))
        (if pid ≤ 0 then 1 else walk.depth) pid [] = .error .nullFile := by
  rw [Walk.kill, ← killProcessByPid_eq]
  by_cases hpid : pid ≤ 0
  · rw [if_pos hpid, if_pos hpid, killProcessByPid_eq, Subtree.traverse]
    cases hchildren : getChildPids pid (walk.proc []) with
    | error f => simp only [bind, Except.bind, Except.error.injEq]
    | ok childPids =>
      -- the signal goes to a group before any child is looked at
      refine iff_of_false (by simp [bind, Except.bind]) ?_
      intro h
      rw [Slots.ok_bind] at h
      cases childPids with
      | nil => cases h
      | cons c childPids => cases h
  · rw [if_neg hpid, if_neg hpid]
    cases killProcessByPid walk.proc walk.depth pid [] with
    | error f => simp only [bind, Except.bind, Except.error.injEq]
    | ok result =>
      cases result with
      | none => exact iff_of_false (fun h => by cases h) (by simp)
      | some killed => exact iff_of_false (fun h => by cases h) (by simp)

theorem Walk.misses_of_kill {walk : Walk} {pid : ℤ} (h : walk.kill pid = .error .nullFile) :
    walk.Misses pid := by
  obtain ⟨killed, parentPid, hlooks, hnull⟩ :=
    Subtree.traverse_error_iff.mp (Walk.kill_traverse.mp h)
  cases hdir : walk.proc killed with
  | none =>
    rw [hdir] at hnull
    cases hnull
  | some dir =>
    rw [hdir] at hnull
    exact ⟨killed, parentPid, dir, hlooks, hdir, vanishes_of_null hnull (by simp)⟩

theorem Walk.kill_of_misses {walk : Walk} {pid : ℤ} (hlines : walk.Readable)
    (h : walk.Misses pid) : walk.kill pid = .error .nullFile := by
  obtain ⟨killed, parentPid, dir, hlooks, hdir, hvanishes⟩ := h
  refine Walk.kill_traverse.mpr (Subtree.traverse_error_iff.mpr ⟨killed, parentPid, hlooks, ?_⟩)
  rw [hdir]
  exact null_of_vanishes (hlines killed dir hdir) hvanishes

end Walk

end KbPm
