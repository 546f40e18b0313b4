/-
What the service reads below `/proc` (`proc_status.c`), and the kill that depends on
it (`kill_process_by_pid` of `process.c`).

* `parseProcStatusValByTag` — a value of a status file;
* `DirEntry` — what the walk over `/proc` finds: a name, and the status file behind
  it, if it can be opened when the walk has come to it;
* `getChildPids`, `killProcessByPid` — the walk, and the recursive kill;
* `Walk` — `/proc` while a process is being killed.
-/
import KbPm.CText
import KbPm.Lib.Slots
import KbPm.Lib.Subtree

namespace KbPm

open Subtree

/-- `is_number`; the empty string is one. -/
def isNumber (buffer : Text) : Bool := (cstr buffer).all isDigit

/-- `atoi`, on digits: `strtol` stops at `LONG_MAX`, and the conversion to `int`
drops the upper half. -/
def atoi (buffer : Text) : Int32 :=
  Int32.ofInt (min ((cstr buffer).foldl (fun n c => n * 10 + (c.toNat - 48)) 0 : ℕ) (2 ^ 63 - 1))

/-! ### Status files -/

/-- `strncmp(buf, tag, strlen(tag)) == 0` -/
def hasTag (tag line : Text) : Bool := line.take tag.length == tag

/-- `ERR_RESULT` -/
def errResult : Text := str "error_result"

/-- `parse_proc_status_val_by_tag`: the value behind the tag on the first line
that has it, without the line's last byte, from its first digit on. -/
def parseProcStatusValByTag (procStatus : ℤ → Option (List Text)) (pid : ℤ) (tag : Text) :
    Except Fault Text :=
  match procStatus pid with
  | none => .error .nullFile
  | some lines =>
    match lines.find? (hasTag tag) with
    | none => .ok errResult
    | some line =>
      match (cstr line).dropLast.dropWhile fun c => !isDigit c with
      | [] => .error .overrun
      | value => .ok value

/-! ### The walk -/

/-- `#define CHILD_PROCESS_LEN 4096` -/
abbrev childProcessLen : ℕ := 4096

/-- An entry of `/proc` when `readdir` has returned it. -/
structure DirEntry where
  name : Text
  /-- `S_ISDIR` of what `lstat` has stored -/
  isDir : Bool
  /-- the lines of the status file of its process, if it can be opened -/
  status : Option (List Text)

/-- The entry is taken for a process. -/
def DirEntry.counts (entry : DirEntry) : Bool :=
  entry.isDir && isNumber entry.name && decide (0 < (atoi entry.name).toInt ∧
    (atoi entry.name).toInt ≤ 32767)

/-- The loop of `get_child_pids`, where `pids` have been found so far. -/
def getChildPidsFrom (parentPid : ℤ) : List DirEntry → List ℤ → Except Fault (List ℤ)
  | [], pids => .ok pids
  | entry :: entries, pids =>
    if entry.counts then do
      let pid := (atoi entry.name).toInt
      let buf ← parseProcStatusValByTag (fun _ => entry.status) pid (str "PPid")
      if buf ≠ errResult ∧ decimal parentPid = buf then
        -- `pids[pids_len++] = pid`
        if pids.length < childProcessLen then getChildPidsFrom parentPid entries (pids ++ [pid])
        else .error .overrun
      else
        getChildPidsFrom parentPid entries pids
    else
      getChildPidsFrom parentPid entries pids

/-- `get_child_pids`: none are found if `/proc` cannot be opened (`*p_pids_len` is -1 then). -/
def getChildPids (parentPid : ℤ) : Option (List DirEntry) → Except Fault (List ℤ)
  | none => .ok []
  | some proc => getChildPidsFrom parentPid proc []

/-- `kill_process_by_pid`: `killed` are the pids that have been sent `SIGKILL` so far, and `proc
killed` is what `/proc` holds then.  The depth bounds the recursion; `none` is the lack of it. -/
def killProcessByPid (proc : List ℤ → Option (List DirEntry)) :
    ℕ → ℤ → List ℤ → Except Fault (Option (List ℤ))
  | 0, _, _ => .ok none
  | depth + 1, pid, killed => do
    let childPids ← getChildPids pid (proc killed)
    each (killProcessByPid proc depth) childPids (killed ++ [pid])

theorem killProcessByPid_eq (proc : List ℤ → Option (List DirEntry)) :
    killProcessByPid proc = traverse fun killed pid => getChildPids pid (proc killed) := by
  funext depth
  induction depth with
  | zero => rfl
  | succ depth ih =>
    funext pid killed
    rw [killProcessByPid, ih]
    rfl

/-- What the kernel shows while a process is being killed. -/
structure Walk where
  /-- `/proc`, when these pids have been sent `SIGKILL`, if it can be opened -/
  proc : List ℤ → Option (List DirEntry)
  /-- the calls of `kill_process_by_pid`, one inside the other, that the stack has room for -/
  depth : ℕ

/-- `kill_process_by_pid(pid)`.  A pid that is not positive stands for whole groups of
processes; 0 for the service's own. -/
def Walk.kill (walk : Walk) (pid : ℤ) : Except Fault Unit :=
  if pid ≤ 0 then do
    let _ ← getChildPids pid (walk.proc [])
    .error .killGroup
  else do
    match ← killProcessByPid walk.proc walk.depth pid [] with
    | none => .error .stack
    | some _ => return ()

/-! ### How they end the service -/

theorem parseProcStatusValByTag_error {procStatus : ℤ → Option (List Text)} {pid : ℤ} {tag : Text}
    {f : Fault} (h : parseProcStatusValByTag procStatus pid tag = .error f) :
    f = .nullFile ∨ f = .overrun := by
  rw [parseProcStatusValByTag] at h
  cases hfile : procStatus pid with
  | none =>
    simp only [hfile] at h
    cases h
    exact Or.inl rfl
  | some lines =>
    cases hfind : lines.find? (hasTag tag) with
    | none => simp [hfile, hfind] at h
    | some line =>
      simp only [hfile, hfind] at h
      split at h
      · cases h
        exact Or.inr rfl
      · cases h

section Entries

variable {parentPid : ℤ} {entry : DirEntry} {entries : List DirEntry}

theorem getChildPidsFrom_skipped (h : entry.counts ≠ true) (pids : List ℤ) :
    getChildPidsFrom parentPid (entry :: entries) pids =
      getChildPidsFrom parentPid entries pids := by
  rw [getChildPidsFrom, if_neg h]

theorem getChildPidsFrom_fails {f : Fault} (h : entry.counts = true)
    (hbuf : parseProcStatusValByTag (fun _ => entry.status) (atoi entry.name).toInt
      (str "PPid") = .error f) (pids : List ℤ) :
    getChildPidsFrom parentPid (entry :: entries) pids = .error f := by
  rw [getChildPidsFrom, if_pos h]
  simp only [hbuf]
  rfl

end Entries

theorem getChildPidsFrom_error {parentPid : ℤ} {entries : List DirEntry} {pids : List ℤ} {f : Fault}
    (h : getChildPidsFrom parentPid entries pids = .error f) : f = .nullFile ∨ f = .overrun := by
  induction entries generalizing pids with
  | nil => cases h
  | cons entry entries ih =>
    rw [getChildPidsFrom] at h
    split at h
    · simp only at h
      cases hvalue : parseProcStatusValByTag (fun _ => entry.status) (atoi entry.name).toInt
          (str "PPid") with
      | error f' =>
        rw [hvalue] at h
        cases h
        exact parseProcStatusValByTag_error hvalue
      | ok buf =>
        rw [hvalue, Slots.ok_bind] at h
        split at h
        · split at h
          · exact ih h
          · cases h
            exact Or.inr rfl
        · exact ih h
    · exact ih h

theorem getChildPids_error {parentPid : ℤ} {proc : Option (List DirEntry)} {f : Fault}
    (h : getChildPids parentPid proc = .error f) : f = .nullFile ∨ f = .overrun := by
  cases proc with
  | none => cases h
  | some entries => exact getChildPidsFrom_error h

/-- A kill ends the service on one of its walks, for lack of stack, or because no single process has
the pid. -/
theorem Walk.kill_error {walk : Walk} {pid : ℤ} {f : Fault} (h : walk.kill pid = .error f) :
    f = .nullFile ∨ f = .overrun ∨ f = .stack ∨ f = .killGroup ∧ pid ≤ 0 := by
  rw [Walk.kill] at h
  split at h
  · rename_i hpid
    cases hchildren : getChildPids pid (walk.proc []) with
    | error f' =>
      rw [hchildren] at h
      cases h
      exact (getChildPids_error hchildren).imp_right Or.inl
    | ok childPids =>
      rw [hchildren] at h
      cases h
      exact Or.inr (Or.inr (Or.inr ⟨rfl, hpid⟩))
  · cases hkill : killProcessByPid walk.proc walk.depth pid [] with
    | error f' =>
      rw [hkill] at h
      cases h
      rw [killProcessByPid_eq] at hkill
      obtain ⟨killed, parentPid, -, hchildren⟩ := traverse_error_iff.mp hkill
      exact (getChildPids_error hchildren).imp_right Or.inl
    | ok result =>
      rw [hkill] at h
      cases result with
      | none =>
        cases h
        exact Or.inr (Or.inr (Or.inl rfl))
      | some killed => cases h

/-- No single process has a pid that is not positive. -/
theorem Walk.kill_pos {walk : Walk} {pid : ℤ} (h : walk.kill pid = .ok ()) : 0 < pid := by
  by_contra hpid
  rw [Walk.kill, if_pos (by omega)] at h
  cases hchildren : getChildPids pid (walk.proc []) with
  | error f =>
    rw [hchildren] at h
    cases h
  | ok childPids =>
    rw [hchildren] at h
    cases h

end KbPm
