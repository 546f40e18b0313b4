/-
The status text (`create_process_list_json_str_with_status` of `process.c`).

* `statusItem` — the item of a process;
* `createProcessListJsonStrWithStatus` — the text for a list of processes;
* `getProcessListStatus_eq` — the response to a status request is this text for the
  entries of the service.
-/
import KbPm.Handling

namespace KbPm

open Trace

/-- The item of a process in the status text. -/
def statusItem (process : Process) : CJson :=
  .object
    [(str "app_name", .string process.appName.bytes),
      (str "id", .number process.id),
      (str "pid", .number process.pid),
      (str "restart_times", .number (process.restartTimes.toInt : ℤ)),
      (str "start_time", .number (double process.startTime)),
      (str "is_running", .number process.isRunning.toInt),
      (str "memory", .string (if process.isRunning ≠ 0 then process.memory.bytes else str "0 B"))]

/-- `create_process_list_json_str_with_status`, up to its `strcpy` to the caller's buffer, for a
list of `process_count` processes. -/
def createProcessListJsonStrWithStatus (procStatus : ℤ → Option (List Text))
    (processes : List Process) :
    Except Fault Text := do
  let pairs ← processes.mapM (createProcessCJsonWithStatus procStatus)
  return cJsonPrint (.array (pairs.map Prod.snd))

section Item

variable {procStatus : ℤ → Option (List Text)} {p : Process}

theorem createProcessCJsonWithStatus_stopped (hrun : p.isRunning = 0) :
    createProcessCJsonWithStatus procStatus p = .ok (p, statusItem p) := by
  rw [createProcessCJsonWithStatus, if_neg (by simpa using hrun)]
  rfl

theorem createProcessCJsonWithStatus_running (hrun : p.isRunning ≠ 0) :
    createProcessCJsonWithStatus procStatus p =
      (getMemByPid procStatus p.pid).map fun memory =>
        ({ p with memory := memory }, statusItem { p with memory := memory }) := by
  rw [createProcessCJsonWithStatus, if_pos hrun]
  cases getMemByPid procStatus p.pid with
  | error f => rfl
  | ok memory => rfl

end Item

/-- The loop over the slots. -/
theorem statusFrom_mapM {s : Server} {i steps : ℕ} (h : i + steps ≤ listSize) :
    ∃ t, statusFrom steps i s =
      match ((Slots.inUse s.processList (i + steps)).drop i).mapM
        (createProcessCJsonWithStatus s.kernel.answers.procStatus) with
      | .ok pairs => .ok (pairs.map Prod.snd) t
      | .error f => .error f t := by
  induction steps generalizing s i with
  | zero =>
    refine ⟨s, ?_⟩
    have hnil : (Slots.inUse s.processList (i + 0)).drop i = [] := by simp [Slots.inUse]
    rw [hnil]
    rfl
  | succ steps ih =>
    obtain ⟨p, hp⟩ := exists_slot s (show i < listSize by omega)
    have hin : (Slots.inUse s.processList (i + (steps + 1)))[i]? = some p := by
      rw [Slots.getElem?_inUse, if_pos (by omega), hp]
    obtain ⟨hlt, hget⟩ := List.getElem?_eq_some_iff.mp hin
    have hcons : (Slots.inUse s.processList (i + (steps + 1))).drop i =
        p :: (Slots.inUse s.processList (i + (steps + 1))).drop (i + 1) := by
      rw [List.drop_eq_getElem_cons hlt, hget]
    have hread : (get : ServerM Server) s = .ok s s := rfl
    rw [hcons, List.mapM_cons, statusFrom, bind_ok (readSlot_run hp), bind_ok hread]
    -- the loop ends at the first file that cannot be read
    cases hs : createProcessCJsonWithStatus s.kernel.answers.procStatus p with
    | error f => exact ⟨s, bind_error (attempt_error f s)⟩
    | ok x =>
      obtain ⟨q, json⟩ := x
      -- the slots behind are as they were
      have hrest : (Slots.inUse (s.setSlot i q).processList (i + 1 + steps)).drop (i + 1) =
          (Slots.inUse s.processList (i + (steps + 1))).drop (i + 1) := by
        rw [Server.setSlot_processList, Slots.inUse_write, List.drop_set_of_lt (by omega),
          show i + 1 + steps = i + (steps + 1) by omega]
      obtain ⟨t, ht⟩ := ih (s := s.setSlot i q) (i := i + 1) (by omega)
      rw [hrest, Server.setSlot_kernel] at ht
      refine ⟨t, ?_⟩
      rw [bind_ok (attempt_ok _ s)]
      simp only
      rw [bind_ok (writeSlot_run q (lt_of_slot hp)), Slots.ok_bind]
      cases hm : ((Slots.inUse s.processList (i + (steps + 1))).drop (i + 1)).mapM
        (createProcessCJsonWithStatus s.kernel.answers.procStatus) with
      | error f =>
        rw [hm] at ht
        exact bind_error ht
      | ok pairs =>
        rw [hm] at ht
        exact bind_ok ht

/-- A status request is answered with the text for the entries. -/
theorem getProcessListStatus_eq {s : Server} (hn : s.processCount ≤ listSize) :
    ∃ t, getProcessListStatus s =
      match createProcessListJsonStrWithStatus s.kernel.answers.procStatus s.entries with
      | .ok text => if text.length < bufferSize then .ok text t else .error .overflow t
      | .error f => .error f t := by
  have hread : (get : ServerM Server) s = .ok s s := rfl
  obtain ⟨t, ht⟩ := statusFrom_mapM (s := s) (show 0 + s.processCount ≤ listSize by omega)
  rw [List.drop_zero, Nat.zero_add] at ht
  refine ⟨t, ?_⟩
  rw [getProcessListStatus, bind_ok hread, createProcessListJsonStrWithStatus, Server.entries]
  cases hm : (Slots.inUse s.processList s.processCount).mapM
    (createProcessCJsonWithStatus s.kernel.answers.procStatus) with
  | error f =>
    rw [hm] at ht
    exact bind_error ht
  | ok pairs =>
    rw [hm] at ht
    rw [bind_ok ht, Slots.ok_bind]
    change (if _ then _ else _ : ServerM Text) t = _
    split <;> rename_i hfits
    · exact (if_pos hfits).symm
    · exact (if_neg hfits).symm

end KbPm
