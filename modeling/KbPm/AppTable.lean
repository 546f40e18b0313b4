/-
The table of the apps (`show_status`, on the list of the service).

* `App.Shown`, `AppList.Shown` — the rows of the apps;
* `status_shown` — what the client shows of the answer to a status request are the apps.
-/
import KbPm.CJsonPrint
import KbPm.Client
import KbPm.Refine
import KbPm.ShowStatus
import KbPm.StatusFiles

namespace KbPm

open Trace

/-! ### Rows -/

/-- A cell with this text. -/
def cell (text : Text) : Text := space :: (text ++ [space])

/-- The row of app `k`. -/
structure App.Shown (app : App) (k : ℕ) (row : BoxLine) : Prop where
  appName : row[0].bytes = cell app.appName.bytes
  id : row[1].bytes = cell (decimal k)
  pid : row[2].bytes = cell (decimal ((app.running.map Instance.pid).getD 0))
  status : row[3].bytes = cell (if app.running.isSome then str "online" else str "stopped")

/-- The table has a row for each app, in order. -/
def AppList.Shown (l : AppList) (table : List Output) : Prop :=
  ∃ rows, table = printBox (headerLine :: rows) ∧ rows.length = l.apps.length ∧
    ∀ (k : ℕ) app, l.apps[k]? = some app → ∃ row, rows[k]? = some row ∧ app.Shown k row

theorem sprintfCell_bytes {text : Text} (h0 : 0 ∉ text) {b : StrBuf}
    (h : sprintfCell text = .ok b) : b.bytes = cell text := by
  have hcell : cstr (cell text) = cell text := by
    refine cstr_of_notMem ?_
    simp only [cell, List.mem_cons, List.mem_append, not_or]
    exact ⟨by decide, h0, by decide⟩
  rw [sprintfCell, strcpy] at h
  split at h
  · cases h
    exact hcell
  · cases h

theorem stateCells_status {now : ℤ} {p : Process} {status uptime memory : StrBuf}
    (h : stateCells now p = .ok (status, uptime, memory)) :
    status.bytes = cell (if p.isRunning ≠ 0 then str "online" else str "stopped") := by
  rw [stateCells] at h
  split at h
  · rename_i hrun
    obtain ⟨b, hb, h⟩ := Slots.bind_eq_ok h
    obtain ⟨_, -, h⟩ := Slots.bind_eq_ok h
    obtain ⟨_, -, h⟩ := Slots.bind_eq_ok h
    cases h
    rw [if_pos hrun]
    exact sprintfCell_bytes (by decide) hb
  · rename_i hrun
    obtain ⟨b, hb, h⟩ := Slots.bind_eq_ok h
    obtain ⟨_, -, h⟩ := Slots.bind_eq_ok h
    obtain ⟨_, -, h⟩ := Slots.bind_eq_ok h
    cases h
    rw [if_neg hrun]
    exact sprintfCell_bytes (by decide) hb

theorem processLine_cells {now : ℤ} {p : Process} {row : BoxLine}
    (h : processLine now p = .ok row) :
    row[0].bytes = cell p.appName.bytes ∧ row[1].bytes = cell (decimal p.id) ∧
      row[2].bytes = cell (decimal p.pid) ∧
      row[3].bytes = cell (if p.isRunning ≠ 0 then str "online" else str "stopped") := by
  obtain ⟨appName, happName, h⟩ := Slots.bind_eq_ok h
  obtain ⟨id, hid, h⟩ := Slots.bind_eq_ok h
  obtain ⟨pid, hpid, h⟩ := Slots.bind_eq_ok h
  obtain ⟨⟨status, uptime, memory⟩, hstate, h⟩ := Slots.bind_eq_ok h
  obtain ⟨restart, -, h⟩ := Slots.bind_eq_ok h
  cases h
  exact ⟨sprintfCell_bytes p.appName.nulFree happName, sprintfCell_bytes (nulFree_decimal _) hid,
    sprintfCell_bytes (nulFree_decimal _) hpid, stateCells_status hstate⟩

theorem Settled.shown {procStatus : ℤ → Option (List Text)} {k : ℕ} {p q : Process} {now : ℤ}
    {row : BoxLine} (h : Settled k p) (hq : Recovers procStatus p q)
    (hrow : processLine now q = .ok row) : p.app.Shown k row := by
  obtain ⟨happName, hid, hpid, hstatus⟩ := processLine_cells hrow
  rw [hq.appName] at happName
  rw [hq.id, h.id] at hid
  rw [hq.pid] at hpid
  rw [hq.isRunning] at hstatus
  refine ⟨happName, hid, ?_, ?_⟩
  · rw [hpid]
    by_cases hrun : p.isRunning = 0
    · rw [(h.stopped hrun).1, app_stopped hrun]
      rfl
    · rw [app_running hrun]
      rfl
  · rw [hstatus]
    by_cases hrun : p.isRunning = 0
    · rw [app_stopped hrun, if_neg (not_not.mpr hrun)]
      rfl
    · rw [app_running hrun, if_pos hrun]
      rfl

/-! ### The answer -/

/-- The numbers of the entries are `int`. -/
def Server.Small (s : Server) : Prop := ∀ p ∈ s.entries, p.InRange ∧ p.startTime < 2 ^ 31

theorem commandBuffer_short {s : Server} {request : Request} (hs : s.buffer = [])
    (hshort : request.command.length ≤ 8) : s.commandBuffer request = request.command := by
  have hfits : request.command.length ≤ strBufferSize := hshort.trans (by decide)
  rw [Server.commandBuffer, hs, receive_eq hfits, List.drop_nil, List.append_nil]

end KbPm
