/-
Requests about different apps commute.

* `Verb` — the requests by name; what one makes of its entry (`edit`), responds (`reply`)
  and kills (`kills`), and when the service survives it (`Able`);
* `Plain`, `handleRequest_verb` — with distinct names that are no numbers and a free slot,
  the handlers do this;
* `requests_commute` — so two requests about different apps come to the same in both orders.
-/
import KbPm.Lib.Table
import KbPm.Addressing
import KbPm.Client

namespace KbPm

open Trace

/-! ### Requests by name -/

inductive Verb
  | start
  | stop
  | restart
  | remove
  deriving DecidableEq

/-- The list as a table of names; a removal lowers the ids behind it. -/
def byName : Table.Layout Process StrBuf := ⟨Process.appName, Process.shifted, fun _ => rfl⟩

/-- `process` when it has been restarted by a request. -/
def Process.restarted (process : Process) (pid now : ℤ) : Process :=
  { process.started pid now with restartTimes := 1 }

/-- The next `fork` succeeds. -/
def Answers.Grants (answers : Answers) : Prop :=
  ∃ pid forks, answers.forks = pid :: forks ∧ 0 ≤ pid

/-- What the next `fork` returns. -/
def Answers.pid (answers : Answers) : ℤ := answers.forks.headD 0

/-- What the next `time` returns. -/
def Answers.now (answers : Answers) : ℤ := answers.times.headD 0

namespace Verb

def word : Verb → Text
  | start => str "start"
  | stop => str "stop"
  | restart => str "restart"
  | remove => str "remove"

def command : Verb → Command
  | start => .start
  | stop => .stop
  | restart => .restart
  | remove => .remove

/-- The request that a client sends for an app. -/
def request (verb : Verb) (name : StrBuf) : Request := ⟨verb.word, name.bytes⟩

def handler : Verb → Text → ServerM Text
  | start => serverStartProcessAndGetResponse
  | stop => serverStopProcessAndGetResponse
  | restart => serverRestartProcessAndGetResponse
  | remove => serverRemoveProcessAndGetResponse

/-- What it makes of its entry, when `fork` returns `pid` and `time` returns `now`. -/
def change (pid now : ℤ) (p : Process) : Verb → Process
  | start => if p.isRunning = 0 then p.started pid now else p
  | stop => if p.isRunning ≠ 0 then p.stopped else p
  | restart => if p.isRunning ≠ 0 then p.restarted pid now else p
  | remove => p

theorem change_appName (pid now : ℤ) (p : Process) (verb : Verb) :
    (verb.change pid now p).appName = p.appName := by
  cases verb with
  | start =>
    rw [change]
    split <;> rfl
  | stop =>
    rw [change]
    split <;> rfl
  | restart =>
    rw [change]
    split <;> rfl
  | remove => rfl

/-- The id plays no part. -/
theorem change_shifted (pid now : ℤ) (p : Process) (verb : Verb) :
    verb.change pid now p.shifted = (verb.change pid now p).shifted := by
  have hrun : p.shifted.isRunning = p.isRunning := rfl
  cases verb with
  | start =>
    rw [change, change, hrun]
    split <;> rfl
  | stop =>
    rw [change, change, hrun]
    split <;> rfl
  | restart =>
    rw [change, change, hrun]
    split <;> rfl
  | remove => rfl

/-- What it makes of the list. -/
def edit (pid now : ℤ) (verb : Verb) : Table.Edit byName :=
  if verb = remove then .remove
  else .change (fun p => verb.change pid now p) (fun p => verb.change_appName pid now p)
    fun p => verb.change_shifted pid now p

/-- The response, in which `pid` is what `fork` has returned. -/
def reply (p : Process) (pid : ℤ) : Verb → Text
  | start =>
    if p.isRunning = 0 then
      str "Started " ++ p.appName.bytes ++ str " with pid:" ++ decimal pid ++ str "."
    else p.appName.bytes ++ str " have already been running."
  | stop =>
    if p.isRunning ≠ 0 then str "Stopped " ++ p.appName.bytes ++ str " success."
    else p.appName.bytes ++ str " is not running."
  | restart =>
    if p.isRunning ≠ 0 then
      str "Restarted " ++ p.appName.bytes ++ str " with " ++ decimal pid ++ str "."
    else p.appName.bytes ++ str " is not running."
  | remove =>
    if p.isRunning ≠ 0 then str "Stopped And Removed " ++ p.appName.bytes ++ str "."
    else str "Removed " ++ p.appName.bytes ++ str "."

/-- The pids that are killed. -/
def kills (p : Process) (verb : Verb) : List ℤ :=
  if verb ≠ start ∧ p.isRunning ≠ 0 then [p.pid] else []

/-- A child is forked. -/
def Forks (p : Process) : Verb → Prop
  | start => p.isRunning = 0
  | restart => p.isRunning ≠ 0
  | _ => False

/-- The service survives it: the kill comes to its end, and a `fork` succeeds. -/
def Able (p : Process) (answers : Answers) (verb : Verb) : Prop :=
  (∀ pid ∈ verb.kills p, (nextWalk answers.walks).kill pid = .ok ()) ∧
    (verb.Forks p → answers.Grants)

end Verb

/-! ### The functions on a process -/

/-- The pids that have been killed so far. -/
def Server.killedPids (s : Server) : List ℤ := s.kernel.kills.map fun call => call.process.pid

/-- The list is as it was, and `pids` have been killed. -/
structure Leaves (s : Server) (pids : List ℤ) (t : Server) : Prop where
  processList : t.processList = s.processList
  processCount : t.processCount = s.processCount
  killedPids : t.killedPids = s.killedPids ++ pids

section Process

variable {s : Server} {p : Process}

theorem serverStartProcess_grants (hgrants : s.kernel.answers.Grants) :
    ∃ t, serverStartProcess p s = .ok (p.started s.kernel.answers.pid s.kernel.now) t ∧
      Leaves s [] t := by
  obtain ⟨pid, forks, hforks, h0⟩ := hgrants
  have hpid : s.kernel.answers.pid = pid := by rw [Answers.pid, hforks, List.headD_cons]
  rw [serverStartProcess_run p hforks h0, hpid]
  exact ⟨_, rfl, rfl, rfl, (List.append_nil _).symm⟩

theorem serverStartProcess_denied (hdenied : ¬s.kernel.answers.Grants) :
    ∃ f t, serverStartProcess p s = .error f t := by
  obtain ⟨t, ht, -⟩ := serverStartProcess_fail p (fork_cases s |>.resolve_left hdenied)
  exact ⟨_, t, ht⟩

theorem serverStopProcess_kills (hrun : p.isRunning ≠ 0)
    (hkill : s.kernel.walk.kill p.pid = .ok ()) :
    ∃ t, serverStopProcess p s = .ok p.stopped t ∧ Leaves s [p.pid] t ∧
      t.kernel.answers.forks = s.kernel.answers.forks ∧ t.kernel.now = s.kernel.now := by
  refine ⟨_, serverStopProcess_run hrun hkill, ⟨rfl, rfl, ?_⟩, rfl, rfl⟩
  change List.map _ (s.kernel.kills ++ [_]) = _
  rw [List.map_append]
  rfl

theorem serverStopProcess_stuck (hrun : p.isRunning ≠ 0)
    (hkill : s.kernel.walk.kill p.pid ≠ .ok ()) :
    ∃ f t, serverStopProcess p s = .error f t := by
  cases hresult : s.kernel.walk.kill p.pid with
  | ok u => exact absurd hresult hkill
  | error f =>
    obtain ⟨t, ht, -⟩ := serverStopProcess_fail hrun hresult
    exact ⟨f, t, ht⟩

theorem serverRestartProcess_grants (hrun : p.isRunning ≠ 0)
    (hkill : s.kernel.walk.kill p.pid = .ok ()) (hgrants : s.kernel.answers.Grants) :
    ∃ t, serverRestartProcess p s = .ok (p.restarted s.kernel.answers.pid s.kernel.now) t ∧
      Leaves s [p.pid] t := by
  obtain ⟨u, hstop, hleaves, hforks, hnow⟩ := serverStopProcess_kills hrun hkill
  have hgrants' : u.kernel.answers.Grants := by rwa [Answers.Grants, hforks]
  have hpid : u.kernel.answers.pid = s.kernel.answers.pid := by
    rw [Answers.pid, Answers.pid, hforks]
  obtain ⟨t, hstart, hleaves'⟩ := serverStartProcess_grants (p := p.stopped) hgrants'
  rw [hpid, hnow] at hstart
  refine ⟨t, ?_, hleaves'.processList.trans hleaves.processList,
    hleaves'.processCount.trans hleaves.processCount, ?_⟩
  · rw [serverRestartProcess, bind_ok hstop, bind_ok hstart]
    rfl
  · rw [hleaves'.killedPids, hleaves.killedPids, List.append_nil]

theorem serverRestartProcess_stuck (hrun : p.isRunning ≠ 0)
    (hstuck : ¬(s.kernel.walk.kill p.pid = .ok () ∧ s.kernel.answers.Grants)) :
    ∃ f t, serverRestartProcess p s = .error f t := by
  by_cases hkill : s.kernel.walk.kill p.pid = .ok ()
  · obtain ⟨u, hstop, -, hforks, -⟩ := serverStopProcess_kills hrun hkill
    have hdenied : ¬u.kernel.answers.Grants := by
      rw [Answers.Grants, hforks]
      exact fun hgrants => hstuck ⟨hkill, hgrants⟩
    obtain ⟨f, t, hstart⟩ := serverStartProcess_denied (p := p.stopped) hdenied
    exact ⟨f, t, by rw [serverRestartProcess, bind_ok hstop, bind_error hstart]⟩
  · obtain ⟨f, t, hstop⟩ := serverStopProcess_stuck hrun hkill
    exact ⟨f, t, by rw [serverRestartProcess, bind_error hstop]⟩

end Process

/-! ### The handlers -/

/-- The names are distinct, none is empty or a number, and a slot is free. -/
structure Plain (s : Server) : Prop extends Distinct s where
  room : s.processCount < listSize
  words : ∀ p ∈ s.entries, isNumber p.appName.bytes = false

theorem Plain.resolvesTo {s : Server} (h : Plain s) {k : ℕ} {p : Process}
    (hp : s.entries[k]? = some p) {buffer : Text} (hbuffer : cstr buffer = p.appName.bytes) :
    ResolvesTo s buffer k p := by
  have hword : isNumber buffer = false := by
    rw [← h.words p (List.mem_of_getElem? hp), isNumber, isNumber, hbuffer,
      cstr_of_notMem p.appName.nulFree]
  refine (h.toDistinct.resolvesTo_iff hp hbuffer).mpr (Or.inl ?_)
  rw [getProcessId, hword]
  simp

namespace Verb

/-- The list that it leaves, and what has been killed then. -/
structure Done (verb : Verb) (s : Server) (p : Process) (u : Server) : Prop where
  entries : u.entries = (verb.edit s.kernel.answers.pid s.kernel.now).apply p.appName s.entries
  killedPids : u.killedPids = s.killedPids ++ verb.kills p

/-- The service survives it exactly if it is able to, and then the work is done. -/
structure Settles (verb : Verb) (s : Server) (p : Process) (m : ServerM Text) : Prop where
  done : verb.Able p s.kernel.answers →
    ∃ u, m s = .ok (verb.reply p s.kernel.answers.pid) u ∧ verb.Done s p u
  stuck : ¬verb.Able p s.kernel.answers → ∃ f u, m s = .error f u

end Verb

section Handlers

variable {s : Server} {k : ℕ} {p : Process}

theorem edit_apply (hnames : (s.entries.map Process.appName).Nodup) (hp : s.entries[k]? = some p)
    {verb : Verb} (hverb : verb ≠ .remove) (pid now : ℤ) :
    (verb.edit pid now).apply p.appName s.entries = s.entries.set k (verb.change pid now p) := by
  rw [Verb.edit, if_neg hverb]
  exact Table.Edit.apply_set hnames hp

/-- A call on the slot of the entry. -/
theorem updateSlot_leaves (hp : s.entries[k]? = some p) {f : Process → ServerM Process}
    {q : Process} {pids : List ℤ} (hf : ∃ t, f p s = .ok q t ∧ Leaves s pids t) :
    ∃ u, updateSlot k f s = .ok () u ∧ readSlot k u = .ok q u ∧ u.entries = s.entries.set k q ∧
      u.killedPids = s.killedPids ++ pids := by
  obtain ⟨t, ht, hleaves⟩ := hf
  obtain ⟨-, hslot⟩ := entries_get hp
  refine ⟨_, updateSlot_run hslot ht, readSlot_run (slot_setSlot q (lt_of_slot hslot)), ?_,
    hleaves.killedPids⟩
  rw [entries_setSlot, Server.entries, Server.entries, hleaves.processList, hleaves.processCount]

theorem updateSlot_stuck (hp : s.entries[k]? = some p) {f : Process → ServerM Process}
    (hf : ∃ e t, f p s = .error e t) : ∃ e t, updateSlot k f s = .error e t := by
  obtain ⟨e, t, ht⟩ := hf
  exact ⟨e, t, updateSlot_error (entries_get hp).2 ht⟩

/-- The handler finds nothing to do. -/
theorem settles_of_idle (hnames : (s.entries.map Process.appName).Nodup)
    (hp : s.entries[k]? = some p) {verb : Verb} (hverb : verb ≠ .remove) {m : ServerM Text}
    (hm : m s = .ok (verb.reply p s.kernel.answers.pid) s) (hkills : verb.kills p = [])
    (hforks : ¬verb.Forks p) (hchange : ∀ pid now, verb.change pid now p = p) :
    verb.Settles s p m := by
  refine ⟨fun _ => ⟨s, hm, ?_, by rw [hkills, List.append_nil]⟩, fun hunable => ?_⟩
  · obtain ⟨hlt, rfl⟩ := List.getElem?_eq_some_iff.mp hp
    rw [edit_apply hnames hp hverb, hchange, List.set_getElem_self]
  · exact absurd ⟨by simp [hkills], fun h => absurd h hforks⟩ hunable

/-- The handler calls `f` on the slot, and then responds. -/
theorem settles_of_update (hnames : (s.entries.map Process.appName).Nodup)
    (hp : s.entries[k]? = some p) {verb : Verb} (hverb : verb ≠ .remove) {m : ServerM Text}
    {f : Process → ServerM Process} {r : Unit → ServerM Text}
    (hm : m s = (updateSlot k f >>= r) s)
    (hdone : verb.Able p s.kernel.answers → ∃ t,
      f p s = .ok (verb.change s.kernel.answers.pid s.kernel.now p) t ∧ Leaves s (verb.kills p) t)
    (hstuck : ¬verb.Able p s.kernel.answers → ∃ e t, f p s = .error e t)
    (hrespond : ∀ u, readSlot k u = .ok (verb.change s.kernel.answers.pid s.kernel.now p) u →
      r () u = .ok (verb.reply p s.kernel.answers.pid) u) : verb.Settles s p m := by
  constructor
  · intro hable
    obtain ⟨u, hupdate, hread, hentries, hkilled⟩ := updateSlot_leaves hp (hdone hable)
    refine ⟨u, ?_, ?_, hkilled⟩
    · rw [hm, bind_ok hupdate, hrespond u hread]
    · rw [hentries, edit_apply hnames hp hverb]
  · intro hunable
    obtain ⟨e, t, hupdate⟩ := updateSlot_stuck hp (hstuck hunable)
    exact ⟨e, t, by rw [hm, bind_error hupdate]⟩

/-- A handler, when its operand has been resolved. -/
theorem resolved {buffer : Text} {m : ProcessType × Process → ServerM Text} {type : ProcessType}
    (hparse : parseProcessAndProcessType s.processList s.processCount buffer = .ok (type, p)) :
    (attempt (parseProcessAndProcessType s.processList s.processCount buffer) >>= m) s =
      m (type, p) s := by
  rw [hparse, bind_ok (attempt_ok _ s)]

theorem serverStartProcessAndGetResponse_settles (hnames : (s.entries.map Process.appName).Nodup)
    (hp : s.entries[k]? = some p) {buffer : Text} (hresolves : ResolvesTo s buffer k p) :
    Verb.Settles .start s p (serverStartProcessAndGetResponse buffer) := by
  obtain ⟨type, htype, hparse, hpos⟩ := hresolves
  by_cases hrun : p.isRunning = 0
  · have hkills : Verb.kills p .start = [] := if_neg (by simp)
    have hchange : ∀ pid now, Verb.change pid now p .start = p.started pid now :=
      fun _ _ => if_pos hrun
    refine settles_of_update hnames hp (f := serverStartProcess) (r := fun _ => do
      return str "Started " ++ p.appName.bytes ++ str " with pid:" ++
        decimal (← readSlot k).pid ++ str ".") (by decide) ?_ ?_ ?_ ?_
    · refine (resolved hparse).trans ?_
      rcases htype with rfl | rfl <;>
      · simp only [if_pos hrun]
        rw [hpos, bind_ok (attempt_ok _ s)]
    · rintro ⟨-, hgrants⟩
      rw [hchange, hkills]
      exact serverStartProcess_grants (hgrants hrun)
    · intro hunable
      exact serverStartProcess_denied fun hgrants => hunable ⟨by simp [hkills], fun _ => hgrants⟩
    · intro u hread
      rw [bind_ok hread, hchange, Verb.reply, if_pos hrun]
      rfl
  · refine settles_of_idle hnames hp (by decide) ?_ (if_neg (by simp)) hrun fun _ _ => if_neg hrun
    refine (resolved hparse).trans ?_
    rw [Verb.reply, if_neg hrun]
    rcases htype with rfl | rfl <;>
    · simp only [if_neg hrun]
      rfl

theorem kills_of_idle (hrun : p.isRunning = 0) (verb : Verb) : verb.kills p = [] :=
  if_neg fun h => h.2 hrun

theorem kills_of_running (hrun : p.isRunning ≠ 0) {verb : Verb} (hverb : verb ≠ .start) :
    verb.kills p = [p.pid] := if_pos ⟨hverb, hrun⟩

theorem serverStopProcessAndGetResponse_settles (hnames : (s.entries.map Process.appName).Nodup)
    (hp : s.entries[k]? = some p) {buffer : Text} (hresolves : ResolvesTo s buffer k p) :
    Verb.Settles .stop s p (serverStopProcessAndGetResponse buffer) := by
  obtain ⟨type, htype, hparse, hpos⟩ := hresolves
  by_cases hrun : p.isRunning = 0
  · have hidle : ¬p.isRunning ≠ 0 := fun h => h hrun
    refine settles_of_idle hnames hp (by decide) ?_ (kills_of_idle hrun _) id
      fun _ _ => if_neg hidle
    refine (resolved hparse).trans ?_
    rw [Verb.reply, if_neg hidle]
    rcases htype with rfl | rfl <;>
    · simp only [if_neg hidle]
      rfl
  · have hkills : Verb.kills p .stop = [p.pid] := kills_of_running hrun (by decide)
    have hchange : ∀ pid now, Verb.change pid now p .stop = p.stopped := fun _ _ => if_pos hrun
    refine settles_of_update hnames hp (f := serverStopProcess)
      (r := fun _ => pure (str "Stopped " ++ p.appName.bytes ++ str " success."))
      (by decide) ?_ ?_ ?_ ?_
    · refine (resolved hparse).trans ?_
      rcases htype with rfl | rfl <;>
      · simp only [if_pos hrun]
        rw [hpos, bind_ok (attempt_ok _ s)]
    · rintro ⟨hkill, -⟩
      rw [hkills, List.forall_mem_singleton] at hkill
      obtain ⟨t, ht, hleaves, -⟩ := serverStopProcess_kills hrun hkill
      rw [hchange, hkills]
      exact ⟨t, ht, hleaves⟩
    · intro hunable
      refine serverStopProcess_stuck hrun fun hkill => hunable ⟨?_, False.elim⟩
      rw [hkills, List.forall_mem_singleton]
      exact hkill
    · intro u hread
      rw [Verb.reply, if_pos hrun]
      rfl

theorem serverRestartProcessAndGetResponse_settles
    (hnames : (s.entries.map Process.appName).Nodup)
    (hp : s.entries[k]? = some p) {buffer : Text} (hresolves : ResolvesTo s buffer k p) :
    Verb.Settles .restart s p (serverRestartProcessAndGetResponse buffer) := by
  obtain ⟨type, htype, hparse, hpos⟩ := hresolves
  by_cases hrun : p.isRunning = 0
  · have hidle : ¬p.isRunning ≠ 0 := fun h => h hrun
    refine settles_of_idle hnames hp (by decide) ?_ (kills_of_idle hrun _) hidle
      fun _ _ => if_neg hidle
    refine (resolved hparse).trans ?_
    rw [Verb.reply, if_neg hidle]
    rcases htype with rfl | rfl <;>
    · simp only [if_neg hidle]
      rfl
  · have hkills : Verb.kills p .restart = [p.pid] := kills_of_running hrun (by decide)
    have hchange : ∀ pid now, Verb.change pid now p .restart = p.restarted pid now :=
      fun _ _ => if_pos hrun
    refine settles_of_update hnames hp (f := serverRestartProcess) (r := fun _ => do
      return str "Restarted " ++ p.appName.bytes ++ str " with " ++
        decimal (← readSlot k).pid ++ str ".") (by decide) ?_ ?_ ?_ ?_
    · refine (resolved hparse).trans ?_
      rcases htype with rfl | rfl <;>
      · simp only [if_pos hrun]
        rw [hpos, bind_ok (attempt_ok _ s)]
    · rintro ⟨hkill, hgrants⟩
      rw [hkills, List.forall_mem_singleton] at hkill
      rw [hchange, hkills]
      exact serverRestartProcess_grants hrun hkill (hgrants hrun)
    · intro hunable
      refine serverRestartProcess_stuck hrun fun ⟨hkill, hgrants⟩ =>
        hunable ⟨?_, fun _ => hgrants⟩
      rw [hkills, List.forall_mem_singleton]
      exact hkill
    · intro u hread
      rw [bind_ok hread, hchange, Verb.reply, if_pos hrun]
      rfl

/-- `del_process_by_app_name`, on a name that has been found. -/
theorem delProcessByAppName_listed (h : Distinct s) (hroom : s.processCount < listSize)
    (hp : s.entries[k]? = some p) :
    ∃ processList res, delProcessByAppName s.processList p.appName = .ok (processList, res) ∧
      Server.entries { s with processList := processList, processCount := s.processCount - 1 } =
        (.remove : Table.Edit byName).apply p.appName s.entries := by
  obtain ⟨hlt, hslot⟩ := entries_get hp
  have hcount : s.processCount = getProcessListCount s.processList := h.agrees
  have hk : k < getProcessListCount s.processList := hcount ▸ hlt
  obtain ⟨_, _, -, -, -, -, -, hfree, -⟩ := delProcessByAppName_found hk hslot rfl
  obtain ⟨processList, hdel, -⟩ := hfree (by omega)
  refine ⟨processList, 0, hdel, ?_⟩
  have hfits : Fits s := by
    rw [Fits]
    omega
  obtain ⟨j, q, hq, hname, -, -, -, -, hget⟩ := entries_remove h.tidy hfits hp (.remove hdel)
  obtain rfl : j = k := h.unshared hp j q hq hname
  apply List.ext_getElem?
  intro i
  rw [hget i]
  exact (Table.Edit.getElem?_apply_remove (L := byName) h.names hp i).symm

/-- The stop that comes before a removal. -/
theorem updateSlot_stop (h : Distinct s) (hp : s.entries[k]? = some p)
    (hkill : ∀ pid ∈ Verb.kills p .remove, s.kernel.walk.kill pid = .ok ()) :
    ∃ u q, updateSlot k serverStopProcess s = .ok () u ∧ readSlot k u = .ok q u ∧
      u.entries[k]? = some q ∧ q.appName = p.appName ∧ Distinct u ∧
      u.processCount = s.processCount ∧
      u.entries = (Verb.edit 0 0 .stop).apply p.appName s.entries ∧
      u.killedPids = s.killedPids ++ Verb.kills p .remove := by
  have hstop : ∃ t, serverStopProcess p s = .ok (Verb.change 0 0 p .stop) t ∧
      Leaves s (Verb.kills p .remove) t := by
    by_cases hrun : p.isRunning = 0
    · have hchange : Verb.change 0 0 p .stop = p := if_neg fun h => h hrun
      rw [hchange, kills_of_idle hrun]
      exact ⟨s, serverStopProcess_idle hrun s, rfl, rfl, (List.append_nil _).symm⟩
    · have hchange : Verb.change 0 0 p .stop = p.stopped := if_pos hrun
      have hkills : Verb.kills p .remove = [p.pid] := kills_of_running hrun (by decide)
      rw [hkills, List.forall_mem_singleton] at hkill
      obtain ⟨t, ht, hleaves, -⟩ := serverStopProcess_kills hrun hkill
      rw [hchange, hkills]
      exact ⟨t, ht, hleaves⟩
  obtain ⟨u, hupdate, hread, hentries, hkilled⟩ := updateSlot_leaves hp hstop
  have hlt : k < s.entries.length := (List.getElem?_eq_some_iff.mp hp).1
  -- to stop an entry keeps the names
  obtain ⟨ops, hrun, rfl⟩ := (stop_performs (entries_get hp).1 h.tidy.inside).ok hupdate
  have htidy := h.tidy.local hrun (stopOps_local k)
  have hnames := entries_names hrun (stopOps_local k)
  refine ⟨u, _, hupdate, hread, ?_, Verb.change_appName 0 0 p .stop, ⟨htidy, ?_, ?_⟩,
    (counts_run hrun (stopOps_local k)).1, ?_, hkilled⟩
  · rw [hentries, List.getElem?_set_self hlt]
  · exact h.tidy.agrees_of_names htidy h.agrees hnames
  · rw [hnames]
    exact h.names
  · rw [hentries, edit_apply h.names hp (by decide)]

theorem serverRemoveProcess_removes (h : Distinct s) (hroom : s.processCount < listSize)
    (hp : s.entries[k]? = some p)
    (hkill : ∀ pid ∈ Verb.kills p .remove, s.kernel.walk.kill pid = .ok ()) :
    ∃ u, serverRemoveProcess k s = .ok p.appName.bytes u ∧
      u.entries = (.remove : Table.Edit byName).apply p.appName s.entries ∧
      u.killedPids = s.killedPids ++ Verb.kills p .remove := by
  obtain ⟨t, q, hupdate, hread, hq, hname, ht, hcount, hentries, hkilled⟩ :=
    updateSlot_stop h hp hkill
  obtain ⟨processList, res, hdel, hremoved⟩ := delProcessByAppName_listed ht (hcount ▸ hroom) hq
  refine ⟨{ t with processList := processList, processCount := t.processCount - 1 },
    ?_, ?_, hkilled⟩
  · have hget : (get : ServerM Server) t = .ok t t := rfl
    rw [serverRemoveProcess, bind_ok hupdate, bind_ok hread, bind_ok hget, hdel,
      bind_ok (attempt_ok _ t), ← hname]
    rfl
  · rw [hremoved, hname, hentries]
    exact Table.Edit.remove_change _ _

theorem serverRemoveProcessAndGetResponse_settles (h : Distinct s)
    (hroom : s.processCount < listSize) (hp : s.entries[k]? = some p) {buffer : Text}
    (hresolves : ResolvesTo s buffer k p) :
    Verb.Settles .remove s p (serverRemoveProcessAndGetResponse buffer) := by
  obtain ⟨type, htype, hparse, hpos⟩ := hresolves
  have hhandler : serverRemoveProcessAndGetResponse buffer s =
      (serverRemoveProcess k >>= fun appName =>
        if p.isRunning ≠ 0 then pure (str "Stopped And Removed " ++ appName ++ str ".")
        else pure (str "Removed " ++ appName ++ str ".")) s := by
    refine (resolved hparse).trans ?_
    rcases htype with rfl | rfl <;>
    · simp only
      rw [hpos, bind_ok (attempt_ok _ s)]
  constructor
  · rintro ⟨hkill, -⟩
    obtain ⟨u, hremove, hentries, hkilled⟩ := serverRemoveProcess_removes h hroom hp hkill
    refine ⟨u, ?_, hentries, hkilled⟩
    rw [hhandler, bind_ok hremove, Verb.reply]
    split <;> rfl
  · intro hunable
    by_cases hrun : p.isRunning = 0
    · exact absurd ⟨by simp [kills_of_idle hrun], False.elim⟩ hunable
    · have hkills : Verb.kills p .remove = [p.pid] := kills_of_running hrun (by decide)
      have hkill : s.kernel.walk.kill p.pid ≠ .ok () := by
        intro hkill
        refine hunable ⟨?_, False.elim⟩
        rw [hkills, List.forall_mem_singleton]
        exact hkill
      obtain ⟨e, t, hupdate⟩ := updateSlot_stuck hp (serverStopProcess_stuck hrun hkill)
      exact ⟨e, t, by rw [hhandler, serverRemoveProcess, bind_error (bind_error hupdate)]⟩

end Handlers

/-! ### Requests -/

theorem Verb.Settles.congr {verb : Verb} {s : Server} {p : Process} {m m' : ServerM Text}
    (h : verb.Settles s p m) (hm : m' s = m s) : verb.Settles s p m' := by
  refine ⟨fun hable => ?_, fun hunable => ?_⟩
  · rw [hm]
    exact h.done hable
  · rw [hm]
    exact h.stuck hunable

section Requests

variable {s t : Server} {p q : Process} {verb : Verb}

theorem cstr_operandBuffer (hbuffer : s.buffer = []) (verb : Verb) (name : StrBuf) :
    cstr (s.operandBuffer (verb.request name)) = name.bytes := by
  have hword : verb.word.length ≤ 8 := by cases verb <;> decide
  refine (cstr_pongAndReceiveData hword name.fits.le name.nulFree).mpr (Or.inr ?_)
  rw [hbuffer, List.getD_nil]

theorem handleRequest_handler (hbuffer : s.buffer = []) (verb : Verb) (name : StrBuf) :
    handleRequest (verb.request name) s = verb.handler (s.operandBuffer (verb.request name)) s := by
  have hcommand : readCommand (s.commandBuffer (verb.request name)) = verb.command := by
    rw [Server.commandBuffer, hbuffer]
    cases verb <;> rfl
  have hget : (get : ServerM Server) s = .ok s s := rfl
  rw [handleRequest, bind_ok hget]
  simp only [hcommand]
  cases verb <;> rfl

theorem handleRequest_verb (h : Plain s) (hbuffer : s.buffer = []) (hp : p ∈ s.entries)
    (verb : Verb) : verb.Settles s p (handleRequest (verb.request p.appName)) := by
  obtain ⟨k, hk⟩ := List.mem_iff_getElem?.mp hp
  have hresolves := h.resolvesTo hk (cstr_operandBuffer hbuffer verb p.appName)
  have hhandler := handleRequest_handler hbuffer verb p.appName
  cases verb with
  | start => exact (serverStartProcessAndGetResponse_settles h.names hk hresolves).congr hhandler
  | stop => exact (serverStopProcessAndGetResponse_settles h.names hk hresolves).congr hhandler
  | restart =>
    exact (serverRestartProcessAndGetResponse_settles h.names hk hresolves).congr hhandler
  | remove =>
    exact (serverRemoveProcessAndGetResponse_settles h.toDistinct h.room hk
      hresolves).congr hhandler

/-- No request by name adds a name. -/
theorem Verb.Done.plain (h : Plain s) (hdone : verb.Done s p t) (htidy : Tidy t) : Plain t := by
  have hsub : (t.entries.map Process.appName).Sublist (s.entries.map Process.appName) := by
    rw [hdone.entries]
    exact Table.Edit.keys_apply (L := byName) _ _ _
  have hold : ∀ r ∈ t.entries, ∃ r' ∈ s.entries, r'.appName = r.appName := fun r hr =>
    List.mem_map.mp (hsub.subset (List.mem_map_of_mem hr))
  refine ⟨⟨htidy, htidy.agrees_iff.mpr fun r hr => ?_, hsub.nodup h.names⟩, ?_, fun r hr => ?_⟩
  · obtain ⟨r', hr', hname⟩ := hold r hr
    exact hname ▸ h.tidy.agrees_iff.mp h.agrees r' hr'
  · have hle := hsub.length_le
    rw [List.length_map, List.length_map, length_entries htidy.inside,
      length_entries h.tidy.inside] at hle
    exact hle.trans_lt h.room
  · obtain ⟨r', hr', hname⟩ := hold r hr
    exact hname ▸ h.words r' hr'

/-- A request that is handled and gets `response`.  The buffer is cleared behind it; the config
file is not looked at. -/
def Handled (s : Server) (call : Request × Answers) (response : Text) (t : Server) : Prop :=
  ∃ u, handleRequest call.1 (s.asked call.2) = .ok response u ∧ t.processList = u.processList ∧
    t.processCount = u.processCount ∧ t.kernel = u.kernel ∧ t.buffer = []

/-- What there is to know of a request that has been handled. -/
structure Verb.Came (verb : Verb) (s : Server) (p : Process) (answers : Answers) (response : Text)
    (t : Server) : Prop where
  able : verb.Able p answers
  response : response = verb.reply p answers.pid
  entries : t.entries = (verb.edit answers.pid answers.now).apply p.appName s.entries
  killedPids : t.killedPids = s.killedPids ++ verb.kills p
  plain : Plain t
  buffer : t.buffer = []

theorem Plain.asked (h : Plain s) (answers : Answers) : Plain (s.asked answers) :=
  ⟨⟨⟨h.tidy.inside, h.tidy.unnamed⟩, h.agrees, h.names⟩, h.room, h.words⟩

theorem Handled.came (h : Plain s) (hbuffer : s.buffer = []) (hp : p ∈ s.entries)
    {answers : Answers} {response : Text}
    (hhandled : Handled s (verb.request p.appName, answers) response t) :
    verb.Came s p answers response t := by
  obtain ⟨u, hhandle, hlist, hcount, hkernel, hcleared⟩ := hhandled
  have hsettles := handleRequest_verb (h.asked answers) hbuffer hp verb
  have hable : verb.Able p answers := by
    by_contra hunable
    obtain ⟨f, v, hv⟩ := hsettles.stuck hunable
    rw [hv] at hhandle
    cases hhandle
  obtain ⟨v, hv, hdone⟩ := hsettles.done hable
  rw [hv] at hhandle
  cases hhandle
  -- the slots behind the list are still unnamed
  obtain ⟨ops, hrun, hplan⟩ := (handleRequest_performs (h.asked answers).tidy.inside _).ok hv
  have htidy := (plan_agrees (h.asked answers).tidy h.agrees hplan hrun).1
  have hentries : t.entries = u.entries := by rw [Server.entries, hlist, hcount, Server.entries]
  have hkilled :
    t.killedPids = u.killedPids := by rw [Server.killedPids, hkernel, Server.killedPids]
  have hdone' : verb.Done (s.asked answers) p t :=
    ⟨hentries.trans hdone.entries, hkilled.trans hdone.killedPids⟩
  have htidy' : Tidy t :=
    ⟨hcount ▸ htidy.inside, fun k r hk hr => htidy.unnamed k r (hcount ▸ hk) (hlist ▸ hr)⟩
  exact ⟨hable, rfl, hdone'.entries, hdone'.killedPids, hdone'.plain (h.asked answers) htidy',
    hcleared⟩

theorem handled_of_able (h : Plain s) (hbuffer : s.buffer = []) (hp : p ∈ s.entries)
    {answers : Answers} (hable : verb.Able p answers) :
    ∃ response t, Handled s (verb.request p.appName, answers) response t := by
  obtain ⟨u, hu, -⟩ := (handleRequest_verb (h.asked answers) hbuffer hp verb).done hable
  exact ⟨_, { u with buffer := [] }, u, hu, rfl, rfl, rfl, rfl⟩

/-- In the second of two requests its app has its pid and its state still. -/
theorem entry_after (verb' : Verb) (pid now : ℤ) {l : List Process} (hq : q ∈ l)
    (hne : q.appName ≠ p.appName) :
    ∃ q' ∈ (verb'.edit pid now).apply p.appName l, q'.appName = q.appName ∧
      q'.pid = q.pid ∧ q'.isRunning = q.isRunning := by
  rcases Table.Edit.mem_apply (L := byName) (verb'.edit pid now) hne hq with hq' | hq'
  · exact ⟨q, hq', rfl, rfl, rfl⟩
  · exact ⟨q.shifted, hq', rfl, rfl, rfl⟩

/-- That is all of an entry that counts. -/
theorem Verb.congr {q' : Process} (hname : q'.appName = q.appName) (hpid : q'.pid = q.pid)
    (hrun : q'.isRunning = q.isRunning) (verb : Verb) :
    verb.kills q' = verb.kills q ∧ (∀ answers, verb.Able q' answers ↔ verb.Able q answers) ∧
      ∀ pid, verb.reply q' pid = verb.reply q pid := by
  have hkills : verb.kills q' = verb.kills q := by rw [Verb.kills, Verb.kills, hpid, hrun]
  have hforks : verb.Forks q' ↔ verb.Forks q := by
    cases verb <;> simp only [Verb.Forks, hrun]
  refine ⟨hkills, fun answers => by rw [Verb.Able, Verb.Able, hkills, hforks], fun pid => ?_⟩
  cases verb <;> simp only [Verb.reply, hname, hrun]

end Requests

/-! ### Two requests -/

/-- Two requests that are handled one after the other. -/
def InTurn (s : Server) (first second : Request × Answers) (response response' : Text)
    (t : Server) : Prop :=
  ∃ u, Handled s first response u ∧ Handled u second response' t

/-- The same process; but if it has been forked with the answers `a` on one side and `a'` on the
other, it has the pids and the times of these. -/
inductive Process.SameUpTo (forks : List (Answers × Answers)) (p : Process) : Process → Prop
  | same : SameUpTo forks p p
  | forked {a a' : Answers} (h : (a, a') ∈ forks) (hpid : p.pid = a.pid)
    (hstart : p.startTime = a.now) :
    SameUpTo forks p { p with pid := a'.pid, startTime := a'.now }

section Two

variable {s t : Server} {p q : Process} {forks : List (Answers × Answers)} {a a' b b' : Answers}

theorem Process.SameUpTo.change (h : p.SameUpTo forks q) (hforks : (a, a') ∈ forks) (verb : Verb) :
    (verb.change a.pid a.now p).SameUpTo forks (verb.change a'.pid a'.now q) := by
  cases h with
  | same =>
    cases verb with
    | start =>
      rw [Verb.change, Verb.change]
      split
      · exact .forked hforks rfl rfl
      · exact .same
    | stop => exact .same
    | restart =>
      rw [Verb.change, Verb.change]
      split
      · exact .forked hforks rfl rfl
      · exact .same
    | remove => exact .same
  | forked h hpid hstart =>
    cases verb with
    | start =>
      rw [Verb.change, Verb.change]
      split
      · exact .forked hforks rfl rfl
      · exact .forked h hpid hstart
    | stop =>
      rw [Verb.change, Verb.change]
      split
      · exact .same
      · exact .forked h hpid hstart
    | restart =>
      rw [Verb.change, Verb.change]
      split
      · exact .forked hforks rfl rfl
      · exact .forked h hpid hstart
    | remove => exact .forked h hpid hstart

theorem sameUpTo_edit (hforks : (a, a') ∈ forks) (verb : Verb) :
    Table.Edit.Related (Process.SameUpTo forks) (verb.edit a.pid a.now)
      (verb.edit a'.pid a'.now) := by
  rw [Verb.edit, Verb.edit]
  split
  · exact .remove
  · exact .change fun _ _ h => h.change hforks verb

theorem sameUpTo_apply (hforks : (a, a') ∈ forks) (verb : Verb) (name : StrBuf)
    {l l' : List Process} (h : List.Forall₂ (Process.SameUpTo forks) l l') :
    List.Forall₂ (Process.SameUpTo forks) ((verb.edit a.pid a.now).apply name l)
      ((verb.edit a'.pid a'.now).apply name l') := by
  refine Table.Edit.apply_related (fun p q h => ?_) (fun p q h => ?_) (sameUpTo_edit hforks verb)
    name h
  · cases h <;> rfl
  · cases h with
    | same => exact .same
    | forked h hpid hstart => exact .forked h hpid hstart

/-- What the second request finds. -/
theorem Handled.came_after (h : Plain s) (hbuffer : s.buffer = []) (hp : p ∈ s.entries)
    (hq : q ∈ s.entries) (hne : p.appName ≠ q.appName) {f g : Verb} {r₁ r₂ : Text} {u : Server}
    (h₁ : Handled s (f.request p.appName, a) r₁ u) (h₂ : Handled u (g.request q.appName, b) r₂ t) :
    f.Came s p a r₁ u ∧ g.Came u q b r₂ t := by
  have hcame := h₁.came h hbuffer hp
  obtain ⟨q', hq', hname, hpid, hrun⟩ := entry_after f a.pid a.now hq hne.symm
  rw [← hcame.entries] at hq'
  rw [← hname] at h₂
  have hcame' := h₂.came hcame.plain hcame.buffer hq'
  obtain ⟨hkills, hable, hreply⟩ := Verb.congr hname hpid hrun g
  refine ⟨hcame, (hable b).mp hcame'.able, hcame'.response.trans (hreply _), ?_, ?_, hcame'.plain,
    hcame'.buffer⟩
  · rw [← hname]
    exact hcame'.entries
  · rw [← hkills]
    exact hcame'.killedPids

theorem inTurn_iff (h : Plain s) (hbuffer : s.buffer = []) (hp : p ∈ s.entries)
    (hq : q ∈ s.entries) (hne : p.appName ≠ q.appName) (f g : Verb) :
    (∃ r₁ r₂ t, InTurn s (f.request p.appName, a) (g.request q.appName, b) r₁ r₂ t) ↔
      f.Able p a ∧ g.Able q b := by
  constructor
  · rintro ⟨r₁, r₂, t, u, h₁, h₂⟩
    obtain ⟨hcame, hcame'⟩ := h₁.came_after h hbuffer hp hq hne h₂
    exact ⟨hcame.able, hcame'.able⟩
  · rintro ⟨hf, hg⟩
    obtain ⟨r₁, u, h₁⟩ := handled_of_able h hbuffer hp hf
    have hcame := h₁.came h hbuffer hp
    obtain ⟨q', hq', hname, hpid, hrun⟩ := entry_after f a.pid a.now hq hne.symm
    rw [← hcame.entries] at hq'
    obtain ⟨-, hable, -⟩ := Verb.congr hname hpid hrun g
    obtain ⟨r₂, t, h₂⟩ := handled_of_able hcame.plain hcame.buffer hq' ((hable b).mpr hg)
    rw [hname] at h₂
    exact ⟨r₁, r₂, t, u, h₁, h₂⟩

/-- Requests about different apps commute: both orders are handled under the same condition on the
two apps and the answers of the kernel, and then they leave the same list, have killed the same
pids and give the same responses, up to the pids and times of processes that they have forked. -/
theorem requests_commute (h : Plain s) (hbuffer : s.buffer = []) (hp : p ∈ s.entries)
    (hq : q ∈ s.entries) (hne : p.appName ≠ q.appName) (f g : Verb) (a a' b b' : Answers) :
    ((∃ r₁ r₂ t, InTurn s (f.request p.appName, a) (g.request q.appName, b) r₁ r₂ t) ↔
      f.Able p a ∧ g.Able q b) ∧
    ((∃ r₂ r₁ t, InTurn s (g.request q.appName, b') (f.request p.appName, a') r₂ r₁ t) ↔
      f.Able p a' ∧ g.Able q b') ∧
    ∀ r₁ r₂ t r₁' r₂' t', InTurn s (f.request p.appName, a) (g.request q.appName, b) r₁ r₂ t →
      InTurn s (g.request q.appName, b') (f.request p.appName, a') r₂' r₁' t' →
      List.Forall₂ (Process.SameUpTo [(a, a'), (b, b')]) t.entries t'.entries ∧
        t.killedPids.Perm t'.killedPids ∧
        (r₁ = f.reply p a.pid ∧ r₁' = f.reply p a'.pid) ∧
        (r₂ = g.reply q b.pid ∧ r₂' = g.reply q b'.pid) := by
  refine ⟨inTurn_iff h hbuffer hp hq hne f g, ?_, ?_⟩
  · rw [inTurn_iff h hbuffer hq hp hne.symm g f, and_comm]
  · rintro r₁ r₂ t r₁' r₂' t' ⟨u, h₁, h₂⟩ ⟨u', h₂', h₁'⟩
    obtain ⟨hf, hg⟩ := h₁.came_after h hbuffer hp hq hne h₂
    obtain ⟨hg', hf'⟩ := h₂'.came_after h hbuffer hq hp hne.symm h₁'
    refine ⟨?_, ?_, ⟨hf.response, hf'.response⟩, hg.response, hg'.response⟩
    · -- on the lists, the other order is the same as this one with the other answers
      rw [hg.entries, hf.entries, hf'.entries, hg'.entries, Table.Edit.apply_comm _ _ hne]
      refine sameUpTo_apply (by simp) g _ (sameUpTo_apply (by simp) f _ ?_)
      exact List.forall₂_same.mpr fun _ _ => .same
    · rw [hg.killedPids, hf.killedPids, hf'.killedPids, hg'.killedPids, List.append_assoc,
        List.append_assoc]
      exact List.Perm.append_left _ List.perm_append_comm

end Two

/-! Two apps are running. -/

/-- The second one is started when the first one has been. -/
def startsApi (u : Server) : Bool :=
  match serve (startCall .api 8).1 (u.asked (startCall .api 8).2) with
  | .ok _ s => decide (AppendsNamed u (startCall .api 8).1 ∧ s.buffer = [] ∧ s.processCount = 2 ∧
      s.entries.map (fun p => (p.appName, p.pid, p.isRunning)) =
        [(Process.web.appName, 7, 1), (Process.api.appName, 8, 1)])
  | .error _ _ => false

theorem twoApps :
    ∃ s p q, Run Served .empty [startCall .web 7, startCall .api 8] s ∧ Plain s ∧ s.buffer = [] ∧
      s.entries = [p, q] ∧ p.appName = Process.web.appName ∧ q.appName = Process.api.appName ∧
      p.pid = 7 ∧ q.pid = 8 ∧ p.isRunning = 1 ∧ q.isRunning = 1 := by
  obtain ⟨u, hweb, hu⟩ := served_of .empty (startCall .web 7) startsApi (by decide +kernel)
  obtain ⟨s, hapi, hs⟩ := served_of u (startCall .api 8) _ hu
  obtain ⟨hnamed, hbuffer, hcount, hentries⟩ := of_decide_eq_true hs
  have hempty : Distinct .empty := distinct_of_zero rfl rfl
  have hdistinct := (hempty.served (by decide +kernel) hweb).served hnamed hapi
  obtain ⟨p, q, hlist⟩ : ∃ p q, s.entries = [p, q] := by
    rw [← List.length_eq_two,
      ← List.length_map (f := fun p : Process => (p.appName, p.pid, p.isRunning)),
      hentries]
    rfl
  rw [hlist] at hentries
  simp only [List.map_cons, List.map_nil, List.cons.injEq, Prod.mk.injEq, and_true] at hentries
  obtain ⟨⟨hp, hp7, hprun⟩, hq, hq8, hqrun⟩ := hentries
  refine ⟨s, p, q, .cons hweb (.single hapi), ⟨hdistinct, hcount ▸ by decide, ?_⟩, hbuffer, hlist,
    hp, hq, hp7, hq8, hprun, hqrun⟩
  rw [hlist]
  intro r hr
  rcases List.mem_pair.mp hr with rfl | rfl
  · rw [hp]
    decide
  · rw [hq]
    decide

/-- The first one is removed, and the second one is restarted. -/
theorem requests_commute_web :
    ∃ s r₁ r₂ t r₁' r₂' t', Run Served .empty [startCall .web 7, startCall .api 8] s ∧
      InTurn s (Verb.request .remove Process.web.appName, onePid 9)
        (Verb.request .restart Process.api.appName, onePid 10) r₁ r₂ t ∧
      InTurn s (Verb.request .restart Process.api.appName, onePid 11)
        (Verb.request .remove Process.web.appName, onePid 12) r₂' r₁' t' ∧
      List.Forall₂ (Process.SameUpTo [(onePid 9, onePid 12), (onePid 10, onePid 11)]) t.entries
        t'.entries ∧
      t.killedPids.Perm t'.killedPids := by
  obtain ⟨s, p, q, hrun, hplain, hbuffer, hlist, hp, hq, hp7, hq8, hprun, hqrun⟩ := twoApps
  have hmem : p ∈ s.entries ∧ q ∈ s.entries := by simp [hlist]
  have hne : p.appName ≠ q.appName := by
    rw [hp, hq]
    decide
  obtain ⟨hthen, hthen', halike⟩ :=
    requests_commute hplain hbuffer hmem.1 hmem.2 hne .remove .restart
    (onePid 9) (onePid 12) (onePid 10) (onePid 11)
  have hremove : ∀ n : ℤ, Verb.Able p (onePid n) .remove := by
    refine fun n => ⟨fun pid hpid => ?_, False.elim⟩
    rw [kills_of_running (by rw [hprun]; decide) (by decide), List.mem_singleton, hp7] at hpid
    rw [hpid]
    rfl
  have hrestart : ∀ pid : ℤ, 0 ≤ pid → Verb.Able q (onePid pid) .restart := by
    refine fun n hn => ⟨fun pid hpid => ?_, fun _ => ⟨n, [], rfl, hn⟩⟩
    rw [kills_of_running (by rw [hqrun]; decide) (by decide), List.mem_singleton, hq8] at hpid
    rw [hpid]
    rfl
  obtain ⟨r₁, r₂, t, hturn⟩ := hthen.mpr ⟨hremove _, hrestart 10 (by decide)⟩
  obtain ⟨r₂', r₁', t', hturn'⟩ := hthen'.mpr ⟨hremove _, hrestart 11 (by decide)⟩
  obtain ⟨hentries, hkilled, -⟩ := halike r₁ r₂ t r₁' r₂' t' hturn hturn'
  rw [hp, hq] at hturn hturn'
  exact ⟨s, r₁, r₂, t, r₁', r₂', t', hrun, hturn, hturn', hentries, hkilled⟩

end KbPm
