/-
The list of apps, as the service stores it.

* `Represents s l` — the server `s` stores the apps `l`, in its list, its count,
  its ids and its names alike;
* `Represents.operand` — an operand is found to stand for what it names;
* `represents_update`, `represents_push`, `represents_erase` — operations on
  entries are changes of apps;
* `plan_represents`, `plan_stops` — what a request does to the entries is its
  effect on apps, with the instances that the kernel gives; and it stops the
  instances that it is to stop.
-/
import KbPm.AppList
import KbPm.Bounds
import KbPm.Length

namespace KbPm

open Trace

/-- What a process runs as, if it is running. -/
def Process.runsAs (process : Process) : Instance := ⟨process.pid, process.startTime⟩

/-- The app that a process is. -/
def Process.app (process : Process) : App :=
  ⟨process.appName, process.cmd, process.dir,
    if process.isRunning ≠ 0 then some process.runsAs else none⟩

/-- The instances that have been stopped with `kill_process`. -/
def Kernel.stopped (kernel : Kernel) : List Instance :=
  kernel.kills.map fun call => call.process.runsAs

/-- Entry `k`, up to its memory and its restart counter, is determined by its app. -/
structure Settled (k : ℕ) (p : Process) : Prop where
  id : p.id = k
  stopped : p.isRunning = 0 → p.pid = 0 ∧ p.startTime = 0
  running : p.isRunning ≠ 0 → p.isRunning = 1 ∧ 0 < p.pid

/-- The entries have the names of the apps. -/
structure Titled (s : Server) (l : AppList) : Prop where
  tidy : Tidy s
  names : s.entries.map Process.appName = l.apps.map App.appName

structure Represents (s : Server) (l : AppList) : Prop where
  tidy : Tidy s
  apps : s.entries.map Process.app = l.apps
  settled : ∀ (k : ℕ) p, s.entries[k]? = some p → Settled k p

/-- The process that an app is stored as, in entry `k`. -/
def App.process (app : App) (k : ℕ) : Process where
  appName := app.appName
  cmd := app.cmd
  dir := app.dir
  pid := (app.running.map Instance.pid).getD 0
  isRunning := if app.running.isSome then 1 else 0
  id := k
  memory := .empty
  restartTimes := 0
  startTime := (app.running.map Instance.startTime).getD 0

theorem Settled.similar {k : ℕ} {p : Process} (h : Settled k p) : (p.app.process k).Similar p := by
  obtain ⟨appName, cmd, dir, pid, isRunning, id, memory, restartTimes, startTime⟩ := p
  obtain ⟨hid, hstopped, hrunning⟩ := h
  simp only at hid hstopped hrunning
  subst hid
  by_cases hrun : isRunning = 0
  · obtain ⟨rfl, rfl⟩ := hstopped hrun
    subst hrun
    rfl
  · obtain ⟨rfl, -⟩ := hrunning hrun
    rfl

/-! ### What the kernel gives -/

/-- How many before it are taken is where an index is taken. -/
theorem getElem?_filter_range {p : ℕ → Bool} {j n : ℕ} (hj : j < n) (hp : p j = true) :
    ((List.range n).filter p)[(List.range j).countP p]? = some j := by
  obtain ⟨d, rfl⟩ := Nat.exists_eq_add_of_lt hj
  rw [show j + d + 1 = j + 1 + d by omega, List.range_add, List.range_succ, List.filter_append,
    List.filter_append, List.countP_eq_length_filter, List.append_assoc,
    List.getElem?_append_right le_rfl]
  simp [hp]

section Launch

variable {kernel : Kernel} {pid : ℤ} {forks : List ℤ}

theorem launch_first (hf : kernel.answers.forks = pid :: forks) :
    kernel.answers.launch 0 = ⟨pid, kernel.now⟩ := by
  rw [Answers.launch, hf, Kernel.now]
  cases kernel.answers.times <;> rfl

theorem launch_next (hf : kernel.answers.forks = pid :: forks) (process : Process) (i : ℕ) :
    kernel.answers.launch (i + 1) = (kernel.forked process pid forks).answers.launch i := by
  rw [Answers.launch, hf, Answers.launch, Kernel.forked]
  cases kernel.answers.times <;> rfl

/-- Entries that are started one by one get what the kernel gives one by one. -/
theorem starts_runsAs {s t : Server} {ks : List ℕ} (hks : ks.Nodup)
    (hrun : Run Effect s (ks.map .start) t) {i j : ℕ} (hi : ks[i]? = some j) {q : Process}
    (hq : t.entries[j]? = some q) : q.runsAs = s.kernel.answers.launch i := by
  induction ks generalizing s i with
  | nil => cases hi
  | cons k ks ih =>
    obtain ⟨hk, hks⟩ := List.nodup_cons.mp hks
    obtain ⟨u, hstep, hrest⟩ := run_cons.mp hrun
    cases hstep with
    | @start k p pid forks hlt hp hf h0 =>
      cases i with
      | succ i =>
        rw [launch_next hf p]
        exact ih hks hrest hi
      | zero =>
        obtain rfl : k = j := Option.some_inj.mp hi
        -- the later starts are those of other entries
        obtain ⟨r, hr, hacts⟩ := entry_of_run hrest (by
          intro op hop
          obtain ⟨m, -, rfl⟩ := List.mem_map.mp hop
          trivial) hq
        rw [filter_slot_map (fun _ => rfl) hks, if_neg hk] at hacts
        obtain rfl := run_nil.mp hacts
        rw [entries_setSlot] at hr
        have hset : (s.entries.set k (p.started pid s.kernel.now))[k]? = some q := hr
        rw [List.getElem?_set_self (List.getElem?_eq_some_iff.mp (entries_of_slot hlt hp)).1,
          Option.some_inj] at hset
        rw [launch_first hf, ← hset]
        rfl

/-- One entry is started. -/
theorem start_runsAs {s t : Server} {k : ℕ} {q : Process} (hrun : Run Effect s [.start k] t)
    (hq : t.entries[k]? = some q) : q.runsAs = s.kernel.answers.launch 0 := by
  have hrun' : Run Effect s ([k].map .start) t := hrun
  exact starts_runsAs (List.nodup_singleton k) hrun' (i := 0) rfl hq

theorem Effect.stopped {s t : Server} {op : Op} (h : Effect s op t) (hop : ∀ k, op ≠ .stop k) :
    t.kernel.stopped = s.kernel.stopped := by
  cases h with
  | @stop k => exact absurd rfl (hop k)
  | _ => rfl

theorem stopped_of_run {s t : Server} {ops : List Op} (h : Run Effect s ops t)
    (hops : ∀ k, .stop k ∉ ops) : t.kernel.stopped = s.kernel.stopped := by
  induction h with
  | nil s => rfl
  | cons hstep _ ih =>
    refine (ih fun k hk => hops k (List.mem_cons_of_mem _ hk)).trans (hstep.stopped ?_)
    rintro k rfl
    exact hops k List.mem_cons_self

/-- Entries that are stopped one by one. -/
theorem stops_runsAs {s t : Server} {ks : List ℕ} (hks : ks.Nodup)
    (hrun : Run Effect s (ks.map .stop) t) :
    t.kernel.stopped =
      s.kernel.stopped ++ ks.filterMap fun k => s.entries[k]?.map Process.runsAs := by
  induction ks generalizing s with
  | nil =>
    obtain rfl := run_nil.mp hrun
    exact (List.append_nil _).symm
  | cons k ks ih =>
    obtain ⟨hk, hks⟩ := List.nodup_cons.mp hks
    obtain ⟨u, hstep, hrest⟩ := run_cons.mp hrun
    cases hstep with
    | @stop k p hlt hp hrunning hpid =>
      have hothers : ∀ m ∈ ks, ((s.setKernel (s.kernel.killed { p with isRunning := 0 })).setSlot k
          p.stopped).entries[m]?.map Process.runsAs = s.entries[m]?.map Process.runsAs := by
        intro m hm
        have hne : k ≠ m := by
          rintro rfl
          exact hk hm
        rw [entries_setSlot, List.getElem?_set_ne hne]
        rfl
      rw [ih hks hrest, List.filterMap_congr hothers, List.filterMap_cons_some
        (by rw [entries_of_slot hlt hp, Option.map_some]), List.append_cons]
      simp [Kernel.stopped, Kernel.killed, Process.runsAs]

end Launch

section Represents

variable {s : Server} {l : AppList}

theorem Represents.app (h : Represents s l) {k : ℕ} {p : Process} (hp : s.entries[k]? = some p) :
    l.apps[k]? = some p.app := by
  rw [← h.apps, List.getElem?_map, hp]
  rfl

theorem Represents.titled (h : Represents s l) : Titled s l := by
  refine ⟨h.tidy, ?_⟩
  rw [← h.apps, List.map_map]
  rfl

theorem Titled.length (h : Titled s l) : s.processCount = l.apps.length := by
  rw [← length_entries h.tidy.inside, ← List.length_map Process.appName, h.names, List.length_map]

theorem Titled.agrees (h : Titled s l) : Agrees s := by
  rw [h.tidy.agrees_iff]
  intro p hp
  have hmem : p.appName ∈ l.apps.map App.appName := h.names ▸ List.mem_map_of_mem hp
  obtain ⟨app, happ, hname⟩ := List.mem_map.mp hmem
  exact hname ▸ l.named app happ

theorem Titled.fits (h : Titled s l) : Fits s := by
  have hagrees : s.processCount = getProcessListCount s.processList := h.agrees
  rw [Fits]
  omega

/-- An entry is known by its name. -/
theorem Titled.index_eq (h : Titled s l) {i j : ℕ} {p q : Process} (hp : s.entries[i]? = some p)
    (hq : s.entries[j]? = some q) (hname : p.appName = q.appName) : i = j := by
  have hdistinct := l.distinct
  rw [← h.names] at hdistinct
  exact index_of_nodup hdistinct hp hq hname

theorem Represents.length (h : Represents s l) : s.processCount = l.apps.length := h.titled.length

theorem Represents.names (h : Represents s l) :
    s.entries.map Process.appName = l.apps.map App.appName := h.titled.names

theorem Represents.agrees (h : Represents s l) : Agrees s := h.titled.agrees

theorem Represents.fits (h : Represents s l) : Fits s := h.titled.fits

theorem Represents.index_eq (h : Represents s l) {i j : ℕ} {p q : Process}
    (hp : s.entries[i]? = some p) (hq : s.entries[j]? = some q) (hname : p.appName = q.appName) :
    i = j := h.titled.index_eq hp hq hname

/-! ### Operands -/

theorem Titled.lookup_eq (h : Titled s l) (buffer : Text) :
    s.lookup buffer = if getProcessId l.apps.length buffer ≠ -1 then
        some (getProcessId l.apps.length buffer).toNat
      else l.apps.findIdx? fun app => app.appName.bytes == cstr buffer := by
  have hfind := congrArg (List.findIdx? fun name => name.bytes == cstr buffer) h.names
  rw [List.findIdx?_map, List.findIdx?_map] at hfind
  rw [Server.lookup, h.length]
  exact congrArg (ite _ _) hfind

/-- What is not listed is read as a program. -/
theorem Titled.resolve_unlisted (h : Titled s l) {buffer : Text} (hk : s.lookup buffer = none) :
    l.resolve buffer = match parseProcess .zero buffer with
      | .ok (process, 0) => .program process.appName process.cmd process.dir
      | _ => .unknown := by
  have hlookup := h.lookup_eq buffer
  rw [hk] at hlookup
  rw [AppList.resolve]
  split at hlookup
  · cases hlookup
  · rename_i hid
    exact (if_neg hid).trans (hlookup ▸ rfl)

/-- What an operand is found to stand for is what it names. -/
theorem Titled.operand (h : Titled s l) (buffer : Text) :
    match l.resolve buffer with
    | .app k => ∃ p, s.entries[k]? = some p ∧ s.operand buffer = .ok (.listed p k)
    | .program appName cmd dir => ∃ p, s.operand buffer = .ok (.decoded p) ∧
        p.appName = appName ∧ p.cmd = cmd ∧ p.dir = dir
    | .unknown => ∀ o, s.operand buffer = .ok o → o = .unknown := by
  have hn := h.tidy.inside
  have hlookup := h.lookup_eq buffer
  cases hk : s.lookup buffer with
  | some k =>
    have htarget : l.resolve buffer = .app k := by
      rw [AppList.resolve]
      rw [hk] at hlookup
      split at hlookup
      · rw [if_pos (by assumption)]
        exact congrArg Target.app (Option.some_inj.mp hlookup.symm)
      · rw [if_neg (by assumption), ← hlookup]
    obtain ⟨type, p, htype, hlt, hp, hparse⟩ := parse_listed hn hk
    obtain ⟨pos, q, hpos, hle, hq, hname, -⟩ := getPos_listed hn hlt hp
    have hentry := entries_of_slot hlt hp
    -- the first place of a name is its only one
    obtain rfl : pos = k := h.index_eq (entries_of_slot (by omega) hq) hentry hname
    rw [htarget]
    exact ⟨p, hentry, operand_listed htype hparse hpos⟩
  | none =>
    have htarget := h.resolve_unlisted hk
    have hparse := parse_unlisted hn hk
    cases hp : parseProcess .zero buffer with
    | error f =>
      rw [hp] at hparse htarget
      rw [htarget]
      intro o ho
      rw [Server.operand, hparse] at ho
      cases ho
    | ok r =>
      obtain ⟨p, res⟩ := r
      rw [hp] at hparse htarget
      rcases parseProcess_res hp with rfl | rfl
      · rw [htarget]
        refine ⟨p, ?_, rfl, rfl, rfl⟩
        rw [Server.operand, hparse]
        rfl
      · rw [htarget]
        intro o ho
        rw [Server.operand, hparse] at ho
        cases ho
        rfl

theorem Represents.operand (h : Represents s l) (buffer : Text) :
    match l.resolve buffer with
    | .app k => ∃ p, s.entries[k]? = some p ∧ s.operand buffer = .ok (.listed p k)
    | .program appName cmd dir => ∃ p, s.operand buffer = .ok (.decoded p) ∧
        p.appName = appName ∧ p.cmd = cmd ∧ p.dir = dir
    | .unknown => ∀ o, s.operand buffer = .ok o → o = .unknown :=
  h.titled.operand buffer

/-! ### The kernel's answers and the apps -/

/-- What a restart starts. -/
theorem restart_runsAs {t : Server} {k : ℕ} {q : Process}
    (hrun : Run Effect s [.stop k, .start k, .note k] t) (hq : t.entries[k]? = some q) :
    q.runsAs = s.kernel.answers.launch 0 := by
  obtain ⟨a, hstop, ha⟩ := run_cons.mp hrun
  obtain ⟨b, hstart, hb⟩ :=
    run_append.mp (show Run Effect a ([.start k] ++ [.note k]) t from ha)
  obtain ⟨c, hnote, hc⟩ := run_cons.mp hb
  obtain rfl := run_nil.mp hc
  have hanswers : a.kernel.answers.launch 0 = s.kernel.answers.launch 0 := by
    cases hstop
    rfl
  cases hnote with
  | @note _ p r hk hp hr =>
    have hentry := entries_of_slot hk hp
    rw [entries_setSlot, List.getElem?_set_self (List.getElem?_eq_some_iff.mp hentry).1,
      Option.some_inj] at hq
    have hstarted : p.runsAs = a.kernel.answers.launch 0 := start_runsAs hstart hentry
    rw [← hanswers, ← hstarted, ← hq, hr]
    rfl

theorem Represents.countP_stopped (h : Represents s l) {j : ℕ} (hj : j ≤ l.apps.length) :
    ((l.apps.take j).countP fun app => app.running.isNone) =
      (List.range j).countP fun k => !s.runs k := by
  induction j with
  | zero => rfl
  | succ j ih =>
    have hlt : j < s.entries.length := by
      rw [length_entries h.tidy.inside, h.length]
      omega
    have hp := List.getElem?_eq_getElem hlt
    rw [List.take_add_one, List.range_succ, List.countP_append, List.countP_append,
      ih (by omega), h.app hp]
    congr 1
    by_cases hrunning : s.entries[j].isRunning = 0 <;>
      simp [Process.app, runs_eq (entries_get hp).2, hrunning]

/-! ### Operations on entries -/

theorem Acts.settled {forks : List ℤ} {p q : Process} {op : Op} {j : ℕ}
    (hforks : ∀ pid ∈ forks, 0 < pid) (h : Acts forks p op q) (hslot : op.slot = some j)
    (hquit : op ≠ .quit j) (hp : Settled j p) : Settled j q := by
  cases h with
  | @note k p q hq =>
    rw [hq]
    exact ⟨hp.id, hp.stopped, hp.running⟩
  | @number k p =>
    obtain rfl : k = j := by simpa [Op.slot] using hslot
    exact ⟨rfl, hp.stopped, hp.running⟩
  | @start k p pid now h0 hf =>
    exact ⟨hp.id, fun h => absurd h (p.started_isRunning _ _), fun _ => ⟨rfl, hforks _ hf⟩⟩
  | @relaunch k p pid now h0 hf hrun =>
    exact ⟨hp.id, fun h => absurd h (p.started_isRunning _ _), fun _ => ⟨rfl, hforks _ hf⟩⟩
  | stop hrun hpid => exact ⟨hp.id, fun _ => ⟨rfl, rfl⟩, fun h => absurd rfl h⟩
  | @quit k p hrun =>
    obtain rfl : k = j := by simpa [Op.slot] using hslot
    exact absurd rfl hquit

/-- A run of operations on entries is a change of what runs, if it is one on each
entry. -/
theorem represents_update {t : Server} {ops : List Op}
    {f : ℕ → Option Instance → Option Instance} (h : Represents s l) (hrun : Run Effect s ops t)
    (hops : ∀ op ∈ ops, op.Local)
    (hf : ∀ (j : ℕ) p q, s.entries[j]? = some p → t.entries[j]? = some q → Settled j p →
      Run (Acts s.kernel.answers.forks) p (ops.filter fun op => op.slot = some j) q →
      Settled j q ∧ q.app = { p.app with running := f j p.app.running }) :
    Represents t (l.update f) := by
  -- every entry comes from one
  have hentry : ∀ (j : ℕ) q, t.entries[j]? = some q → ∃ p, s.entries[j]? = some p ∧
      Settled j q ∧ q.app = { p.app with running := f j p.app.running } := by
    intro j q hq
    obtain ⟨p, hp, hacts⟩ := entry_of_run hrun hops hq
    exact ⟨p, hp, hf j p q hp hq (h.settled j p hp) hacts⟩
  refine ⟨h.tidy.local hrun hops, ?_, fun j q hq => ?_⟩
  · apply List.ext_getElem?
    intro j
    rw [AppList.update, List.getElem?_mapIdx, ← h.apps, List.getElem?_map, List.getElem?_map]
    cases hq : t.entries[j]? with
    | none =>
      have hnone : s.entries[j]? = none := by
        rw [List.getElem?_eq_none_iff] at hq ⊢
        rw [← length_run hrun hops]
        exact hq
      rw [hnone]
      rfl
    | some q =>
      obtain ⟨p, hp, -, happ⟩ := hentry j q hq
      rw [hp, Option.map_some, happ]
      rfl
  · obtain ⟨p, -, hsettled, -⟩ := hentry j q hq
    exact hsettled

theorem represents_push {t : Server} {p : Process} (h : Represents s l)
    (hforks : ∀ pid ∈ s.kernel.answers.forks, 0 < pid) (hname : p.appName ≠ .empty)
    (hnew : s.named p.appName = false) (hstep : Effect s (.append p) t) :
    Represents t (l.push ⟨p.appName, p.cmd, p.dir, some (s.kernel.answers.launch 0)⟩) := by
  obtain ⟨pid, forks, hf, h0, hentries, -, -⟩ := hstep.append_entries
  rw [launch_first hf]
  set q : Process := { p.started pid s.kernel.now with id := s.processCount } with hq
  have hadmitted : q.app.appName ≠ .empty ∧ q.app.appName ∉ l.apps.map App.appName := by
    refine ⟨hname, fun hmem => ?_⟩
    rw [← h.names, ← named_iff] at hmem
    exact absurd (hnew.symm.trans hmem) (by decide)
  have hpush : (l.push q.app).apps = l.apps ++ [q.app] := by
    rw [AppList.push, dif_pos hadmitted]
  refine ⟨h.tidy.append hstep, ?_, fun k r hr => ?_⟩
  · exact (show t.entries.map Process.app = (l.push q.app).apps by
      rw [hpush, hentries, List.map_append, h.apps]; rfl)
  · rw [hentries, List.getElem?_append] at hr
    split at hr
    · exact h.settled k r hr
    · rename_i hge
      rw [length_entries h.tidy.inside] at hge hr
      obtain ⟨hlt, rfl⟩ := List.getElem?_eq_some_iff.mp hr
      have hk : k = s.processCount := by
        rw [List.length_singleton] at hlt
        omega
      subst hk
      simp only [Nat.sub_self, List.getElem_cons_zero]
      exact ⟨rfl, fun h => absurd h (p.started_isRunning pid s.kernel.now),
        fun _ => ⟨rfl, hforks pid (by simp [hf])⟩⟩

theorem represents_erase {t : Server} {k : ℕ} {p : Process} (h : Represents s l)
    (hp : s.entries[k]? = some p) (hstep : Effect s (.remove p.appName) t) :
    Represents t (l.erase k) := by
  obtain ⟨j, q, hq, hname, -, -, -, htidy, hget⟩ := entries_remove h.tidy h.fits hp hstep
  obtain rfl : j = k := h.index_eq hq hp hname
  refine ⟨htidy, ?_, fun i r hr => ?_⟩
  · apply List.ext_getElem?
    intro i
    rw [AppList.erase, List.getElem?_map, hget i, List.getElem?_eraseIdx, ← h.apps,
      List.getElem?_map, List.getElem?_map]
    split
    · rfl
    · rw [Option.map_map]
      rfl
  · rw [hget i] at hr
    split at hr
    · exact h.settled i r hr
    · obtain ⟨r', hr', rfl⟩ := Option.map_eq_some_iff.mp hr
      have hsettled := h.settled _ r' hr'
      refine ⟨?_, hsettled.stopped, hsettled.running⟩
      rw [Process.shifted, hsettled.id]
      push_cast
      ring

end Represents

/-! ### Requests -/

theorem app_running {p : Process} (h : p.isRunning ≠ 0) :
    p.app.running = some p.runsAs := if_pos h

theorem app_stopped {p : Process} (h : p.isRunning = 0) : p.app.running = none :=
  if_neg (not_not.mpr h)

section Requests

variable {s t : Server} {l : AppList} {forks : List ℤ} {p q : Process} {k : ℕ}

theorem acts_start (h : Acts forks p (.start k) q) :
    q.app = { p.app with running := some q.runsAs } := by
  cases h
  rfl

theorem acts_stop (h : Acts forks p (.stop k) q) : q.app = { p.app with running := none } := by
  cases h
  rfl

theorem acts_note (h : Acts forks p (.note k) q) : q.app = p.app ∧ q.runsAs = p.runsAs := by
  cases h with
  | note h =>
    rw [h]
    exact ⟨rfl, rfl⟩

theorem entry_runs {j : ℕ} (hp : s.entries[j]? = some p) : s.runs j = decide (p.isRunning ≠ 0) :=
  runs_eq (entries_get hp).2

/-- What starting an entry, stopping it, noting something of it, or nothing, makes of
an entry that is stored as its app. -/
theorem start_entry {j : ℕ} (hforks : ∀ pid ∈ forks, 0 < pid) (hp : Settled j p)
    (h : Run (Acts forks) p [.start j] q) :
    Settled j q ∧ q.app = { p.app with running := some q.runsAs } := by
  obtain ⟨r, hact, hr⟩ := run_cons.mp h
  obtain rfl := run_nil.mp hr
  exact ⟨hact.settled hforks rfl (by simp) hp, acts_start hact⟩

theorem stop_entry {j : ℕ} (hforks : ∀ pid ∈ forks, 0 < pid) (hp : Settled j p)
    (h : Run (Acts forks) p [.stop j] q) :
    Settled j q ∧ q.app = { p.app with running := none } := by
  obtain ⟨r, hact, hr⟩ := run_cons.mp h
  obtain rfl := run_nil.mp hr
  exact ⟨hact.settled hforks rfl (by simp) hp, acts_stop hact⟩

theorem note_entry {j : ℕ} (hforks : ∀ pid ∈ forks, 0 < pid) (hp : Settled j p)
    (h : Run (Acts forks) p [.note j] q) : Settled j q ∧ q.app = p.app := by
  obtain ⟨r, hact, hr⟩ := run_cons.mp h
  obtain rfl := run_nil.mp hr
  exact ⟨hact.settled hforks rfl (by simp) hp, (acts_note hact).1⟩

theorem restart_entry {j : ℕ} (hforks : ∀ pid ∈ forks, 0 < pid) (hp : Settled j p)
    (h : Run (Acts forks) p [.stop j, .start j, .note j] q) :
    Settled j q ∧ q.app = { p.app with running := some q.runsAs } := by
  obtain ⟨a, hstop, ha⟩ :=
    run_append.mp (show Run (Acts forks) p ([.stop j] ++ [.start j, .note j]) q
    from h)
  obtain ⟨b, hstart, hb⟩ :=
    run_append.mp (show Run (Acts forks) a ([.start j] ++ [.note j]) q from ha)
  obtain ⟨hsettleda, happa⟩ := stop_entry hforks hp hstop
  obtain ⟨hsettledb, happb⟩ := start_entry hforks hsettleda hstart
  obtain ⟨hsettled, happ⟩ := note_entry hforks hsettledb hb
  obtain ⟨c, hact, hc⟩ := run_cons.mp hb
  obtain rfl := run_nil.mp hc
  exact ⟨hsettled, by rw [happ, happb, happa, (acts_note hact).2]⟩

theorem startall_represents (h : Represents s l) (hforks : ∀ pid ∈ s.kernel.answers.forks, 0 < pid)
    (hrun : Run Effect s (((List.range s.processCount).filter fun k => !s.runs k).map .start) t) :
    Represents t (l.update fun j running =>
      running.or (some (l.launched s.kernel.answers .startall j))) := by
  have hnodup : ((List.range s.processCount).filter fun k => !s.runs k).Nodup :=
    List.nodup_range.filter _
  refine represents_update h hrun ?_ fun j p q hp hq hsettled hacts => ?_
  · intro op hop
    obtain ⟨k, -, rfl⟩ := List.mem_map.mp hop
    trivial
  · rw [filter_slot_map (fun _ => rfl) (List.nodup_range.filter _)] at hacts
    have hj := (entries_get hp).1
    by_cases hrunning : p.isRunning = 0
    · rw [if_pos (by simp [hj, entry_runs hp, hrunning])] at hacts
      have hlaunched : q.runsAs = l.launched s.kernel.answers .startall j := by
        refine starts_runsAs hnodup hrun ?_ hq
        rw [h.countP_stopped (by rw [← h.length]; omega)]
        exact getElem?_filter_range hj (by simp [entry_runs hp, hrunning])
      rw [app_stopped hrunning, Option.none_or, ← hlaunched]
      exact start_entry hforks hsettled hacts
    · rw [if_neg (by simp [entry_runs hp, hrunning])] at hacts
      obtain rfl := run_nil.mp hacts
      rw [app_running hrunning, Option.some_or, ← app_running hrunning]
      exact ⟨hsettled, rfl⟩

theorem stopall_represents (h : Represents s l) (hforks : ∀ pid ∈ s.kernel.answers.forks, 0 < pid)
    (hrun : Run Effect s (((List.range s.processCount).filter s.runs).map .stop) t) :
    Represents t (l.update fun _ _ => none) := by
  refine represents_update h hrun ?_ fun j p q hp hq hsettled hacts => ?_
  · intro op hop
    obtain ⟨k, -, rfl⟩ := List.mem_map.mp hop
    trivial
  · rw [filter_slot_map (fun _ => rfl) (List.nodup_range.filter _)] at hacts
    have hj := (entries_get hp).1
    by_cases hrunning : p.isRunning = 0
    · rw [if_neg (by simp [entry_runs hp, hrunning])] at hacts
      obtain rfl := run_nil.mp hacts
      rw [← app_stopped hrunning]
      exact ⟨hsettled, rfl⟩
    · rw [if_pos (by simp [hj, entry_runs hp, hrunning])] at hacts
      exact stop_entry hforks hsettled hacts

/-- What is only noted of the entries is no change of the apps. -/
theorem status_represents (h : Represents s l) (hforks : ∀ pid ∈ s.kernel.answers.forks, 0 < pid)
    (hrun : Run Effect s ((List.range s.processCount).map .note) t) : Represents t l := by
  rw [← AppList.update_id (l := l) (f := fun _ running => running) fun _ _ _ => rfl]
  refine represents_update h hrun ?_ fun j p q hp hq hsettled hacts => ?_
  · intro op hop
    obtain ⟨k, -, rfl⟩ := List.mem_map.mp hop
    trivial
  · rw [filter_slot_map (fun _ => rfl) List.nodup_range,
      if_pos (by simp [(entries_get hp).1])] at hacts
    exact note_entry hforks hsettled hacts

/-- Operations on the one slot `k`. -/
theorem slot_represents (h : Represents s l) {ops : List Op} (hops : ∀ op ∈ ops, op.slot = some k)
    (hlocal : ∀ op ∈ ops, op.Local) (hrun : Run Effect s ops t)
    {f : ℕ → Option Instance → Option Instance}
    (hother : ∀ j running, j ≠ k → f j running = running)
    (hf : ∀ p q, s.entries[k]? = some p → t.entries[k]? = some q → Settled k p →
      Run (Acts s.kernel.answers.forks) p ops q →
      Settled k q ∧ q.app = { p.app with running := f k p.app.running }) :
    Represents t (l.update f) := by
  refine represents_update h hrun hlocal fun j p q hp hq hsettled hacts => ?_
  by_cases hj : j = k
  · subst hj
    rw [filter_slot_self hops] at hacts
    exact hf p q hp hq hsettled hacts
  · rw [filter_slot_other hops hj] at hacts
    obtain rfl := run_nil.mp hacts
    rw [hother j _ hj]
    exact ⟨hsettled, rfl⟩

/-- Nothing is done, and the app is as the request wants it. -/
theorem idle_represents (h : Represents s l) {f : ℕ → Option Instance → Option Instance}
    (hother : ∀ j running, j ≠ k → f j running = running) (hp : s.entries[k]? = some p)
    (hk : f k p.app.running = p.app.running) : Represents s (l.update f) := by
  rw [AppList.update_id fun j app happ => ?_]
  · exact h
  · by_cases hj : j = k
    · subst hj
      rw [h.app hp, Option.some_inj] at happ
      rw [← happ, hk]
    · exact hother j _ hj

theorem start_represents (h : Represents s l) (hforks : ∀ pid ∈ s.kernel.answers.forks, 0 < pid)
    (hp : s.entries[k]? = some p) (hstopped : p.isRunning = 0) (hrun : Run Effect s [.start k] t) :
    Represents t (l.act (l.launched s.kernel.answers .start) .start (.app k)) := by
  change Represents t (l.update fun j running =>
    if j = k then running.or (some (s.kernel.answers.launch 0)) else running)
  refine slot_represents (k := k) h (by simp [Op.slot]) (by simp [Op.Local]) hrun
    (fun j running hj => if_neg hj) fun p' q hp' hq hsettled hacts => ?_
  obtain rfl : p = p' := Option.some_inj.mp (hp.symm.trans hp')
  rw [if_pos rfl, app_stopped hstopped, Option.none_or, ← start_runsAs hrun hq]
  exact start_entry hforks hsettled hacts

theorem stop_represents (h : Represents s l) (hforks : ∀ pid ∈ s.kernel.answers.forks, 0 < pid)
    (hp : s.entries[k]? = some p) (hrun : Run Effect s (s.stopOps k) t) :
    Represents t (l.act (l.launched s.kernel.answers .stop) .stop (.app k)) := by
  change Represents t (l.update fun j running => if j = k then none else running)
  rw [Server.stopOps, entry_runs hp] at hrun
  by_cases hrunning : p.isRunning = 0
  · rw [if_neg (by simp [hrunning])] at hrun
    obtain rfl := run_nil.mp hrun
    exact idle_represents h (fun j running hj => if_neg hj) hp
      (by rw [if_pos rfl, app_stopped hrunning])
  · rw [if_pos (by simp [hrunning])] at hrun
    refine slot_represents (k := k) h (by simp [Op.slot]) (by simp [Op.Local]) hrun
      (fun j running hj => if_neg hj) fun p' q hp' hq hsettled hacts => ?_
    rw [if_pos rfl]
    exact stop_entry hforks hsettled hacts

theorem restart_represents (h : Represents s l) (hforks : ∀ pid ∈ s.kernel.answers.forks, 0 < pid)
    (hp : s.entries[k]? = some p) (hrunning : p.isRunning ≠ 0)
    (hrun : Run Effect s (s.stopOps k ++ [.start k, .note k]) t) :
    Represents t (l.act (l.launched s.kernel.answers .restart) .restart (.app k)) := by
  change Represents t (l.update fun j running =>
    if j = k then running.map fun _ => s.kernel.answers.launch 0 else running)
  rw [Server.stopOps, entry_runs hp, if_pos (by simp [hrunning])] at hrun
  refine slot_represents (k := k) h (by simp [Op.slot]) (by simp [Op.Local]) hrun
    (fun j running hj => if_neg hj) fun p' q hp' hq hsettled hacts => ?_
  obtain rfl : p = p' := Option.some_inj.mp (hp.symm.trans hp')
  rw [if_pos rfl, app_running hrunning, Option.map_some, ← restart_runsAs hrun hq]
  exact restart_entry hforks hsettled hacts

theorem remove_represents (h : Represents s l) (hforks : ∀ pid ∈ s.kernel.answers.forks, 0 < pid)
    (hp : s.entries[k]? = some p) (hrun : Run Effect s (s.stopOps k ++ [.remove p.appName]) t) :
    Represents t (l.erase k) := by
  obtain ⟨u, hstop, hr⟩ := run_append.mp hrun
  obtain ⟨v, hstep, hv⟩ := run_cons.mp hr
  obtain rfl := run_nil.mp hv
  have hu := stop_represents h hforks hp hstop
  -- the stopped entry still has the name
  have hname := congrArg (fun names => names[k]?) (entries_names hstop (stopOps_local k))
  simp only [List.getElem?_map, hp, Option.map_some, Option.map_eq_some_iff] at hname
  obtain ⟨r, hr, hrname⟩ := hname
  rw [← hrname] at hstep
  have herase : (l.act (l.launched s.kernel.answers .stop) .stop (.app k)).erase k =
      l.erase k := by
    apply AppList.ext
    apply List.ext_getElem?
    intro j
    rw [AppList.act, AppList.erase, AppList.erase, List.getElem?_eraseIdx, List.getElem?_eraseIdx,
      AppList.update, List.getElem?_mapIdx, List.getElem?_mapIdx]
    split
    · have hj : j ≠ k := by omega
      simp [hj]
    · have hj : j + 1 ≠ k := by omega
      simp [hj]
  rw [← herase]
  exact represents_erase hu hr hstep

theorem append_represents (h : Represents s l) (hforks : ∀ pid ∈ s.kernel.answers.forks, 0 < pid)
    {ops : List Op} (hops : ops = s.operandPlan .start (.decoded p))
    (hname : ops = [.append p] → p.appName ≠ .empty) (hrun : Run Effect s ops t) :
    Represents t (l.act (l.launched s.kernel.answers .start) .start
      (.program p.appName p.cmd p.dir)) := by
  by_cases hnamed : s.named p.appName = true
  · rw [hops, Server.operandPlan, if_pos hnamed] at hrun
    obtain rfl := run_nil.mp hrun
    rw [AppList.act, AppList.push, dif_neg]
    · exact h
    · rw [named_iff, h.names] at hnamed
      exact fun hnew => hnew.2 hnamed
  · have hops' : ops = [.append p] := by rw [hops, Server.operandPlan, if_neg hnamed]
    rw [hops'] at hrun
    obtain ⟨u, hstep, hu⟩ := run_cons.mp hrun
    obtain rfl := run_nil.mp hu
    exact represents_push h hforks (hname hops') (by simpa using hnamed) hstep

/-- The requests that have an operand. -/
def Command.hasOperand (command : Command) : Prop :=
  command = .start ∨ command = .stop ∨ command = .restart ∨ command = .remove

theorem listed_represents (h : Represents s l) (hforks : ∀ pid ∈ s.kernel.answers.forks, 0 < pid)
    {command : Command} (hcommand : command.hasOperand) (hp : s.entries[k]? = some p)
    (hrun : Run Effect s (s.operandPlan command (.listed p k)) t) :
    Represents t (l.act (l.launched s.kernel.answers command) command (.app k)) := by
  -- a start of what runs and a stop of what does not change nothing
  rcases hcommand with rfl | rfl | rfl | rfl
  · change Run Effect s (if p.isRunning = 0 then [.start k] else []) t at hrun
    split at hrun
    · exact start_represents h hforks hp (by assumption) hrun
    · rename_i hrunning
      obtain rfl := run_nil.mp hrun
      change Represents t (l.update fun j running =>
        if j = k then running.or (some (t.kernel.answers.launch 0)) else running)
      refine idle_represents h (fun j running hj => if_neg hj) hp ?_
      rw [if_pos rfl, app_running hrunning, Option.some_or]
  · change Run Effect s (if p.isRunning ≠ 0 then s.stopOps k else []) t at hrun
    split at hrun
    · exact stop_represents h hforks hp hrun
    · rename_i hstopped
      obtain rfl := run_nil.mp hrun
      change Represents t (l.update fun j running => if j = k then none else running)
      refine idle_represents h (fun j running hj => if_neg hj) hp ?_
      rw [if_pos rfl, app_stopped (not_not.mp hstopped)]
  · change Run Effect s (if p.isRunning ≠ 0 then s.stopOps k ++
      [.start k, .note k] else []) t at hrun
    split at hrun
    · exact restart_represents h hforks hp (by assumption) hrun
    · rename_i hstopped
      obtain rfl := run_nil.mp hrun
      change Represents t (l.update fun j running =>
        if j = k then running.map fun _ => t.kernel.answers.launch 0 else running)
      refine idle_represents h (fun j running hj => if_neg hj) hp ?_
      rw [if_pos rfl, app_stopped (not_not.mp hstopped), Option.map_none]
  · exact remove_represents h hforks hp hrun

theorem operand_represents (h : Represents s l) (hforks : ∀ pid ∈ s.kernel.answers.forks, 0 < pid)
    {command : Command} {buffer : Text} {ops : List Op} (hcommand : command.hasOperand)
    (hops : s.operandOps command buffer = .ok ops)
    (hname : ∀ p, ops = [.append p] → p.appName ≠ .empty) (hrun : Run Effect s ops t) :
    Represents t (l.act (l.launched s.kernel.answers command) command (l.resolve buffer)) := by
  have hoperand := h.operand buffer
  have hplan : ∀ {o}, s.operand buffer = .ok o → ops = s.operandPlan command o := by
    intro o ho
    rw [Server.operandOps, ho] at hops
    exact (Except.ok.inj hops).symm
  cases htarget : l.resolve buffer with
  | app k =>
    rw [htarget] at hoperand
    obtain ⟨p, hp, ho⟩ := hoperand
    exact listed_represents h hforks hcommand hp (hplan ho ▸ hrun)
  | program appName cmd dir =>
    rw [htarget] at hoperand
    obtain ⟨p, ho, rfl, rfl, rfl⟩ := hoperand
    have hops := hplan ho
    rcases hcommand with rfl | rfl | rfl | rfl
    · exact append_represents h hforks hops (hname p) hrun
    -- only a start request takes a program
    all_goals
      obtain rfl : ops = [] := hops
      obtain rfl := run_nil.mp hrun
      exact h
  | unknown =>
    rw [htarget] at hoperand
    have hnil : ops = [] := by
      cases ho : s.operand buffer with
      | error f =>
        rw [Server.operandOps, ho] at hops
        cases hops
      | ok o =>
        have hops := hplan ho
        rw [hoperand o ho] at hops
        exact hops
    rw [hnil] at hrun
    obtain rfl := run_nil.mp hrun
    rcases hcommand with rfl | rfl | rfl | rfl <;> exact h

/-- A request does to the apps what it is for. -/
theorem plan_represents (h : Represents s l) (hforks : ∀ pid ∈ s.kernel.answers.forks, 0 < pid)
    {request : Request} {ops : List Op} (hplan : s.plan request = .ok ops)
    (hname : AppendsNamed s request) (hrun : Run Effect s ops t) :
    Represents t (l.act (l.launched s.kernel.answers (readCommand (s.commandBuffer request)))
      (readCommand (s.commandBuffer request)) (l.resolve (s.operandBuffer request))) := by
  have hname' : ∀ p, ops = [.append p] → p.appName ≠ .empty := fun p hp =>
    hname p (hplan.trans (congrArg _ hp))
  unfold Server.plan at hplan
  cases hc : readCommand (s.commandBuffer request) <;> rw [hc] at hplan
  case startall =>
    cases hplan
    exact startall_represents h hforks hrun
  case stopall =>
    cases hplan
    exact stopall_represents h hforks hrun
  case status =>
    cases hplan
    exact status_represents h hforks hrun
  case ping | error =>
    cases hplan
    obtain rfl := run_nil.mp hrun
    exact h
  all_goals exact operand_represents h hforks (by simp [Command.hasOperand]) hplan hname' hrun

/-! ### What is stopped -/

/-- Entries that are running are stopped in order. -/
theorem filterMap_running (h : Represents s l) {n : ℕ} (hn : n ≤ l.apps.length) :
    (((List.range n).filter s.runs).filterMap fun k => s.entries[k]?.map Process.runsAs) =
      (l.apps.take n).filterMap App.running := by
  induction n with
  | zero => rfl
  | succ n ih =>
    have hlt : n < s.entries.length := by
      rw [length_entries h.tidy.inside, h.length]
      omega
    have hp := List.getElem?_eq_getElem hlt
    rw [List.take_add_one, List.range_succ, List.filter_append, List.filterMap_append,
      List.filterMap_append, ih (by omega), h.app hp]
    congr 1
    by_cases hrunning : s.entries[n].isRunning = 0 <;>
      simp [Process.app, runs_eq (entries_get hp).2, hrunning, hlt]

theorem stopOps_stopped (h : Represents s l) (hp : s.entries[k]? = some p)
    (hrun : Run Effect s (s.stopOps k) t) :
    t.kernel.stopped = s.kernel.stopped ++ (l.apps[k]?.bind App.running).toList := by
  rw [h.app hp, Option.bind_some]
  rw [Server.stopOps, entry_runs hp] at hrun
  by_cases hrunning : p.isRunning = 0
  · rw [if_neg (by simp [hrunning])] at hrun
    obtain rfl := run_nil.mp hrun
    rw [app_stopped hrunning]
    exact (List.append_nil _).symm
  · rw [if_pos (by simp [hrunning])] at hrun
    have hrun' : Run Effect s ([k].map .stop) t := hrun
    rw [stops_runsAs (List.nodup_singleton k) hrun', app_running hrunning]
    simp [hp]

theorem listed_stops (h : Represents s l) {command : Command} (hcommand : command.hasOperand)
    (hp : s.entries[k]? = some p) (hrun : Run Effect s (s.operandPlan command (.listed p k)) t) :
    t.kernel.stopped = s.kernel.stopped ++ l.stops command (.app k) := by
  have hidle : p.isRunning = 0 → (l.apps[k]?.bind App.running).toList = [] := by
    intro hstopped
    rw [h.app hp, Option.bind_some, app_stopped hstopped]
    rfl
  rcases hcommand with rfl | rfl | rfl | rfl
  · refine (stopped_of_run hrun fun m hm => ?_).trans (List.append_nil _).symm
    change Op.stop m ∈ (if p.isRunning = 0 then [Op.start k] else []) at hm
    split at hm <;> simp at hm
  · change Run Effect s (if p.isRunning ≠ 0 then s.stopOps k else []) t at hrun
    split at hrun
    · exact stopOps_stopped h hp hrun
    · rename_i hstopped
      obtain rfl := run_nil.mp hrun
      rw [AppList.stops, hidle (not_not.mp hstopped), List.append_nil]
  · change Run Effect s (if p.isRunning ≠ 0 then s.stopOps k ++
      [.start k, .note k] else []) t at hrun
    split at hrun
    · obtain ⟨u, hstop, hstart⟩ := run_append.mp hrun
      exact (stopped_of_run hstart (by simp)).trans (stopOps_stopped h hp hstop)
    · rename_i hstopped
      obtain rfl := run_nil.mp hrun
      rw [AppList.stops, hidle (not_not.mp hstopped), List.append_nil]
  · obtain ⟨u, hstop, hremove⟩ := run_append.mp hrun
    exact (stopped_of_run hremove (by simp)).trans (stopOps_stopped h hp hstop)

theorem operand_stops (h : Represents s l) {command : Command} {buffer : Text} {ops : List Op}
    (hcommand : command.hasOperand) (hops : s.operandOps command buffer = .ok ops)
    (hrun : Run Effect s ops t) :
    t.kernel.stopped = s.kernel.stopped ++ l.stops command (l.resolve buffer) := by
  have hoperand := h.operand buffer
  -- only what is listed is stopped
  have hnone : (∀ m, Op.stop m ∉ ops) → ∀ target, (∀ m, target ≠ .app m) →
      t.kernel.stopped = s.kernel.stopped ++ l.stops command target := by
    intro hstop target htarget
    rw [stopped_of_run hrun hstop]
    cases target with
    | app m => exact absurd rfl (htarget m)
    | _ => rcases hcommand with rfl | rfl | rfl | rfl <;> exact (List.append_nil _).symm
  cases ho : s.operand buffer with
  | error f =>
    rw [Server.operandOps, ho] at hops
    cases hops
  | ok o =>
    obtain rfl : s.operandPlan command o = ops := by
      rw [Server.operandOps, ho] at hops
      exact Except.ok.inj hops
    cases htarget : l.resolve buffer with
    | app k =>
      rw [htarget] at hoperand
      obtain ⟨p, hp, hlisted⟩ := hoperand
      obtain rfl : o = .listed p k := Except.ok.inj (ho.symm.trans hlisted)
      exact listed_stops h hcommand hp hrun
    | program appName cmd dir =>
      rw [htarget] at hoperand
      obtain ⟨p, hdecoded, -⟩ := hoperand
      obtain rfl : o = .decoded p := Except.ok.inj (ho.symm.trans hdecoded)
      refine hnone (fun m hm => ?_) _ (by simp)
      rcases hcommand with rfl | rfl | rfl | rfl
      · change Op.stop m ∈ (if s.named p.appName then [] else [Op.append p]) at hm
        split at hm <;> simp at hm
      all_goals exact absurd hm (by simp [Server.operandPlan])
    | unknown =>
      rw [htarget] at hoperand
      obtain rfl := hoperand o ho
      exact hnone (fun m hm => absurd hm (by simp [Server.operandPlan])) _ (by simp)

/-- And it stops the instances that are to be stopped, and no others. -/
theorem plan_stops (h : Represents s l) {request : Request} {ops : List Op}
    (hplan : s.plan request = .ok ops) (hrun : Run Effect s ops t) :
    t.kernel.stopped = s.kernel.stopped ++
      l.stops (readCommand (s.commandBuffer request)) (l.resolve (s.operandBuffer request)) := by
  unfold Server.plan at hplan
  cases hc : readCommand (s.commandBuffer request) <;> rw [hc] at hplan
  case stopall =>
    cases hplan
    rw [stops_runsAs (List.nodup_range.filter _) hrun, h.length, filterMap_running h le_rfl,
      List.take_length]
    rfl
  case start | stop | restart | remove =>
    exact operand_stops h (by simp [Command.hasOperand]) hplan hrun
  all_goals
    cases hplan
    exact (stopped_of_run hrun (by simp)).trans (List.append_nil _).symm

end Requests

end KbPm
