/-
Startup and monitoring, over runs of the system.

* `Supervised.step` — a step that is not disturbed keeps the children tracked;
* `startup_tracks` — when the startup loop ends, every entry that is to run has one
  child, and every child that is alive has one entry;
* `monitor_tracks` — so it stays, and the monitor restarts or stops the one entry
  that has the pid of the dead child.
-/
import KbPm.Children
import KbPm.Killing
import KbPm.Length

namespace KbPm

open Trace

/-- The entries before this one have been started. -/
def Phase.bound : Phase → ℕ
  | .starting i => i
  | _ => listSize

/-- As long as the service runs, its children are tracked. -/
def Supervised (σ : System) : Prop :=
  (∀ fault, σ.phase ≠ .ended fault) → Tracked σ.phase.pending σ.phase.bound σ.server

/-- The startup loop finds no child of the entry that it comes to alive.  A request does
not get the pid that is still to be handled for a new child, and removes an entry only
while at most the last name is empty and, behind the startup loop, no entry that is
still to be started moves. -/
def Undisturbed (σ : System) : Event → Prop
  | .startup _ => Childless σ.server σ.phase.bound
  | .request request answers =>
    (∀ pid ∈ answers.forks, σ.phase.pending ≠ some pid) ∧
      ∀ plan, σ.server.plan request = .ok plan → RemovesSafely σ.phase.bound σ.server plan
  | _ => True

theorem Tracked.congr {pending : Option ℤ} {bound : ℕ} {s t : Server} (h : Tracked pending bound s)
    (hlist : t.processList = s.processList) (hcount : t.processCount = s.processCount)
    (hchildren : t.kernel.children = s.kernel.children) : Tracked pending bound t := by
  have hentries : t.entries = s.entries := by rw [Server.entries, hlist, hcount]; rfl
  have htidy : Tidy t := by
    refine ⟨hcount ▸ h.sound.tidy.inside, ?_⟩
    rw [hlist, hcount]
    exact h.sound.tidy.unnamed
  refine ⟨h.sound.congr htidy hentries hchildren, ?_, hentries ▸ h.names, ?_⟩
  · rw [Covered, hentries, hchildren]
    exact h.covered
  · rw [StartedBefore, hentries]
    exact h.started

/-- When the startup loop has passed the last entry, all entries have been started. -/
theorem Tracked.finished {bound : ℕ} {s : Server} (h : Tracked none bound s)
    (hbound : s.processCount ≤ bound) : Tracked none listSize s := by
  refine ⟨h.sound, h.covered, h.names, fun k p hp hrun h0 => ?_⟩
  have hle := h.started k p hp hrun h0
  have hlt := (entries_get hp).1
  omega

theorem Tracked.reap {pid : ℤ} {bound : ℕ} {s : Server} {kernel : Kernel} (h : Tracked none bound s)
    (hreap : s.kernel.reap pid = some kernel) :
    Tracked (some pid) bound { s with kernel := kernel } := by
  refine ⟨h.sound.reap hreap, fun c hc halive => h.covered c ?_ halive, h.names, h.started⟩
  rw [Kernel.reap] at hreap
  split_ifs at hreap
  · obtain rfl := Option.some_inj.mp hreap
    exact hc
  · obtain rfl := Option.some_inj.mp hreap
    exact (List.mem_filter.mp hc).1

theorem Tracked.exit {pending : Option ℤ} {bound : ℕ} {s : Server} (pid : ℤ)
    (h : Tracked pending bound s) :
    Tracked pending bound
      { s with kernel := { s.kernel with children := die pid s.kernel.children } } :=
  ⟨h.sound.exit pid, fun c hc halive => h.covered c (alive_of_die hc halive).1 halive,
    h.names, h.started⟩

theorem Tracked.planned {pending : Option ℤ} {bound : ℕ} {s t : Server} {plan : List Op}
    (h : Tracked pending bound s) (hfresh : FreshFor pending s.kernel) (hplanned : Planned s plan)
    (hremoves : RemovesSafely bound s plan) (hrun : Run Effect s plan t) :
    Tracked pending bound t :=
  ((h.guarded hfresh hplanned hremoves hrun).invariant
    (I := fun s => Tracked pending bound s ∧ FreshFor pending s.kernel)
    (fun _ _ _ hu hkeeps hstep => hu.1.step hu.2 hkeeps hstep) ⟨h, hfresh⟩).1

theorem Supervised.step {σ τ : System} {event : Event} (h : Supervised σ)
    (hok : Undisturbed σ event)
    (hstep : Steps σ event τ) : Supervised τ := by
  cases hstep.cases with
  | @iterate i answers hphase hi hfresh =>
    have hs := h (by simp [hphase])
    rw [Undisturbed, hphase] at hok
    rw [hphase] at hs
    rcases σ.after_cases (startupIteration i) answers (.starting (i + 1)) with
      ⟨a, t, hm, heq⟩ | ⟨f, t, hm, heq⟩ <;> rw [heq]
    · obtain ⟨ops, hrun, rfl⟩ := (startupIteration_performs (s := σ.server.asked answers) hi
        hs.sound.tidy.inside).ok hm
      have hs : Tracked none i (σ.server.asked answers) := hs.congr rfl rfl rfl
      -- the entry has no child before its iteration
      exact fun _ => hs.iterated ⟨hfresh, by simp⟩ hok hrun
    · exact fun hend => absurd rfl (hend f)
  | finish hphase hi =>
    have hs := h (by simp [hphase])
    rw [hphase] at hs
    exact fun _ => hs.finished hi
  | @wait pid kernel hphase hreap =>
    have hs := h (by simp [hphase])
    rw [hphase] at hs
    exact fun _ => hs.reap hreap
  | @handle pid answers hphase hfresh =>
    have hs := h (by simp [hphase])
    rw [hphase] at hs
    rcases σ.after_cases (handleExit pid) answers .waiting with
      ⟨a, t, hm, heq⟩ | ⟨f, t, hm, heq⟩ <;>
      rw [heq]
    · obtain ⟨ops, hrun, rfl⟩ := (handleExit_performs pid (s := σ.server.asked answers)
        hs.sound.tidy.inside).ok hm
      have hs : Tracked (some pid) listSize (σ.server.asked answers) := hs.congr rfl rfl rfl
      exact fun _ => hs.handled hfresh hrun
    · exact fun hend => absurd rfl (hend f)
  | @request request answers hphase hfresh =>
    -- requests are served in every phase, also between `wait` and the lock
    obtain ⟨hpending, hremoves⟩ := hok
    have hs := h hphase
    rcases σ.after_cases (serve request) answers σ.phase with ⟨a, t, hm, heq⟩ | ⟨f, t, hm, heq⟩ <;>
      rw [heq]
    · have hserved : Served σ.server (request, answers) t := ⟨a, hm⟩
      obtain ⟨plan, u, text, hplan, hrun, -, rfl⟩ := hserved.plan hs.sound.tidy.inside
      have hs : Tracked σ.phase.pending σ.phase.bound (σ.server.asked answers) :=
        hs.congr rfl rfl rfl
      have hplanned : Planned (σ.server.asked answers) plan := plan_cases hs.sound.tidy.inside hplan
      exact fun _ =>
        (hs.planned ⟨hfresh, hpending⟩ hplanned (hremoves plan hplan) hrun).congr rfl rfl rfl
    · exact fun hend => absurd rfl (hend f)
  | exit => exact fun hend => (h hend).exit _

/-- The entries that the service starts with have not been started. -/
theorem tracked_loaded {file : Option Text} {junk configFile buffer : Text}
    {l : ProcessList} {n : ℕ}
    (hload : serviceLoad file junk = .ok (l, n)) (htidy : Tidy (.loaded l n configFile buffer))
    (hnames : ((Server.loaded l n configFile buffer).entries.map Process.appName).Nodup) :
    Tracked none 0 (.loaded l n configFile buffer) := by
  have hidle : ∀ (k : ℕ) p, (Server.loaded l n configFile buffer).entries[k]? = some p →
      p.pid = 0 := by
    intro k p hp
    obtain ⟨hk, hslot⟩ := entries_get hp
    rcases serviceLoad_cases hload with hloaded | rfl
    · exact (hloaded.idle k p hslot).1
    · exact absurd hk (Nat.not_lt_zero k)
  refine ⟨⟨htidy, fun k p hp _ => hidle k p hp, fun k p hp => (hidle k p hp).ge,
    fun i j p q hp hq h0 => absurd (hidle i p hp) h0, fun k p hp h0 => absurd (hidle k p hp) h0,
    List.nodup_nil, fun pid hpid => ?_, fun pid hpid => ?_⟩, fun c hc => ?_, hnames,
      fun k p hp hrun h0 => ?_⟩
  · cases hpid
  · cases hpid
  · cases hc
  · exact Nat.zero_le k

/-! ### Startup -/

/-- A child that is alive has one entry. -/
theorem Tracked.one_entry {pending : Option ℤ} {bound : ℕ} {s : Server}
    (h : Tracked pending bound s)
    {c : Child} (hc : c ∈ s.kernel.children) (halive : c.alive = true) :
    ∃! k : ℕ, ∃ p, s.entries[k]? = some p ∧ p.isRunning ≠ 0 ∧ p.pid = c.pid := by
  obtain ⟨k, p, hp, hpid⟩ := h.covered c hc halive
  have hpos := h.sound.child_pos hc
  refine ⟨k, ⟨p, hp, fun hrun => ?_, hpid⟩, ?_⟩
  · have h0 := h.sound.stopped k p hp hrun
    omega
  · rintro j ⟨q, hq, -, hqpid⟩
    exact h.sound.distinct j k q p hq hp (by omega) (hqpid.trans hpid.symm)

theorem Sound.one_child {s : Server} (h : Sound none s) {k : ℕ} {p : Process}
    (hp : s.entries[k]? = some p) (h0 : p.pid ≠ 0) :
    ∃! c, c ∈ s.kernel.children ∧ c.pid = p.pid := by
  obtain ⟨c, hc, hcpid, -⟩ := (h.known k p hp h0).resolve_left (by simp)
  refine ⟨c, ⟨hc, hcpid⟩, ?_⟩
  rintro d ⟨hd, hdpid⟩
  exact List.inj_on_of_nodup_map h.children hd hc (hdpid.trans hcpid.symm)

/-- When the startup loop has finished, each entry that is to run has one child, and
each child that is alive has one entry. -/
theorem startup_tracks {file : Option Text} {junk configFile buffer : Text}
    {l : ProcessList} {n : ℕ}
    {events : List Event} {answers : Answers} {σ τ : System}
    (hload : parseProcessListFromPath file junk .zero = .ok (l, (n : ℤ)))
    (hnames : ((Server.loaded l n configFile buffer).entries.map Process.appName).Nodup)
    (hrun : Guarded Steps Undisturbed ⟨.loaded l n configFile buffer, .starting 0⟩ events σ)
    (hstep : Steps σ (.startup answers) τ) (hfinished : τ.phase = .waiting) :
    (∀ (k : ℕ) p, τ.server.entries[k]? = some p → p.isRunning ≠ 0 →
      ∃! c, c ∈ τ.server.kernel.children ∧ c.pid = p.pid) ∧
    ∀ c ∈ τ.server.kernel.children, c.alive = true →
      ∃! k : ℕ, ∃ p, τ.server.entries[k]? = some p ∧ p.isRunning ≠ 0 ∧ p.pid = c.pid := by
  have hloaded : serviceLoad file junk = .ok (l, n) := by
    rw [serviceLoad, hload]
    rfl
  have hinit : Supervised ⟨.loaded l n configFile buffer, .starting 0⟩ := fun _ =>
    tracked_loaded hloaded (loaded_of_path hload).tidy hnames
  have hσ := hrun.invariant (I := Supervised) (fun _ _ _ h hok hs => h.step hok hs) hinit
  cases hstep.cases with
  | @iterate i _ hphase hi hfresh =>
    -- the loop has not finished
    rcases σ.after_cases (startupIteration i) answers (.starting (i + 1)) with
      ⟨a, t, -, heq⟩ | ⟨f, t, -, heq⟩ <;>
    · rw [heq] at hfinished
      cases hfinished
  | @finish i _ hphase hi =>
    have hs := hσ (by simp [hphase])
    rw [hphase] at hs
    have ht : Tracked none listSize σ.server := hs.finished hi
    refine ⟨fun k p hp hrunning => ht.sound.one_child hp fun h0 => ?_, fun c hc halive =>
      ht.one_entry hc halive⟩
    have hle := ht.started k p hp hrunning h0
    have hlt : k < σ.server.processCount := (entries_get hp).1
    have hn := ht.sound.tidy.inside
    omega

/-- An app is restarted on request before the loop comes to its end. -/
theorem startup_tracks_web :
    ∃ τ, Run Steps webSystem [.startup (onePid 7), .request ⟨str "restart", str "0"⟩ (onePid 8),
        .startup (onePid 9)] τ ∧ τ.phase = .waiting ∧
      (∀ (k : ℕ) p, τ.server.entries[k]? = some p → p.isRunning ≠ 0 →
        ∃! c, c ∈ τ.server.kernel.children ∧ c.pid = p.pid) ∧
      ∀ c ∈ τ.server.kernel.children, c.alive = true →
        ∃! k : ℕ, ∃ p, τ.server.entries[k]? = some p ∧ p.isRunning ≠ 0 ∧ p.pid = c.pid := by
  set σ := (webSystem.step (.startup (onePid 7))).getD webSystem
  have hstart : Steps webSystem (.startup (onePid 7)) σ := steps_of_isSome (by decide +kernel)
  obtain ⟨τ, hrun, hτ⟩ := run_of_any σ
    [.request ⟨str "restart", str "0"⟩ (onePid 8), .startup (onePid 9)]
    (fun τ => decide (τ.phase = .waiting)) (by decide +kernel)
  have hphase : τ.phase = .waiting := of_decide_eq_true hτ
  obtain ⟨υ, hrequest, hlast⟩ := run_cons.mp hrun
  obtain ⟨ω, hfinish, hω⟩ := run_cons.mp hlast
  obtain rfl := run_nil.mp hω
  have hidle : Undisturbed webSystem (.startup (onePid 7)) := fun p _ c hc => by cases hc
  -- the request removes nothing, and no dead child is still to be handled
  have hplan : (σ.server.plan ⟨str "restart", str "0"⟩).toOption =
      some [.stop 0, .start 0, .note 0] := by decide +kernel
  have hpending : σ.phase.pending = none := by decide +kernel
  have hrestart : Undisturbed σ (.request ⟨str "restart", str "0"⟩ (onePid 8)) := by
    refine ⟨fun pid _ => by simp [hpending], fun plan hp name hmem => ?_⟩
    rw [hp] at hplan
    obtain rfl := Option.some_inj.mp hplan
    simp at hmem
  have hnames : (webSystem.server.entries.map Process.appName).Nodup := by decide +kernel
  exact ⟨τ, .cons hstart hrun, hphase, startup_tracks webList_load hnames
    (.cons hidle hstart (.cons hrestart hrequest (.nil υ))) hfinish hphase⟩

/-- A request appends an app before the startup loop comes to its end, and the loop starts
it once more. -/
theorem startup_starts_twice :
    parseProcessListFromPath (some webConfig) [] .zero = .ok (webList, (1 : ℕ)) ∧
      ∃ τ, Run Steps ⟨.loaded webList 1 webConfig [], .starting 0⟩
          [.request (startCall .api 7).1 (startCall .api 7).2, .startup (onePid 8),
            .startup (onePid 9), .startup (onePid 10)] τ ∧
        τ.phase = .waiting ∧ ∃ c ∈ τ.server.kernel.children, c.alive = true ∧
          ∀ p ∈ τ.server.entries, p.pid ≠ c.pid := by
  obtain ⟨τ, hrun, hτ⟩ := run_of_any webSystem
    [.request (startCall .api 7).1 (startCall .api 7).2, .startup (onePid 8),
      .startup (onePid 9), .startup (onePid 10)]
    (fun τ => decide (τ.phase = .waiting ∧ ∃ c ∈ τ.server.kernel.children, c.alive = true ∧
      ∀ p ∈ τ.server.entries, p.pid ≠ c.pid)) (by decide +kernel)
  exact ⟨webList_load, τ, hrun, of_decide_eq_true hτ⟩

/-! ### Monitoring -/

/-- No entry has the pid. -/
def Unclaimed (s : Server) (pid : ℤ) : Prop := ∀ (k : ℕ) p, s.entries[k]? = some p → p.pid ≠ pid

/-- When the entry that has a pid is stopped, no entry has it afterwards. -/
theorem Sound.stopped_unclaimed {pid : ℤ} {s t : Server} {ops : List Op} {k : ℕ} {p : Process}
    (h : Sound (some pid) s) (hforks : pid ∉ s.kernel.answers.forks) (hops : ∀ op ∈ ops, op.Local)
    (hstop : .stop k ∈ ops) (hp : s.entries[k]? = some p) (hpid : p.pid = pid)
    (hrun : Run Effect s ops t) : Unclaimed t pid := by
  rintro j q hq rfl
  have h0 := (h.gone _ rfl).2
  obtain ⟨r, hr, hacts⟩ := entry_of_run hrun hops hq
  rcases acts_pid hacts with hkept | hzero | hforked
  · -- the entry is the one that is stopped
    obtain rfl : k = j := h.distinct k j p r hp hr (hpid.symm ▸ h0) (hpid.trans hkept)
    rcases acts_stopped hacts (List.mem_filter.mpr ⟨hstop, by simp [Op.slot]⟩) with hzero | hforked
    · exact h0 hzero
    · exact hforks hforked
  · exact h0 hzero
  · exact hforks hforked

theorem Tracked.stopped_unclaimed {pid : ℤ} {bound : ℕ} {s t : Server} {plan : List Op} {k : ℕ}
    {p : Process} (h : Tracked (some pid) bound s) (hforks : pid ∉ s.kernel.answers.forks)
    (hplanned : Planned s plan) (hremoves : RemovesSafely bound s plan) (hstop : .stop k ∈ plan)
    (hp : s.entries[k]? = some p) (hpid : p.pid = pid) (hrun : Run Effect s plan t) :
    Unclaimed t pid := by
  rcases hplanned.local with hlocal | ⟨q, buffer, res, rfl, -, -⟩ | ⟨q, pos, hlisted, rfl⟩
  · exact h.sound.stopped_unclaimed hforks hlocal hstop hp hpid hrun
  · cases List.mem_singleton.mp hstop
  · obtain ⟨u, j, r, hstopped, hr, hname, hstep⟩ := run_remove hlisted hrun
    have hmem : .stop k ∈ s.stopOps pos := by
      rcases List.mem_append.mp hstop with hmem | hmem
      · exact hmem
      · cases List.mem_singleton.mp hmem
    have hfree := h.sound.stopped_unclaimed hforks (stopOps_local pos) hmem hp hpid hstopped
    have htidy := h.sound.tidy.local hstopped (stopOps_local pos)
    obtain ⟨hfits, -⟩ := hremoves q.appName (List.mem_append_right _ List.mem_cons_self)
    obtain ⟨i, w, -, -, -, -, -, -, hget⟩ :=
      entries_remove htidy ((fits_run hstopped (stopOps_local pos)).mpr hfits) hr hstep
    intro x y hy
    rw [hget x] at hy
    split at hy
    · exact hfree x y hy
    · obtain ⟨z, hz, rfl⟩ := Option.map_eq_some_iff.mp hy
      exact hfree (x + 1) z hz

/-- What the monitor can do with a pid: nothing, when no entry has it, and else it stops the
one entry that has it, or starts it again. -/
inductive Handles (s : Server) (pid : ℤ) (t : Server) : Prop
  | none (hnone : Unclaimed s pid) (hentries : t.entries = s.entries)
    (hchildren : t.kernel.children = s.kernel.children)
  | quit {k : ℕ} {p : Process} (hcarries : Carries s pid k p) (hput : Puts s t k p.quit)
    (hchildren : t.kernel.children = s.kernel.children)
  | restart {k : ℕ} {p q : Process} {new now : ℤ} (hcarries : Carries s pid k p)
    (hnew : 0 < new ∧ new ∉ s.kernel.pids) (hq : (p.started new now).Similar q)
      (hput : Puts s t k q)
    (hchildren : t.kernel.children = ⟨new, p, true⟩ :: s.kernel.children)

theorem Sound.handles {pid : ℤ} {s t : Server} (h : Sound (some pid) s)
    (hfresh : s.kernel.Fresh s.kernel.answers.forks) (hrun : Run Effect s (s.exitPlan pid) t) :
    Handles s pid t := by
  rcases h.handled_cases hrun with ⟨rfl, hnone⟩ | ⟨k, p, hcarries, hcase⟩
  · exact .none hnone rfl rfl
  · rcases hcase with ⟨-, hput, hkernel⟩ | ⟨new, now, forks, q, -, hf, hsim, hput, hkernel⟩
    · exact .quit hcarries hput (by rw [hkernel]; rfl)
    · have hnew := hfresh.2 new (by rw [hf]; exact List.mem_cons_self)
      exact .restart hcarries hnew hsim hput (by rw [hkernel]; rfl)

/-- What the entries and the children of the service are to each other. -/
structure Tracks (σ : System) : Prop where
  running : ∀ (k : ℕ) p, σ.server.entries[k]? = some p → p.isRunning ≠ 0 → 0 < p.pid
  distinct : ∀ (i j : ℕ) p q, σ.server.entries[i]? = some p → σ.server.entries[j]? = some q →
    p.isRunning ≠ 0 → p.pid = q.pid → i = j
  stopped : ∀ (k : ℕ) p, σ.server.entries[k]? = some p → p.isRunning = 0 → p.pid = 0
  alive : ∀ c ∈ σ.server.kernel.children, c.alive = true →
    ∃! k : ℕ, ∃ p, σ.server.entries[k]? = some p ∧ p.isRunning ≠ 0 ∧ p.pid = c.pid
  known : ∀ (k : ℕ) p, σ.server.entries[k]? = some p → p.isRunning ≠ 0 →
    (∃ c ∈ σ.server.kernel.children, c.pid = p.pid ∧ c.app.program = p.program) ∨
      σ.phase = .reaped p.pid

theorem Tracked.tracks {σ : System} (h : Tracked σ.phase.pending listSize σ.server) : Tracks σ := by
  have hstarted : ∀ (k : ℕ) p, σ.server.entries[k]? = some p → p.isRunning ≠ 0 → p.pid ≠ 0 := by
    intro k p hp hrun h0
    have hle := h.started k p hp hrun h0
    have hlt := (entries_get hp).1
    have hn := h.sound.tidy.inside
    omega
  refine ⟨fun k p hp hrun => ?_, fun i j p q hp hq hrun =>
    h.sound.distinct i j p q hp hq (hstarted i p hp hrun),
    h.sound.stopped, fun c hc halive => h.one_entry hc halive, fun k p hp hrun => ?_⟩
  · have hle := h.sound.nonneg k p hp
    have hne := hstarted k p hp hrun
    omega
  · refine (h.sound.known k p hp (hstarted k p hp hrun)).symm.imp_right fun hpending => ?_
    cases hphase : σ.phase <;> rw [hphase] at hpending <;> cases hpending
    rfl

/-- From the end of the startup loop on, the children are tracked, the monitor restarts or
stops the one entry that has the pid of the dead child, and there is none when a request
has stopped it. -/
theorem monitor_tracks {file : Option Text} {junk configFile buffer : Text}
    {l : ProcessList} {n : ℕ}
    {events : List Event} {τ : System} (hload : serviceLoad file junk = .ok (l, n))
    (htidy : Tidy (.loaded l n configFile buffer))
    (hnames : ((Server.loaded l n configFile buffer).entries.map Process.appName).Nodup)
    (hrun : Guarded Steps Undisturbed ⟨.loaded l n configFile buffer, .starting 0⟩ events τ)
    (hphase : τ.phase = .waiting ∨ ∃ pid, τ.phase = .reaped pid) :
    Tracks τ ∧
      (∀ answers υ, Steps τ (.handle answers) υ → υ.phase = .waiting →
        ∃ pid, τ.phase = .reaped pid ∧ Handles τ.server pid υ.server) ∧
      ∀ request answers υ plan pid k p, Steps τ (.request request answers) υ →
        Undisturbed τ (.request request answers) → τ.phase = .reaped pid → υ.phase = .reaped pid →
        τ.server.plan request = .ok plan → .stop k ∈ plan → τ.server.entries[k]? = some p →
        p.pid = pid → Unclaimed υ.server pid := by
  have hinit : Supervised ⟨.loaded l n configFile buffer, .starting 0⟩ := fun _ =>
    tracked_loaded hload htidy hnames
  have hτ := hrun.invariant (I := Supervised) (fun _ _ _ h hok hs => h.step hok hs) hinit
  have hbound : τ.phase.bound = listSize := by
    rcases hphase with hphase | ⟨pid, hphase⟩ <;> rw [hphase] <;> rfl
  have ht : Tracked τ.phase.pending listSize τ.server := by
    rw [← hbound]
    refine hτ fun fault hend => ?_
    rcases hphase with hphase | ⟨pid, hphase⟩ <;> rw [hphase] at hend <;> cases hend
  refine ⟨ht.tracks, fun answers υ hstep hυ => ?_, ?_⟩
  · cases hstep.cases with
    | @handle pid _ hreaped hfresh =>
      rw [hreaped] at ht
      refine ⟨pid, hreaped, ?_⟩
      rcases τ.after_cases (handleExit pid) answers .waiting with
        ⟨a, t, hm, heq⟩ | ⟨f, t, hm, heq⟩ <;>
        rw [heq] at hυ ⊢
      · obtain ⟨ops, hops, rfl⟩ := (handleExit_performs pid (s := τ.server.asked answers)
          ht.sound.tidy.inside).ok hm
        have ht : Tracked (some pid) listSize (τ.server.asked answers) := ht.congr rfl rfl rfl
        cases ht.sound.handles hfresh hops with
        | none hnone hentries hchildren => exact .none hnone hentries hchildren
        | quit hcarries hput hchildren => exact .quit hcarries hput hchildren
        | restart hcarries hnew hq hput hchildren => exact .restart hcarries hnew hq hput hchildren
      · cases hυ
  · rintro request answers υ plan pid k p hstep ⟨hforks, hremoves⟩ hreaped hυ hplan hstop hp hpid
    cases hstep.cases with
    | request _ hfresh =>
      rcases τ.after_cases (serve request) answers τ.phase with
        ⟨a, t, hm, heq⟩ | ⟨f, t, hm, heq⟩ <;>
        rw [heq] at hυ ⊢
      · have hserved : Served τ.server (request, answers) t := ⟨a, hm⟩
        obtain ⟨plan', u, text, hplan', hops, -, rfl⟩ := hserved.plan ht.sound.tidy.inside
        obtain rfl := Except.ok.inj (hplan.symm.trans hplan')
        rw [hreaped] at ht
        rw [hbound] at hremoves
        have ht : Tracked (some pid) listSize (τ.server.asked answers) := ht.congr rfl rfl rfl
        have hfree : Unclaimed u pid :=
          ht.stopped_unclaimed (fun hmem => hforks pid hmem (by rw [hreaped]; rfl))
            (plan_cases ht.sound.tidy.inside hplan) (hremoves plan hplan) hstop hp hpid hops
        exact hfree
      · cases hυ

/-- The monitor restarts an app that has exited. -/
theorem monitor_tracks_web :
    ∃ τ υ, Run Steps webSystem
        [.startup (onePid 7), .startup (onePid 8), .exit 7, .wait 7] τ ∧ Tracks τ ∧
      Steps τ (.handle ⟨[9], [2, 2], fun _ => none, []⟩) υ ∧
      υ.server.entries.map Process.pid = [9] ∧
      ∃ pid, τ.phase = .reaped pid ∧ Handles τ.server pid υ.server := by
  set σ := (webSystem.step (.startup (onePid 7))).getD webSystem with hσ
  have hstart : Steps webSystem (.startup (onePid 7)) σ := steps_of_isSome (by decide +kernel)
  obtain ⟨υ, hrun, hυ⟩ := run_of_any σ
    [.startup (onePid 8), .exit 7, .wait 7, .handle ⟨[9], [2, 2], fun _ => none, []⟩]
    (fun υ => decide (υ.phase = .waiting ∧ υ.server.entries.map Process.pid = [9]))
      (by decide +kernel)
  obtain ⟨hwaiting, hpids⟩ := of_decide_eq_true hυ
  obtain ⟨σ₁, hfinish, hrun⟩ := run_cons.mp hrun
  obtain ⟨σ₂, hexit, hrun⟩ := run_cons.mp hrun
  obtain ⟨τ, hwait, hrun⟩ := run_cons.mp hrun
  obtain ⟨ω, hhandle, hω⟩ := run_cons.mp hrun
  obtain rfl := run_nil.mp hω
  -- nothing has been started before, and then all that there is
  have hidle : Undisturbed webSystem (.startup (onePid 7)) := fun p _ c hc => by cases hc
  have hcount : σ.server.processCount = 1 := by decide +kernel
  have hbound : σ.phase.bound = 1 := by decide +kernel
  have hdone : Undisturbed σ (.startup (onePid 8)) := by
    intro p hp
    rw [hbound] at hp
    have hlt := (entries_get hp).1
    omega
  have hnames : (webSystem.server.entries.map Process.appName).Nodup := by decide +kernel
  have hload : serviceLoad (some webConfig) [] = .ok (webList, 1) := by
    rw [serviceLoad, webList_load]
    rfl
  have hphase : ∃ pid, τ.phase = .reaped pid := by
    cases hhandle.cases with
    | handle hreaped _ => exact ⟨_, hreaped⟩
  have htidy : Tidy webSystem.server := (loaded_of_path webList_load).tidy (s := webSystem.server)
  have hguarded : Guarded Steps Undisturbed webSystem
      [.startup (onePid 7), .startup (onePid 8), .exit 7, .wait 7] τ := by
    refine .cons hidle hstart (.cons hdone hfinish (.cons ?_ hexit (.cons ?_ hwait (.nil τ))))
    · trivial
    · trivial
  obtain ⟨htracks, hhandles, -⟩ := monitor_tracks hload htidy hnames hguarded (Or.inr hphase)
  exact ⟨τ, υ, .cons hstart (.cons hfinish (.cons hexit (.cons hwait (.nil τ)))), htracks, hhandle,
    hpids, hhandles _ υ hhandle hwaiting⟩

/-- Deletion does not find an entry whose name is behind an empty one, and the app goes on
without an entry. -/
theorem remove_leaves_child :
    serviceLoad (some (str "[]")) [] = .ok (.zero, 0) ∧
      ∃ τ, Run Steps ⟨.loaded .zero 0 (str "[]") [], .starting 0⟩
          [.startup (onePid 6), .request (startCall .zero 7).1 (startCall .zero 7).2,
            .request (startCall .web 8).1 (startCall .web 8).2,
            .request ⟨str "remove", str "0"⟩ (onePid 9)] τ ∧
        τ.phase = .waiting ∧ ∃ c ∈ τ.server.kernel.children, c.alive = true ∧
          ∀ p ∈ τ.server.entries, p.pid ≠ c.pid := by
  obtain ⟨τ, hrun, hτ⟩ := run_of_any ⟨.loaded .zero 0 (str "[]") [], .starting 0⟩
    [.startup (onePid 6), .request (startCall .zero 7).1 (startCall .zero 7).2,
      .request (startCall .web 8).1 (startCall .web 8).2,
        .request ⟨str "remove", str "0"⟩ (onePid 9)]
    (fun τ => decide (τ.phase = .waiting ∧ ∃ c ∈ τ.server.kernel.children, c.alive = true ∧
      ∀ p ∈ τ.server.entries, p.pid ≠ c.pid)) (by decide +kernel)
  exact ⟨rfl, τ, hrun, of_decide_eq_true hτ⟩

end KbPm
