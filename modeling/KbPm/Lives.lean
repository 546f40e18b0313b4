/-
The lives of the service: it is killed, or ends, and is started again.

`pkill kbpm`, `kbpm service clean` and `kbpm service start` are one step here.  What the service has
started goes on running, and no service is its parent any more.

* `World`, `Life`, `World.step` — the service and what its earlier lives have left behind;
* `Copies`, `Deed` — the apps in memory and in the config file, and what becomes of them;
* `lives_follow` — over all lives, the list and the file are these two copies.
-/
import KbPm.Durable
import KbPm.Programs
import KbPm.Supervisor

namespace KbPm

open Trace Scan Outcome

/-! ### Lives -/

structure World where
  system : System
  /-- children of earlier lives that are alive -/
  orphans : List Child

inductive Life
  | step (event : Event)
  /-- the service is killed, unless it has ended, and started again -/
  | restart (junk buffer : Text)
  /-- the same, when a request has been handled and, of the list, this many bytes have reached the
  file, or the file has not been opened -/
  | torn (request : Request) (answers : Answers) (written : Option ℕ) (junk buffer : Text)
  /-- the orphan `pid` ends -/
  | orphanExit (pid : ℤ)

def Event.forks : Event → List ℤ
  | .startup answers => answers.forks
  | .handle answers => answers.forks
  | .request _ answers => answers.forks
  | _ => []

/-- The service has ended. -/
def Phase.over : Phase → Bool
  | .ended _ => true
  | _ => false

/-- The children that outlive the service.  They are in its group, so `kill(0, SIGKILL)` is for them
too. -/
def System.survivors (σ : System) : List Child :=
  if σ.phase = .ended .killGroup then [] else σ.server.kernel.children.filter Child.alive

namespace World

def pids (w : World) : List ℤ := w.orphans.map Child.pid

/-- Behind a step of the service: it may have killed whatever process has a pid. -/
def next (w : World) (τ : System) : World where
  system := τ
  orphans := w.orphans.filter fun child =>
    ∀ call ∈ τ.server.kernel.kills.drop w.system.server.kernel.kills.length,
      call.process.pid ≠ child.pid

/-- A new service loads the file. -/
def reload (w : World) (junk buffer : Text) : Option World :=
  match serviceLoad (some w.system.server.configFile) junk with
  | .ok (l, n) => some ⟨⟨.loaded l n w.system.server.configFile buffer, .starting 0⟩,
      w.orphans ++ w.system.survivors⟩
  | .error _ => none

/-- The service in the middle of a save. -/
def interrupt (w : World) (server : Server) (written : Option ℕ) : Option World :=
  match written with
  | none => some (w.next ⟨server, w.system.phase⟩)
  | some n =>
    match saveProcessList server.processList with
    | .ok text => some (w.next ⟨{ server with configFile := text.take n }, w.system.phase⟩)
    | .error _ => none

def step (w : World) : Life → Option World
  | .step event =>
    if ∀ pid ∈ event.forks, pid ∉ w.pids then (w.system.step event).map w.next else none
  | .restart junk buffer => w.reload junk buffer
  | .torn request answers written junk buffer =>
    if w.system.phase.over = false ∧ w.system.server.kernel.Fresh answers.forks ∧
        ∀ pid ∈ answers.forks, pid ∉ w.pids then
      match handleRequest request (w.system.server.asked answers) with
      | .ok _ server => (w.interrupt server written).bind fun w' => w'.reload junk buffer
      | .error _ _ => none
    else none
  | .orphanExit pid =>
    if pid ∈ w.pids then some { w with orphans := w.orphans.filter fun c => c.pid ≠ pid } else none

end World

def Lived (w : World) (life : Life) (w' : World) : Prop := w.step life = some w'

theorem Phase.over_eq_false {phase : Phase} :
    phase.over = false ↔ ∀ fault, phase ≠ .ended fault := by
  cases phase <;> simp [Phase.over]

theorem lived_step {w w' : World} {event : Event} :
    Lived w (.step event) w' ↔ (∀ pid ∈ event.forks, pid ∉ w.pids) ∧
      ∃ τ, Steps w.system event τ ∧ w.next τ = w' := by
  rw [Lived, World.step]
  split
  · rename_i hforks
    rw [Option.map_eq_some_iff]
    exact ⟨fun h => ⟨hforks, h⟩, fun h => h.2⟩
  · rename_i hforks
    exact ⟨fun h => absurd h (by simp), fun h => absurd h.1 hforks⟩

/-- A save that has been interrupted. -/
theorem torn_inv {w w' : World} {request : Request} {answers : Answers} {written : Option ℕ}
    {junk buffer : Text} (h : Lived w (.torn request answers written junk buffer) w') :
    (∀ fault, w.system.phase ≠ .ended fault) ∧ w.system.server.kernel.Fresh answers.forks ∧
      (∀ pid ∈ answers.forks, pid ∉ w.pids) ∧ ∃ response server v,
        handleRequest request (w.system.server.asked answers) = .ok response server ∧
          w.interrupt server written = some v ∧ v.reload junk buffer = some w' := by
  rw [Lived, World.step] at h
  split at h
  · rename_i hguard
    obtain ⟨hphase, hfresh, hapart⟩ := hguard
    refine ⟨Phase.over_eq_false.mp hphase, hfresh, hapart, ?_⟩
    cases hhandle : handleRequest request (w.system.server.asked answers) with
    | error f t =>
      rw [hhandle] at h
      cases h
    | ok response server =>
      rw [hhandle] at h
      obtain ⟨v, hv, hload⟩ := Option.bind_eq_some_iff.mp h
      exact ⟨response, server, v, rfl, hv, hload⟩
  · cases h

/-! ### Two copies of the list -/

/-- The apps in memory and those in the file. -/
structure Copies where
  current : AppList
  saved : AppList

inductive Deed
  /-- a request is handled -/
  | obey (command : Command) (operand : Text)
  /-- the list is saved -/
  | save
  /-- the file is emptied, and the list does not get there -/
  | lose
  /-- an app has ended too quickly and is given up -/
  | quit (k : ℕ)
  | reload
  deriving DecidableEq

inductive Copies.Does : Copies → Deed → Copies → Prop
  | obey (l saved : AppList) (fresh : ℕ → Instance) (command : Command) (operand : Text) :
    Does ⟨l, saved⟩ (.obey command operand) ⟨l.act fresh command (l.resolve operand), saved⟩
  | save (l saved : AppList) : Does ⟨l, saved⟩ .save ⟨l, l⟩
  | lose (l saved : AppList) : Does ⟨l, saved⟩ .lose ⟨l, .empty⟩
  | quit (l saved : AppList) (k : ℕ) :
    Does ⟨l, saved⟩ (.quit k) ⟨l.update fun j running => if j = k then none else running, saved⟩
  | reload (l saved : AppList) : Does ⟨l, saved⟩ .reload ⟨saved, saved⟩

def Op.quits : Op → Option ℕ
  | .quit k => some k
  | _ => none

/-- What becomes of the file. -/
def saveDeed (l : ProcessList) (whole : Text → Bool) : Deed :=
  match saveProcessList l with
  | .ok text => if whole text then .save else .lose
  | .error _ => .lose

/-- What becomes of the list and the file in a request, up to `saves`. -/
def System.obeys (σ : System) (request : Request) (answers : Answers)
    (saves : ProcessList → List Deed) : List Deed :=
  match handleRequest request (σ.server.asked answers) with
  | .ok _ server =>
    .obey (readCommand (σ.server.commandBuffer request)) (σ.server.operandBuffer request) ::
      saves server.processList
  | .error _ _ => []

def World.deeds (w : World) : Life → List Deed
  | .step (.request request answers) =>
    w.system.obeys request answers fun l => [saveDeed l fun _ => true]
  | .step (.handle answers) =>
    match w.system.phase with
    | .reaped pid =>
      match ((w.system.server.asked answers).exitPlan pid).findSome? Op.quits with
      | some k => [.quit k]
      | none => []
    | _ => []
  | .step _ => []
  | .restart _ _ => [.reload]
  | .torn request answers written _ _ =>
    w.system.obeys request answers fun l =>
      (match written with
      | none => []
      | some n => [saveDeed l fun text => text.length ≤ n]) ++ [.reload]
  | .orphanExit _ => []

/-- What becomes of the list and the file in these lives. -/
def World.history : List Life → World → List Deed
  | [], _ => []
  | life :: lives, w => w.deeds life ++ (w.step life).elim [] (World.history lives)

/-! ### The startup loop and the monitor -/

section Stores

variable {s t : Server} {l : AppList}

/-- The startup loop starts what is to run. -/
theorem startup_stores (h : Stores s l) {i : ℕ} (hrun : Run Effect s (s.startupPlan i) t) :
    Stores t l := by
  have hplan := startupPlan_ops s i
  rw [← AppList.update_id (l := l) (f := fun _ running => running) fun _ _ _ => rfl]
  refine h.update hrun (fun op hop => (hplan op hop).1) fun j p app hp happ hsaved => ?_
  by_cases hj : j = i
  · subst hj
    rw [filter_slot_self fun op hop => (hplan op hop).2.1, Server.startupPlan, entry_runs hp]
    by_cases hstopped : p.isRunning = 0
    · simp [hstopped, stoppedBehind, Op.stopped]
    · obtain ⟨inst, hinst⟩ := Option.ne_none_iff_exists'.mp (mt (stopped_iff hsaved).mpr hstopped)
      simp [hstopped, hinst, stoppedBehind, Op.stopped]
  · rw [filter_slot_other (fun op hop => (hplan op hop).2.1) hj]
    rfl

/-- What the monitor does to an entry: it gives up at most one, and starts others again. -/
theorem exitPlanFrom_slot (pid : ℤ) (processes : List Process) (i j : ℕ) (times : List ℤ) :
    let plan := Server.exitPlanFrom pid i processes times
    (plan.findSome? Op.quits = some j ∧ i ≤ j ∧
      plan.filter (fun op => op.slot = some j) = [.quit j]) ∨
    (plan.findSome? Op.quits ≠ some j ∧
      (plan.filter (fun op => op.slot = some j) = [] ∨
        plan.filter (fun op => op.slot = some j) = [.relaunch j, .note j] ∧
          ∃ m p, j = i + m ∧ processes[m]? = some p ∧ p.isRunning ≠ 0)) := by
  induction processes generalizing i times with
  | nil => exact Or.inr ⟨by simp [Server.exitPlanFrom], Or.inl rfl⟩
  | cons process processes ih =>
    -- an entry behind this one
    have hbehind : ∀ {m : ℕ} {p : Process}, j = i + 1 + m → processes[m]? = some p →
        p.isRunning ≠ 0 → ∃ m p, j = i + m ∧ (process :: processes)[m]? = some p ∧
          p.isRunning ≠ 0 := by
      intro m p hj hp hrun
      exact ⟨m + 1, p, by omega, hp, hrun⟩
    rw [Server.exitPlanFrom]
    split
    · rcases ih (i + 1) times with ⟨hquit, hle, hslot⟩ | ⟨hquit, hslot⟩
      · exact Or.inl ⟨hquit, by omega, hslot⟩
      · refine Or.inr ⟨hquit, hslot.imp_right ?_⟩
        rintro ⟨hops, m, p, hj, hp, hrun⟩
        exact ⟨hops, hbehind hj hp hrun⟩
    split
    · exact Or.inr ⟨by simp, Or.inl rfl⟩
    rename_i hrunning
    split
    · by_cases hj : j = i
      · subst hj
        exact Or.inl ⟨rfl, le_refl j, by simp [Op.slot]⟩
      · refine Or.inr ⟨fun h => hj (Option.some_inj.mp h).symm, Or.inl ?_⟩
        simp [Op.slot, Ne.symm hj]
    · have hfind : ∀ ops : List Op, (.tick :: .relaunch i :: .note i :: ops).findSome? Op.quits =
          ops.findSome? Op.quits := fun _ => rfl
      dsimp only
      rw [hfind]
      by_cases hj : j = i
      · -- the entries behind are others
        subst hj
        rcases ih (j + 1) times.tail.tail with ⟨-, hle, -⟩ | ⟨hquit, hslot⟩
        · omega
        · have hnil : (Server.exitPlanFrom pid (j + 1) processes times.tail.tail).filter
              (fun op => op.slot = some j) = [] := by
            rcases hslot with hslot | ⟨-, m, p, hj, -⟩
            · exact hslot
            · omega
          refine Or.inr ⟨hquit, Or.inr ⟨?_, 0, process, rfl, rfl, hrunning⟩⟩
          rw [List.filter_cons_of_neg (by simp [Op.slot]),
            List.filter_cons_of_pos (by simp [Op.slot]),
            List.filter_cons_of_pos (by simp [Op.slot]), hnil]
      · have hslots : ∀ ops : List Op, (.tick :: .relaunch i :: .note i :: ops).filter
            (fun op => op.slot = some j) = ops.filter (fun op => op.slot = some j) := by
          intro ops
          rw [List.filter_cons_of_neg (by simp [Op.slot]),
            List.filter_cons_of_neg (by simp [Op.slot, Ne.symm hj]),
            List.filter_cons_of_neg (by simp [Op.slot, Ne.symm hj])]
        rw [hslots]
        rcases ih (i + 1) times.tail.tail with ⟨hquit, hle, hslot⟩ | ⟨hquit, hslot⟩
        · exact Or.inl ⟨hquit, by omega, hslot⟩
        · refine Or.inr ⟨hquit, hslot.imp_right ?_⟩
          rintro ⟨hops, m, p, hj, hp, hrun⟩
          exact ⟨hops, hbehind hj hp hrun⟩

theorem exit_stores (h : Stores s l) {pid : ℤ} (hrun : Run Effect s (s.exitPlan pid) t) :
    Stores t (l.update fun j running =>
      if (s.exitPlan pid).findSome? Op.quits = some j then none else running) := by
  refine h.update hrun (fun op hop => (exitPlan_ops s pid op hop).1)
    fun j p app hp happ hsaved => ?_
  rcases exitPlanFrom_slot pid s.entries 0 j s.kernel.answers.times with
    ⟨hquit, -, hslot⟩ | ⟨hquit, hslot | ⟨hslot, m, q, hm, hq, hrunning⟩⟩
  · rw [Server.exitPlan, hslot, if_pos hquit]
    rfl
  · rw [Server.exitPlan, hslot, if_neg hquit]
    rfl
  · rw [Server.exitPlan, hslot, if_neg hquit]
    -- what is started again has been running
    obtain rfl : m = j := by omega
    obtain rfl := Option.some_inj.mp (hp.symm.trans hq)
    obtain ⟨inst, hinst⟩ := Option.ne_none_iff_exists'.mp (mt (stopped_iff hsaved).mpr hrunning)
    rw [hinst]
    rfl

/-- A request that is handled. -/
theorem handled_stores (h : Stores s l) {request : Request} {answers : Answers} {response : Text}
    (hnamed : AppendsNamed s request)
    (hhandle : handleRequest request (s.asked answers) = .ok response t) (fresh : ℕ → Instance) :
    Stores t (l.act fresh (readCommand (s.commandBuffer request))
      (l.resolve (s.operandBuffer request))) := by
  have hs : Stores (s.asked answers) l := ⟨⟨h.tidy.inside, h.tidy.unnamed⟩, h.saved⟩
  obtain ⟨ops, hrun, hplan⟩ := (handleRequest_performs hs.tidy.inside request).ok hhandle
  exact plan_stores fresh hs hplan hnamed hrun

end Stores

/-! ### Over all lives -/

/-- The service has the one copy, if it has not ended, and its file the other. -/
structure Held (w : World) (d : Copies) : Prop where
  current : (∀ fault, w.system.phase ≠ .ended fault) → Stores w.system.server d.current
  saved : Reloads w.system.server.configFile d.saved

/-- No request appends a process without a name, and a service that starts has nothing behind the
file in its buffer. -/
def World.Heeds (w : World) : Life → Prop
  | .step (.request request _) => AppendsNamed w.system.server request
  | .restart junk _ => Exhausted junk
  | .torn request _ _ junk _ => AppendsNamed w.system.server request ∧ Exhausted junk
  | _ => True

section Lives

variable {w w' : World} {d : Copies}

theorem Held.reload {l : AppList} (h : Reloads w.system.server.configFile l) {junk buffer : Text}
    (hjunk : Exhausted junk) (hload : w.reload junk buffer = some w') : Held w' ⟨l, l⟩ := by
  obtain ⟨loaded, hfile, hstores⟩ := h junk hjunk
  rw [World.reload, hfile] at hload
  obtain rfl := Option.some_inj.mp hload
  exact ⟨fun _ => hstores buffer, h⟩

/-- A service that goes on with the list that it has. -/
theorem Held.after {α : Type} {m : ServerM α} {answers : Answers} {next : Phase} {l : AppList}
    (h : Held w d) (hfiled : Ends m (w.system.server.asked answers)
      (fun _ t => t.configFile = w.system.server.configFile)
      (fun _ t => t.configFile = w.system.server.configFile))
    (hok : ∀ a t, m (w.system.server.asked answers) = .ok a t → Stores t l) :
    Held (w.next (w.system.after m answers next)) ⟨l, d.saved⟩ := by
  rcases w.system.after_cases m answers next with ⟨a, t, hm, heq⟩ | ⟨f, t, hm, heq⟩ <;> rw [heq]
  · refine ⟨fun _ => hok a t hm, ?_⟩
    change Reloads t.configFile d.saved
    rw [show t.configFile = _ from hfiled.ok hm]
    exact h.saved
  · refine ⟨fun hτ => absurd rfl (hτ f), ?_⟩
    change Reloads t.configFile d.saved
    rw [show t.configFile = _ from hfiled.error hm]
    exact h.saved

theorem Held.asked (h : Held w d) (hphase : ∀ fault, w.system.phase ≠ .ended fault)
    (answers : Answers) : Stores (w.system.server.asked answers) d.current := by
  have hstores := h.current hphase
  exact ⟨⟨hstores.tidy.inside, hstores.tidy.unnamed⟩, hstores.saved⟩

theorem Held.iterate (h : Held w d) {i : ℕ} {answers : Answers}
    (hphase : w.system.phase = .starting i) (hi : i < w.system.server.processCount) :
    Held (w.next (w.system.after (startupIteration i) answers (.starting (i + 1)))) d := by
  have hs := h.asked (by simp [hphase]) answers
  refine h.after (ends_filed (compositional_blind.startupIteration i)) fun a t hm => ?_
  obtain ⟨ops, hrun, rfl⟩ := (startupIteration_performs (s := w.system.server.asked answers) hi
    hs.tidy.inside).ok hm
  exact startup_stores hs hrun

theorem Held.handle (h : Held w d) {pid : ℤ} {answers : Answers}
    (hphase : w.system.phase = .reaped pid) :
    ∃ d', Run Copies.Does d (w.deeds (.step (.handle answers))) d' ∧
      Held (w.next (w.system.after (handleExit pid) answers .waiting)) d' := by
  obtain ⟨l, saved⟩ := d
  have hs := h.asked (by simp [hphase]) answers
  have hnext : ∀ l', (∀ t, Run Effect (w.system.server.asked answers)
      ((w.system.server.asked answers).exitPlan pid) t → Stores t l') →
      Held (w.next (w.system.after (handleExit pid) answers .waiting)) ⟨l', saved⟩ := by
    intro l' hl'
    refine h.after (ends_filed (compositional_blind.handleExit pid)) fun a t hm => ?_
    obtain ⟨ops, hrun, rfl⟩ := (handleExit_performs pid (s := w.system.server.asked answers)
      hs.tidy.inside).ok hm
    exact hl' t hrun
  rw [World.deeds, hphase]
  dsimp only
  cases hquit : ((w.system.server.asked answers).exitPlan pid).findSome? Op.quits with
  | none =>
    refine ⟨⟨l, saved⟩, .nil _, hnext l fun t hrun => ?_⟩
    have ht := exit_stores hs hrun
    rw [hquit, AppList.update_id fun _ _ _ => if_neg (by simp)] at ht
    exact ht
  | some k =>
    refine ⟨_, .single (.quit l saved k), hnext _ fun t hrun => ?_⟩
    have ht := exit_stores hs hrun
    simp only [hquit, Option.some_inj, eq_comm (a := k)] at ht
    exact ht

/-- A request that has been handled, and what becomes of the list then. -/
theorem Held.obeys (h : Held w d) (hphase : ∀ fault, w.system.phase ≠ .ended fault)
    {request : Request} {answers : Answers} (hnamed : AppendsNamed w.system.server request)
    {response : Text} {server : Server}
    (hhandle : handleRequest request (w.system.server.asked answers) = .ok response server)
    {saves : ProcessList → List Deed} {P : Copies → Prop}
    (hsaves : ∀ l, Stores server l → Reloads server.configFile d.saved →
      ∃ d', Run Copies.Does ⟨l, d.saved⟩ (saves server.processList) d' ∧ P d') :
    ∃ d', Run Copies.Does d (w.system.obeys request answers saves) d' ∧ P d' := by
  obtain ⟨l, saved⟩ := d
  set fresh := l.launched answers (readCommand (w.system.server.commandBuffer request))
  have hstores := handled_stores (h.current hphase) hnamed hhandle fresh
  have hfile : server.configFile = (w.system.server.asked answers).configFile :=
    (handleRequest_filed request _).ok hhandle
  have hsaved : Reloads server.configFile saved := hfile ▸ h.saved
  obtain ⟨d', hrun, hd'⟩ := hsaves _ hstores hsaved
  refine ⟨d', ?_, hd'⟩
  rw [System.obeys, hhandle]
  exact .cons (.obey l saved fresh _ _) hrun

theorem Held.request (h : Held w d) (hphase : ∀ fault, w.system.phase ≠ .ended fault)
    {request : Request} {answers : Answers} (hnamed : AppendsNamed w.system.server request) :
    ∃ d', Run Copies.Does d (w.deeds (.step (.request request answers))) d' ∧
      Held (w.next (w.system.after (serve request) answers w.system.phase)) d' := by
  cases hhandle : handleRequest request (w.system.server.asked answers) with
  | error f t =>
    -- the file is as it was
    have hserve : serve request (w.system.server.asked answers) = .error f t := by
      rw [serve, bind_error hhandle]
    refine ⟨d, ?_, ?_⟩
    · rw [World.deeds, System.obeys, hhandle]
      exact .nil d
    · rw [System.after, hserve]
      refine ⟨fun hτ => absurd rfl (hτ f), ?_⟩
      have hfile : t.configFile = (w.system.server.asked answers).configFile :=
        (handleRequest_filed request _).error hhandle
      change Reloads t.configFile d.saved
      rw [hfile]
      exact h.saved
  | ok response server =>
    rw [World.deeds]
    refine h.obeys hphase hnamed hhandle fun l hl _ => ?_
    have hsave := saveConfig_run server
    rw [System.after, serve, bind_ok hhandle, saveDeed]
    cases htext : saveProcessList server.processList with
    | ok text =>
      rw [htext] at hsave
      rw [bind_ok hsave]
      refine ⟨⟨l, l⟩, .single (.save l d.saved), fun _ => ⟨⟨hl.tidy.inside, hl.tidy.unnamed⟩,
        hl.saved⟩, hl.reloads htext⟩
    | error f =>
      -- the file has been emptied before the text turns out too long
      rw [htext] at hsave
      rw [bind_error hsave]
      exact ⟨⟨l, .empty⟩, .single (.lose l d.saved), fun hτ => absurd rfl (hτ f), reloads_nil⟩

theorem Held.torn (h : Held w d) (hphase : ∀ fault, w.system.phase ≠ .ended fault)
    {request : Request} {answers : Answers} (hnamed : AppendsNamed w.system.server request)
    {response : Text} {server : Server}
    (hhandle : handleRequest request (w.system.server.asked answers) = .ok response server)
    {written : Option ℕ} {junk buffer : Text} (hjunk : Exhausted junk) {v : World}
    (hinterrupt : w.interrupt server written = some v) (hload : v.reload junk buffer = some w') :
    ∃ d', Run Copies.Does d (w.deeds (.torn request answers written junk buffer)) d' ∧
      Held w' d' := by
  rw [World.deeds]
  refine h.obeys hphase hnamed hhandle fun l hl hsaved => ?_
  cases written with
  | none =>
    obtain rfl := Option.some_inj.mp hinterrupt
    exact ⟨_, .single (.reload l d.saved), .reload hsaved hjunk hload⟩
  | some n =>
    rw [World.interrupt] at hinterrupt
    cases htext : saveProcessList server.processList with
    | error f =>
      rw [htext] at hinterrupt
      cases hinterrupt
    | ok text =>
      rw [htext] at hinterrupt
      obtain rfl := Option.some_inj.mp hinterrupt
      dsimp only
      rw [saveDeed, htext]
      by_cases hn : text.length ≤ n
      · -- all of the list has reached the file
        have hreloads : Reloads (text.take n) l := by
          rw [List.take_of_length_le hn]
          exact hl.reloads htext
        refine ⟨⟨l, l⟩, ?_, .reload hreloads hjunk hload⟩
        simp only [hn, decide_true, if_true]
        exact .cons (.save l d.saved) (.single (.reload l l))
      · have hreloads : Reloads (text.take n) .empty := reloads_cut htext (by omega)
        refine ⟨⟨.empty, .empty⟩, ?_, .reload hreloads hjunk hload⟩
        simp only [hn, decide_false]
        exact .cons (.lose l d.saved) (.single (.reload l .empty))

theorem Held.step (h : Held w d) {life : Life} (hheeds : w.Heeds life)
    (hlived : Lived w life w') : ∃ d', Run Copies.Does d (w.deeds life) d' ∧ Held w' d' := by
  cases life with
  | step event =>
    obtain ⟨-, τ, hsteps, rfl⟩ := lived_step.mp hlived
    cases hsteps.cases with
    | iterate hphase hi => exact ⟨d, .nil d, h.iterate hphase hi⟩
    | finish hphase => exact ⟨d, .nil d, fun _ => h.current (by simp [hphase]), h.saved⟩
    | wait hphase =>
      have hstores := h.current (by simp [hphase])
      exact ⟨d, .nil d, fun _ => ⟨⟨hstores.tidy.inside, hstores.tidy.unnamed⟩, hstores.saved⟩,
        h.saved⟩
    | handle hphase => exact h.handle hphase
    | request hphase => exact h.request hphase hheeds
    | exit =>
      refine ⟨d, .nil d, fun hphase => ?_, h.saved⟩
      have hstores := h.current hphase
      exact ⟨⟨hstores.tidy.inside, hstores.tidy.unnamed⟩, hstores.saved⟩
  | restart junk buffer =>
    exact ⟨_, .single (.reload d.current d.saved), .reload h.saved hheeds hlived⟩
  | torn request answers written junk buffer =>
    obtain ⟨hphase, -, -, response, server, v, hhandle, hinterrupt, hload⟩ := torn_inv hlived
    exact h.torn hphase hheeds.1 hhandle hheeds.2 hinterrupt hload
  | orphanExit pid =>
    rw [Lived, World.step] at hlived
    split at hlived
    · obtain rfl := Option.some_inj.mp hlived
      exact ⟨d, .nil d, h.current, h.saved⟩
    · cases hlived

/-- Over all lives of the service, and whatever is interleaved, its list and its config file are the
two copies, of which a request changes the one and then the other, an app that ends too quickly is
given up in the first only, a new service reads the second, and a save that is cut short or does not
fit loses it. -/
theorem lives_follow {lives : List Life} (h : Held w d)
    (hrun : Guarded Lived World.Heeds w lives w') :
    ∃ d', Run Copies.Does d (World.history lives w) d' ∧ Held w' d' := by
  induction hrun generalizing d with
  | nil w => exact ⟨d, .nil d, h⟩
  | @cons w w₁ w' life lives hheeds hlived _ ih =>
    obtain ⟨d₁, hdeeds, h₁⟩ := h.step hheeds hlived
    obtain ⟨d', hrest, h'⟩ := ih h₁
    have hnext : w.step life = some w₁ := hlived
    refine ⟨d', ?_, h'⟩
    rw [World.history, hnext]
    exact hdeeds.append hrest

end Lives

/-- The apps of the config for examples. -/
def webApps : AppList :=
  ⟨[⟨Process.web.appName, Process.web.cmd, Process.web.dir, some ⟨0, 0⟩⟩], by decide, by decide⟩

theorem held_web : Held ⟨webSystem, []⟩ ⟨webApps, webApps⟩ := by
  have hstores : Stores webSystem.server webApps :=
    ⟨(loaded_of_path webList_load).tidy (s := webSystem.server), by decide +kernel⟩
  exact ⟨fun _ => hstores, hstores.reloads webList_saved⟩

instance (w : World) : DecidablePred w.Heeds := fun life =>
  match life with
  | .step (.request request _) => inferInstanceAs (Decidable (AppendsNamed w.system.server request))
  | .step (.startup _) => .isTrue trivial
  | .step (.wait _) => .isTrue trivial
  | .step (.handle _) => .isTrue trivial
  | .step (.exit _) => .isTrue trivial
  | .restart junk _ => inferInstanceAs (Decidable (∀ b ∈ junk, b = 0))
  | .torn request _ _ junk _ =>
    inferInstanceAs (Decidable (AppendsNamed w.system.server request ∧ ∀ b ∈ junk, b = 0))
  | .orphanExit _ => .isTrue trivial

/-- The app ends in the second in which it was started and is given up; the next service starts it
again. -/
def quitLives : List Life :=
  [.step (.startup (onePid 7)), .step (.startup (onePid 8)),
    .step (.request (plainRequest "ping") (onePid 8)), .step (.exit 7), .step (.wait 7),
    .step (.handle (onePid 8)), .restart [] []]

theorem lives_follow_web :
    ∃ w' d', Run Lived ⟨webSystem, []⟩ quitLives w' ∧
      Run Copies.Does ⟨webApps, webApps⟩
        [.obey .ping (List.replicate 8 0), .save, .quit 0, .reload] d' ∧ Held w' d' := by
  obtain ⟨w', hrun, -⟩ : ∃ w', Guarded Lived World.Heeds ⟨webSystem, []⟩ quitLives w' ∧ true :=
    Guarded.of_any (p := fun _ => true) (by decide +kernel)
  obtain ⟨d', hdeeds, hheld⟩ := lives_follow held_web hrun
  have hhistory : World.history quitLives ⟨webSystem, []⟩ =
      [.obey .ping (List.replicate 8 0), .save, .quit 0, .reload] := by decide +kernel
  exact ⟨w', d', hrun.run, hhistory ▸ hdeeds, hheld⟩

end KbPm
