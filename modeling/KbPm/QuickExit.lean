/-
Automatic stops over real time.

`time` gives whole seconds, and the monitor compares two of its results.  Here the
clock is real: what `time` returns is the floor of a reading, and with every slot
stands the moment at which its instance was started.

* `Moments`, `stamp` — the readings to come, and the moments of start; what an
  operation does to them;
* `Watch`, `Timed` — the service with its clock, and its steps;
* `Dated`, `Timed.dated` — the start time of an entry is the floor of the moment;
* `quick_exit_iff` — when the monitor decides as if it had compared the moments.
-/
import KbPm.Addressing
import KbPm.StatusFiles
import KbPm.Supervision

namespace KbPm

open Trace

/-- The readings of the clock that the next calls of `time` get, and the moments at which
the instances of the slots have been started. -/
structure Moments where
  readings : List ℝ
  started : Vector ℝ listSize

/-- The instance of slot `k` is started, and the clock is read. -/
def Moments.launch (m : Moments) (k : ℕ) : Option Moments :=
  match m.readings with
  | [] => none
  | now :: readings => some ⟨readings, m.started.setIfInBounds k now⟩

/-- `del_process_by_app_name`, for the moments. -/
def deleteMoment (processList : ProcessList) (appName : StrBuf) (started : Vector ℝ listSize) :
    Except Fault (Vector ℝ listSize) := do
  match ← deletedIndex processList appName with
  | none => return started
  | some index =>
    slot (Slots.shiftDown id (getProcessListCount processList - index) index started)

/-- What an operation does to the readings and the moments, if there are readings for it. -/
def stamp (s : Server) (m : Moments) : Op → Option Moments
  | .tick =>
    match m.readings with
    | [] => none
    | _ :: readings => some { m with readings := readings }
  | .start k => m.launch k
  | .relaunch k => m.launch k
  | .append _ => m.launch s.processCount
  | .remove name =>
    match deleteMoment s.processList name m.started with
    | .ok started => some { m with started := started }
    | .error _ => none
  | _ => some m

/-- An operation with its moments. -/
def Stamps : Server × Moments → Op → Server × Moments → Prop :=
  Along Effect fun s op m m' => stamp s m op = some m'

/-- The start time of a slot with a pid is the floor of the moment at which its instance
was started, and that is not after `bound`. -/
def DatedBy (bound : ℝ) (l : ProcessList) (started : Vector ℝ listSize) : Prop :=
  ∀ (k : ℕ) p a, l[k]? = some p → started[k]? = some a → p.pid ≠ 0 →
    p.startTime = ⌊a⌋ ∧ a ≤ bound

/-- While operations are done: also the readings to come are not after `bound`, and `time`
is going to return their floors. -/
structure Dating (bound : ℝ) (x : Server × Moments) : Prop where
  times : x.1.kernel.answers.times = x.2.readings.map Int.floor
  readings : ∀ r ∈ x.2.readings, r ≤ bound
  dated : DatedBy bound x.1.processList x.2.started

section Stamps

variable {bound : ℝ} {s : Server} {m : Moments}

theorem DatedBy.write {l : ProcessList} {started : Vector ℝ listSize} (h : DatedBy bound l started)
    {k : ℕ} {p q : Process} (hp : l[k]? = some p) (hq : q.pid = 0 ∨ q.pid = p.pid ∧
      q.startTime = p.startTime) : DatedBy bound (l.setIfInBounds k q) started := by
  intro j r a hr ha h0
  rw [Vector.getElem?_setIfInBounds] at hr
  split at hr
  · rename_i hkj
    subst hkj
    split at hr
    · obtain rfl := Option.some_inj.mp hr
      obtain ⟨hpid, htime⟩ := hq.resolve_left h0
      rw [htime]
      exact h k p a hp ha (hpid ▸ h0)
    · cases hr
  · exact h j r a hr ha h0

theorem DatedBy.launch {l : ProcessList} {started : Vector ℝ listSize} (h : DatedBy bound l started)
    {k : ℕ} {q : Process} {now : ℝ} (hq : q.startTime = ⌊now⌋) (hnow : now ≤ bound) :
    DatedBy bound (l.setIfInBounds k q) (started.setIfInBounds k now) := by
  intro j r a hr ha h0
  rw [Vector.getElem?_setIfInBounds] at hr ha
  split at hr
  · rw [if_pos (by assumption)] at ha
    split at hr
    · rw [if_pos (by assumption)] at ha
      obtain rfl := Option.some_inj.mp hr
      obtain rfl := Option.some_inj.mp ha
      exact ⟨hq, hnow⟩
    · cases hr
  · rw [if_neg (by assumption)] at ha
    exact h j r a hr ha h0

/-- What is moved keeps its start time and its moment. -/
theorem DatedBy.delete {l l' : ProcessList} {started started' : Vector ℝ listSize} {name : StrBuf}
    {res : ℤ} (h : DatedBy bound l started) (hdel : delProcessByAppName l name = .ok (l', res))
    (hmoment : deleteMoment l name started = .ok started') : DatedBy bound l' started' := by
  rw [delProcessByAppName_eq] at hdel
  rw [deleteMoment] at hmoment
  cases hindex : deletedIndex l name with
  | error f =>
    rw [hindex] at hdel
    cases hdel
  | ok index =>
    rw [hindex] at hdel hmoment
    cases index with
    | none =>
      cases hdel
      cases hmoment
      exact h
    | some index =>
      change (slot (Slots.shiftDown Process.shifted _ index l) >>= _) = _ at hdel
      change slot (Slots.shiftDown id _ index started) = _ at hmoment
      cases hshift : Slots.shiftDown Process.shifted (getProcessListCount l - index) index l with
      | error e =>
        rw [hshift] at hdel
        cases hdel
      | ok shifted =>
        rw [hshift] at hdel
        cases hdel
        obtain ⟨moved, hmoved, hrel⟩ := Slots.shiftDown_related (f := Process.shifted) (g := id)
          (R := fun (p : Process) (a : ℝ) => p.pid ≠ 0 → p.startTime = ⌊a⌋ ∧ a ≤ bound)
          (fun p a hpa => hpa) h hshift
        rw [hmoved] at hmoment
        cases hmoment
        exact hrel

theorem Moments.launch_eq {k : ℕ} {m' : Moments} (h : m.launch k = some m') :
    ∃ now readings, m.readings = now :: readings ∧
      m' = ⟨readings, m.started.setIfInBounds k now⟩ := by
  unfold Moments.launch at h
  split at h
  · cases h
  · rename_i now readings hreadings
    exact ⟨now, readings, hreadings, (Option.some_inj.mp h).symm⟩

/-- What a start makes of the moments, and of the times that go with them. -/
theorem Dating.launch {x : Server × Moments} {k : ℕ} {m' : Moments} (h : Dating bound x)
    (hm : x.2.launch k = some m') {q : Process} (hq : q.startTime = x.1.kernel.now) :
    x.1.kernel.answers.times.tail = m'.readings.map Int.floor ∧ (∀ r ∈ m'.readings, r ≤ bound) ∧
      DatedBy bound (x.1.processList.setIfInBounds k q) m'.started := by
  obtain ⟨now, readings, hreadings, rfl⟩ := Moments.launch_eq hm
  have htimes := h.times
  rw [hreadings, List.map_cons] at htimes
  refine ⟨by rw [htimes]; rfl, fun r hr => h.readings r ?_, h.dated.launch ?_ (h.readings now ?_)⟩
  · rw [hreadings]
    exact List.mem_cons_of_mem _ hr
  · rw [hq, Kernel.now, htimes]
    rfl
  · rw [hreadings]
    exact List.mem_cons_self

theorem Dating.step {x y : Server × Moments} {op : Op} (h : Dating bound x) (hxy : Stamps x op y) :
    Dating bound y := by
  obtain ⟨s, m⟩ := x
  obtain ⟨t, m'⟩ := y
  obtain ⟨heffect, hstamp⟩ := hxy
  change Effect s op t at heffect
  change stamp s m op = some m' at hstamp
  cases heffect with
  | tick =>
    rw [stamp] at hstamp
    split at hstamp
    · cases hstamp
    · rename_i now readings hreadings
      cases hstamp
      have htimes : s.kernel.answers.times = m.readings.map Int.floor := h.times
      refine ⟨?_, fun r hr => h.readings r ?_, h.dated⟩
      · change s.kernel.answers.times.tail = _
        rw [htimes, hreadings]
        rfl
      · change r ∈ m.readings
        rw [hreadings]
        exact List.mem_cons_of_mem _ hr
  | note hk hp hq =>
    cases hstamp
    exact ⟨h.times, h.readings, h.dated.write hp (Or.inr (by rw [hq]; exact ⟨rfl, rfl⟩))⟩
  | number hk hp =>
    cases hstamp
    exact ⟨h.times, h.readings, h.dated.write hp (Or.inr ⟨rfl, rfl⟩)⟩
  | start hk hp hf h0 =>
    obtain ⟨htimes, hreadings, hdated⟩ := h.launch hstamp (q := Process.started _ _ _) rfl
    exact ⟨htimes, hreadings, hdated⟩
  | relaunch hk hp hrun hf h0 =>
    obtain ⟨htimes, hreadings, hdated⟩ := h.launch hstamp (q := Process.started _ _ _) rfl
    exact ⟨htimes, hreadings, hdated⟩
  | stop hk hp hrun hpid =>
    cases hstamp
    exact ⟨h.times, h.readings, h.dated.write hp (Or.inl rfl)⟩
  | append hn hf h0 =>
    obtain ⟨htimes, hreadings, hdated⟩ := h.launch hstamp
      (q := { Process.started _ _ _ with id := s.processCount }) rfl
    exact ⟨htimes, hreadings, hdated⟩
  | remove hdel =>
    rw [stamp] at hstamp
    split at hstamp
    · rename_i started hmoment
      cases hstamp
      exact ⟨h.times, h.readings, h.dated.delete hdel hmoment⟩
    · cases hstamp
  | quit hk hp hrun =>
    cases hstamp
    exact ⟨h.times, h.readings, h.dated.write hp (Or.inl rfl)⟩

end Stamps

/-! ### The service and its clock -/

/-- The service at a moment, and the moments at which the instances of the slots have been
started. -/
structure Watch where
  system : System
  now : ℝ
  started : Vector ℝ listSize

/-- The answers of the kernel in a step. -/
def Event.answers : Event → Answers
  | .startup answers => answers
  | .handle answers => answers
  | .request _ answers => answers
  | _ => ⟨[], [], fun _ => none, []⟩

/-- The operations of a step. -/
def System.ops (σ : System) : Event → Except Fault (List Op)
  | .startup answers =>
    match σ.phase with
    | .starting i =>
      if i < σ.server.processCount then .ok ((σ.server.asked answers).startupPlan i) else .ok []
    | _ => .ok []
  | .handle answers =>
    match σ.phase with
    | .reaped pid => .ok ((σ.server.asked answers).exitPlan pid)
    | _ => .ok []
  | .request request _ => σ.server.plan request
  | _ => .ok []

/-- A step of a service that goes on, with the readings of the clock behind it: the clock does
not go backwards, and `time` returns whole seconds. -/
structure Timed (σ : Watch) (call : Event × List ℝ) (τ : Watch) : Prop where
  step : Steps σ.system call.1 τ.system
  running : ∀ fault, τ.system.phase ≠ .ended fault
  times : call.1.answers.times = call.2.map Int.floor
  clock : (σ.now :: call.2 ++ [τ.now]).Pairwise (· ≤ ·)
  stamped : ∃ ops t readings, σ.system.ops call.1 = .ok ops ∧
    Run Stamps (σ.system.server.asked call.1.answers, ⟨call.2, σ.started⟩) ops
      (t, ⟨readings, τ.started⟩) ∧
    t.processList = τ.system.server.processList ∧ t.processCount = τ.system.server.processCount

/-- The start times say in which second an instance was started. -/
def Dated (σ : Watch) : Prop := DatedBy σ.now σ.system.server.processList σ.started

theorem Timed.dated {σ τ : Watch} {call : Event × List ℝ} (h : Timed σ call τ) (hσ : Dated σ) :
    Dated τ := by
  obtain ⟨ops, t, readings, -, hrun, hlist, -⟩ := h.stamped
  have hclock := h.clock
  rw [List.cons_append, List.pairwise_cons, List.pairwise_append] at hclock
  obtain ⟨hnow, -, -, hlast⟩ := hclock
  have hstart : Dating τ.now (σ.system.server.asked call.1.answers, ⟨call.2, σ.started⟩) := by
    refine ⟨h.times, fun r hr => hlast r hr _ (List.mem_singleton.mpr rfl), ?_⟩
    intro k p a hp ha h0
    obtain ⟨htime, hle⟩ := hσ k p a hp ha h0
    exact ⟨htime, hle.trans (hnow _ (List.mem_append_right _ (List.mem_singleton.mpr rfl)))⟩
  have hend := hrun.invariant (I := Dating τ.now) (fun _ _ _ hx hxy => hx.step hxy) hstart
  rw [Dated, ← hlist]
  exact hend.dated

/-! Every step of the service is one of these, whatever the clock reads. -/

/-- The operation calls `time`. -/
def Op.reads : Op → Bool
  | .tick => true
  | .start _ => true
  | .relaunch _ => true
  | .append _ => true
  | _ => false

theorem stamp_of_effect {s t : Server} {op : Op} {m : Moments} (h : Effect s op t)
    (hreads : op.reads = true → m.readings ≠ []) :
    ∃ m', stamp s m op = some m' ∧
      m.readings.length = m'.readings.length + if op.reads then 1 else 0 := by
  have hlaunch : ∀ k, m.readings ≠ [] →
      ∃ m', m.launch k = some m' ∧ m.readings.length = m'.readings.length + 1 := by
    intro k hne
    obtain ⟨now, readings, hreadings⟩ := List.exists_cons_of_ne_nil hne
    exact ⟨⟨readings, m.started.setIfInBounds k now⟩, by rw [Moments.launch, hreadings],
      by rw [hreadings]; rfl⟩
  cases h with
  | tick =>
    obtain ⟨now, readings, hreadings⟩ := List.exists_cons_of_ne_nil (hreads rfl)
    exact ⟨{ m with readings := readings }, by rw [stamp, hreadings], by rw [hreadings]; rfl⟩
  | start => exact hlaunch _ (hreads rfl)
  | relaunch => exact hlaunch _ (hreads rfl)
  | append => exact hlaunch _ (hreads rfl)
  | @remove name l res hdel =>
    -- the moments are moved as far as the processes are
    have hmoment : ∃ started, deleteMoment s.processList name m.started = .ok started := by
      rw [delProcessByAppName_eq] at hdel
      rw [deleteMoment]
      cases hindex : deletedIndex s.processList name with
      | error f =>
        rw [hindex] at hdel
        cases hdel
      | ok index =>
        rw [hindex] at hdel
        cases index with
        | none => exact ⟨_, rfl⟩
        | some index =>
          change (slot (Slots.shiftDown Process.shifted _ index s.processList) >>= _) = _ at hdel
          cases hshift : Slots.shiftDown Process.shifted
              (getProcessListCount s.processList - index) index s.processList with
          | error e =>
            rw [hshift] at hdel
            cases hdel
          | ok shifted =>
            obtain ⟨moved, hmoved, -⟩ := Slots.shiftDown_related (f := Process.shifted) (g := id)
              (R := fun _ (_ : ℝ) => True) (b := m.started) (fun _ _ _ => trivial)
              (fun _ _ _ _ _ => trivial) hshift
            refine ⟨moved, ?_⟩
            change slot (Slots.shiftDown id _ index m.started) = _
            rw [hmoved]
            rfl
    obtain ⟨started, hstarted⟩ := hmoment
    exact ⟨{ m with started := started }, by rw [stamp, hstarted], rfl⟩
  | _ => exact ⟨m, rfl, rfl⟩

theorem stamps_of_run {s t : Server} {ops : List Op} (h : Run Effect s ops t) {m : Moments}
    (hreadings : ops.countP Op.reads ≤ m.readings.length) :
    ∃ m', Run Stamps (s, m) ops (t, m') := by
  have haccount : ∀ {s t : Server} {op : Op} {ops : List Op} {m : Moments}, Effect s op t →
      (op :: ops).countP Op.reads ≤ m.readings.length →
      ∃ m', stamp s m op = some m' ∧ ops.countP Op.reads ≤ m'.readings.length := by
    intro s t op ops m hstep henough
    rw [List.countP_cons] at henough
    obtain ⟨m', hm', hlength⟩ := stamp_of_effect (m := m) hstep fun hreads hnil => by
      rw [hnil, if_pos hreads] at henough
      simp at henough
    exact ⟨m', hm', by omega⟩
  obtain ⟨m', hrun, -⟩ := h.along (fun ops (m : Moments) => ops.countP Op.reads ≤ m.readings.length)
    haccount hreadings
  exact ⟨m', hrun⟩

/-- A step of a service that goes on does the operations of its plan. -/
theorem Steps.effects {σ τ : System} {event : Event} (h : Steps σ event τ)
    (hn : σ.server.processCount ≤ listSize) (hτ : ∀ fault, τ.phase ≠ .ended fault) :
    ∃ ops t, σ.ops event = .ok ops ∧ Run Effect (σ.server.asked event.answers) ops t ∧
      t.processList = τ.server.processList ∧ t.processCount = τ.server.processCount ∧
      ((∀ pid, event ≠ .wait pid ∧ event ≠ .exit pid) → t.kernel.pids = τ.server.kernel.pids) := by
  cases h.cases with
  | @iterate i answers hphase hi hfresh =>
    obtain ⟨a, hm⟩ := System.after_running hτ
    obtain ⟨ops, hrun, rfl⟩ := (startupIteration_performs (s := σ.server.asked answers) hi hn).ok hm
    exact ⟨_, _, by rw [System.ops, hphase]; exact if_pos hi, hrun, rfl, rfl, fun _ => rfl⟩
  | @finish i answers hphase hi =>
    exact ⟨_, _, by rw [System.ops, hphase]; exact if_neg (by omega), .nil _, rfl, rfl,
      fun _ => rfl⟩
  | @handle pid answers hphase hfresh =>
    obtain ⟨a, hm⟩ := System.after_running hτ
    obtain ⟨ops, hrun, rfl⟩ := (handleExit_performs pid (s := σ.server.asked answers) hn).ok hm
    exact ⟨_, _, by rw [System.ops, hphase], hrun, rfl, rfl, fun _ => rfl⟩
  | @request request answers hphase hfresh =>
    obtain ⟨a, hm⟩ := System.after_running hτ
    obtain ⟨u, text, hhandle, -, hu⟩ := serve_ok hm
    obtain ⟨ops, hrun, hplan⟩ :=
      (handleRequest_performs (s := σ.server.asked answers) hn request).ok hhandle
    exact ⟨ops, u, hplan, hrun, by rw [hu], by rw [hu], fun _ => by rw [hu]⟩
  | @wait pid => exact ⟨_, _, rfl, .nil _, rfl, rfl, fun h => absurd rfl (h pid).1⟩
  | @exit pid => exact ⟨_, _, rfl, .nil _, rfl, rfl, fun h => absurd rfl (h pid).2⟩

theorem timed_of_steps (now now' : ℝ) (readings : List ℝ) (started : Vector ℝ listSize)
    {σ τ : System} {event : Event} (h : Steps σ event τ) (hn : σ.server.processCount ≤ listSize)
    (hτ : ∀ fault, τ.phase ≠ .ended fault)
    (htimes : event.answers.times = readings.map Int.floor)
    (hclock : (now :: readings ++ [now']).Pairwise (· ≤ ·))
    (henough : ∀ ops, σ.ops event = .ok ops → ops.countP Op.reads ≤ readings.length) :
    ∃ started', Timed ⟨σ, now, started⟩ (event, readings) ⟨τ, now', started'⟩ := by
  obtain ⟨ops, t, hops, hrun, hlist, hcount, -⟩ := h.effects hn hτ
  obtain ⟨⟨rest, started'⟩, hstamps⟩ := stamps_of_run hrun (m := ⟨readings, started⟩)
    (henough ops hops)
  exact ⟨started', h, hτ, htimes, hclock, ops, t, rest, hops, hstamps, hlist, hcount⟩

/-- No process has the pid 0. -/
structure Positive (σ : System) : Prop where
  inside : σ.server.processCount ≤ listSize
  children : ∀ pid ∈ σ.server.kernel.pids, pid ≠ 0
  reaped : σ.phase ≠ .reaped 0

theorem Effect.pids {s t : Server} {op : Op} (h : Effect s op t)
    (hs : ∀ pid ∈ s.kernel.pids ++ s.kernel.answers.forks, pid ≠ 0) :
    ∀ pid ∈ t.kernel.pids ++ t.kernel.answers.forks, pid ≠ 0 := by
  -- `fork` makes a pid that of a child
  have hforked : ∀ {pid : ℤ} {forks : List ℤ}, s.kernel.answers.forks = pid :: forks →
      ∀ x ∈ (pid :: s.kernel.pids) ++ forks, x ≠ 0 := by
    intro pid forks hf x hx
    refine hs x ?_
    rw [hf]
    simp only [List.cons_append, List.mem_cons, List.mem_append] at hx ⊢
    tauto
  cases h with
  | start hk hp hf h0 => exact hforked hf
  | relaunch hk hp hrun hf h0 => exact hforked hf
  | append hn hf h0 => exact hforked hf
  | stop hk hp hrun hpid =>
    intro x hx
    rw [Server.setSlot_kernel, Server.setKernel_kernel, Kernel.pids] at hx
    change x ∈ (die _ s.kernel.children).map Child.pid ++ s.kernel.answers.forks at hx
    rw [pids_die] at hx
    exact hs x hx
  | _ => exact hs

theorem Steps.positive {σ τ : System} {event : Event} (h : Steps σ event τ)
    (hτ : ∀ fault, τ.phase ≠ .ended fault) (hσ : Positive σ) : Positive τ := by
  have hin := h.inside hσ.inside hτ
  have hpids : σ.server.kernel.Fresh event.answers.forks →
      (∀ pid, event ≠ .wait pid ∧ event ≠ .exit pid) → ∀ pid ∈ τ.server.kernel.pids, pid ≠ 0 := by
    intro hfresh hevent pid hpid
    obtain ⟨ops, t, -, hrun, -, -, hchildren⟩ := h.effects hσ.inside hτ
    rw [← hchildren hevent] at hpid
    refine hrun.invariant (I := fun s => ∀ pid ∈ s.kernel.pids ++ s.kernel.answers.forks, pid ≠ 0)
      (fun _ _ _ hs hstep => hstep.pids hs) (fun x hx => ?_) pid (List.mem_append_left _ hpid)
    rcases List.mem_append.mp hx with hx | hx
    · exact hσ.children x hx
    · exact (hfresh.2 x hx).1.ne'
  cases h.cases with
  | iterate hphase hi hfresh =>
    refine ⟨hin, hpids hfresh (by simp), ?_⟩
    rcases σ.after_cases _ _ _ with ⟨a, t, -, heq⟩ | ⟨f, t, -, heq⟩ <;> rw [heq] <;> simp
  | finish hphase hi => exact ⟨hin, hσ.children, by simp⟩
  | @wait pid kernel hphase hreap =>
    rw [Kernel.reap] at hreap
    split at hreap
    · split at hreap
      · cases hreap
        exact ⟨hin, hσ.children, by simp only [ne_eq, Phase.reaped.injEq]; omega⟩
      · cases hreap
    · split at hreap
      · rename_i hdead
        cases hreap
        obtain ⟨child, hchild, rfl, -⟩ := hdead
        refine ⟨hin, fun pid hpid => ?_, ?_⟩
        · obtain ⟨c, hc, rfl⟩ := List.mem_map.mp hpid
          exact hσ.children _ (List.mem_map_of_mem (List.mem_of_mem_filter hc))
        · have hne := hσ.children _ (List.mem_map_of_mem hchild)
          simpa using hne
      · cases hreap
  | handle hphase hfresh =>
    refine ⟨hin, hpids hfresh (by simp), ?_⟩
    rcases σ.after_cases _ _ _ with ⟨a, t, -, heq⟩ | ⟨f, t, -, heq⟩ <;> rw [heq] <;> simp
  | request hphase hfresh =>
    refine ⟨hin, hpids hfresh (by simp), ?_⟩
    rcases σ.after_cases _ _ _ with ⟨a, t, -, heq⟩ | ⟨f, t, -, heq⟩ <;> rw [heq]
    · exact hσ.reaped
    · simp
  | exit =>
    refine ⟨hin, fun pid hpid => hσ.children pid ?_, hσ.reaped⟩
    rw [Kernel.pids] at hpid
    rwa [pids_die] at hpid

theorem positive_loaded {file : Option Text} {junk configFile buffer : Text} {l : ProcessList}
    {n : ℕ} (hload : serviceLoad file junk = .ok (l, n)) :
    Positive ⟨.loaded l n configFile buffer, .starting 0⟩ := by
  refine ⟨?_, by simp [Server.loaded, Kernel.pids], by simp⟩
  rcases serviceLoad_cases hload with h | rfl
  · exact h.inside
  · exact Nat.zero_le _

/-! ### The monitor's decision -/

theorem floor_eq_floor_iff {a r : ℝ} (h : a ≤ r) : ⌊a⌋ = ⌊r⌋ ↔ Int.fract a + (r - a) < 1 := by
  rw [eq_comm, Int.floor_eq_iff, and_iff_right ((Int.floor_le a).trans h), Int.fract]
  constructor <;> intro h <;> linarith

theorem floor_lt_floor {a r : ℝ} (h : 1 ≤ r - a) : ⌊a⌋ ≠ ⌊r⌋ := by
  rw [Ne, floor_eq_floor_iff (by linarith)]
  have := Int.fract_nonneg a
  linarith

/-- The monitor stops the first entry that has the pid, or starts it again. -/
theorem handled_first {s t : Server} {pid : ℤ} {k : ℕ} {p : Process}
    (hrun : Run Effect s (s.exitPlan pid) t) (hp : s.entries[k]? = some p) (hpid : p.pid = pid)
    (hrunning : p.isRunning ≠ 0)
    (hfirst : ∀ (j : ℕ) q, s.entries[j]? = some q → q.pid = pid → k ≤ j) :
    if p.startTime = s.kernel.now then t.entries[k]? = some p.quit
    else ∃ q, t.entries[k]? = some q ∧ q.isRunning ≠ 0 ∧ q.pid ∈ s.kernel.answers.forks := by
  have hlocal : ∀ op ∈ s.exitPlan pid, op.Local := fun op hop => (exitPlan_ops s pid op hop).1
  obtain ⟨q, hq, hacts⟩ := entry_run hrun hlocal hp
  rw [Server.exitPlan, exitPlanFrom_first hp hpid hrunning hfirst, Nat.zero_add] at hacts
  change Run _ p (List.filter _ (if p.startTime = s.kernel.now then _ else _)) q at hacts
  split_ifs at hacts ⊢ with hquick
  · have hone : [Op.tick, .quit k].filter (fun op => op.slot = some k) = [.quit k] := by
      simp [Op.slot]
    rw [hone] at hacts
    obtain ⟨r, hr, hq'⟩ := run_cons.mp hacts
    obtain rfl := run_nil.mp hq'
    cases hr
    exact hq
  · -- behind it, the loop has to do with other entries
    have hrest : (Server.exitPlanFrom pid (k + 1) (s.entries.drop (k + 1))
        s.kernel.answers.times.tail.tail).filter (fun op => op.slot = some k) = [] := by
      refine List.filter_eq_nil_iff.mpr fun op hop => ?_
      rcases exitPlanFrom_shape hop with rfl | ⟨j, hj, rfl | rfl | rfl⟩ <;>
        simp [Op.slot] <;> omega
    have htwo : ∀ rest : List Op, rest.filter (fun op => op.slot = some k) = [] →
        (Op.tick :: .relaunch k :: .note k :: rest).filter (fun op => op.slot = some k) =
          [.relaunch k, .note k] := by
      intro rest hrest
      rw [List.filter_cons, if_neg (by simp [Op.slot]), List.filter_cons,
        if_pos (by simp [Op.slot]),
        List.filter_cons, if_pos (by simp [Op.slot]), hrest]
    rw [htwo _ hrest] at hacts
    obtain ⟨r, hr, hacts⟩ := run_cons.mp hacts
    obtain ⟨r', hr', hq'⟩ := run_cons.mp hacts
    obtain rfl := run_nil.mp hq'
    cases hr with
    | relaunch h0 hf hrun' =>
      cases hr' with
      | note hsim =>
        refine ⟨q, hq, ?_, ?_⟩
        · rw [hsim]
          exact show (1 : Int32) ≠ 0 by decide
        · rw [hsim]
          exact hf

/-- The exit of an app's instance that was started at `a` and is handled at `r`: the monitor stops
the app if less than a second has passed and starts it again otherwise, exactly when no new
second has begun, or a whole one has passed. -/
theorem quick_exit_iff {file : Option Text} {junk configFile buffer : Text}
    {l : ProcessList} {n : ℕ}
    {now : ℝ} {started : Vector ℝ listSize} {calls : List (Event × List ℝ)} {σ τ : Watch}
    (hload : serviceLoad file junk = .ok (l, n))
    (hrun : Run Timed ⟨⟨.loaded l n configFile buffer, .starting 0⟩, now, started⟩ calls σ)
    {pid : ℤ} (hreaped : σ.system.phase = .reaped pid) {k : ℕ} {p : Process}
    (hp : σ.system.server.entries[k]? = some p) (hcurrent : p.pid = pid)
    (hrunning : p.isRunning ≠ 0)
    (hfirst : ∀ (j : ℕ) q, σ.system.server.entries[j]? = some q → q.pid = pid → k ≤ j)
    {answers : Answers} {r : ℝ} {readings : List ℝ}
    (hhandle : Timed σ (.handle answers, r :: readings) τ) :
    ∃ a, σ.started[k]? = some a ∧ a ≤ r ∧
      ((r - a < 1 → τ.system.server.entries[k]? = some p.quit) ∧
        (1 ≤ r - a → ∃ q, τ.system.server.entries[k]? = some q ∧ q.isRunning ≠ 0 ∧
          q.pid ∈ answers.forks) ↔
        Int.fract a + (r - a) < 1 ∨ 1 ≤ r - a) := by
  have hinit : Dated ⟨⟨.loaded l n configFile buffer, .starting 0⟩, now, started⟩ :=
    fun k p a hp _ h0 => absurd (serviceLoad_pids hload k hp) h0
  have hdated : Dated σ := hrun.invariant (I := Dated) (fun _ _ _ hσ h => h.dated hσ) hinit
  have hpositive : Positive σ.system := hrun.invariant (I := fun σ : Watch => Positive σ.system)
    (fun _ _ _ hσ h => h.step.positive h.running hσ) (positive_loaded hload)
  have hpid : pid ≠ 0 := fun h0 => hpositive.reaped (h0 ▸ hreaped)
  obtain ⟨hk, hslot⟩ := entries_get hp
  have hlt : k < listSize := lt_of_slot hslot
  obtain ⟨htime, hle⟩ := hdated k p σ.started[k] hslot (by simp) (hcurrent ▸ hpid)
  -- the start, the moments between, and the reading of the monitor follow each other
  have har : σ.started[k] ≤ r := by
    have hclock := hhandle.clock
    rw [List.cons_append, List.pairwise_cons] at hclock
    exact hle.trans (hclock.1 r (by simp))
  refine ⟨σ.started[k], by simp, har, ?_⟩
  obtain ⟨ops, t, rest, hops, hstamps, hlist, hcount⟩ := hhandle.stamped
  have hplan : ops = (σ.system.server.asked answers).exitPlan pid := by
    rw [System.ops, hreaped] at hops
    exact (Except.ok.inj hops).symm
  subst hplan
  have hentries : t.entries = τ.system.server.entries := by
    rw [Server.entries, Server.entries, hlist, hcount]
  have hnow : (σ.system.server.asked answers).kernel.now = ⌊r⌋ := by
    have htimes : answers.times = (r :: readings).map Int.floor := hhandle.times
    change answers.times.headD 0 = ⌊r⌋
    rw [htimes]
    rfl
  have heffect : Run Effect (σ.system.server.asked answers)
      ((σ.system.server.asked answers).exitPlan pid) t := hstamps.of_along
  have hdecides := handled_first heffect hp hcurrent hrunning hfirst
  rw [hnow, htime, hentries] at hdecides
  by_cases hsame : ⌊σ.started[k]⌋ = ⌊r⌋
  · rw [if_pos hsame] at hdecides
    have hquick := (floor_eq_floor_iff har).mp hsame
    exact iff_of_true ⟨fun _ => hdecides, fun hlate => absurd hsame (floor_lt_floor hlate)⟩
      (Or.inl hquick)
  · rw [if_neg hsame] at hdecides
    rw [or_iff_right fun hquick => hsame ((floor_eq_floor_iff har).mpr hquick)]
    constructor
    · -- a restarted app is not a stopped one
      rintro ⟨hstops, -⟩
      by_contra hearly
      obtain ⟨q, hq, hqrun, -⟩ := hdecides
      obtain rfl := Option.some_inj.mp (hq.symm.trans (hstops (not_le.mp hearly)))
      exact hqrun rfl
    · exact fun hlate => ⟨fun hearly => absurd hlate (not_le.mpr hearly), fun _ => hdecides⟩

/-- Nothing is started without an operation. -/
theorem Timed.started_eq {σ τ : Watch} {call : Event × List ℝ} (h : Timed σ call τ)
    (hops : σ.system.ops call.1 = .ok []) : τ.started = σ.started := by
  obtain ⟨ops, t, readings, hops', hrun, -, -⟩ := h.stamped
  obtain rfl := Except.ok.inj (hops.symm.trans hops')
  exact congrArg (fun x : Server × Moments => x.2.started) (run_nil.mp hrun)

/-- A step without an operation, in no time. -/
theorem timed_of_quiet {σ τ : System} {event : Event} {now : ℝ} {started : Vector ℝ listSize}
    (h : Steps σ event τ) (hn : σ.server.processCount ≤ listSize)
    (hτ : ∀ fault, τ.phase ≠ .ended fault) (htimes : event.answers.times = [])
    (hops : σ.ops event = .ok []) :
    Timed ⟨σ, now, started⟩ (event, []) ⟨τ, now, started⟩ := by
  obtain ⟨started', htimed⟩ :=
    timed_of_steps now now [] started h hn hτ htimes (by simp) fun ops hops' => by
      obtain rfl := Except.ok.inj (hops.symm.trans hops')
      exact le_rfl
  obtain rfl : started' = started := htimed.started_eq hops
  exact htimed

/-! An app that is started at a moment of second 0, and whose exit is handled in second 1. -/

def webLaunched : System :=
  (webSystem.step (.startup ⟨[7], [0], fun _ => none, []⟩)).getD webSystem

def untilExit : List Event := [.startup ⟨[], [], fun _ => none, []⟩, .exit 7, .wait 7]

def webExited : System := (untilExit.foldlM System.step webLaunched).getD webLaunched

def webHandled : Event := .handle ⟨[9], [1, 1], fun _ => none, []⟩

theorem launched_timed {a : ℝ} (ha : ⌊a⌋ = 0) (started : Vector ℝ listSize) :
    ∃ moments : Vector ℝ listSize, moments[0]? = some a ∧
      Timed ⟨webSystem, a, started⟩ (.startup ⟨[7], [0], fun _ => none, []⟩, [a])
        ⟨webLaunched, a, moments⟩ := by
  have hops : webSystem.ops (.startup ⟨[7], [0], fun _ => none, []⟩) =
      .ok [.number 0, .relaunch 0] := by
    have h : (webSystem.ops (.startup ⟨[7], [0], fun _ => none, []⟩)).toOption =
        some [.number 0, .relaunch 0] := by decide +kernel
    generalize webSystem.ops (.startup ⟨[7], [0], fun _ => none, []⟩) = ops at h
    cases ops with
    | ok ops => exact congrArg Except.ok (Option.some.inj h)
    | error f => cases h
  have hphase : webLaunched.phase = .starting 1 := by decide +kernel
  have hsteps : Steps webSystem (.startup ⟨[7], [0], fun _ => none, []⟩) webLaunched :=
    steps_of_isSome (by decide +kernel)
  obtain ⟨moments, htimed⟩ := timed_of_steps a a [a] started hsteps (by decide)
    (by simp [hphase]) (by rw [List.map_singleton, ha]; rfl) (by simp)
    (fun ops h => by obtain rfl := Except.ok.inj (hops.symm.trans h); exact le_rfl)
  refine ⟨moments, ?_, htimed⟩
  obtain ⟨ops, t, readings, hops', hrun, -, -⟩ := htimed.stamped
  obtain rfl := Except.ok.inj (hops.symm.trans hops')
  -- the second operation reads the clock
  obtain ⟨⟨u, m⟩, ⟨-, hnumber⟩, hrun⟩ := run_cons.mp hrun
  obtain ⟨⟨v, m'⟩, ⟨-, hlaunch⟩, hrun⟩ := run_cons.mp hrun
  have hend := run_nil.mp hrun
  cases hnumber
  cases hlaunch
  cases hend
  exact Vector.getElem?_setIfInBounds_self_of_lt (by decide)

theorem untilExit_timed {a : ℝ} (moments : Vector ℝ listSize) :
    Run Timed ⟨webLaunched, a, moments⟩ (untilExit.map fun event => (event, []))
      ⟨webExited, a, moments⟩ := by
  have hreaped : webExited.phase = .reaped 7 := by decide +kernel
  have hops : webLaunched.ops (.startup ⟨[], [], fun _ => none, []⟩) = .ok [] := by
    have hphase : webLaunched.phase = .starting 1 := by decide +kernel
    have hcount : webLaunched.server.processCount = 1 := by decide +kernel
    rw [System.ops, hphase]
    exact if_neg (by omega)
  have hrun : Run Steps webLaunched untilExit webExited := run_of_isSome (by decide +kernel)
  obtain ⟨σ, hfinish, hrun⟩ := run_cons.mp hrun
  obtain ⟨ρ, hexit, hrun⟩ := run_cons.mp hrun
  obtain ⟨τ, hwait, hτ⟩ := run_cons.mp hrun
  obtain rfl := run_nil.mp hτ
  have hρ := hwait.running (by simp [hreaped])
  have hσ := hexit.running hρ
  have hn : webLaunched.server.processCount ≤ listSize := by decide +kernel
  have hn₁ := hfinish.inside hn hσ
  have hn₂ := hexit.inside hn₁ hρ
  exact .cons (timed_of_quiet hfinish hn hσ rfl hops)
    (.cons (timed_of_quiet hexit hn₁ hρ rfl rfl)
      (.single (timed_of_quiet hwait hn₂ (by simp [hreaped]) rfl rfl)))

/-- It is started again. -/
theorem handled_timed {a r : ℝ} (hr : ⌊r⌋ = 1) (har : a ≤ r) (moments : Vector ℝ listSize) :
    ∃ τ : Watch, Timed ⟨webExited, a, moments⟩ (webHandled, [r, r]) τ ∧
      τ.system.server.entries.map Process.pid = [9] := by
  have hphase : ((webExited.step webHandled).getD webExited).phase = .waiting := by decide +kernel
  have hpids :
    ((webExited.step webHandled).getD webExited).server.entries.map Process.pid = [9] := by
    decide +kernel
  have hreads : ∀ ops, webExited.ops webHandled = .ok ops → ops.countP Op.reads ≤ 2 := by
    have h : (webExited.ops webHandled).toOption.all fun ops => ops.countP Op.reads ≤ 2 := by
      decide +kernel
    intro ops hops
    rw [hops] at h
    exact of_decide_eq_true h
  have hsteps : Steps webExited webHandled ((webExited.step webHandled).getD webExited) :=
    steps_of_isSome (by decide +kernel)
  obtain ⟨moments', htimed⟩ :=
    timed_of_steps a r [r, r] moments hsteps (by decide +kernel) (by simp [hphase])
    (by rw [List.map_cons, List.map_singleton, hr]; rfl) (by simp [har]) hreads
  exact ⟨_, htimed, hpids⟩

/-- The entry whose exit is handled. -/
theorem exited_entry :
    webExited.phase = .reaped 7 ∧
      ∃ p, webExited.server.entries[0]? = some p ∧ p.pid = 7 ∧ p.isRunning ≠ 0 := by
  have h : (webExited.server.entries.map fun p => (p.pid, p.isRunning))[0]? = some (7, 1) := by
    decide +kernel
  rw [List.getElem?_map, Option.map_eq_some_iff] at h
  obtain ⟨p, hp, heq⟩ := h
  refine ⟨by decide +kernel, p, hp, congrArg Prod.fst heq, ?_⟩
  rw [show p.isRunning = 1 from congrArg Prod.snd heq]
  decide

/-- An app that has lived a second is started again. -/
theorem quick_exit_iff_web :
    ∃ (calls : List (Event × List ℝ)) (σ τ : Watch) (a : ℝ),
      Run Timed ⟨webSystem, 9 / 10, Vector.replicate listSize 0⟩ calls σ ∧
      Timed σ (webHandled, [19 / 10, 19 / 10]) τ ∧ σ.started[0]? = some a ∧ a ≤ 19 / 10 ∧
      ∃ p, ((19 / 10 - a < 1 → τ.system.server.entries[0]? = some (Process.quit p)) ∧
        (1 ≤ 19 / 10 - a → ∃ q, τ.system.server.entries[0]? = some q ∧ q.isRunning ≠ 0 ∧
          q.pid ∈ [(9 : ℤ)]) ↔
        Int.fract a + (19 / 10 - a) < 1 ∨ 1 ≤ 19 / 10 - a) := by
  obtain ⟨moments, hmoment, hlaunch⟩ := launched_timed (a := 9 / 10)
    (by rw [Int.floor_eq_iff]; norm_num) (Vector.replicate listSize 0)
  obtain ⟨τ, hhandle, -⟩ := handled_timed (a := 9 / 10) (r := 19 / 10)
    (by rw [Int.floor_eq_iff]; norm_num) (by norm_num) moments
  obtain ⟨hreaped, p, hp, hpid, hrunning⟩ := exited_entry
  have hrun := Run.cons hlaunch (untilExit_timed moments)
  have hload : serviceLoad (some webConfig) [] = .ok (webList, 1) :=
    serviceLoad_of_parse webList_load
  obtain ⟨a, ha, har, hiff⟩ := quick_exit_iff hload hrun hreaped hp hpid hrunning
    (fun j q _ _ => Nat.zero_le j) hhandle
  exact ⟨_, _, τ, a, hrun, hhandle, ha, har, p, hiff⟩

/-- The app exits within a fifth of a second, and a new second has begun: it is started
again. -/
theorem quick_exit_restarted :
    ∃ (calls : List (Event × List ℝ)) (σ τ : Watch),
      Run Timed ⟨webSystem, 9 / 10, Vector.replicate listSize 0⟩ calls σ ∧
      σ.system.phase = .reaped 7 ∧
      (∃ p, σ.system.server.entries[0]? = some p ∧ p.pid = 7 ∧ p.isRunning ≠ 0) ∧
      σ.started[0]? = some (9 / 10) ∧ Timed σ (webHandled, [11 / 10, 11 / 10]) τ ∧
      (11 / 10 : ℝ) - 9 / 10 < 1 ∧ τ.system.server.entries.map Process.pid = [9] := by
  obtain ⟨moments, hmoment, hlaunch⟩ := launched_timed (a := 9 / 10)
    (by rw [Int.floor_eq_iff]; norm_num) (Vector.replicate listSize 0)
  obtain ⟨τ, hhandle, hpids⟩ := handled_timed (a := 9 / 10) (r := 11 / 10)
    (by rw [Int.floor_eq_iff]; norm_num) (by norm_num) moments
  obtain ⟨hreaped, hentry⟩ := exited_entry
  exact ⟨_, _, τ, .cons hlaunch (untilExit_timed moments), hreaped, hentry, hmoment, hhandle,
    by norm_num, hpids⟩

end KbPm
