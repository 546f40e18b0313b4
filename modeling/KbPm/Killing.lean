/-
The processes that are killed.

* `KillCall.Own` — a call of `kill_process` is for a child of the service that
  executes the entry it is made for;
* `Killing.step`, `handleRequest_kills` — operations make such calls only, if no entry is
  stopped that has no child;
* `kills_own` — over runs of the system.
-/
import KbPm.Load
import KbPm.Tracking

namespace KbPm

open Trace

/-- The pid is that of a child which was forked for the entry and is not reaped. -/
def KillCall.Own (call : KillCall) : Prop :=
  0 < call.process.pid ∧ ∃ child ∈ call.children,
    child.pid = call.process.pid ∧ child.app.program = call.process.program

def OwnKills (kernel : Kernel) : Prop := ∀ call ∈ kernel.kills, call.Own

/-- The entry that is stopped has been started, and its child is not reaped. -/
def StopsChild (pending : Option ℤ) (s : Server) (op : Op) : Prop :=
  ∀ (k : ℕ) p, op = .stop k → s.entries[k]? = some p → p.pid ≠ 0 ∧ pending ≠ some p.pid

/-- The list is sound, and only own children have been killed. -/
structure Killing (pending : Option ℤ) (s : Server) : Prop where
  sound : Sound pending s
  fresh : FreshFor pending s.kernel
  own : OwnKills s.kernel

section Requests

variable {pending : Option ℤ} {s t : Server} {k : ℕ} {p : Process}

theorem Sound.stop_own (h : Sound pending s) (hp : s.entries[k]? = some p)
    (hpid : p.pid ≠ 0 ∧ pending ≠ some p.pid) :
    KillCall.Own ⟨{ p with isRunning := 0 }, s.kernel.children⟩ := by
  have hpos := h.nonneg k p hp
  refine ⟨show 0 < p.pid by omega, ?_⟩
  exact (h.known k p hp hpid.1).resolve_left hpid.2

theorem OwnKills.append {kernel kernel' : Kernel} {call : KillCall} (h : OwnKills kernel)
    (hcall : call.Own) (hkills : kernel'.kills = kernel.kills ++ [call]) : OwnKills kernel' := by
  intro c hc
  rw [hkills] at hc
  rcases List.mem_append.mp hc with hc | hc
  · exact h c hc
  · rw [List.mem_singleton.mp hc]
    exact hcall

theorem OwnKills.congr {kernel kernel' : Kernel} (h : OwnKills kernel)
    (hkills : kernel'.kills = kernel.kills) : OwnKills kernel' := by
  rw [OwnKills, hkills]
  exact h

theorem Killing.step {op : Op} (h : Killing pending s) (hpermit : Permits s op)
    (hstops : StopsChild pending s op) (hstep : Effect s op t) : Killing pending t := by
  obtain ⟨hsound, hfresh⟩ := h.sound.step h.fresh hstep hpermit
  refine ⟨hsound, hfresh, ?_⟩
  cases hstep with
  | @stop k p hk hp hrun hpid =>
    have hp := entries_of_slot hk hp
    exact h.own.append (h.sound.stop_own hp (hstops k p rfl hp)) rfl
  | _ => exact h.own.congr rfl

/-- A plan that stops entries with children only, and removes only where at most the
last name is empty. -/
structure Harmless (pending : Option ℤ) (s : Server) (plan : List Op) : Prop where
  stops : ∀ op ∈ plan, StopsChild pending s op
  fits : ∀ name, .remove name ∈ plan → Fits s

theorem Planned.stopsChild {u : Server} {ops rest : List Op} {o : Op}
    (h : Planned s (ops ++ o :: rest)) (hharmless : Harmless pending s (ops ++ o :: rest))
    (hrun : Run Effect s ops u) : StopsChild pending u o := by
  rintro k p rfl hp
  rw [entry_kept hrun h.before_local h.stops_first] at hp
  exact hharmless.stops _ (List.mem_append_right _ List.mem_cons_self) k p rfl hp

/-- What has been done of a plan. -/
theorem Planned.killing {plan ops rest : List Op} (h : Planned s plan)
    (hharmless : Harmless pending s plan) (hs : Killing pending s) (hplan : plan = ops ++ rest)
    (hrun : Run Effect s ops t) : Killing pending t := by
  have hguarded : Guarded Effect (fun u o => Permits u o ∧ StopsChild pending u o) s ops t := by
    refine hrun.guarded fun before o behind u hops hbefore => ?_
    have hplan' : plan = before ++ o :: (behind ++ rest) := by
      rw [hplan, hops, List.append_assoc]
      rfl
    subst hplan'
    exact ⟨h.permits hharmless.fits hbefore, h.stopsChild hharmless hbefore⟩
  exact hguarded.invariant (I := Killing pending)
    (fun _ _ _ hu hguard hstep => hu.step hguard.1 hguard.2 hstep) hs

theorem Fails.own {op : Op} {f : Fault} (hs : Killing pending s) (hstops : StopsChild pending s op)
    (h : Fails s op f t) : OwnKills t.kernel := by
  cases h with
  | stop hk hp hrun hpid hkills =>
    have hp := entries_of_slot hk hp
    exact hs.own.append (hs.sound.stop_own hp (hstops _ _ rfl hp)) hkills
  | start hf hkills => exact hs.own.congr hkills
  | relaunch hf hkills => exact hs.own.congr hkills
  | append hf hkills => exact hs.own.congr hkills
  | full hn hkills => exact hs.own.congr hkills
  | remove hdel => exact hs.own
  | note hp hstatus => exact hs.own

/-- A request whose plan is harmless kills own children only, however it ends. -/
theorem handleRequest_kills (request : Request) (hs : Killing pending s)
    (hharmless : ∀ plan, s.plan request = .ok plan → Harmless pending s plan) :
    match handleRequest request s with
    | .ok _ t => Killing pending t
    | .error _ t => OwnKills t.kernel := by
  have hn := hs.sound.tidy.inside
  have hperforms := handleRequest_performs hn request
  cases hhandle : handleRequest request s with
  | ok response t =>
    obtain ⟨ops, hrun, hplan⟩ := hperforms.ok hhandle
    exact (plan_cases hn hplan).killing (hharmless _ hplan) hs (List.append_nil ops).symm hrun
  | error f t =>
    obtain ⟨ops, u, hrun, hbreaks⟩ := hperforms.error hhandle
    cases hbreaks with
    | operand hplan => exact hs.own
    | op hplan hf =>
      have hplanned := plan_cases hn hplan
      have hu := hplanned.killing (hharmless _ hplan) hs rfl hrun
      exact hf.own hu (hplanned.stopsChild (hharmless _ hplan) hrun)
    | text hplan =>
      exact ((plan_cases hn hplan).killing (hharmless _ hplan) hs
        (List.append_nil ops).symm hrun).own

end Requests

/-! ### The system -/

/-- Only stopping kills. -/
theorem Effect.kills {s t : Server} {op : Op} (h : Effect s op t) (hop : ∀ k, op ≠ .stop k) :
    t.kernel.kills = s.kernel.kills := by
  cases h with
  | stop => exact absurd rfl (hop _)
  | _ => rfl

theorem kills_run {s t : Server} {ops : List Op} (h : Run Effect s ops t)
    (hops : ∀ op ∈ ops, ∀ k, op ≠ .stop k) : t.kernel.kills = s.kernel.kills := by
  induction h with
  | nil s => rfl
  | cons hl _ ih =>
    rw [ih fun op hop => hops op (List.mem_cons_of_mem _ hop), hl.kills (hops _ List.mem_cons_self)]

/-- A plan that stops nothing kills nothing, however it ends. -/
theorem FailsIn.kills {s u t : Server} {plan ops : List Op} {f : Fault}
    (hrun : Run Effect s ops u) (h : FailsIn plan f ops u t)
    (hops : ∀ op ∈ plan, ∀ k, op ≠ .stop k) :
    t.kernel.kills = s.kernel.kills := by
  obtain ⟨o, rest, rfl, hf⟩ := h
  have hu := kills_run hrun fun op hop => hops op (List.mem_append_left _ hop)
  rw [← hu]
  cases hf with
  | stop => exact absurd rfl (hops _ (List.mem_append_right _ List.mem_cons_self) _)
  | start hf hkills => exact hkills
  | relaunch hf hkills => exact hkills
  | append hf hkills => exact hkills
  | full hn hkills => exact hkills
  | remove hdel => rfl
  | note hp hstatus => rfl

/-- Only own children have been killed; and if the service has not ended, the list is
sound. -/
structure KillsOwn (σ : System) : Prop where
  own : OwnKills σ.server.kernel
  sound : (∀ fault, σ.phase ≠ .ended fault) → Sound σ.phase.pending σ.server

/-- A request does not stop an entry that counts as running and has no child that is not
reaped: one that the startup loop has yet to start, or the one whose pid `wait` has
returned, as long as it is not handled.  This pid is not given to a new child either,
and at most the last name is empty when an entry is removed. -/
def StopsOwn (σ : System) : Event → Prop
  | .request request answers =>
    (∀ pid ∈ answers.forks, σ.phase.pending ≠ some pid) ∧
      ∀ plan, σ.server.plan request = .ok plan → Harmless σ.phase.pending σ.server plan
  | _ => True

theorem reap_kills {kernel kernel' : Kernel} {pid : ℤ} (h : kernel.reap pid = some kernel') :
    kernel'.kills = kernel.kills := by
  rw [Kernel.reap] at h
  split_ifs at h
  · cases h
    rfl
  · cases h
    rfl

theorem Sound.asked {pending : Option ℤ} {s : Server} (h : Sound pending s) (answers : Answers) :
    Sound pending (s.asked answers) :=
  h.congr ⟨h.tidy.inside, h.tidy.unnamed⟩ rfl rfl

theorem KillsOwn.step {σ τ : System} {event : Event} (h : KillsOwn σ) (hok : StopsOwn σ event)
    (hstep : Steps σ event τ) : KillsOwn τ := by
  cases hstep.cases with
  | @iterate i answers hphase hi hfresh =>
    have hsound := (h.sound (by simp [hphase])).asked answers
    rw [hphase] at hsound
    have hown : OwnKills (σ.server.asked answers).kernel := h.own
    -- the startup loop kills nothing
    have hplan := startupPlan_ops (σ.server.asked answers) i
    have hperforms := startupIteration_performs (s := σ.server.asked answers) hi hsound.tidy.inside
    rcases σ.after_cases (startupIteration i) answers (.starting (i + 1)) with
      ⟨a, t, hm, heq⟩ | ⟨f, t, hm, heq⟩ <;> rw [heq]
    · obtain ⟨ops, hrun, rfl⟩ := hperforms.ok hm
      refine ⟨hown.congr (kills_run hrun fun op hop => (hplan op hop).2.2), fun _ => ?_⟩
      exact (hsound.run ⟨hfresh, by simp [Phase.pending]⟩ hrun fun op hop => (hplan op hop).1).1
    · obtain ⟨ops, u, hrun, hfails⟩ := hperforms.error hm
      exact ⟨hown.congr (hfails.kills hrun fun op hop => (hplan op hop).2.2),
        fun hend => absurd rfl (hend f)⟩
  | finish hphase hi =>
    have hsound := h.sound (by simp [hphase])
    rw [hphase] at hsound
    exact ⟨h.own, fun _ => hsound⟩
  | @wait pid kernel hphase hreap =>
    have hsound := h.sound (by simp [hphase])
    rw [hphase] at hsound
    exact ⟨h.own.congr (reap_kills hreap), fun _ => hsound.reap hreap⟩
  | @handle pid answers hphase hfresh =>
    have hsound := (h.sound (by simp [hphase])).asked answers
    rw [hphase] at hsound
    have hown : OwnKills (σ.server.asked answers).kernel := h.own
    -- neither does the monitor
    have hplan := exitPlan_ops (σ.server.asked answers) pid
    have hperforms := handleExit_performs pid (s := σ.server.asked answers)
      hsound.tidy.inside
    rcases σ.after_cases (handleExit pid) answers .waiting with
      ⟨a, t, hm, heq⟩ | ⟨f, t, hm, heq⟩ <;>
      rw [heq]
    · obtain ⟨ops, hrun, rfl⟩ := hperforms.ok hm
      exact ⟨hown.congr (kills_run hrun fun op hop => (hplan op hop).2),
        fun _ => hsound.handled hfresh hrun⟩
    · obtain ⟨ops, u, hrun, hfails⟩ := hperforms.error hm
      exact ⟨hown.congr (hfails.kills hrun fun op hop => (hplan op hop).2),
        fun hend => absurd rfl (hend f)⟩
  | @request request answers hphase hfresh =>
    -- a request kills the children of entries that its plan stops
    obtain ⟨hpending, hharmless⟩ := hok
    have hs : Killing σ.phase.pending (σ.server.asked answers) :=
      ⟨(h.sound hphase).asked answers, ⟨hfresh, fun pid hpid => hpending pid hpid⟩, h.own⟩
    have hkills := handleRequest_kills request hs fun plan hplan =>
      ⟨(hharmless plan hplan).stops, (hharmless plan hplan).fits⟩
    rcases σ.after_cases (serve request) answers σ.phase with ⟨a, t, hm, heq⟩ | ⟨f, t, hm, heq⟩ <;>
      rw [heq]
    · obtain ⟨u, text, hhandle, -, rfl⟩ := serve_ok hm
      rw [hhandle] at hkills
      exact ⟨hkills.own.congr rfl,
        fun _ => hkills.sound.congr ⟨hkills.sound.tidy.inside, hkills.sound.tidy.unnamed⟩ rfl rfl⟩
    · refine ⟨?_, fun hend => absurd rfl (hend f)⟩
      rcases serve_error hm with hhandle | ⟨response, u, hhandle, -, rfl⟩ <;> rw [hhandle] at hkills
      · exact hkills
      · exact hkills.own.congr rfl
  | exit => exact ⟨h.own.congr rfl, fun hend => (h.sound hend).exit _⟩

/-- A service that has loaded a config, or nothing. -/
structure Booted (σ : System) : Prop where
  loaded : Loaded σ.server.processList σ.server.processCount
  children : σ.server.kernel.children = []
  kills : σ.server.kernel.kills = []
  phase : σ.phase = .starting 0

theorem booted_config {file : Option Text} {junk : Text} {l : ProcessList} {n : ℕ}
    (configFile buffer : Text) (h : parseProcessListFromPath file junk .zero = .ok (l, (n : ℤ))) :
    Booted ⟨.loaded l n configFile buffer, .starting 0⟩ :=
  ⟨loaded_of_path h, rfl, rfl, rfl⟩

theorem Booted.sound {σ : System} (h : Booted σ) : Sound none σ.server := by
  have hidle : ∀ (k : ℕ) p, σ.server.entries[k]? = some p → p.pid = 0 := fun k p hp =>
    (h.loaded.idle k p (entries_get hp).2).1
  have hpids : σ.server.kernel.pids = [] := by rw [Kernel.pids, h.children]; rfl
  refine ⟨h.loaded.tidy, fun k p hp _ => hidle k p hp, fun k p hp => (hidle k p hp).ge,
    fun i j p q hp hq h0 => absurd (hidle i p hp) h0, fun k p hp h0 => absurd (hidle k p hp) h0, ?_,
    ?_, fun pid hpid => by cases hpid⟩ <;> rw [hpids]
  · exact List.nodup_nil
  · simp

/-- As long as requests stop only what has a child, the service kills only its own
children. -/
theorem kills_own {file : Option Text} {junk configFile buffer : Text} {l : ProcessList} {n : ℕ}
    {events : List Event} {τ : System}
    (hload : parseProcessListFromPath file junk .zero = .ok (l, (n : ℤ)))
    (hrun : Guarded Steps StopsOwn ⟨.loaded l n configFile buffer, .starting 0⟩ events τ) :
    ∀ call ∈ τ.server.kernel.kills, 0 < call.process.pid ∧ ∃ child ∈ call.children,
      child.pid = call.process.pid ∧ child.app.program = call.process.program := by
  have hbooted := booted_config configFile buffer hload
  have hinit : KillsOwn ⟨.loaded l n configFile buffer, .starting 0⟩ := by
    refine ⟨fun call hcall => ?_, fun _ => hbooted.sound⟩
    rw [hbooted.kills] at hcall
    cases hcall
  exact (hrun.invariant (I := KillsOwn) (fun _ _ _ h hok hstep => h.step hok hstep) hinit).own

theorem kills_own_web :
    ∃ τ, Run Steps webSystem [.startup (onePid 7), .request (plainRequest "stopall") (onePid 8)] τ ∧
      τ.server.kernel.kills.map (fun call => call.process.pid) = [7] ∧
      ∀ call ∈ τ.server.kernel.kills, 0 < call.process.pid ∧ ∃ child ∈ call.children,
        child.pid = call.process.pid ∧ child.app.program = call.process.program := by
  set σ := (webSystem.step (.startup (onePid 7))).getD webSystem with hσ
  have hstart : Steps webSystem (.startup (onePid 7)) σ := steps_of_isSome (by decide +kernel)
  obtain ⟨τ, hrun, hkills⟩ := run_of_any σ
    [.request (plainRequest "stopall") (onePid 8)]
    (fun τ => decide (τ.server.kernel.kills.map (fun call => call.process.pid) = [7]))
    (by decide +kernel)
  obtain ⟨υ, hstop, hυ⟩ := run_cons.mp hrun
  obtain rfl := run_nil.mp hυ
  -- the one entry has been started
  have hplan : σ.server.plan (plainRequest "stopall") = .ok [.stop 0] := by decide +kernel
  have hpid : (σ.server.entries[0]?).map Process.pid = some 7 := by decide +kernel
  have hphase : σ.phase.pending = none := by decide +kernel
  have hok : StopsOwn σ (.request (plainRequest "stopall") (onePid 8)) := by
    rw [StopsOwn, hphase]
    refine ⟨by simp, fun plan hplan' => ?_⟩
    obtain rfl : plan = [.stop 0] := Except.ok.inj (hplan'.symm.trans hplan)
    refine ⟨fun op hop k p hk hp => ?_, by simp⟩
    obtain rfl := List.mem_singleton.mp hop
    obtain rfl : 0 = k := Op.stop.inj hk
    rw [hp, Option.map_some, Option.some_inj] at hpid
    exact ⟨by omega, by simp⟩
  have hguarded : Guarded Steps StopsOwn webSystem
      [.startup (onePid 7), .request (plainRequest "stopall") (onePid 8)] τ :=
    .cons trivial hstart (.cons hok hstop (.nil τ))
  exact ⟨τ, .cons hstart hrun, by simpa using hkills, kills_own webList_load hguarded⟩

/-- The app is to run, but the startup loop has not started it yet. -/
theorem stopall_kills_group :
    parseProcessListFromPath (some webConfig) [] .zero = .ok (webList, (1 : ℕ)) ∧
      ∃ τ, Run Steps ⟨.loaded webList 1 webConfig [], .starting 0⟩
          [.request (plainRequest "stopall") (onePid 7)] τ ∧
        τ.phase = .ended .killGroup ∧ ∃ call ∈ τ.server.kernel.kills, ¬0 < call.process.pid := by
  obtain ⟨τ, hrun, hτ⟩ := run_of_any webSystem
    [.request (plainRequest "stopall") (onePid 7)]
    (fun τ => decide (τ.phase = .ended .killGroup ∧
      ∃ call ∈ τ.server.kernel.kills, ¬0 < call.process.pid)) (by decide +kernel)
  exact ⟨webList_load, τ, hrun, of_decide_eq_true hτ⟩

end KbPm
