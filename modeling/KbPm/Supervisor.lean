/-
The service as a system of two threads and the children.

The main thread runs the startup loop, without the lock, and then the monitor,
which calls `wait` without the lock and handles the pid it gets with it.  The
socket thread serves a request with the lock.  Children die at any time.  An
iteration of the startup loop, a call of `wait`, the handling of a pid and a
request are one step each.

* `System`, `Event`, `System.step` — the states, and what happens in them;
* `Steps.cases` — what a step can be.
-/
import KbPm.Lib.Trace
import KbPm.ProcessText
import KbPm.Server

namespace KbPm

open Trace

/-- Where the main thread is. -/
inductive Phase
  /-- in the startup loop, before it compares `i` -/
  | starting (i : ℕ)
  /-- in the monitor's loop, before `wait` -/
  | waiting
  /-- in the monitor's loop, when `wait` has returned `pid` and before the lock -/
  | reaped (pid : ℤ)
  /-- nowhere: the service has ended -/
  | ended (fault : Fault)
  deriving DecidableEq

structure System where
  server : Server
  phase : Phase

inductive Event
  /-- the startup loop goes on, or ends -/
  | startup (answers : Answers)
  /-- `wait` returns `pid` -/
  | wait (pid : ℤ)
  /-- the monitor handles the pid that `wait` has returned -/
  | handle (answers : Answers)
  /-- a request is served -/
  | request (request : Request) (answers : Answers)
  /-- the child `pid` dies -/
  | exit (pid : ℤ)

/-- The pid that `wait` has returned and that has not been handled. -/
def Phase.pending : Phase → Option ℤ
  | .reaped pid => some pid
  | _ => none

/-- `fork` returns pids that no child has, also no dead one that is not reaped. -/
def Kernel.Fresh (kernel : Kernel) (forks : List ℤ) : Prop :=
  forks.Nodup ∧ ∀ pid ∈ forks, 0 < pid ∧ pid ∉ kernel.pids

instance (kernel : Kernel) (forks : List ℤ) : Decidable (kernel.Fresh forks) :=
  inferInstanceAs (Decidable (forks.Nodup ∧ ∀ pid ∈ forks, 0 < pid ∧ pid ∉ kernel.pids))

/-- `wait(NULL)` returns the pid of a dead child, which is no child then any more, or
-1 when there are no children. -/
def Kernel.reap (kernel : Kernel) (pid : ℤ) : Option Kernel :=
  if pid = -1 then
    if kernel.children = [] then some kernel else none
  else if ∃ child ∈ kernel.children, child.pid = pid ∧ child.alive = false then
    some { kernel with children := kernel.children.filter fun child => child.pid ≠ pid }
  else none

namespace System

/-- The state behind a step of the service. -/
def after {α : Type} (σ : System) (m : ServerM α) (answers : Answers) (next : Phase) : System :=
  match m (σ.server.asked answers) with
  | .ok _ server => ⟨server, next⟩
  | .error fault server => ⟨server, .ended fault⟩

def step (σ : System) : Event → Option System
  | .startup answers =>
    match σ.phase with
    | .starting i =>
      if i < σ.server.processCount then
        if σ.server.kernel.Fresh answers.forks then
          some (σ.after (startupIteration i) answers (.starting (i + 1)))
        else none
      else some { σ with phase := .waiting }
    | _ => none
  | .wait pid =>
    match σ.phase with
    | .waiting =>
      (σ.server.kernel.reap pid).map fun kernel => ⟨{ σ.server with kernel := kernel }, .reaped pid⟩
    | _ => none
  | .handle answers =>
    match σ.phase with
    | .reaped pid =>
      if σ.server.kernel.Fresh answers.forks then some (σ.after (handleExit pid) answers .waiting)
      else none
    | _ => none
  | .request request answers =>
    match σ.phase with
    | .ended _ => none
    | phase =>
      if σ.server.kernel.Fresh answers.forks then some (σ.after (serve request) answers phase)
      else none
  | .exit pid =>
    if ∃ child ∈ σ.server.kernel.children, child.pid = pid ∧ child.alive = true then
      some { σ with
        server := { σ.server with
          kernel := { σ.server.kernel with children := die pid σ.server.kernel.children } } }
    else none

end System

theorem System.after_cases {α : Type} (σ : System) (m : ServerM α) (answers : Answers)
    (next : Phase) :
    (∃ a t, m (σ.server.asked answers) = .ok a t ∧ σ.after m answers next = ⟨t, next⟩) ∨
      ∃ f t, m (σ.server.asked answers) = .error f t ∧ σ.after m answers next = ⟨t, .ended f⟩ := by
  unfold System.after
  cases m (σ.server.asked answers) with
  | ok a t => exact Or.inl ⟨a, t, rfl, rfl⟩
  | error f t => exact Or.inr ⟨f, t, rfl, rfl⟩

/-- A service that goes on has done what it was about to do. -/
theorem System.after_running {α : Type} {σ : System} {m : ServerM α} {answers : Answers}
    {next : Phase} (h : ∀ fault, (σ.after m answers next).phase ≠ .ended fault) :
    ∃ a, m (σ.server.asked answers) = .ok a (σ.after m answers next).server := by
  rcases σ.after_cases m answers next with ⟨a, t, hm, heq⟩ | ⟨f, t, hm, heq⟩ <;>
    rw [heq] at h ⊢
  · exact ⟨a, hm⟩
  · exact absurd rfl (h f)

/-- The steps of the system. -/
def Steps (σ : System) (event : Event) (τ : System) : Prop := σ.step event = some τ

/-- What a step is. -/
inductive Stepped (σ : System) : Event → System → Prop
  | iterate {i : ℕ} {answers : Answers} (hphase : σ.phase = .starting i)
    (hi : i < σ.server.processCount) (hfresh : σ.server.kernel.Fresh answers.forks) :
    Stepped σ (.startup answers) (σ.after (startupIteration i) answers (.starting (i + 1)))
  | finish {i : ℕ} {answers : Answers} (hphase : σ.phase = .starting i)
    (hi : σ.server.processCount ≤ i) : Stepped σ (.startup answers) ⟨σ.server, .waiting⟩
  | wait {pid : ℤ} {kernel : Kernel} (hphase : σ.phase = .waiting)
    (hreap : σ.server.kernel.reap pid = some kernel) :
    Stepped σ (.wait pid) ⟨{ σ.server with kernel := kernel }, .reaped pid⟩
  | handle {pid : ℤ} {answers : Answers} (hphase : σ.phase = .reaped pid)
    (hfresh : σ.server.kernel.Fresh answers.forks) :
    Stepped σ (.handle answers) (σ.after (handleExit pid) answers .waiting)
  | request {request : Request} {answers : Answers} (hphase : ∀ fault, σ.phase ≠ .ended fault)
    (hfresh : σ.server.kernel.Fresh answers.forks) :
    Stepped σ (.request request answers) (σ.after (serve request) answers σ.phase)
  | exit {pid : ℤ} : Stepped σ (.exit pid)
    { σ with
      server := { σ.server with
        kernel := { σ.server.kernel with children := die pid σ.server.kernel.children } } }

theorem Steps.cases {σ τ : System} {event : Event} (h : Steps σ event τ) : Stepped σ event τ := by
  unfold Steps System.step at h
  cases event with
  | startup answers =>
    cases hphase : σ.phase with
    | starting i =>
      simp only [hphase] at h
      split_ifs at h with hi hfresh
      · obtain rfl := Option.some_inj.mp h
        exact .iterate hphase hi hfresh
      · obtain rfl := Option.some_inj.mp h
        exact .finish hphase (by omega)
    | _ => simp [hphase] at h
  | wait pid =>
    cases hphase : σ.phase with
    | waiting =>
      simp only [hphase] at h
      obtain ⟨kernel, hreap, rfl⟩ := Option.map_eq_some_iff.mp h
      exact .wait hphase hreap
    | _ => simp [hphase] at h
  | handle answers =>
    cases hphase : σ.phase with
    | reaped pid =>
      simp only [hphase] at h
      split_ifs at h with hfresh
      obtain rfl := Option.some_inj.mp h
      exact .handle hphase hfresh
    | _ => simp [hphase] at h
  | request request answers =>
    have hrequest : (∀ fault, σ.phase ≠ .ended fault) →
        (if σ.server.kernel.Fresh answers.forks then
          some (σ.after (serve request) answers σ.phase) else none) = some τ →
        Stepped σ (.request request answers) τ := by
      intro hphase h
      split_ifs at h with hfresh
      obtain rfl := Option.some_inj.mp h
      exact .request hphase hfresh
    cases hphase : σ.phase with
    | ended fault => simp [hphase] at h
    | _ =>
      simp only [hphase] at h hrequest
      exact hrequest (by simp) h
  | exit pid =>
    simp only at h
    split_ifs at h with halive
    obtain rfl := Option.some_inj.mp h
    exact .exit

theorem steps_of_isSome {σ : System} {event : Event} (h : (σ.step event).isSome = true) :
    Steps σ event ((σ.step event).getD σ) := by
  obtain ⟨τ, hτ⟩ := Option.isSome_iff_exists.mp h
  rw [Steps, hτ]
  rfl

theorem run_of_foldlM {σ τ : System} {events : List Event}
    (h : events.foldlM System.step σ = some τ) : Run Steps σ events τ := by
  induction events generalizing σ with
  | nil =>
    obtain rfl := Option.some_inj.mp h
    exact .nil σ
  | cons event events ih =>
    rw [List.foldlM_cons] at h
    obtain ⟨ρ, hstep, hrest⟩ := Option.bind_eq_some_iff.mp h
    exact .cons hstep (ih hrest)

theorem run_of_any (σ : System) (events : List Event) (p : System → Bool)
    (h : (events.foldlM System.step σ).any p = true) : ∃ τ, Run Steps σ events τ ∧ p τ = true := by
  cases hfold : events.foldlM System.step σ with
  | none =>
    rw [hfold] at h
    cases h
  | some τ =>
    rw [hfold] at h
    exact ⟨τ, run_of_foldlM hfold, h⟩

theorem run_of_isSome {σ : System} {events : List Event}
    (h : (events.foldlM System.step σ).isSome = true) :
    Run Steps σ events ((events.foldlM System.step σ).getD σ) := by
  obtain ⟨τ, hτ⟩ := Option.isSome_iff_exists.mp h
  rw [hτ]
  exact run_of_foldlM hτ

/-! The service with a config for examples: one app, which is to run. -/

def webConfig : Text := cJsonPrint (.array [createProcessCJson .web])

def webList : ProcessList := ProcessList.zero.setIfInBounds 0 .web

def webSystem : System := ⟨.loaded webList 1 webConfig [], .starting 0⟩

theorem webList_saved : saveProcessList webList = .ok webConfig := by decide +kernel

theorem webList_count : getProcessListCount webList = 1 := by decide +kernel

/-- The items of the config go into their slots. -/
theorem webList_slots :
    parseSlot .zero 0 (createProcessCJson .web) = .ok (webList, 0) ∧
      webList[1]? = some .zero := by
  constructor
  · exact parseSlot_create (zero_slot (by decide)) .web
  · rw [webList, Vector.getElem?_setIfInBounds_ne (by decide)]
    exact zero_slot (by decide)

theorem webList_load : parseProcessListFromPath (some webConfig) [] .zero =
    .ok (webList, (1 : ℕ)) := by
  obtain ⟨loaded, hload, hin, hout⟩ := parseProcessListFromPath_save .zero webList webList_saved []
  rw [webList_count] at hload hin hout
  have hweb : webList[0]? = some .web := Vector.getElem?_setIfInBounds_self_of_lt (by decide)
  have hzero : ProcessList.zero[0]? = some .zero := by
    rw [ProcessList.zero, Vector.getElem?_replicate, if_pos (by decide)]
  have heq : loaded = webList := by
    apply Vector.ext
    intro k hk
    rw [← Option.some_inj, ← Vector.getElem?_eq_getElem hk, ← Vector.getElem?_eq_getElem hk]
    cases k with
    | zero =>
      rw [hin 0 (by omega) .web hweb, hzero, hweb]
      rfl
    | succ k =>
      exact (hout (k + 1) (by omega)).trans (Vector.getElem?_setIfInBounds_ne (by omega)).symm
  rw [hload, heq]

/-- Requests without an operand, and answers that give one pid. -/
def plainRequest (command : String) : Request := ⟨str command, []⟩

def onePid (pid : ℤ) : Answers := ⟨[pid], [1], fun _ => none, []⟩

/-- The startup loop has started the app. -/
def webStarted : System :=
  ([Event.startup (onePid 7), .startup (onePid 8)].foldlM System.step webSystem).getD webSystem

theorem webStarted_run :
    Run Steps webSystem [.startup (onePid 7), .startup (onePid 8)] webStarted :=
  run_of_isSome (by decide +kernel)

end KbPm
