/-
The programs of the service are made of a few calls.

* `Compositional` — what these calls have, and `>>=` keeps;
* `Compositional.handleRequest`, `.startupIteration`, `.handleExit` — the programs have it then;
* `ends_filed`, `handleRequest_filed` — so the config file is written by a save alone, also where
  they fail;
* `compositional_positive` — and every child has a pid, if `fork` returns pids.
-/
import KbPm.Handling
import KbPm.Lib.Outcome

namespace KbPm

open Trace Outcome

/-- The state with another config file and another buffer. -/
def Server.filed (file buffer : Text) (s : Server) : Server :=
  { s with configFile := file, buffer := buffer }

/-- A property of the calls that the service makes, apart from saving, and of what is made of them;
what is read of the state does not depend on the config file or the buffer. -/
structure Compositional (C : ∀ {α : Type}, ServerM α → Prop) : Prop where
  pure {α : Type} (a : α) : C (pure a : ServerM α)
  throw {α : Type} (fault : Fault) : C (throw fault : ServerM α)
  bind {α β : Type} {m : ServerM α} {f : α → ServerM β} (hm : C m) (hf : ∀ a, C (f a)) : C (m >>= f)
  look {α : Type} {f : Server → ServerM α} (hblind : ∀ file buffer s, f (s.filed file buffer) = f s)
    (hf : ∀ s, C (f s)) : C (get >>= f)
  write (processList : ProcessList) : C (modify fun s => { s with processList := processList })
  append : C (modify fun s => { s with processCount := s.processCount + 1 })
  remove (processList : ProcessList) : C (modify fun s =>
    { s with processList := processList, processCount := s.processCount - 1 })
  time : C time
  fork (process : Process) : C (fork process)
  kill (process : Process) : C (modifyKernel fun kernel =>
    { kernel with kills := kernel.kills ++ [⟨process, kernel.children⟩] })
  die (pid : ℤ) : C (modifyKernel fun kernel =>
    { kernel with
      children := die pid kernel.children
      answers := { kernel.answers with walks := kernel.answers.walks.tail } })

section Compositional

variable {C : ∀ {α : Type}, ServerM α → Prop}

theorem Compositional.attempt (h : Compositional C) {α : Type} (x : Except Fault α) :
    C (attempt x) := by
  cases x with
  | ok a => exact h.pure a
  | error fault => exact h.throw fault

theorem Compositional.readSlot (h : Compositional C) (k : ℕ) : C (readSlot k) :=
  h.look (fun _ _ _ => rfl) fun _ => h.attempt _

theorem Compositional.writeSlot (h : Compositional C) (k : ℕ) (process : Process) :
    C (writeSlot k process) :=
  h.look (fun _ _ _ => rfl) fun _ => h.bind (h.attempt _) fun _ => h.write _

theorem Compositional.updateSlot (h : Compositional C) (k : ℕ) {f : Process → ServerM Process}
    (hf : ∀ process, C (f process)) : C (updateSlot k f) :=
  h.bind (h.readSlot k) fun _ => h.bind (hf _) fun _ => h.writeSlot k _

theorem Compositional.serverStartProcess (h : Compositional C) (process : Process) :
    C (serverStartProcess process) := by
  refine h.bind (h.fork process) fun pid => ?_
  dsimp only
  split
  · exact h.bind (h.throw _) fun _ => h.bind h.time fun _ => h.pure _
  · exact h.bind h.time fun _ => h.pure _

theorem Compositional.killProcess (h : Compositional C) (process : Process) :
    C (killProcess process) :=
  h.bind (h.kill process) fun _ =>
    h.look (fun _ _ _ => rfl) fun _ => h.bind (h.attempt _) fun _ => h.die _

theorem Compositional.serverStopProcess (h : Compositional C) (process : Process) :
    C (serverStopProcess process) := by
  rw [KbPm.serverStopProcess]
  split
  · exact h.bind (h.killProcess _) fun _ => h.pure _
  · exact h.pure _

theorem Compositional.serverRestartProcess (h : Compositional C) (process : Process) :
    C (serverRestartProcess process) :=
  h.bind (h.serverStopProcess _) fun _ => h.bind (h.serverStartProcess _) fun _ => h.pure _

theorem Compositional.serverRemoveProcess (h : Compositional C) (pos : ℕ) :
    C (serverRemoveProcess pos) := by
  refine h.bind (h.updateSlot pos h.serverStopProcess) fun _ =>
    h.bind (h.readSlot pos) fun process => ?_
  refine h.look (fun _ _ _ => rfl) fun s => h.bind (h.attempt _) fun result => ?_
  obtain ⟨processList, res⟩ := result
  exact h.bind (h.remove processList) fun _ => h.pure _

theorem Compositional.startFrom (h : Compositional C) (steps i : ℕ) : C (startFrom steps i) := by
  induction steps generalizing i with
  | zero => exact h.pure _
  | succ steps ih =>
    refine h.bind (h.readSlot i) fun process => ?_
    split
    · exact ih (i + 1)
    · exact h.bind (h.updateSlot i h.serverStartProcess) fun _ => ih (i + 1)

theorem Compositional.stopFrom (h : Compositional C) (steps i : ℕ) : C (stopFrom steps i) := by
  induction steps generalizing i with
  | zero => exact h.pure _
  | succ steps ih =>
    refine h.bind (h.readSlot i) fun process => ?_
    split
    · exact h.bind (h.updateSlot i h.serverStopProcess) fun _ => ih (i + 1)
    · exact ih (i + 1)

theorem Compositional.statusFrom (h : Compositional C) (steps i : ℕ) : C (statusFrom steps i) := by
  induction steps generalizing i with
  | zero => exact h.pure _
  | succ steps ih =>
    refine h.bind (h.readSlot i) fun process => h.look (fun _ _ _ => rfl) fun s => ?_
    refine h.bind (h.attempt _) fun _ => h.bind (h.writeSlot i _) fun _ => ?_
    exact h.bind (ih (i + 1)) fun _ => h.pure _

theorem Compositional.getProcessListStatus (h : Compositional C) : C getProcessListStatus := by
  refine h.look (fun _ _ _ => rfl) fun s => h.bind (h.statusFrom _ _) fun items => ?_
  dsimp only
  split
  · exact h.pure _
  · exact h.throw _

theorem Compositional.serverStartProcessWithCmd (h : Compositional C) (process : Process) :
    C (serverStartProcessWithCmd process) := by
  refine h.bind (h.serverStartProcess process) fun process =>
    h.look (fun _ _ _ => rfl) fun s => h.bind (h.writeSlot _ _) fun _ => ?_
  exact h.bind h.append fun _ => h.pure _

theorem Compositional.serverStartProcessAndGetResponse (h : Compositional C) (operand : Text) :
    C (serverStartProcessAndGetResponse operand) := by
  refine h.look (fun _ _ _ => rfl) fun s => h.bind (h.attempt _) fun parsed => ?_
  obtain ⟨type, process⟩ := parsed
  cases type with
  | cmd =>
    refine h.bind (h.attempt _) fun found => ?_
    cases found with
    | some k => exact h.pure _
    | none => exact h.serverStartProcessWithCmd process
  | id | appName =>
    dsimp only
    split
    · exact h.bind (h.attempt _) fun pos => h.bind (h.updateSlot pos h.serverStartProcess) fun _ =>
        h.bind (h.readSlot pos) fun _ => h.pure _
    · exact h.pure _
  | err => exact h.pure _

theorem Compositional.serverStopProcessAndGetResponse (h : Compositional C) (operand : Text) :
    C (serverStopProcessAndGetResponse operand) := by
  refine h.look (fun _ _ _ => rfl) fun s => h.bind (h.attempt _) fun parsed => ?_
  obtain ⟨type, process⟩ := parsed
  cases type with
  | id | appName =>
    dsimp only
    split
    · exact h.bind (h.attempt _) fun pos => h.bind (h.updateSlot pos h.serverStopProcess) fun _ =>
        h.pure _
    · exact h.pure _
  | cmd | err => exact h.pure _

theorem Compositional.serverRestartProcessAndGetResponse (h : Compositional C) (operand : Text) :
    C (serverRestartProcessAndGetResponse operand) := by
  refine h.look (fun _ _ _ => rfl) fun s => h.bind (h.attempt _) fun parsed => ?_
  obtain ⟨type, process⟩ := parsed
  cases type with
  | id | appName =>
    dsimp only
    split
    · exact h.bind (h.attempt _) fun pos =>
        h.bind (h.updateSlot pos h.serverRestartProcess) fun _ =>
          h.bind (h.readSlot pos) fun _ => h.pure _
    · exact h.pure _
  | cmd | err => exact h.pure _

theorem Compositional.serverRemoveProcessAndGetResponse (h : Compositional C) (operand : Text) :
    C (serverRemoveProcessAndGetResponse operand) := by
  refine h.look (fun _ _ _ => rfl) fun s => h.bind (h.attempt _) fun parsed => ?_
  obtain ⟨type, process⟩ := parsed
  cases type with
  | id | appName =>
    refine h.bind (h.attempt _) fun pos => h.bind (h.serverRemoveProcess pos) fun _ => ?_
    split
    · exact h.pure _
    · exact h.pure _
  | cmd | err => exact h.pure _

/-- A request, when its command has been compared. -/
theorem Compositional.handleRequest (h : Compositional C) (request : Request) (s : Server) :
    ∃ m : ServerM Text, C m ∧ handleRequest request s = m s := by
  have hget : (get : ServerM Server) s = .ok s s := rfl
  rw [KbPm.handleRequest, bind_ok hget]
  refine ⟨_, ?_, rfl⟩
  cases readCommand (s.commandBuffer request) with
  | startall =>
    exact h.bind (h.look (fun _ _ _ => rfl) fun _ => h.startFrom _ _) fun _ => h.pure _
  | stopall => exact h.bind (h.look (fun _ _ _ => rfl) fun _ => h.stopFrom _ _) fun _ => h.pure _
  | status => exact h.getProcessListStatus
  | start => exact h.serverStartProcessAndGetResponse _
  | stop => exact h.serverStopProcessAndGetResponse _
  | restart => exact h.serverRestartProcessAndGetResponse _
  | remove => exact h.serverRemoveProcessAndGetResponse _
  | ping => exact h.pure _
  | error => exact h.pure _

theorem Compositional.startupIteration (h : Compositional C) (i : ℕ) : C (startupIteration i) := by
  refine h.bind (h.readSlot i) fun process => h.bind (h.writeSlot i _) fun _ => ?_
  split
  · exact h.updateSlot i h.serverStartProcess
  · exact h.pure _

theorem Compositional.handleExit (h : Compositional C) (pid : ℤ) : C (handleExit pid) := by
  have hfrom : ∀ steps i, C (handleExitFrom pid steps i) := by
    intro steps
    induction steps with
    | zero => exact fun _ => h.pure _
    | succ steps ih =>
      intro i
      refine h.bind (h.readSlot i) fun process => ?_
      split
      · exact ih (i + 1)
      split
      · exact h.pure _
      refine h.bind h.time fun now => ?_
      split
      · exact h.writeSlot i _
      · exact h.bind (h.serverStartProcess _) fun _ =>
          h.bind (h.writeSlot i _) fun _ => ih (i + 1)
  exact h.look (fun _ _ _ => rfl) fun _ => hfrom _ _

end Compositional

/-! ### The config file and the buffer -/

theorem compositional_blind :
    Compositional fun m => ∀ file buffer, Blind (Server.filed file buffer) m where
  pure a _ _ := blind_pure a
  throw fault _ _ := blind_throw fault
  bind hm hf file buffer := (hm file buffer).bind fun a => hf a file buffer
  look hblind hf file buffer := blind_get_bind (hblind file buffer) fun s => hf s file buffer
  write processList _ _ := blind_modify fun _ => rfl
  append _ _ := blind_modify fun _ => rfl
  remove processList _ _ := blind_modify fun _ => rfl
  time _ _ := blind_get_bind (fun _ => rfl) fun _ =>
    Blind.bind (blind_modify fun _ => rfl) fun _ => blind_pure _
  fork process file buffer := by
    refine blind_get_bind (fun _ => rfl) fun s => ?_
    dsimp only
    cases s.kernel.answers.forks with
    | nil => exact blind_pure _
    | cons pid forks => exact Blind.bind (blind_modify fun _ => rfl) fun _ => blind_pure _
  kill process _ _ := blind_modify fun _ => rfl
  die pid _ _ := blind_modify fun _ => rfl

/-- Such a program leaves the file as it is, however it ends. -/
theorem ends_filed {α : Type} {m : ServerM α} {s : Server}
    (h : ∀ file buffer, Blind (Server.filed file buffer) m) :
    Ends m s (fun _ t => t.configFile = s.configFile) (fun _ t => t.configFile = s.configFile) := by
  have hself : m s = onState (Server.filed s.configFile s.buffer) (m s) :=
    h s.configFile s.buffer s
  cases hm : m s with
  | ok a t =>
    rw [hm] at hself
    have ht := (EStateM.Result.ok.inj hself).2
    exact ends_of_ok hm (by rw [ht]; rfl)
  | error e t =>
    rw [hm] at hself
    have ht := (EStateM.Result.error.inj hself).2
    exact ends_of_error hm (by rw [ht]; rfl)

theorem handleRequest_filed (request : Request) (s : Server) :
    Ends (handleRequest request) s (fun _ t => t.configFile = s.configFile)
      (fun _ t => t.configFile = s.configFile) := by
  obtain ⟨m, hm, heq⟩ := compositional_blind.handleRequest request s
  rw [Ends, heq]
  exact ends_filed hm

/-- Operations do not touch the config file or the buffer. -/
theorem Effect.files {s t : Server} {op : Op} (h : Effect s op t) :
    t.configFile = s.configFile ∧ t.buffer = s.buffer := by
  cases h <;> exact ⟨rfl, rfl⟩

theorem files_run {s t : Server} {ops : List Op} (h : Run Effect s ops t) :
    t.configFile = s.configFile ∧ t.buffer = s.buffer := by
  induction h with
  | nil s => exact ⟨rfl, rfl⟩
  | cons hl _ ih =>
    obtain ⟨hfile, hbuffer⟩ := hl.files
    exact ⟨ih.1.trans hfile, ih.2.trans hbuffer⟩

/-! ### Invariants of the kernel -/

/-- A program keeps `I`, however it ends. -/
def Maintains {α : Type} (I : Server → Prop) (m : ServerM α) : Prop :=
  ∀ s, I s → Ends m s (fun _ t => I t) (fun _ t => I t)

/-- The children have pids, and so has what `fork` will return. -/
def Kernel.Positive (kernel : Kernel) : Prop :=
  (∀ child ∈ kernel.children, 0 < child.pid) ∧ ∀ pid ∈ kernel.answers.forks, 0 < pid

theorem Kernel.Positive.die {kernel : Kernel} (h : kernel.Positive) (pid : ℤ) :
    Kernel.Positive { kernel with children := KbPm.die pid kernel.children } := by
  refine ⟨fun child hchild => ?_, h.2⟩
  obtain ⟨c, hc, rfl⟩ := List.mem_map.mp hchild
  split
  · exact h.1 c hc
  · exact h.1 c hc

theorem compositional_positive : Compositional fun m => Maintains
    (fun s => s.kernel.Positive) m where
  pure a s hs := ends_pure hs
  throw fault s hs := ends_throw hs
  bind hm hf s hs := (hm s hs).bind fun a t ht => hf a t ht
  look hblind hf s hs := hf s s hs
  write processList s hs := hs
  append s hs := hs
  remove processList s hs := hs
  time s hs := hs
  fork process s hs := by
    obtain ⟨hchildren, hforks⟩ := hs
    have hget : (get : ServerM Server) s = .ok s s := rfl
    rw [Ends, KbPm.fork, bind_ok hget]
    dsimp only
    cases hf : s.kernel.answers.forks with
    | nil => exact ⟨hchildren, hforks⟩
    | cons pid forks =>
      rw [hf, List.forall_mem_cons] at hforks
      exact ⟨List.forall_mem_cons.mpr ⟨hforks.1, hchildren⟩, hforks.2⟩
  kill process s hs := hs
  die pid s hs := Kernel.Positive.die hs pid

end KbPm
