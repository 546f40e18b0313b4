/-
What a request does, as a run of operations on the list.

* `Op`, `Effect` — the operations, and what each one changes;
* `Fails` — how an operation can fail to complete;
* `plan` — the operations that a request stands for in a state;
* `handleRequest_performs` — handling a request performs its plan, up to an
  operation that fails;
* `startupIteration_performs`, `handleExit_performs` — the same for the startup
  loop and for the monitor.
-/
import KbPm.Lib.Trace
import KbPm.Server

namespace KbPm

open Trace

/-- `process` when it has been started. -/
def Process.started (process : Process) (pid now : ℤ) : Process :=
  { process with pid := pid, isRunning := 1, restartTimes := 0, startTime := now }

theorem Process.started_isRunning (process : Process) (pid now : ℤ) :
    (process.started pid now).isRunning ≠ 0 :=
  show (1 : Int32) ≠ 0 by decide

/-- `process` when it has been stopped by a request. -/
def Process.stopped (process : Process) : Process :=
  { process with pid := 0, isRunning := 0, restartTimes := 0, startTime := 0 }

/-- `process` when the monitor has stopped it automatically. -/
def Process.quit (process : Process) : Process := { process with pid := 0, isRunning := 0 }

/-- The same process up to the memory and the restart counter. -/
def Process.Similar (p q : Process) : Prop :=
  q = { p with memory := q.memory, restartTimes := q.restartTimes }

def Kernel.tick (kernel : Kernel) : Kernel :=
  { kernel with answers := { kernel.answers with times := kernel.answers.times.tail } }

/-- `fork` has returned `pid`, and `time` has been asked. -/
def Kernel.forked (kernel : Kernel) (process : Process) (pid : ℤ) (forks : List ℤ) : Kernel :=
  { kernel with
    children := ⟨pid, process, true⟩ :: kernel.children
    answers := { kernel.answers with forks := forks, times := kernel.answers.times.tail } }

def Kernel.killed (kernel : Kernel) (process : Process) : Kernel :=
  { kernel with
    kills := kernel.kills ++ [⟨process, kernel.children⟩]
    children := die process.pid kernel.children
    answers := { kernel.answers with walks := kernel.answers.walks.tail } }

/-- The answer to the next call of `time`. -/
def Kernel.now (kernel : Kernel) : ℤ := kernel.answers.times.headD 0

namespace Server

/-- The processes that the service manages. -/
def entries (s : Server) : List Process := Slots.inUse s.processList s.processCount

def setSlot (s : Server) (k : ℕ) (process : Process) : Server :=
  { s with processList := s.processList.setIfInBounds k process }

def setKernel (s : Server) (kernel : Kernel) : Server := { s with kernel := kernel }

@[simp] theorem setSlot_processList (s : Server) (k : ℕ) (p : Process) :
    (s.setSlot k p).processList = s.processList.setIfInBounds k p := rfl
@[simp] theorem setSlot_kernel (s : Server) (k : ℕ) (p : Process) :
    (s.setSlot k p).kernel = s.kernel := rfl
@[simp] theorem setKernel_processList (s : Server) (kernel : Kernel) :
    (s.setKernel kernel).processList = s.processList := rfl
@[simp] theorem setKernel_processCount (s : Server) (kernel : Kernel) :
    (s.setKernel kernel).processCount = s.processCount := rfl
@[simp] theorem setKernel_kernel (s : Server) (kernel : Kernel) :
    (s.setKernel kernel).kernel = kernel := rfl

end Server

/-! ### Operations -/

inductive Op
  /-- ask for the time -/
  | tick
  /-- note the memory or the restarts of an entry -/
  | note (k : ℕ)
  /-- give an entry its index as id -/
  | number (k : ℕ)
  /-- start an entry -/
  | start (k : ℕ)
  /-- start an entry that counts as running -/
  | relaunch (k : ℕ)
  /-- stop an entry that is running -/
  | stop (k : ℕ)
  /-- start a process and append it -/
  | append (process : Process)
  /-- delete the entry with a name, and count one entry less -/
  | remove (name : StrBuf)
  /-- stop an entry whose child is dead -/
  | quit (k : ℕ)
  deriving DecidableEq

/-- What an operation does. -/
inductive Effect : Server → Op → Server → Prop
  | tick (s : Server) : Effect s .tick (s.setKernel s.kernel.tick)
  | note {s : Server} {k : ℕ} {p q : Process} (hk : k < s.processCount)
    (hp : s.processList[k]? = some p) (hq : p.Similar q) : Effect s (.note k) (s.setSlot k q)
  | number {s : Server} {k : ℕ} {p : Process} (hk : k < s.processCount)
    (hp : s.processList[k]? = some p) : Effect s (.number k) (s.setSlot k { p with id := k })
  | start {s : Server} {k : ℕ} {p : Process} {pid : ℤ} {forks : List ℤ} (hk : k < s.processCount)
    (hp : s.processList[k]? = some p) (hf : s.kernel.answers.forks = pid :: forks) (h0 : 0 ≤ pid) :
    Effect s (.start k)
      ((s.setKernel (s.kernel.forked p pid forks)).setSlot k (p.started pid s.kernel.now))
  | relaunch {s : Server} {k : ℕ} {p : Process} {pid : ℤ} {forks : List ℤ}
    (hk : k < s.processCount) (hp : s.processList[k]? = some p) (hrun : p.isRunning ≠ 0)
    (hf : s.kernel.answers.forks = pid :: forks) (h0 : 0 ≤ pid) :
    Effect s (.relaunch k)
      ((s.setKernel (s.kernel.forked p pid forks)).setSlot k (p.started pid s.kernel.now))
  | stop {s : Server} {k : ℕ} {p : Process} (hk : k < s.processCount)
    (hp : s.processList[k]? = some p) (hrun : p.isRunning ≠ 0) (hpid : 0 < p.pid)
    (hkill : s.kernel.walk.kill p.pid = .ok ()) :
    Effect s (.stop k)
      ((s.setKernel (s.kernel.killed { p with isRunning := 0 })).setSlot k p.stopped)
  | append {s : Server} {p : Process} {pid : ℤ} {forks : List ℤ} (hn : s.processCount < listSize)
    (hf : s.kernel.answers.forks = pid :: forks) (h0 : 0 ≤ pid) :
    Effect s (.append p)
      { (s.setKernel (s.kernel.forked p pid forks)).setSlot s.processCount
          { p.started pid s.kernel.now with id := s.processCount } with
        processCount := s.processCount + 1 }
  | remove {s : Server} {name : StrBuf} {processList : ProcessList} {res : ℤ}
    (hdel : delProcessByAppName s.processList name = .ok (processList, res)) :
    Effect s (.remove name)
      { s with processList := processList, processCount := s.processCount - 1 }
  | quit {s : Server} {k : ℕ} {p : Process} (hk : k < s.processCount)
    (hp : s.processList[k]? = some p) (hrun : p.isRunning ≠ 0) :
    Effect s (.quit k) (s.setSlot k p.quit)

/-- What a process executes. -/
def Process.program (process : Process) : StrBuf × StrBuf × StrBuf :=
  (process.appName, process.cmd, process.dir)

/-- Operations that change one entry and leave the list as long as it is. -/
def Op.Local : Op → Prop
  | .append _ => False
  | .remove _ => False
  | _ => True

theorem getElem?_setSlot (s : Server) (k j : ℕ) (p : Process) :
    (s.setSlot k p).processList[j]? =
      if k = j then (if k < listSize then some p else none) else s.processList[j]? := by
  rw [Server.setSlot_processList, Vector.getElem?_setIfInBounds]

/-- What the new entry has in common with the old one, all entries keep. -/
theorem setSlot_keeps {α : Type} {f : Process → α} {s : Server} {k : ℕ} {p q : Process}
    (hp : s.processList[k]? = some p) (hq : f q = f p) (j : ℕ) :
    ((s.setSlot k q).processList[j]?).map f = (s.processList[j]?).map f := by
  rw [getElem?_setSlot]
  split
  · rename_i hkj
    subst hkj
    rw [if_pos (Vector.getElem?_eq_some_iff.mp hp).1, hp, Option.map_some, Option.map_some, hq]
  · rfl

/-- Entries keep what they execute. -/
theorem Effect.keeps {s t : Server} {op : Op} (h : Effect s op t) (hop : op.Local) :
    t.processCount = s.processCount ∧
      ∀ j : ℕ, (t.processList[j]?).map Process.program =
        (s.processList[j]?).map Process.program := by
  cases h with
  | tick => exact ⟨rfl, fun _ => rfl⟩
  | note hk hp hq => exact ⟨rfl, setSlot_keeps hp (by rw [hq]; rfl)⟩
  | number hk hp => exact ⟨rfl, setSlot_keeps hp rfl⟩
  | start hk hp hf h0 => exact ⟨rfl, setSlot_keeps (s := s.setKernel _) hp rfl⟩
  | relaunch hk hp hrun hf h0 => exact ⟨rfl, setSlot_keeps (s := s.setKernel _) hp rfl⟩
  | stop hk hp hrun hpid => exact ⟨rfl, setSlot_keeps (s := s.setKernel _) hp rfl⟩
  | quit hk hp hrun => exact ⟨rfl, setSlot_keeps hp rfl⟩
  | append => exact hop.elim
  | remove => exact hop.elim

/-- The entry that an operation changes. -/
def Op.slot : Op → Option ℕ
  | .note k => some k
  | .number k => some k
  | .start k => some k
  | .relaunch k => some k
  | .stop k => some k
  | .quit k => some k
  | _ => none

/-- The other entries stay as they are. -/
theorem Effect.frame {s t : Server} {op : Op} (h : Effect s op t) (hop : op.Local) {j : ℕ}
    (hj : op.slot ≠ some j) : t.processList[j]? = s.processList[j]? := by
  have hset : ∀ (u : Server) (k : ℕ) (q : Process), some k ≠ some j →
      (u.setSlot k q).processList[j]? = u.processList[j]? := by
    intro u k q hk
    rw [getElem?_setSlot, if_neg fun h => hk (by rw [h])]
  cases h with
  | tick => rfl
  | note => exact hset _ _ _ hj
  | number => exact hset _ _ _ hj
  | start => exact hset _ _ _ hj
  | relaunch => exact hset _ _ _ hj
  | stop => exact hset _ _ _ hj
  | quit => exact hset _ _ _ hj
  | append => exact hop.elim
  | remove => exact hop.elim

theorem Effect.keeps_run {s t : Server} {ops : List Op} (h : Run Effect s ops t)
    (hop : ∀ op ∈ ops, op.Local) :
    t.processCount = s.processCount ∧
      ∀ j : ℕ, (t.processList[j]?).map Process.program =
        (s.processList[j]?).map Process.program := by
  induction h with
  | nil s => exact ⟨rfl, fun _ => rfl⟩
  | cons hl _ ih =>
    obtain ⟨h1, h2⟩ := hl.keeps (hop _ List.mem_cons_self)
    obtain ⟨h3, h4⟩ := ih fun op hm => hop op (List.mem_cons_of_mem _ hm)
    exact ⟨h3.trans h1, fun j => (h4 j).trans (h2 j)⟩

/-- The kernel has no process for the next `fork`. -/
def ForkFails (s : Server) : Prop := ∀ pid forks, s.kernel.answers.forks = pid :: forks → pid < 0

/-- How an operation that `s` is about to do ends the service. -/
inductive Fails (s : Server) : Op → Fault → Server → Prop
  | start {k : ℕ} {t : Server} (hf : ForkFails s) (ht : t.kernel.kills = s.kernel.kills) :
    Fails s (.start k) .forkFailed t
  | relaunch {k : ℕ} {t : Server} (hf : ForkFails s) (ht : t.kernel.kills = s.kernel.kills) :
    Fails s (.relaunch k) .forkFailed t
  | append {p : Process} {t : Server} (hf : ForkFails s) (ht : t.kernel.kills = s.kernel.kills) :
    Fails s (.append p) .forkFailed t
  | full {p : Process} {t : Server} (hn : listSize ≤ s.processCount)
    (ht : t.kernel.kills = s.kernel.kills) : Fails s (.append p) (.index s.processCount) t
  | stop {k : ℕ} {p : Process} {f : Fault} {t : Server} (hk : k < s.processCount)
    (hp : s.processList[k]? = some p) (hrun : p.isRunning ≠ 0)
    (hkill : s.kernel.walk.kill p.pid = .error f)
    (ht : t.kernel.kills = s.kernel.kills ++ [⟨{ p with isRunning := 0 }, s.kernel.children⟩]) :
    Fails s (.stop k) f t
  | remove {name : StrBuf} {f : Fault} (hdel : delProcessByAppName s.processList name = .error f) :
    Fails s (.remove name) f s
  | note {k : ℕ} {p : Process} {f : Fault} (hp : s.processList[k]? = some p)
    (hs : createProcessCJsonWithStatus s.kernel.answers.procStatus p = .error f) :
    Fails s (.note k) f s

/-! ### Plans -/

/-- What an operand stands for: an entry's copy and the place where its name is
first found, or a decoded process. -/
inductive Operand
  | listed (process : Process) (pos : ℕ)
  | decoded (process : Process)
  | unknown

namespace Server

def operand (s : Server) (buffer : Text) : Except Fault Operand := do
  let (type, process) ← parseProcessAndProcessType s.processList s.processCount buffer
  match type with
  | .id | .appName =>
    return .listed process (← getPosInProcessList s.processList s.processCount process)
  | .cmd => return .decoded process
  | .err => return .unknown

/-- Slot `k` counts as running. -/
def runs (s : Server) (k : ℕ) : Bool :=
  match s.processList[k]? with
  | some process => process.isRunning ≠ 0
  | none => false

/-- The name is taken. -/
def named (s : Server) (name : StrBuf) : Bool := s.entries.any fun process => name = process.appName

/-- `server_stop_process(&process_list[k])` -/
def stopOps (s : Server) (k : ℕ) : List Op := if s.runs k then [.stop k] else []

def operandPlan (s : Server) (command : Command) : Operand → List Op
  | .listed process pos =>
    match command with
    | .start => if process.isRunning = 0 then [.start pos] else []
    | .stop => if process.isRunning ≠ 0 then s.stopOps pos else []
    | .restart => if process.isRunning ≠ 0 then s.stopOps pos ++ [.start pos, .note pos] else []
    | .remove => s.stopOps pos ++ [.remove process.appName]
    | _ => []
  | .decoded process =>
    match command with
    | .start => if s.named process.appName then [] else [.append process]
    | _ => []
  | .unknown => []

def operandOps (s : Server) (command : Command) (buffer : Text) : Except Fault (List Op) := do
  let operand ← s.operand buffer
  return s.operandPlan command operand

/-- The operations that a request stands for. -/
def plan (s : Server) (request : Request) : Except Fault (List Op) :=
  match readCommand (s.commandBuffer request) with
  | .startall => .ok (((List.range s.processCount).filter fun k => !s.runs k).map .start)
  | .stopall => .ok (((List.range s.processCount).filter s.runs).map .stop)
  | .status => .ok ((List.range s.processCount).map .note)
  | .ping => .ok []
  | .error => .ok []
  | command => s.operandOps command (s.operandBuffer request)

/-- An iteration of the startup loop. -/
def startupPlan (s : Server) (i : ℕ) : List Op :=
  if s.runs i then [.number i, .relaunch i] else [.number i]

/-- The monitor's loop over the entries from `i` on, where `times` are the answers
of `time`. -/
def exitPlanFrom (pid : ℤ) : ℕ → List Process → List ℤ → List Op
  | _, [], _ => []
  | i, process :: processes, times =>
    if process.pid ≠ pid then exitPlanFrom pid (i + 1) processes times
    else if process.isRunning = 0 then []
    else if process.startTime = times.headD 0 then [.tick, .quit i]
    else .tick :: .relaunch i :: .note i :: exitPlanFrom pid (i + 1) processes times.tail.tail

/-- The monitor's work when `wait` has returned `pid`. -/
def exitPlan (s : Server) (pid : ℤ) : List Op :=
  exitPlanFrom pid 0 s.entries s.kernel.answers.times

end Server

/-- How a request with the plan `plan` ends the service, when the operations `ops`
are done and have led to `u`. -/
inductive Breaks (s : Server) (plan : Except Fault (List Op)) :
    Fault → List Op → Server → Server → Prop
  /-- on the operand -/
  | operand {f : Fault} (h : plan = .error f) : Breaks s plan f [] s s
  /-- in an operation -/
  | op {ops rest : List Op} {o : Op} {f : Fault} {u t : Server} (h : plan = .ok (ops ++ o :: rest))
    (hf : Fails u o f t) : Breaks s plan f ops u t
  /-- on a status text that does not fit -/
  | text {ops : List Op} {u : Server} (h : plan = .ok ops) : Breaks s plan .overflow ops u u

end KbPm
