/-
What the service asks of the kernel (`fork`, `kill`, `time`, `/proc`).

A step of the service runs in `ServerM`: on the service's state, and with a
`Fault` when the service does not survive it.  The kernel's side of the state is

* `Child` — a process that the service has forked and not yet reaped;
* `KillCall` — a call of `kill_process`, with the children at that moment;
* `Answers` — what the coming calls of `fork` and `time` return, and what `/proc`
  shows.
-/
import KbPm.Proc
import KbPm.Process

namespace KbPm

/-- A process that the service forked and has not reaped with `wait` yet. -/
structure Child where
  pid : ℤ
  /-- the process it executes, as it was when it was forked -/
  app : Process
  alive : Bool
  deriving DecidableEq

/-- A call of `kill_process`, with the children at the time of the call. -/
structure KillCall where
  process : Process
  children : List Child
  deriving DecidableEq

/-- The answers of the kernel to the calls that a step makes. -/
structure Answers where
  /-- of `fork`, in the service; when there is none left, `fork` fails -/
  forks : List ℤ
  /-- of `time` -/
  times : List ℤ
  /-- the lines of `/proc/<pid>/status`, if the file can be opened -/
  procStatus : ℤ → Option (List Text)
  /-- `/proc` in the coming kills; when there is none left, it cannot be opened -/
  walks : List Walk

structure Kernel where
  children : List Child
  kills : List KillCall
  answers : Answers

/-- `/proc` in the next kill. -/
def nextWalk (walks : List Walk) : Walk := walks.headD ⟨fun _ => none, 1⟩

def Kernel.walk (kernel : Kernel) : Walk := nextWalk kernel.answers.walks

/-- The pids of the children. -/
def Kernel.pids (kernel : Kernel) : List ℤ := kernel.children.map Child.pid

/-- The state of the service: its globals, its config file, the buffer that the
socket thread receives into, and the kernel. -/
structure Server where
  processList : ProcessList
  processCount : ℕ
  configFile : Text
  buffer : Text
  kernel : Kernel

/-- A step of the service.  A fault ends it in the state that it leaves behind. -/
abbrev ServerM := EStateM Fault Server

/-- A pure step, which may end the service. -/
def attempt {α : Type} (x : Except Fault α) : ServerM α :=
  match x with
  | .ok a => pure a
  | .error fault => throw fault

/-- Change the kernel. -/
def modifyKernel (f : Kernel → Kernel) : ServerM Unit :=
  modify fun s => { s with kernel := f s.kernel }

/-- `time` -/
def time : ServerM ℤ := do
  let answers := (← get).kernel.answers
  modifyKernel fun kernel => { kernel with answers := { answers with times := answers.times.tail } }
  return answers.times.headD 0

/-- `fork`, in the service; the child goes on to execute `process`. -/
def fork (process : Process) : ServerM ℤ := do
  let answers := (← get).kernel.answers
  match answers.forks with
  | [] => return -1
  | pid :: forks =>
    modifyKernel fun kernel =>
      { kernel with
        children := ⟨pid, process, true⟩ :: kernel.children
        answers := { answers with forks := forks } }
    return pid

/-- The child `pid` dies; it stays a child until it is reaped. -/
def die (pid : ℤ) (children : List Child) : List Child :=
  children.map fun child => if child.pid = pid then { child with alive := false } else child

/-- `kill_process`: the walks through `/proc` that it comes to, and what becomes of the service's
own children. -/
def killProcess (process : Process) : ServerM Unit := do
  modifyKernel fun kernel => { kernel with kills := kernel.kills ++ [⟨process, kernel.children⟩] }
  attempt ((← get).kernel.walk.kill process.pid)
  modifyKernel fun kernel =>
    { kernel with
      children := die process.pid kernel.children
      answers := { kernel.answers with walks := kernel.answers.walks.tail } }

/-! ### The memory of a process -/

/-- `get_mem_by_pid` -/
def getMemByPid (procStatus : ℤ → Option (List Text)) (pid : ℤ) : Except Fault StrBuf := do
  let memory ← parseProcStatusValByTag procStatus pid (str "VmHWM")
  if memory = errResult then strcpy (str "cannot get memory") else strcpy memory

/-- `create_process_cJSON_with_status`: the item, and the process with the memory
that was looked up. -/
def createProcessCJsonWithStatus (procStatus : ℤ → Option (List Text)) (process : Process) :
    Except Fault (Process × CJson) := do
  let process ← if process.isRunning ≠ 0 then do
      let memory ← getMemByPid procStatus process.pid
      pure { process with memory := memory }
    else pure process
  return (process, .object
    [(str "app_name", .string process.appName.bytes),
      (str "id", .number process.id),
      (str "pid", .number process.pid),
      (str "restart_times", .number (process.restartTimes.toInt : ℤ)),
      (str "start_time", .number (double process.startTime)),
      (str "is_running", .number process.isRunning.toInt),
      (str "memory", .string (if process.isRunning ≠ 0 then process.memory.bytes else str "0 B"))])

end KbPm
