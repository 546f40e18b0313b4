/-
The service (`server.c`): requests, the startup loop, the monitor.

Functions that get a pointer to a process and change it take the process and
return it; `updateSlot` is such a call on `&process_list[k]`.  Log messages are
left out.

* `serverStartProcess`, `serverStopProcess`, … — the operations on a process;
* `parseProcessAndProcessType` — what an operand stands for;
* `handleRequest`, `serve` — a request, without and with the save that follows;
* `startupIteration`, `handleExit` — an iteration of the startup loop, and the
  monitor's work on the pid of a dead child;
* `serviceLoad` — the list that the service starts with.
-/
import KbPm.Kernel

namespace KbPm

/-! ### The slots of the list -/

def readSlot (k : ℕ) : ServerM Process := do
  attempt (slot (Slots.read (← get).processList k))

def writeSlot (k : ℕ) (process : Process) : ServerM Unit := do
  let processList ← attempt (slot (Slots.write (← get).processList k process))
  modify fun s => { s with processList := processList }

/-- `f(&process_list[k])` -/
def updateSlot (k : ℕ) (f : Process → ServerM Process) : ServerM Unit := do
  let process ← readSlot k
  let process ← f process
  writeSlot k process

/-! ### Operations on a process -/

/-- `server_start_process` -/
def serverStartProcess (process : Process) : ServerM Process := do
  let pid ← fork process
  if pid < 0 then
    throw .forkFailed
  let now ← time
  return { process with pid := pid, isRunning := 1, restartTimes := 0, startTime := now }

/-- `server_stop_process` -/
def serverStopProcess (process : Process) : ServerM Process := do
  if process.isRunning ≠ 0 then
    let process := { process with isRunning := 0 }
    killProcess process
    return { process with pid := 0, startTime := 0, restartTimes := 0 }
  else
    return process

/-- `server_restart_process` -/
def serverRestartProcess (process : Process) : ServerM Process := do
  let process ← serverStopProcess process
  let process ← serverStartProcess process
  return { process with restartTimes := process.restartTimes + 1 }

/-- `server_remove_process(&process_list[pos], app_name)`, with the name as result -/
def serverRemoveProcess (pos : ℕ) : ServerM Text := do
  updateSlot pos serverStopProcess
  let process ← readSlot pos
  let (processList, _) ← attempt (delProcessByAppName (← get).processList process.appName)
  modify fun s => { s with processList := processList, processCount := s.processCount - 1 }
  return process.appName.bytes

/-- The loop of `server_start_all_process`, from slot `i` on. -/
def startFrom : ℕ → ℕ → ServerM Unit
  | 0, _ => pure ()
  | steps + 1, i => do
    let process ← readSlot i
    if process.isRunning ≠ 0 then
      startFrom steps (i + 1)
    else
      updateSlot i serverStartProcess
      startFrom steps (i + 1)

/-- `server_start_all_process` -/
def serverStartAllProcess : ServerM Unit := do
  startFrom (← get).processCount 0

/-- The loop of `server_stop_all_process`, from slot `i` on. -/
def stopFrom : ℕ → ℕ → ServerM Unit
  | 0, _ => pure ()
  | steps + 1, i => do
    let process ← readSlot i
    if process.isRunning ≠ 0 then
      updateSlot i serverStopProcess
      stopFrom steps (i + 1)
    else
      stopFrom steps (i + 1)

/-- `server_stop_all_process` -/
def serverStopAllProcess : ServerM Unit := do
  stopFrom (← get).processCount 0

/-! ### What an operand stands for -/

/-- `get_process_id` -/
def getProcessId (processCount : ℕ) (buffer : Text) : ℤ :=
  let id := (atoi buffer).toInt
  if isNumber buffer ∧ 0 ≤ id ∧ id < processCount then id else -1

/-- The results of `parse_process_and_process_type`. -/
inductive ProcessType
  | appName
  | id
  | cmd
  | err
  deriving DecidableEq

/-- `parse_process_and_process_type`; the process is a copy, or what was decoded
into the caller's uninitialised one. -/
def parseProcessAndProcessType (processList : ProcessList) (processCount : ℕ) (buffer : Text) :
    Except Fault (ProcessType × Process) := do
  let id := getProcessId processCount buffer
  if id ≠ -1 then
    let process ← slot (Slots.read processList id.toNat)
    return (.id, process)
  match ← slot (Slots.findFirst (fun p => p.appName.bytes == cstr buffer) processList
    processCount 0) with
  | some i =>
    let process ← slot (Slots.read processList i)
    return (.appName, process)
  | none =>
    let (process, res) ← parseProcess .zero buffer
    if res = -1 then return (.err, process) else return (.cmd, process)

/-- `get_pos_in_process_list` -/
def getPosInProcessList (processList : ProcessList) (processCount : ℕ) (process : Process) :
    Except Fault ℕ := do
  match ← slot (Slots.findFirst (fun p => p.appName = process.appName) processList
    processCount 0) with
  | some i => return i
  | none => .error .noReturn

/-- `get_error_reponse` -/
def getErrorResponse (buffer : Text) : Text :=
  if isNumber buffer then str "Cannot find id = " ++ cstr buffer
  else str "Cannot find an app named : " ++ cstr buffer

/-! ### Requests -/

/-- `server_start_process_with_cmd` -/
def serverStartProcessWithCmd (process : Process) : ServerM Text := do
  let process ← serverStartProcess process
  let s ← get
  let process := { process with id := s.processCount }
  writeSlot s.processCount process
  modify fun s => { s with processCount := s.processCount + 1 }
  return str "Starting " ++ process.appName.bytes ++ str " with pid:" ++
    decimal process.pid ++ str "."

/-- `server_start_process_and_get_response` -/
def serverStartProcessAndGetResponse (buffer : Text) : ServerM Text := do
  let s ← get
  let (type, process) ← attempt (parseProcessAndProcessType s.processList s.processCount buffer)
  match type with
  | .cmd =>
    match ← attempt (slot (Slots.findFirst (fun p => process.appName = p.appName) s.processList
      s.processCount 0)) with
    | some _ =>
      return str "Duplicated name : " ++ process.appName.bytes ++ str ". Please rename the program."
    | none => serverStartProcessWithCmd process
  | .id | .appName =>
    if process.isRunning = 0 then
      let pos ← attempt (getPosInProcessList s.processList s.processCount process)
      updateSlot pos serverStartProcess
      return str "Started " ++ process.appName.bytes ++ str " with pid:" ++
        decimal (← readSlot pos).pid ++ str "."
    else
      return process.appName.bytes ++ str " have already been running."
  | .err => return getErrorResponse buffer

/-- `server_stop_process_and_get_response` -/
def serverStopProcessAndGetResponse (buffer : Text) : ServerM Text := do
  let s ← get
  let (type, process) ← attempt (parseProcessAndProcessType s.processList s.processCount buffer)
  match type with
  | .id | .appName =>
    if process.isRunning ≠ 0 then
      let pos ← attempt (getPosInProcessList s.processList s.processCount process)
      updateSlot pos serverStopProcess
      return str "Stopped " ++ process.appName.bytes ++ str " success."
    else
      return process.appName.bytes ++ str " is not running."
  | _ => return getErrorResponse buffer

/-- `server_restart_process_and_get_response` -/
def serverRestartProcessAndGetResponse (buffer : Text) : ServerM Text := do
  let s ← get
  let (type, process) ← attempt (parseProcessAndProcessType s.processList s.processCount buffer)
  match type with
  | .id | .appName =>
    if process.isRunning ≠ 0 then
      let pos ← attempt (getPosInProcessList s.processList s.processCount process)
      updateSlot pos serverRestartProcess
      return str "Restarted " ++ process.appName.bytes ++ str " with " ++
        decimal (← readSlot pos).pid ++ str "."
    else
      return process.appName.bytes ++ str " is not running."
  | _ => return getErrorResponse buffer

/-- `server_remove_process_and_get_response` -/
def serverRemoveProcessAndGetResponse (buffer : Text) : ServerM Text := do
  let s ← get
  let (type, process) ← attempt (parseProcessAndProcessType s.processList s.processCount buffer)
  match type with
  | .id | .appName =>
    let pos ← attempt (getPosInProcessList s.processList s.processCount process)
    let appName ← serverRemoveProcess pos
    if process.isRunning ≠ 0 then
      return str "Stopped And Removed " ++ appName ++ str "."
    else
      return str "Removed " ++ appName ++ str "."
  | _ => return getErrorResponse buffer

/-- The loop of `create_process_list_json_str_with_status`, from slot `i` on. -/
def statusFrom : ℕ → ℕ → ServerM (List CJson)
  | 0, _ => return []
  | steps + 1, i => do
    let process ← readSlot i
    let (process, json) ←
      attempt (createProcessCJsonWithStatus (← get).kernel.answers.procStatus process)
    writeSlot i process
    return json :: (← statusFrom steps (i + 1))

/-- `get_process_list_status`, with `create_process_list_json_str_with_status` -/
def getProcessListStatus : ServerM Text := do
  let text := cJsonPrint (.array (← statusFrom (← get).processCount 0))
  if text.length < bufferSize then
    return text
  else
    throw .overflow

/-- What the comparisons of `server_socket_handle_thread_func` tell apart. -/
inductive Command
  | startall
  | stopall
  | status
  | start
  | stop
  | restart
  | remove
  | ping
  | error
  deriving DecidableEq

def readCommand (buffer : Text) : Command :=
  if cstr buffer = str "startall" then .startall
  else if cstr buffer = str "stopall" then .stopall
  else if cstr buffer = str "status" then .status
  else if cstr buffer = str "start" then .start
  else if cstr buffer = str "stop" then .stop
  else if cstr buffer = str "restart" then .restart
  else if cstr buffer = str "remove" then .remove
  else if cstr buffer = str "ping" then .ping
  else .error

/-- The messages of a client: the command, and the operand, which is read only if
the command has one. -/
structure Request where
  command : Text
  operand : Text

/-- `read(client_sockfd, buffer, STR_BUFFER_SIZE)`: what was in the buffer stays
behind the message. -/
def receive (buffer message : Text) : Text :=
  message.take strBufferSize ++ buffer.drop (message.take strBufferSize).length

/-- `pong_and_receive_data`; its `sizeof(buffer)` is that of a pointer. -/
def pongAndReceiveData (buffer operand : Text) : Text :=
  receive (List.replicate 8 0 ++ buffer.drop 8) operand

/-- The buffer when the command has been read, and when the operand has been. -/
def Server.commandBuffer (s : Server) (request : Request) : Text := receive s.buffer request.command

def Server.operandBuffer (s : Server) (request : Request) : Text :=
  pongAndReceiveData (s.commandBuffer request) request.operand

/-- One round of `server_socket_handle_thread_func`, up to its response. -/
def handleRequest (request : Request) : ServerM Text := do
  let s ← get
  let buffer := s.operandBuffer request
  match readCommand (s.commandBuffer request) with
  | .startall =>
    serverStartAllProcess
    return str "Start All Okay."
  | .stopall =>
    serverStopAllProcess
    return str "Stop All Okay."
  | .status => getProcessListStatus
  | .start => serverStartProcessAndGetResponse buffer
  | .stop => serverStopProcessAndGetResponse buffer
  | .restart => serverRestartProcessAndGetResponse buffer
  | .remove => serverRemoveProcessAndGetResponse buffer
  | .ping => return str "pong"
  | .error => return str "error command"

/-- `save_process_list(config_path, process_list)`: `fopen` empties the file. -/
def saveConfig : ServerM Unit := do
  modify fun s => { s with configFile := [] }
  let text ← attempt (saveProcessList (← get).processList)
  modify fun s => { s with configFile := text }

/-- One round of `server_socket_handle_thread_func`. -/
def serve (request : Request) : ServerM Text := do
  let response ← handleRequest request
  saveConfig
  modify fun s => { s with buffer := [] }
  return response

/-- The service, when the kernel is going to answer with `answers`. -/
def Server.asked (s : Server) (answers : Answers) : Server :=
  { s with kernel := { s.kernel with answers := answers } }

/-- A request that is served, with the kernel's answers to it. -/
def Served (s : Server) (call : Request × Answers) (t : Server) : Prop :=
  ∃ response, serve call.1 (s.asked call.2) = .ok response t

/-! ### The service itself -/

/-- An iteration of the startup loop. -/
def startupIteration (i : ℕ) : ServerM Unit := do
  let process ← readSlot i
  writeSlot i { process with id := i }
  if process.isRunning ≠ 0 then
    updateSlot i serverStartProcess

/-- An iteration that comes to its end, with the kernel's answers to it. -/
def Iterated (s : Server) (iteration : ℕ × Answers) (t : Server) : Prop :=
  startupIteration iteration.1 (s.asked iteration.2) = .ok () t

/-- The monitor's loop over the list when `wait` has returned `pid`, from slot
`i` on. -/
def handleExitFrom (pid : ℤ) : ℕ → ℕ → ServerM Unit
  | 0, _ => pure ()
  | steps + 1, i => do
    let process ← readSlot i
    if process.pid ≠ pid then
      handleExitFrom pid steps (i + 1)
    else if process.isRunning = 0 then
      pure ()
    else
      let now ← time
      if process.startTime = now then
        -- restarted less than a second ago
        writeSlot i { process with isRunning := 0, pid := 0 }
      else
        let restarted ← serverStartProcess process
        writeSlot i { restarted with restartTimes := process.restartTimes + 1 }
        handleExitFrom pid steps (i + 1)

/-- The monitor's work between lock and unlock. -/
def handleExit (pid : ℤ) : ServerM Unit := do
  handleExitFrom pid (← get).processCount 0

/-- The list and its length, as `service_start` loads them. -/
def serviceLoad (file : Option Text) (junk : Text) : Except Fault (ProcessList × ℕ) := do
  let (processList, processCount) ← parseProcessListFromPath file junk .zero
  if processCount = -1 then return (processList, 0)
  else return (processList, processCount.toNat)

/-- A service that has loaded a list. -/
def Server.loaded (processList : ProcessList) (processCount : ℕ) (configFile buffer : Text) :
    Server :=
  ⟨processList, processCount, configFile, buffer, ⟨[], [], ⟨[], [], fun _ => none, []⟩⟩⟩

/-- A service that has loaded nothing. -/
def Server.empty : Server := .loaded .zero 0 [] []

end KbPm
