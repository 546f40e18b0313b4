/-
The command line (`main` of `kbpm.c`, the commands of `client.c`, `service_start` up to the daemon).

A command ends by `exit`, wherever it is called.  What `printf` writes is at the terminal at once.

* `Machine`, `Surroundings` — what a command changes, and what else it finds;
* `exchange` — an exchange with the service that listens, if there is one;
* `restartProcess`, `stopProcess`, …, `main` — the code.
-/
import KbPm.Client
import KbPm.CommandPath
import KbPm.ShowStatus

namespace KbPm

/-! ### The machine -/

/-- What a command changes. -/
structure Machine where
  /-- the service that listens at the socket file -/
  service : Option Server
  /-- services whose socket file has been deleted -/
  lost : List Server
  /-- the config file, if it exists -/
  config : Option Text
  out : List Output
  err : List Output
  /-- the number of exchanges that have been begun -/
  exchanges : ℕ

/-- What else a command finds. -/
structure Surroundings where
  /-- `access(path, F_OK)` -/
  exist : Text → Bool
  /-- `access(path, X_OK)` -/
  execute : Text → Bool
  cwd : StrBuf
  /-- `HOME` is set -/
  home : Bool
  /-- the config file can be created -/
  creates : Bool
  /-- `fork` and `setsid` succeed in `init_daemon` -/
  daemonizes : Bool
  /-- what `time` answers, by row of the table -/
  times : ℕ → ℤ
  /-- what the kernel answers to the service, by exchange -/
  answers : ℕ → Answers
  /-- what the buffer of an exchange holds before it -/
  junk : ℕ → Text
  /-- the same of the buffer for the config file and of that of the socket thread -/
  fileJunk : Text
  socketJunk : Text

/-- How a command ends. -/
inductive Stop
  | exit (status : ℕ)
  /-- the command does not survive -/
  | fault (fault : Fault)
  /-- the command and the service wait for each other -/
  | hang
  deriving DecidableEq

abbrev CliM := EStateM Stop Machine

def printf (text : List Output) : CliM Unit := modify fun m => { m with out := m.out ++ text }

/-- `fprintf(stderr, ...)` -/
def eprintf (text : List Output) : CliM Unit := modify fun m => { m with err := m.err ++ text }

def exit (status : ℕ) : CliM Unit := throw (.exit status)

/-- `APP_NAME` -/
def appName : List Output := [ansiColorGreen] ++ plain (str "[KB_PM]") ++ [ansiColorReset]

def ansiFontItalic : Output := .escape (27 :: str "[3m")

/-- `APP_NAME ": %s\n"` -/
def appLine (text : Text) : List Output := appName ++ plain (str ": " ++ text) ++ [lineFeed]

/-- A line, and a hint behind it. -/
def hintLine (text hint : Text) : List Output :=
  appLine text ++ [ansiFontItalic] ++ plain hint ++ [lineFeed, ansiColorReset]

/-! ### Exchanges -/

/-- The client's second write has no bytes: the service waits for them and the client for the
answer. -/
def Exchange.Hangs (s : Server) : Exchange → Prop
  | .word _ _ => False
  | .signals sig1 sig2 buffer =>
    s.Asks sig1 ∧ cstr (receiveAnswer buffer (str "pong")) = str "pong" ∧ cstr sig2 = []

instance (s : Server) : DecidablePred (Exchange.Hangs s) := fun exchange =>
  match exchange with
  | .word _ _ => .isFalse id
  | .signals sig1 sig2 buffer =>
    inferInstanceAs (Decidable
      (s.Asks sig1 ∧ cstr (receiveAnswer buffer (str "pong")) = str "pong" ∧ cstr sig2 = []))

/-- What the service has written of the response when it does not survive the round: it writes
before it saves. -/
def Server.written (s : Server) (request : Request) : Text :=
  match handleRequest request s with
  | .ok response _ => cstr response
  | .error _ _ => []

/-- What the client gets in such a round; `read` has no bytes where nothing has been written. -/
def Exchange.cut (s : Server) : Exchange → ℤ × Text
  | .word sig buffer =>
    (0, receiveAnswer buffer (if s.Asks sig then str "pong" else s.written ⟨sig, []⟩))
  | .signals sig1 sig2 buffer =>
    if s.Asks sig1 then
      let buffer := receiveAnswer buffer (str "pong")
      if cstr buffer ≠ str "pong" then (-1, buffer)
      else (0, receiveAnswer buffer (s.written ⟨sig1, sig2⟩))
    else
      let buffer := receiveAnswer buffer (s.written ⟨sig1, []⟩)
      (if cstr buffer ≠ str "pong" then -1 else 0, buffer)

/-- An exchange has ended; the service has saved its list, or emptied the file. -/
def Machine.exchanged (m : Machine) (service : Option Server) (configFile : Text) : Machine :=
  { m with service := service, config := some configFile, exchanges := m.exchanges + 1 }

/-- `communicate_with_server`, `communicate_two_signals_with_server` -/
def exchange (env : Surroundings) (make : Text → Exchange) : CliM (ℤ × Text) := do
  let m ← get
  let buffer := env.junk m.exchanges
  match m.service with
  | none =>
    -- `connect` fails
    set { m with exchanges := m.exchanges + 1 }
    return (-1, buffer)
  | some server =>
    if (make buffer).Hangs server then throw .hang
    match (make buffer).perform (server.asked (env.answers m.exchanges)) with
    | .ok result server =>
      set (m.exchanged (some server) server.configFile)
      return result
    | .error _ ended =>
      -- the service is gone, the client goes on with what it has read
      set (m.exchanged none ended.configFile)
      return (make buffer).cut (server.asked (env.answers m.exchanges))

/-- `ping_server` -/
def ping (env : Surroundings) : CliM ℤ := do
  let (res, buffer) ← exchange env (.word (str "ping"))
  if res = -1 then return -1
  return if cstr buffer ≠ str "pong" then -1 else 0

/-- `PRINT_NOT_ONLINE` -/
def notOnline : List Output :=
  hintLine (str "Server is not online.")
    (str " Use `kbpm service start` to start the KB_PM service")

/-- `PRINT_SERVER_ERR` -/
def serverErr : List Output := appLine (str "Server error occur.")

/-- The check at the beginning of every command. -/
def requireOnline (env : Surroundings) : CliM Unit := do
  if (← ping env) ≠ 0 then
    eprintf notOnline
    exit 1

/-! ### Commands -/

/-- `show_status` -/
def statusCommand (env : Surroundings) : CliM Unit := do
  requireOnline env
  let (res, buffer) ← exchange env (.word (str "status"))
  if res ≠ 0 then
    eprintf serverErr
    exit 1
  match showStatus env.times buffer with
  | .error fault => throw (.fault fault)
  | .ok table =>
    printf table
    exit 0

/-- What a command does with the response. -/
def respond (env : Surroundings) (result : ℤ × Text) : CliM Unit := do
  let (res, buffer) := result
  if res ≠ 0 then
    eprintf serverErr
    exit 1
  printf (appLine (cstr buffer))
  statusCommand env
  exit 0

/-- A command that sends one word. -/
def wordCommand (env : Surroundings) (word : String) : CliM Unit := do
  requireOnline env
  respond env (← exchange env (.word (str word)))

/-- A command that sends a word and an operand. -/
def operandCommand (env : Surroundings) (word : String) (operand : Text) : CliM Unit := do
  requireOnline env
  respond env (← exchange env (.signals (str word) operand))

/-- `start_all` -/
def startAll (env : Surroundings) : CliM Unit := wordCommand env "startall"

/-- `stop_all` -/
def stopAll (env : Surroundings) : CliM Unit := wordCommand env "stopall"

/-- `restart_process` -/
def restartProcess (env : Surroundings) (appName : Text) : CliM Unit :=
  operandCommand env "restart" appName

/-- `stop_process` -/
def stopProcess (env : Surroundings) (appName : Text) : CliM Unit :=
  operandCommand env "stop" appName

/-- `remove_process` -/
def removeProcess (env : Surroundings) (appName : Text) : CliM Unit :=
  operandCommand env "remove" appName

/-- `start_process` -/
def startCommand (env : Surroundings) (appNameOrCmd : Text) : CliM Unit := do
  requireOnline env
  match startProcess env.exist env.execute env.cwd appNameOrCmd with
  | .error fault => throw (.fault fault)
  | .ok none =>
    eprintf (appLine (appNameOrCmd ++ str " cannot be executed."))
    exit 1
  | .ok (some operand) => respond env (← exchange env (.signals (str "start") operand))

/-! ### The service -/

/-- `create_config_file` -/
def createConfigFile (env : Surroundings) : CliM Unit := do
  if !env.home then
    eprintf (plain (str "You have to set the env:$HOME") ++ [lineFeed])
    exit 1
  modify fun m => { m with config := m.config <|> if env.creates then some [] else none }

/-- `service_start`, up to the startup loop of the daemon; the command itself ends in
`init_daemon`. -/
def serviceStart (env : Surroundings) : CliM Unit := do
  createConfigFile env
  let config := (← get).config
  match serviceLoad config env.fileJunk with
  | .error fault => throw (.fault fault)
  | .ok (processList, processCount) =>
    if !env.daemonizes then exit 1
    modify fun m => { m with
      service := some (.loaded processList processCount (config.getD []) env.socketJunk) }
    exit 0

/-- `service_clean` -/
def serviceClean : CliM Unit := do
  modify fun m => { m with service := none, lost := m.service.toList ++ m.lost }
  exit 0

/-- The command `service start`. -/
def serviceStartCommand (env : Surroundings) : CliM Unit := do
  if (← ping env) ≠ 0 then
    printf (hintLine (str "Starting the server.")
      (str " Use `kbpm start <file>` to make an app run forever"))
    serviceStart env
  else
    printf (hintLine (str "Service have been already started.")
      (str " Use `kbpm status` to get the status of program(s)"))
    exit 0

/-! ### `main` -/

/-- `print_usage` -/
def printUsage : CliM Unit :=
  printf (appLine
    (str "a CLI tool (like supervisor and pm2) keep a group of program running continuously.") ++
    ([str "   Usage  :  kbpm [cmd] app",
      str "       service  start                start the KB_PM service",
      str "       service  clean                resolve the KB_PM service unexpectedly exit.",
      str "       start    <file|app_name|id>   start the program and run forever",
      str "       restart  <app_name|id>        restart the program",
      str "       stop     <app_name|id>        stop the program",
      str "       remove   <app_name|id>        remove the program form list",
      str "       startall                      start all program(s)",
      str "       stopall                       stop all the program(s)",
      str "       version                       show KB_PM version"].flatMap
        fun line => plain line ++ [lineFeed]))

def argumentsError : List Output := appLine (str "Arguments error, see usage.")

/-- `main`, on the arguments behind the name of the program, which have no NUL. -/
def main (env : Surroundings) : List Text → CliM Unit
  | [] => do
    printUsage
    exit 0
  | [cmd] => do
    if cmd = str "startall" then startAll env
    if cmd = str "stopall" then stopAll env
    if cmd = str "status" then statusCommand env
    if cmd = str "version" then
      printf (appLine (str "v0.1.0"))
      exit 0
    eprintf argumentsError
    exit 1
  | [cmd, arg] => do
    if cmd = str "service" then
      if arg = str "start" then serviceStartCommand env
      if arg = str "clean" then serviceClean
    if cmd = str "start" then startCommand env arg
    if cmd = str "restart" then restartProcess env arg
    if cmd = str "stop" then stopProcess env arg
    if cmd = str "remove" then removeProcess env arg
    eprintf argumentsError
    exit 1
  | _ => do
    eprintf (appLine (str "Too many arguments, see usage."))
    exit 1

end KbPm
