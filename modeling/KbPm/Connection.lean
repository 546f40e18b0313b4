/-
The service and its clients, message by message (`server_socket_handle_thread_func`, the monitor of
`service_start`, `communicate_with_server`, `communicate_two_signals_with_server`).

The socket thread and the main thread share the list and a mutex.  A client connects, writes, reads
and may go away at any time.  Each call of `accept`, `read`, `write`, `close`, `fopen` and of the
mutex functions is a step of its own, and so are the handling of a request and of a dead child.  A
message that is written arrives in one piece; what is read is what has arrived until then.

* `Conn`, `Conn.step` — a connection, and what the client does at its end;
* `Net`, `Net.step` — the states of the whole, and what happens in them;
* `Net.socketStep`, `Net.mainStep` — the steps of the two threads;
* `NetSteps.cases` — what a step can be.

A write to a connection whose other end is closed raises SIGPIPE, which `ignore_signals` leaves
alone: it ends the writer.  The service's end of a connection is closed when no process has it open
any more.  The children that are forked in the meantime have it, also behind the `close` and behind
the end of the service, and they have the listening socket.
-/
import KbPm.Client
import KbPm.Supervisor

namespace KbPm

open Trace

/-! ### A connection -/

/-- Where a client is in its exchange. -/
inductive ClientPoint
  /-- before the write of its first signal -/
  | writing
  /-- before the read behind it -/
  | reading
  /-- before the write of its second signal -/
  | writing2
  /-- before the read behind it -/
  | reading2
  /-- the exchange is over, with this result -/
  | returned (res : ℤ)
  /-- the client has gone away before -/
  | gone
  deriving DecidableEq

/-- A connection, and the client at one end of it. -/
structure Conn where
  exchange : Exchange
  point : ClientPoint
  /-- what the client receives into -/
  buffer : Text
  /-- what is on its way to the service -/
  toService : Text
  /-- what is on its way to the client -/
  toClient : Text
  clientOpen : Bool
  /-- the service has not called `close` -/
  held : Bool
  /-- a process has the service's end open -/
  serviceOpen : Bool

/-- The client's buffer before the exchange. -/
def Exchange.buffer : Exchange → Text
  | word _ buffer => buffer
  | signals _ _ buffer => buffer

/-- `read` from a socket.  It blocks as long as nothing has arrived and the other end is open. -/
def socketRead (size : ℕ) (arrived : Text) (otherOpen : Bool) : Option (Text × Text) :=
  if arrived ≠ [] ∨ otherOpen = false then some (arrived.take size, arrived.drop size) else none

namespace Conn

/-- A client that has connected. -/
def connected (exchange : Exchange) : Conn :=
  ⟨exchange, .writing, exchange.buffer, [], [], true, true, true⟩

/-- `write(sockfd, sig, strlen(sig))` -/
def send (conn : Conn) (sig : Text) (next : ClientPoint) : Conn :=
  if conn.serviceOpen then { conn with toService := conn.toService ++ cstr sig, point := next }
  else { conn with clientOpen := false, point := .gone }

/-- `close(sockfd)`, and the result 0 -/
def finish (conn : Conn) : Conn := { conn with clientOpen := false, point := .returned 0 }

/-- `read(sockfd, buffer, BUFFER_SIZE)` -/
def receive (conn : Conn) : Option Conn := do
  let (message, rest) ← socketRead bufferSize conn.toClient conn.serviceOpen
  return { conn with buffer := receiveAnswer conn.buffer message, toClient := rest }

/-- What the client does behind its first read. -/
def compare (conn : Conn) : Conn :=
  match conn.exchange with
  | .word _ _ => conn.finish
  | .signals _ _ _ =>
    if cstr conn.buffer ≠ str "pong" then { conn with point := .returned (-1) }
    else { conn with point := .writing2 }

/-- The next step of the client. -/
def step (conn : Conn) : Option Conn :=
  match conn.point with
  | .writing => some (conn.send conn.exchange.request.command .reading)
  | .reading => conn.receive.map compare
  | .writing2 => some (conn.send conn.exchange.request.operand .reading2)
  | .reading2 => conn.receive.map finish
  | .returned _ => none
  | .gone => none

/-- The client goes away: it is killed, or it is over and exits. -/
def leave (conn : Conn) : Option Conn :=
  if conn.clientOpen then
    some { conn with
      clientOpen := false
      point := match conn.point with
        | .returned res => .returned res
        | _ => .gone }
  else none

/-- `close(client_sockfd)` -/
def close (conn : Conn) : Conn := { conn with held := false }

/-- The last process that has the service's end open closes it. -/
def hangUp (conn : Conn) : Conn := { conn with serviceOpen := false }

end Conn

/-! ### The service -/

/-- Where the main thread is. -/
inductive MainPoint
  /-- in the startup loop, before it compares `i` -/
  | starting (i : ℕ)
  /-- before `wait` -/
  | waiting
  /-- before `pthread_mutex_lock`, when `wait` has returned `pid` -/
  | reaped (pid : ℤ)
  /-- behind it -/
  | locked (pid : ℤ)
  /-- before `pthread_mutex_unlock` -/
  | unlocking
  deriving DecidableEq

/-- Where the socket thread is. -/
inductive SocketPoint
  /-- before `accept` -/
  | accepting
  /-- before `pthread_mutex_lock` -/
  | accepted (c : ℕ)
  /-- before the read of the command -/
  | reading (c : ℕ)
  /-- before it compares the command -/
  | comparing (c : ℕ) (command : Text)
  /-- before the read of the operand -/
  | asked (c : ℕ) (command : Text)
  /-- before it handles the request -/
  | received (c : ℕ) (request : Request)
  /-- before the write of the response -/
  | answering (c : ℕ) (response : Text)
  /-- before `close` -/
  | closing (c : ℕ)
  /-- before `fopen` in `save_process_list` -/
  | saving
  /-- before the text of the list is made and written -/
  | printing
  /-- before the buffers are cleared and the mutex is unlocked -/
  | clearing

inductive Thread
  | main
  | socket
  deriving DecidableEq

/-- What has ended the service. -/
inductive Ending
  | fault (fault : Fault)
  | sigpipe
  deriving DecidableEq

/-- A request that has been handled, and for whom. -/
structure HandledRound where
  client : ℕ
  request : Request
  answers : Answers
  response : Text

structure Net where
  server : Server
  main : MainPoint
  socket : SocketPoint
  mutex : Option Thread
  /-- the connections that have not been accepted -/
  backlog : List ℕ
  conns : List Conn
  ending : Option Ending
  /-- what has been handled so far; no step depends on it -/
  rounds : List HandledRound

inductive NetEvent
  /-- a client connects -/
  | connect (exchange : Exchange)
  /-- client `c` goes on -/
  | client (c : ℕ)
  /-- client `c` goes away -/
  | leave (c : ℕ)
  /-- the socket thread goes on -/
  | socket (answers : Answers)
  /-- the main thread goes on -/
  | main (answers : Answers)
  /-- `wait` returns `pid` -/
  | wait (pid : ℤ)
  /-- the child `pid` dies -/
  | exit (pid : ℤ)
  /-- no process has the service's end of connection `c` open any more -/
  | hangUp (c : ℕ)

/-- `#define SERVER_ACCEPT_COUNT 5` -/
abbrev serverAcceptCount : ℕ := 5

namespace Net

/-- The service is over. -/
def ends (N : Net) (ending : Ending) : Net := { N with ending := some ending }

/-- `read(client_sockfd, buffer, STR_BUFFER_SIZE)`; `next` is where the thread goes with it. -/
def read (N : Net) (c : ℕ) (next : Text → SocketPoint) : Option Net := do
  let conn ← N.conns[c]?
  let (message, rest) ← socketRead strBufferSize conn.toService conn.clientOpen
  return { N with socket := next message, conns := N.conns.set c { conn with toService := rest } }

/-- `write(client_sockfd, message, strlen(message))` -/
def write (N : Net) (c : ℕ) (message : Text) (next : SocketPoint) : Option Net := do
  let conn ← N.conns[c]?
  if conn.clientOpen then
    return { N with
      socket := next
      conns := N.conns.set c { conn with toClient := conn.toClient ++ cstr message } }
  else
    return N.ends .sigpipe

/-- The next step of the socket thread. -/
def socketStep (N : Net) (answers : Answers) : Option Net :=
  match N.socket with
  | .accepting =>
    match N.backlog with
    | [] => none
    | c :: backlog => some { N with socket := .accepted c, backlog := backlog }
  | .accepted c =>
    if N.mutex = none then some { N with socket := .reading c, mutex := some .socket } else none
  | .reading c => N.read c (.comparing c)
  | .comparing c command =>
    if (readCommand (N.server.commandBuffer ⟨command, []⟩)).HasOperand then
      N.write c (str "pong") (.asked c command)
    else some { N with socket := .received c ⟨command, []⟩ }
  | .asked c command => N.read c fun operand => .received c ⟨command, operand⟩
  | .received c request =>
    if N.server.kernel.Fresh answers.forks then
      match handleRequest request (N.server.asked answers) with
      | .ok response server =>
        some { N with
          server := server
          socket := .answering c response
          rounds := N.rounds ++ [⟨c, request, answers, response⟩] }
      | .error fault server => some ({ N with server := server }.ends (.fault fault))
    else none
  | .answering c response => N.write c response (.closing c)
  | .closing c => do
    let conn ← N.conns[c]?
    return { N with socket := .saving, conns := N.conns.set c conn.close }
  | .saving =>
    some { N with socket := .printing, server := { N.server with configFile := [] } }
  | .printing =>
    match saveProcessList N.server.processList with
    | .ok text =>
      some { N with socket := .clearing, server := { N.server with configFile := text } }
    | .error fault => some (N.ends (.fault fault))
  | .clearing =>
    some { N with
      socket := .accepting
      mutex := none
      server := { N.server with buffer := [] } }

/-- The next step of the main thread, up to `wait`. -/
def mainStep (N : Net) (answers : Answers) : Option Net :=
  match N.main with
  | .starting i =>
    if i < N.server.processCount then
      if N.server.kernel.Fresh answers.forks then
        match startupIteration i (N.server.asked answers) with
        | .ok _ server => some { N with server := server, main := .starting (i + 1) }
        | .error fault server => some ({ N with server := server }.ends (.fault fault))
      else none
    else some { N with main := .waiting }
  | .waiting => none
  | .reaped pid =>
    if N.mutex = none then some { N with main := .locked pid, mutex := some .main } else none
  | .locked pid =>
    if N.server.kernel.Fresh answers.forks then
      match handleExit pid (N.server.asked answers) with
      | .ok _ server => some { N with server := server, main := .unlocking }
      | .error fault server => some ({ N with server := server }.ends (.fault fault))
    else none
  | .unlocking => some { N with main := .waiting, mutex := none }

def step (N : Net) : NetEvent → Option Net
  | .connect exchange =>
    if N.backlog.length ≤ serverAcceptCount then
      some { N with
        conns := N.conns ++ [.connected exchange]
        backlog := N.backlog ++ [N.conns.length] }
    else none
  | .client c => do
    let conn ← N.conns[c]?
    let conn ← conn.step
    return { N with conns := N.conns.set c conn }
  | .leave c => do
    let conn ← N.conns[c]?
    let conn ← conn.leave
    return { N with conns := N.conns.set c conn }
  | .socket answers => if N.ending = none then N.socketStep answers else none
  | .main answers => if N.ending = none then N.mainStep answers else none
  | .wait pid =>
    if N.ending = none ∧ N.main = .waiting then
      (N.server.kernel.reap pid).map fun kernel =>
        { N with server := { N.server with kernel := kernel }, main := .reaped pid }
    else none
  | .exit pid =>
    if ∃ child ∈ N.server.kernel.children, child.pid = pid ∧ child.alive = true then
      some { N with
        server := { N.server with
          kernel := { N.server.kernel with children := die pid N.server.kernel.children } } }
    else none
  | .hangUp c => do
    let conn ← N.conns[c]?
    if N.ending = none ∧ conn.held = true then
      none
    else
      return { N with conns := N.conns.set c conn.hangUp }

end Net

/-- The steps of the service and its clients. -/
def NetSteps (N : Net) (event : NetEvent) (M : Net) : Prop := N.step event = some M

/-- The socket thread has been created, and the main thread is before its startup loop. -/
def Net.launched (server : Server) : Net :=
  ⟨server, .starting 0, .accepting, none, [], [], none, []⟩

/-- What a step is. -/
inductive NetStepped (N : Net) : NetEvent → Net → Prop
  | connect {exchange : Exchange} (hroom : N.backlog.length ≤ serverAcceptCount) :
    NetStepped N (.connect exchange)
      { N with
        conns := N.conns ++ [.connected exchange]
        backlog := N.backlog ++ [N.conns.length] }
  | client {c : ℕ} {conn next : Conn} (hconn : N.conns[c]? = some conn)
    (hstep : conn.step = some next) :
    NetStepped N (.client c) { N with conns := N.conns.set c next }
  | leave {c : ℕ} {conn next : Conn} (hconn : N.conns[c]? = some conn)
    (hleave : conn.leave = some next) :
    NetStepped N (.leave c) { N with conns := N.conns.set c next }
  | accept {answers : Answers} {c : ℕ} {backlog : List ℕ} (halive : N.ending = none)
    (hpoint : N.socket = .accepting) (hbacklog : N.backlog = c :: backlog) :
    NetStepped N (.socket answers) { N with socket := .accepted c, backlog := backlog }
  | lock {answers : Answers} {c : ℕ} (halive : N.ending = none) (hpoint : N.socket = .accepted c)
    (hmutex : N.mutex = none) :
    NetStepped N (.socket answers) { N with socket := .reading c, mutex := some .socket }
  | readCommand {answers : Answers} {c : ℕ} {conn : Conn} {message rest : Text}
    (halive : N.ending = none) (hpoint : N.socket = .reading c) (hconn : N.conns[c]? = some conn)
    (hread : socketRead strBufferSize conn.toService conn.clientOpen = some (message, rest)) :
    NetStepped N (.socket answers)
      { N with
        socket := .comparing c message
        conns := N.conns.set c { conn with toService := rest } }
  | pong {answers : Answers} {c : ℕ} {conn : Conn} {command : Text} (halive : N.ending = none)
    (hpoint : N.socket = .comparing c command)
    (hoperand : (KbPm.readCommand (N.server.commandBuffer ⟨command, []⟩)).HasOperand)
    (hconn : N.conns[c]? = some conn) (hopen : conn.clientOpen = true) :
    NetStepped N (.socket answers)
      { N with
        socket := .asked c command
        conns := N.conns.set c { conn with toClient := conn.toClient ++ cstr (str "pong") } }
  | noOperand {answers : Answers} {c : ℕ} {command : Text} (halive : N.ending = none)
    (hpoint : N.socket = .comparing c command)
    (hoperand : ¬(KbPm.readCommand (N.server.commandBuffer ⟨command, []⟩)).HasOperand) :
    NetStepped N (.socket answers) { N with socket := .received c ⟨command, []⟩ }
  | readOperand {answers : Answers} {c : ℕ} {conn : Conn} {command message rest : Text}
    (halive : N.ending = none) (hpoint : N.socket = .asked c command)
    (hconn : N.conns[c]? = some conn)
    (hread : socketRead strBufferSize conn.toService conn.clientOpen = some (message, rest)) :
    NetStepped N (.socket answers)
      { N with
        socket := .received c ⟨command, message⟩
        conns := N.conns.set c { conn with toService := rest } }
  | handle {answers : Answers} {c : ℕ} {request : Request} {response : Text} {server : Server}
    (halive : N.ending = none) (hpoint : N.socket = .received c request)
    (hfresh : N.server.kernel.Fresh answers.forks)
    (hhandle : handleRequest request (N.server.asked answers) = .ok response server) :
    NetStepped N (.socket answers)
      { N with
        server := server
        socket := .answering c response
        rounds := N.rounds ++ [⟨c, request, answers, response⟩] }
  | answer {answers : Answers} {c : ℕ} {conn : Conn} {response : Text} (halive : N.ending = none)
    (hpoint : N.socket = .answering c response) (hconn : N.conns[c]? = some conn)
    (hopen : conn.clientOpen = true) :
    NetStepped N (.socket answers)
      { N with
        socket := .closing c
        conns := N.conns.set c { conn with toClient := conn.toClient ++ cstr response } }
  | close {answers : Answers} {c : ℕ} {conn : Conn} (halive : N.ending = none)
    (hpoint : N.socket = .closing c) (hconn : N.conns[c]? = some conn) :
    NetStepped N (.socket answers)
      { N with socket := .saving, conns := N.conns.set c conn.close }
  | empty {answers : Answers} (halive : N.ending = none) (hpoint : N.socket = .saving) :
    NetStepped N (.socket answers)
      { N with socket := .printing, server := { N.server with configFile := [] } }
  | print {answers : Answers} {text : Text} (halive : N.ending = none)
    (hpoint : N.socket = .printing) (hsave : saveProcessList N.server.processList = .ok text) :
    NetStepped N (.socket answers)
      { N with socket := .clearing, server := { N.server with configFile := text } }
  | clear {answers : Answers} (halive : N.ending = none) (hpoint : N.socket = .clearing) :
    NetStepped N (.socket answers)
      { N with
        socket := .accepting
        mutex := none
        server := { N.server with buffer := [] } }
  /-- a write to a client that is not there any more -/
  | broken {answers : Answers} {c : ℕ} {conn : Conn} (halive : N.ending = none)
    (hpoint : (∃ command, N.socket = .comparing c command) ∨
      ∃ response, N.socket = .answering c response)
    (hconn : N.conns[c]? = some conn) (hclosed : conn.clientOpen = false) :
    NetStepped N (.socket answers) (N.ends .sigpipe)
  | iterate {answers : Answers} {i : ℕ} {server : Server} (halive : N.ending = none)
    (hpoint : N.main = .starting i) (hi : i < N.server.processCount)
    (hfresh : N.server.kernel.Fresh answers.forks)
    (hiterate : startupIteration i (N.server.asked answers) = .ok () server) :
    NetStepped N (.main answers) { N with server := server, main := .starting (i + 1) }
  | finish {answers : Answers} {i : ℕ} (halive : N.ending = none) (hpoint : N.main = .starting i)
    (hi : N.server.processCount ≤ i) : NetStepped N (.main answers) { N with main := .waiting }
  | lockMain {answers : Answers} {pid : ℤ} (halive : N.ending = none)
    (hpoint : N.main = .reaped pid) (hmutex : N.mutex = none) :
    NetStepped N (.main answers) { N with main := .locked pid, mutex := some .main }
  | handleExit {answers : Answers} {pid : ℤ} {server : Server} (halive : N.ending = none)
    (hpoint : N.main = .locked pid) (hfresh : N.server.kernel.Fresh answers.forks)
    (hhandle : handleExit pid (N.server.asked answers) = .ok () server) :
    NetStepped N (.main answers) { N with server := server, main := .unlocking }
  | unlockMain {answers : Answers} (halive : N.ending = none) (hpoint : N.main = .unlocking) :
    NetStepped N (.main answers) { N with main := .waiting, mutex := none }
  | wait {pid : ℤ} {kernel : Kernel} (halive : N.ending = none) (hpoint : N.main = .waiting)
    (hreap : N.server.kernel.reap pid = some kernel) :
    NetStepped N (.wait pid)
      { N with server := { N.server with kernel := kernel }, main := .reaped pid }
  | exit {pid : ℤ}
    (hchild : ∃ child ∈ N.server.kernel.children, child.pid = pid ∧ child.alive = true) :
    NetStepped N (.exit pid)
      { N with
        server := { N.server with
          kernel := { N.server.kernel with children := die pid N.server.kernel.children } } }
  | hangUp {c : ℕ} {conn : Conn} (hconn : N.conns[c]? = some conn)
    (hclosed : N.ending = none → conn.held = false) :
    NetStepped N (.hangUp c) { N with conns := N.conns.set c conn.hangUp }
  | socketFault {answers : Answers} {K : Net} {fault : Fault} (halive : N.ending = none)
    (hconns : K.conns = N.conns) (hrounds : K.rounds = N.rounds)
    (hpoint : (∃ c request, N.socket = .received c request) ∨ N.socket = .printing) :
    NetStepped N (.socket answers) (K.ends (.fault fault))
  | mainFault {answers : Answers} {K : Net} {fault : Fault} (halive : N.ending = none)
    (hconns : K.conns = N.conns) (hrounds : K.rounds = N.rounds)
    (hpoint : (∃ i, N.main = .starting i) ∨ ∃ pid, N.main = .locked pid) :
    NetStepped N (.main answers) (K.ends (.fault fault))

theorem Net.read_eq {N M : Net} {c : ℕ} {next : Text → SocketPoint} (h : N.read c next = some M) :
    ∃ conn message rest, N.conns[c]? = some conn ∧
      socketRead strBufferSize conn.toService conn.clientOpen = some (message, rest) ∧
      M = { N with
        socket := next message
        conns := N.conns.set c { conn with toService := rest } } := by
  obtain ⟨conn, hconn, hrest⟩ := Option.bind_eq_some_iff.mp h
  obtain ⟨⟨message, rest⟩, hread, hM⟩ := Option.bind_eq_some_iff.mp hrest
  exact ⟨conn, message, rest, hconn, hread, (Option.some_inj.mp hM).symm⟩

theorem Net.write_eq {N M : Net} {c : ℕ} {message : Text} {next : SocketPoint}
    (h : N.write c message next = some M) :
    ∃ conn, N.conns[c]? = some conn ∧
      (conn.clientOpen = true ∧ M = { N with
        socket := next
        conns := N.conns.set c { conn with toClient := conn.toClient ++ cstr message } } ∨
      conn.clientOpen = false ∧ M = N.ends .sigpipe) := by
  obtain ⟨conn, hconn, hrest⟩ := Option.bind_eq_some_iff.mp h
  refine ⟨conn, hconn, ?_⟩
  split at hrest
  · rename_i hopen
    exact Or.inl ⟨hopen, (Option.some_inj.mp hrest).symm⟩
  · rename_i hopen
    exact Or.inr ⟨by simpa using hopen, (Option.some_inj.mp hrest).symm⟩

theorem socketStep_cases {N M : Net} {answers : Answers} (halive : N.ending = none)
    (h : N.socketStep answers = some M) : NetStepped N (.socket answers) M := by
  unfold Net.socketStep at h
  cases hpoint : N.socket with
  | accepting =>
    simp only [hpoint] at h
    split at h
    · cases h
    · rename_i c backlog hbacklog
      obtain rfl := Option.some_inj.mp h
      exact .accept halive hpoint hbacklog
  | accepted c =>
    simp only [hpoint] at h
    split_ifs at h with hmutex
    obtain rfl := Option.some_inj.mp h
    exact .lock halive hpoint hmutex
  | reading c =>
    simp only [hpoint] at h
    obtain ⟨conn, message, rest, hconn, hread, rfl⟩ := Net.read_eq h
    exact .readCommand halive hpoint hconn hread
  | comparing c command =>
    simp only [hpoint] at h
    split_ifs at h with hoperand
    · obtain ⟨conn, hconn, ⟨hopen, rfl⟩ | ⟨hclosed, rfl⟩⟩ := Net.write_eq h
      · exact .pong halive hpoint hoperand hconn hopen
      · exact .broken halive (Or.inl ⟨command, hpoint⟩) hconn hclosed
    · obtain rfl := Option.some_inj.mp h
      exact .noOperand halive hpoint hoperand
  | asked c command =>
    simp only [hpoint] at h
    obtain ⟨conn, message, rest, hconn, hread, rfl⟩ := Net.read_eq h
    exact .readOperand halive hpoint hconn hread
  | received c request =>
    simp only [hpoint] at h
    split_ifs at h with hfresh
    cases hhandle : handleRequest request (N.server.asked answers) with
    | ok response server =>
      rw [hhandle] at h
      obtain rfl := Option.some_inj.mp h
      exact .handle halive hpoint hfresh hhandle
    | error fault server =>
      rw [hhandle] at h
      obtain rfl := Option.some_inj.mp h
      exact .socketFault halive rfl rfl (Or.inl ⟨c, request, hpoint⟩)
  | answering c response =>
    simp only [hpoint] at h
    obtain ⟨conn, hconn, ⟨hopen, rfl⟩ | ⟨hclosed, rfl⟩⟩ := Net.write_eq h
    · exact .answer halive hpoint hconn hopen
    · exact .broken halive (Or.inr ⟨response, hpoint⟩) hconn hclosed
  | closing c =>
    simp only [hpoint] at h
    obtain ⟨conn, hconn, hM⟩ := Option.bind_eq_some_iff.mp h
    obtain rfl := Option.some_inj.mp hM
    exact .close halive hpoint hconn
  | saving =>
    simp only [hpoint] at h
    obtain rfl := Option.some_inj.mp h
    exact .empty halive hpoint
  | printing =>
    simp only [hpoint] at h
    cases hsave : saveProcessList N.server.processList with
    | ok text =>
      rw [hsave] at h
      obtain rfl := Option.some_inj.mp h
      exact .print halive hpoint hsave
    | error fault =>
      rw [hsave] at h
      obtain rfl := Option.some_inj.mp h
      exact .socketFault halive rfl rfl (Or.inr hpoint)
  | clearing =>
    simp only [hpoint] at h
    obtain rfl := Option.some_inj.mp h
    exact .clear halive hpoint

theorem mainStep_cases {N M : Net} {answers : Answers} (halive : N.ending = none)
    (h : N.mainStep answers = some M) : NetStepped N (.main answers) M := by
  unfold Net.mainStep at h
  cases hpoint : N.main with
  | starting i =>
    simp only [hpoint] at h
    split_ifs at h with hi hfresh
    · cases hiterate : startupIteration i (N.server.asked answers) with
      | ok result server =>
        rw [hiterate] at h
        obtain rfl := Option.some_inj.mp h
        exact .iterate halive hpoint hi hfresh hiterate
      | error fault server =>
        rw [hiterate] at h
        obtain rfl := Option.some_inj.mp h
        exact .mainFault halive rfl rfl (Or.inl ⟨i, hpoint⟩)
    · obtain rfl := Option.some_inj.mp h
      exact .finish halive hpoint (by omega)
  | waiting => simp [hpoint] at h
  | reaped pid =>
    simp only [hpoint] at h
    split_ifs at h with hmutex
    obtain rfl := Option.some_inj.mp h
    exact .lockMain halive hpoint hmutex
  | locked pid =>
    simp only [hpoint] at h
    split_ifs at h with hfresh
    cases hhandle : handleExit pid (N.server.asked answers) with
    | ok result server =>
      rw [hhandle] at h
      obtain rfl := Option.some_inj.mp h
      exact .handleExit halive hpoint hfresh hhandle
    | error fault server =>
      rw [hhandle] at h
      obtain rfl := Option.some_inj.mp h
      exact .mainFault halive rfl rfl (Or.inr ⟨pid, hpoint⟩)
  | unlocking =>
    simp only [hpoint] at h
    obtain rfl := Option.some_inj.mp h
    exact .unlockMain halive hpoint

theorem NetSteps.cases {N M : Net} {event : NetEvent} (h : NetSteps N event M) :
    NetStepped N event M := by
  unfold NetSteps Net.step at h
  cases event with
  | connect exchange =>
    simp only at h
    split_ifs at h with hroom
    obtain rfl := Option.some_inj.mp h
    exact .connect hroom
  | client c =>
    obtain ⟨conn, hconn, hrest⟩ := Option.bind_eq_some_iff.mp h
    obtain ⟨next, hstep, hM⟩ := Option.bind_eq_some_iff.mp hrest
    obtain rfl := Option.some_inj.mp hM
    exact .client hconn hstep
  | leave c =>
    obtain ⟨conn, hconn, hrest⟩ := Option.bind_eq_some_iff.mp h
    obtain ⟨next, hleave, hM⟩ := Option.bind_eq_some_iff.mp hrest
    obtain rfl := Option.some_inj.mp hM
    exact .leave hconn hleave
  | socket answers =>
    simp only at h
    split_ifs at h with halive
    exact socketStep_cases halive h
  | main answers =>
    simp only at h
    split_ifs at h with halive
    exact mainStep_cases halive h
  | wait pid =>
    simp only at h
    split_ifs at h with hwaiting
    obtain ⟨kernel, hreap, rfl⟩ := Option.map_eq_some_iff.mp h
    exact .wait hwaiting.1 hwaiting.2 hreap
  | exit pid =>
    simp only at h
    split_ifs at h with hchild
    obtain rfl := Option.some_inj.mp h
    exact .exit hchild
  | hangUp c =>
    obtain ⟨conn, hconn, hrest⟩ := Option.bind_eq_some_iff.mp h
    split_ifs at hrest with hheld
    obtain rfl := Option.some_inj.mp hrest
    exact .hangUp hconn fun halive => by simpa [halive] using hheld

end KbPm
