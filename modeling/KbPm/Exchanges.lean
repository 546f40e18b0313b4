/-
Every client gets its own answer, and gets it in the end.

* `Stand`, `Conn.At` — where the service is with a connection, and what the connection and its
  client are like then;
* `Net.Attends` — the clients are served one after the other;
* `own_answers` — what is handled is what a client has asked, and what a client returns with is the
  answer to that.
-/
import KbPm.Rounds

namespace KbPm

open Trace

/-! ### One connection -/

/-- Where the service is with a connection. -/
inductive Stand
  /-- it has read nothing -/
  | ahead
  | told (command : Text)
  /-- it has written `pong` -/
  | asked (command : Text)
  | heard (request : Request)
  | answered (request : Request) (response : Text)

namespace Exchange

/-- The exchange is one of the client's, and a `pong` can be read into its buffer. -/
def Ready (exchange : Exchange) : Prop :=
  exchange.Real ∧
    match exchange with
    | word _ _ => True
    | signals _ _ buffer => buffer.getD 4 0 = 0

/-- The read of the response. -/
def lastRead : Exchange → ClientPoint
  | word _ _ => .reading
  | signals _ _ _ => .reading2

/-- The client's buffer before that. -/
def lastBuffer : Exchange → Text
  | word _ buffer => buffer
  | signals _ _ buffer => receiveAnswer buffer (str "pong")

/-- The command has an operand. -/
def Twofold : Exchange → Prop
  | word _ _ => False
  | signals _ _ _ => True

end Exchange

/-- What a connection is like when the service is there.  Of a client that has gone away nothing is
known. -/
inductive Conn.At : Conn → Stand → Prop
  | gone {conn : Conn} {stand : Stand} (hpoint : conn.point = .gone)
    (hclosed : conn.clientOpen = false) : At conn stand
  | writing {e : Exchange} (he : e.Ready) :
    At ⟨e, .writing, e.buffer, [], [], true, true, true⟩ .ahead
  | written {e : Exchange} (he : e.Ready) :
    At ⟨e, .reading, e.buffer, e.request.command, [], true, true, true⟩ .ahead
  | told {e : Exchange} (he : e.Ready) :
    At ⟨e, .reading, e.buffer, [], [], true, true, true⟩ (.told e.request.command)
  | pong {e : Exchange} (he : e.Ready) (htwofold : e.Twofold) :
    At ⟨e, .reading, e.buffer, [], str "pong", true, true, true⟩ (.asked e.request.command)
  | writing2 {e : Exchange} (he : e.Ready) (htwofold : e.Twofold) :
    At ⟨e, .writing2, e.lastBuffer, [], [], true, true, true⟩ (.asked e.request.command)
  | written2 {e : Exchange} (he : e.Ready) (htwofold : e.Twofold) :
    At ⟨e, .reading2, e.lastBuffer, e.request.operand, [], true, true, true⟩
      (.asked e.request.command)
  | heard {e : Exchange} (he : e.Ready) (hoperand : e.Twofold → e.request.operand ≠ []) :
    At ⟨e, e.lastRead, e.lastBuffer, [], [], true, true, true⟩ (.heard e.request)
  | answered {e : Exchange} (he : e.Ready) (hoperand : e.Twofold → e.request.operand ≠ [])
    {response : Text} {held serviceOpen : Bool} :
    At ⟨e, e.lastRead, e.lastBuffer, [], cstr response, true, held, serviceOpen⟩
      (.answered e.request response)
  | returned {e : Exchange} (he : e.Ready) (hoperand : e.Twofold → e.request.operand ≠ [])
    {response rest : Text} {held serviceOpen : Bool} :
    At ⟨e, .returned 0, e.final response, [], rest, false, held, serviceOpen⟩
      (.answered e.request response)

theorem Exchange.Ready.command {e : Exchange} (he : e.Ready) :
    cstr e.request.command = e.request.command ∧ e.request.command ≠ [] ∧
      e.request.command.length ≤ strBufferSize := by
  obtain ⟨hreal, -⟩ := he
  have hwords : ∀ sig ∈ [str "ping", str "startall", str "stopall", str "status"] ++
      [str "start", str "stop", str "restart", str "remove"],
      cstr sig = sig ∧ sig ≠ [] ∧ sig.length ≤ strBufferSize := by decide
  cases hreal with
  | word hsig => exact hwords _ (List.mem_append_left _ hsig)
  | signals hsig => exact hwords _ (List.mem_append_right _ hsig)

theorem Exchange.Ready.operand {e : Exchange} (he : e.Ready) :
    cstr e.request.operand = e.request.operand ∧ e.request.operand.length ≤ strBufferSize := by
  obtain ⟨hreal, -⟩ := he
  cases hreal with
  | word => exact ⟨rfl, Nat.zero_le _⟩
  | signals hsig hnul hfits => exact ⟨cstr_of_notMem hnul, hfits.le⟩

/-- The service tells by the command whether an operand follows. -/
theorem Exchange.Ready.hasOperand {e : Exchange} (he : e.Ready) :
    (readCommand (receive [] e.request.command)).HasOperand ↔ e.Twofold := by
  obtain ⟨hreal, -⟩ := he
  cases hreal with
  | @word sig buffer hsig =>
    have hwords : ∀ sig ∈ [str "ping", str "startall", str "stopall", str "status"],
        ¬(readCommand (receive [] sig)).HasOperand := by decide
    exact iff_of_false (hwords sig hsig) id
  | @signals sig1 sig2 buffer hsig =>
    have hwords : ∀ sig ∈ [str "start", str "stop", str "restart", str "remove"],
        (readCommand (receive [] sig)).HasOperand := by decide
    exact iff_of_true (hwords sig1 hsig) trivial

/-- What is read when something has arrived. -/
theorem socketRead_arrived {size : ℕ} {arrived message rest : Text} {otherOpen : Bool}
    (h : socketRead size arrived otherOpen = some (message, rest)) (hopen : otherOpen = true) :
    arrived ≠ [] ∧ message = arrived.take size ∧ rest = arrived.drop size := by
  unfold socketRead at h
  split_ifs at h with harrived
  cases h
  exact ⟨harrived.resolve_right (by simp [hopen]), rfl, rfl⟩

theorem receiveAnswer_take (buffer message : Text) :
    receiveAnswer buffer (message.take bufferSize) = receiveAnswer buffer message := by
  rw [receiveAnswer, receiveAnswer, List.take_take, min_self]

theorem Conn.At.connected {e : Exchange} (he : e.Ready) :
    (Conn.connected e).At .ahead := .writing he

/-- The client goes on. -/
theorem Conn.At.step {conn next : Conn} {stand : Stand} (h : conn.At stand)
    (hstep : conn.step = some next) : next.At stand := by
  cases h with
  | gone hpoint hclosed => simp [Conn.step, hpoint] at hstep
  | writing he =>
    obtain rfl := Option.some_inj.mp hstep
    have hwritten := At.written he
    rw [← he.command.1] at hwritten
    exact hwritten
  | written he =>
    -- nothing has been answered, so the client waits
    cases hstep
  | told he => cases hstep
  | @pong e he htwofold =>
    cases e with
    | word => exact htwofold.elim
    | signals sig1 sig2 buffer =>
      have hpong : cstr (receiveAnswer buffer (str "pong")) = str "pong" :=
        ((holds_receiveAnswer (by decide)).mpr ⟨by decide, he.2⟩).2
      obtain rfl : next = ⟨.signals sig1 sig2 buffer, .writing2, receiveAnswer buffer (str "pong"),
          [], [], true, true, true⟩ := by
        have hcompare := Option.some_inj.mp hstep
        rw [← hcompare]
        exact if_neg (not_not.mpr hpong)
      exact .writing2 he trivial
  | writing2 he htwofold =>
    obtain rfl := Option.some_inj.mp hstep
    have hwritten := At.written2 he htwofold
    rw [← he.operand.1] at hwritten
    exact hwritten
  | written2 he htwofold => cases hstep
  | @heard e he => cases e <;> cases hstep
  | @answered e he hoperand response held serviceOpen =>
    -- the response is read, or what there is of it when the connection is closed
    have hread : next = ⟨e, .returned 0, receiveAnswer e.lastBuffer (cstr response), [],
        (cstr response).drop bufferSize, false, held, serviceOpen⟩ := by
      have hrest : ∀ done : Conn → Conn, Option.map done
          (Conn.receive ⟨e, e.lastRead, e.lastBuffer, [], cstr response, true, held, serviceOpen⟩) =
            some next →
          next = done ⟨e, e.lastRead, receiveAnswer e.lastBuffer (cstr response), [],
            (cstr response).drop bufferSize, true, held, serviceOpen⟩ := by
        intro done h
        obtain ⟨conn, hconn, rfl⟩ := Option.map_eq_some_iff.mp h
        obtain ⟨⟨message, rest⟩, hsocket, hconn⟩ := Option.bind_eq_some_iff.mp hconn
        obtain rfl := Option.some_inj.mp hconn
        unfold socketRead at hsocket
        split_ifs at hsocket
        cases hsocket
        rw [receiveAnswer_take]
      cases e with
      | word sig buffer => exact hrest Conn.compare hstep
      | signals sig1 sig2 buffer => exact hrest Conn.finish hstep
    subst hread
    have hfinal : receiveAnswer e.lastBuffer (cstr response) = e.final response := by
      cases e <;> rfl
    rw [hfinal]
    exact .returned he hoperand
  | returned he => cases hstep

theorem Conn.At.leave {conn next : Conn} {stand : Stand} (h : conn.At stand)
    (hleave : conn.leave = some next) : next.At stand := by
  have hgone : (∀ res, conn.point ≠ .returned res) → next.At stand := by
    intro hpoint
    unfold Conn.leave at hleave
    split_ifs at hleave
    obtain rfl := Option.some_inj.mp hleave
    refine .gone ?_ rfl
    cases hp : conn.point with
    | returned res => exact absurd hp (hpoint res)
    | _ => rfl
  cases h with
  | returned he => cases hleave
  | gone hpoint hclosed => exact hgone (by simp [hpoint])
  | @heard e he => cases e <;> exact hgone (by simp [Exchange.lastRead])
  | @answered e he => cases e <;> exact hgone (by simp [Exchange.lastRead])
  | _ => exact hgone (by simp)

theorem Conn.At.hangUp {conn : Conn} {stand : Stand} (h : conn.At stand)
    (hheld : conn.held = false) :
    conn.hangUp.At stand := by
  cases h with
  | gone hpoint hclosed => exact .gone hpoint hclosed
  | answered he hoperand => exact .answered he hoperand
  | returned he hoperand => exact .returned he hoperand
  | _ => cases hheld

/-! ### What the service does at its end -/

theorem Conn.At.readCommand {conn : Conn} {message rest : Text} (h : conn.At .ahead)
    (hread : socketRead strBufferSize conn.toService conn.clientOpen = some (message, rest)) :
    ({ conn with toService := rest } : Conn).At (.told message) := by
  cases h with
  | gone hpoint hclosed => exact .gone hpoint hclosed
  | writing he => exact absurd rfl (socketRead_arrived hread rfl).1
  | written he =>
    obtain ⟨-, rfl, rfl⟩ := socketRead_arrived hread rfl
    rw [List.take_of_length_le he.command.2.2, List.drop_eq_nil_of_le he.command.2.2]
    exact .told he

theorem Conn.At.askOperand {conn : Conn} {command : Text} (h : conn.At (.told command))
    (hopen : conn.clientOpen = true)
    (hoperand : (KbPm.readCommand (KbPm.receive [] command)).HasOperand) :
    ({ conn with toClient := conn.toClient ++ cstr (str "pong") } : Conn).At (.asked command) := by
  cases h with
  | gone hpoint hclosed => cases hopen.symm.trans hclosed
  | told he => exact .pong he (he.hasOperand.mp hoperand)

theorem Conn.At.takeCommand {conn : Conn} {command : Text} (h : conn.At (.told command))
    (hoperand : ¬(KbPm.readCommand (KbPm.receive [] command)).HasOperand) :
    conn.At (.heard ⟨command, []⟩) := by
  cases h with
  | gone hpoint hclosed => exact .gone hpoint hclosed
  | @told e he =>
    cases e with
    | word sig buffer => exact .heard he False.elim
    | signals sig1 sig2 buffer => exact absurd (he.hasOperand.mpr trivial) hoperand

theorem Conn.At.readOperand {conn : Conn} {command message rest : Text}
    (h : conn.At (.asked command))
    (hread : socketRead strBufferSize conn.toService conn.clientOpen = some (message, rest)) :
    ({ conn with toService := rest } : Conn).At (.heard ⟨command, message⟩) := by
  cases h with
  | gone hpoint hclosed => exact .gone hpoint hclosed
  | pong he => exact absurd rfl (socketRead_arrived hread rfl).1
  | writing2 he => exact absurd rfl (socketRead_arrived hread rfl).1
  | @written2 e he htwofold =>
    obtain ⟨harrived, rfl, rfl⟩ := socketRead_arrived hread rfl
    rw [List.take_of_length_le he.operand.2, List.drop_eq_nil_of_le he.operand.2]
    cases e with
    | word => exact htwofold.elim
    | signals sig1 sig2 buffer => exact .heard he fun _ => harrived

theorem Conn.At.answer {conn : Conn} {request : Request} {response : Text}
    (h : conn.At (.heard request)) (hopen : conn.clientOpen = true) :
    ({ conn with toClient := conn.toClient ++ cstr response } : Conn).At
      (.answered request response) := by
  cases h with
  | gone hpoint hclosed => cases hopen.symm.trans hclosed
  | heard he hoperand => exact .answered he hoperand

theorem Conn.At.close {conn : Conn} {request : Request} {response : Text}
    (h : conn.At (.answered request response)) : conn.close.At (.answered request response) := by
  cases h with
  | gone hpoint hclosed => exact .gone hpoint hclosed
  | answered he hoperand => exact .answered he hoperand
  | returned he hoperand => exact .returned he hoperand

theorem Conn.At.heard_request {conn : Conn} {request : Request} (h : conn.At (.heard request))
    (hpoint : conn.point ≠ .gone) :
    request = conn.exchange.request ∧ (conn.exchange.Twofold → request.operand ≠ []) := by
  cases h with
  | gone hgone => exact absurd hgone hpoint
  | heard he hoperand => exact ⟨rfl, hoperand⟩

theorem Conn.At.answered_request {conn : Conn} {request : Request} {response : Text}
    (h : conn.At (.answered request response)) (hpoint : conn.point ≠ .gone) :
    request = conn.exchange.request ∧ (conn.exchange.Twofold → request.operand ≠ []) := by
  cases h with
  | gone hgone => exact absurd hgone hpoint
  | answered he hoperand => exact ⟨rfl, hoperand⟩
  | returned he hoperand => exact ⟨rfl, hoperand⟩

/-! ### All connections -/

/-- The client that is being served and has no response yet. -/
def SocketPoint.pending : SocketPoint → List ℕ
  | .accepted c => [c]
  | .reading c => [c]
  | .comparing c _ => [c]
  | .asked c _ => [c]
  | .received c _ => [c]
  | _ => []

def SocketPoint.Stands (stand : ℕ → Stand) : SocketPoint → Prop
  | .accepted c => stand c = .ahead
  | .reading c => stand c = .ahead
  | .comparing c command => stand c = .told command
  | .asked c command => stand c = .asked command
  | .received c request => stand c = .heard request
  | .answering c _ => ∃ request, stand c = .heard request
  | .closing c => ∃ request response, stand c = .answered request response
  | _ => True

/-- The clients are served one after the other, in the order in which they connect. -/
structure Net.Attends (N : Net) (stand : ℕ → Stand) : Prop where
  orderly : N.Orderly
  buffer : N.server.buffer = []
  order : N.rounds.map (·.client) ++ N.socket.pending ++ N.backlog = List.range N.conns.length
  conns : ∀ (c : ℕ) conn, N.conns[c]? = some conn → conn.At (stand c)
  behind : ∀ c ∈ N.backlog, stand c = .ahead
  unknown : ∀ c, N.conns.length ≤ c → stand c = .ahead
  point : N.socket.Stands stand
  rounds : ∀ round ∈ N.rounds, stand round.client = .answered round.request round.response ∨
    stand round.client = .heard round.request ∧
      N.socket = .answering round.client round.response

/-- Clients that connect, connect for such an exchange. -/
def NetEvent.Ready : NetEvent → Prop
  | .connect exchange => exchange.Ready
  | _ => True

/-- Who is being served has not been served, and is not behind. -/
theorem Net.Attends.current {N : Net} {stand : ℕ → Stand} {c : ℕ} (h : N.Attends stand)
    (hpending : N.socket.pending = [c]) :
    c ∉ N.backlog ∧ ∀ round ∈ N.rounds, round.client ≠ c := by
  have hnodup : (N.rounds.map (·.client) ++ [c] ++ N.backlog).Nodup := by
    rw [← hpending, h.order]
    exact List.nodup_range
  rw [List.append_assoc, List.singleton_append] at hnodup
  obtain ⟨-, hrest, hdisjoint⟩ := List.nodup_append.mp hnodup
  refine ⟨(List.nodup_cons.mp hrest).1, fun round hround heq => ?_⟩
  exact hdisjoint _ (List.mem_map_of_mem hround) _ (.head _) heq

/-- Clients that are known have connected. -/
theorem Net.Attends.lt {N : Net} {stand : ℕ → Stand} {c : ℕ} (h : N.Attends stand)
    (hc : c ∈ N.rounds.map (·.client) ++ N.socket.pending ++ N.backlog) : c < N.conns.length := by
  rw [h.order] at hc
  exact List.mem_range.mp hc

theorem at_set {conns : List Conn} {stand : ℕ → Stand} {c : ℕ} {next : Conn} {s : Stand}
    (h : ∀ (k : ℕ) conn, conns[k]? = some conn → conn.At (stand k)) (hnext : next.At s) (k : ℕ)
    (conn : Conn) (hk : (conns.set c next)[k]? = some conn) :
    conn.At (Function.update stand c s k) := by
  rw [List.getElem?_set] at hk
  split_ifs at hk with heq
  · subst heq
    obtain rfl := Option.some_inj.mp hk
    rw [Function.update_self]
    exact hnext
  · rw [Function.update_of_ne (Ne.symm heq)]
    exact h k conn hk

/-- Another end of a connection goes on. -/
theorem Net.Attends.set {N : Net} {stand : ℕ → Stand} {c : ℕ} {next : Conn} (h : N.Attends stand)
    (hM : ({ N with conns := N.conns.set c next } : Net).Orderly) (hnext : next.At (stand c)) :
    ({ N with conns := N.conns.set c next } : Net).Attends stand := by
  refine ⟨hM, h.buffer, ?_, fun k conn hk => ?_, h.behind, ?_, h.point, h.rounds⟩
  · rw [List.length_set]
    exact h.order
  · have hat := at_set h.conns hnext k conn hk
    rw [Function.update_eq_self] at hat
    exact hat
  · rw [List.length_set]
    exact h.unknown

/-- The service goes on with the client that it serves. -/
theorem Net.Attends.serve {N : Net} {stand : ℕ → Stand} {c : ℕ} {s : Stand} {point : SocketPoint}
    {conns : List Conn} (h : N.Attends stand)
    (hM : ({ N with socket := point, conns := conns } : Net).Orderly)
    (hpending : N.socket.pending = [c]) (hpending' : point.pending = [c])
    (hlength : conns.length = N.conns.length)
    (hconns : ∀ (k : ℕ) conn, conns[k]? = some conn → conn.At (Function.update stand c s k))
    (hpoint : point.Stands (Function.update stand c s)) :
    ({ N with socket := point, conns := conns } : Net).Attends (Function.update stand c s) := by
  obtain ⟨hbehind, hserved⟩ := h.current hpending
  have hknown : c < N.conns.length :=
    h.lt (List.mem_append_left _ (List.mem_append_right _ (hpending ▸ .head _)))
  refine ⟨hM, h.buffer, ?_, hconns, fun k hk => ?_, fun k hk => ?_, hpoint, fun round hround => ?_⟩
  · change _ ++ point.pending ++ _ = List.range conns.length
    rw [hpending', hlength, ← h.order, hpending]
  · have hne : k ≠ c := fun heq => hbehind (heq ▸ hk)
    rw [Function.update_of_ne hne]
    exact h.behind k hk
  · change conns.length ≤ k at hk
    rw [Function.update_of_ne (by omega)]
    exact h.unknown k (hlength ▸ hk)
  · rw [Function.update_of_ne (hserved round hround)]
    -- nobody's response is being written
    refine (h.rounds round hround).imp_right fun hright => ?_
    rw [hright.2] at hpending
    cases hpending

/-- The main thread goes on, or a child. -/
theorem Net.Attends.aside {N : Net} {stand : ℕ → Stand} {server : Server} {main : MainPoint}
    {mutex : Option Thread} (h : N.Attends stand)
    (hM : ({ N with server := server, main := main, mutex := mutex } : Net).Orderly)
    (hbuffer : server.buffer = []) :
    ({ N with server := server, main := main, mutex := mutex } : Net).Attends stand :=
  ⟨hM, hbuffer, h.order, h.conns, h.behind, h.unknown, h.point, h.rounds⟩

/-- A step between two rounds, or to the end of one. -/
theorem Net.Attends.turn {N : Net} {stand : ℕ → Stand} {server : Server} {point : SocketPoint}
    {mutex : Option Thread} {backlog : List ℕ} (h : N.Attends stand)
    (hM : ({ N with server := server, socket := point, mutex := mutex, backlog := backlog } :
      Net).Orderly)
    (hbuffer : server.buffer = [])
    (horder : point.pending ++ backlog = N.socket.pending ++ N.backlog)
    (hbehind : ∀ c ∈ backlog, c ∈ N.backlog) (hpoint : point.Stands stand)
    (hsilent : ∀ c response, N.socket ≠ .answering c response) :
    ({ N with server := server, socket := point, mutex := mutex, backlog := backlog } :
      Net).Attends stand := by
  refine ⟨hM, hbuffer, ?_, h.conns, fun c hc => h.behind c (hbehind c hc), h.unknown, hpoint, ?_⟩
  · change _ ++ point.pending ++ backlog = _
    rw [List.append_assoc, horder, ← List.append_assoc]
    exact h.order
  · exact fun round hround => (h.rounds round hround).imp_right fun hright =>
      absurd hright.2 (hsilent _ _)

/-- A client connects, behind all others. -/
theorem Net.Attends.connect {N : Net} {stand : ℕ → Stand} {exchange : Exchange}
    (h : N.Attends stand) (hready : exchange.Ready) :
    ({ N with
      conns := N.conns ++ [.connected exchange]
      backlog := N.backlog ++ [N.conns.length] } : Net).Attends stand := by
  refine ⟨⟨h.orderly.flagged, h.orderly.socket, h.orderly.main⟩, h.buffer, ?_, fun c conn hc => ?_,
    fun c hc => ?_, fun c hc => h.unknown c ?_, h.point, h.rounds⟩
  · change _ ++ (N.backlog ++ [N.conns.length]) = List.range (N.conns ++ [_]).length
    rw [← List.append_assoc, h.order, List.length_append, List.length_singleton, List.range_succ]
  · rcases Nat.lt_or_ge c N.conns.length with hlt | hge
    · rw [List.getElem?_append_left hlt] at hc
      exact h.conns c conn hc
    · rw [List.getElem?_append_right hge, List.getElem?_singleton] at hc
      split_ifs at hc with hzero
      obtain rfl := Option.some_inj.mp hc
      rw [h.unknown c hge]
      exact .connected hready
  · rcases List.mem_append.mp hc with hc | hc
    · exact h.behind c hc
    · exact h.unknown c (List.mem_singleton.mp hc).ge
  · change (N.conns ++ [_]).length ≤ c at hc
    rw [List.length_append] at hc
    omega

/-- A request is handled. -/
theorem Net.Attends.handle {N : Net} {stand : ℕ → Stand} {c : ℕ} {request : Request}
    {answers : Answers} {response : Text} {server : Server} (h : N.Attends stand)
    (hM : ({ N with
      server := server
      socket := .answering c response
      rounds := N.rounds ++ [⟨c, request, answers, response⟩] } : Net).Orderly)
    (hpoint : N.socket = .received c request)
    (hhandle : handleRequest request (N.server.asked answers) = .ok response server) :
    ({ N with
      server := server
      socket := .answering c response
      rounds := N.rounds ++ [⟨c, request, answers, response⟩] } : Net).Attends stand := by
  have hheard : stand c = .heard request := by
    have hstands := h.point
    rw [hpoint] at hstands
    exact hstands
  refine ⟨hM, ?_, ?_, h.conns, h.behind, h.unknown, ⟨request, hheard⟩, fun round hround => ?_⟩
  · exact (h.orderly.flagged.handled_files hhandle).2.trans h.buffer
  · rw [← h.order, hpoint, List.map_append]
    change _ ++ [c] ++ [] ++ _ = _
    rw [List.append_nil]
    rfl
  · rcases List.mem_append.mp hround with hround | hround
    · refine (h.rounds round hround).imp_right fun hright => ?_
      cases hpoint.symm.trans hright.2
    · obtain rfl := List.mem_singleton.mp hround
      exact Or.inr ⟨hheard, rfl⟩

/-- The response is written. -/
theorem Net.Attends.answer {N : Net} {stand : ℕ → Stand} {c : ℕ} {conn : Conn} {response : Text}
    (h : N.Attends stand)
    (hM : ({ N with
      socket := .closing c
      conns := N.conns.set c { conn with toClient := conn.toClient ++ cstr response } } :
        Net).Orderly)
    (hpoint : N.socket = .answering c response) (hconn : N.conns[c]? = some conn)
    (hopen : conn.clientOpen = true) :
    ∃ stand', ({ N with
      socket := .closing c
      conns := N.conns.set c { conn with toClient := conn.toClient ++ cstr response } } :
        Net).Attends stand' := by
  obtain ⟨request, hheard⟩ : ∃ request, stand c = .heard request := by
    have hstands := h.point
    rw [hpoint] at hstands
    exact hstands
  have hat := h.conns c conn hconn
  rw [hheard] at hat
  have hlt : c < N.conns.length := (List.getElem?_eq_some_iff.mp hconn).1
  refine ⟨Function.update stand c (.answered request response), hM, h.buffer, ?_,
    at_set h.conns (hat.answer hopen), fun k hk => ?_, fun k hk => ?_,
    ⟨request, response, Function.update_self _ _ _⟩, fun round hround => Or.inl ?_⟩
  · change _ ++ [] ++ _ = List.range (N.conns.set c _).length
    rw [List.length_set, ← h.order, hpoint]
    rfl
  · have hne : k ≠ c := by
      rintro rfl
      cases hheard.symm.trans (h.behind k hk)
    rw [Function.update_of_ne hne]
    exact h.behind k hk
  · change (N.conns.set c _).length ≤ k at hk
    rw [List.length_set] at hk
    rw [Function.update_of_ne (by omega)]
    exact h.unknown k hk
  · -- the client's round is the one whose response this is
    rcases h.rounds round hround with hanswered | ⟨hround', hsocket⟩
    · have hne : round.client ≠ c := by
        intro heq
        rw [heq] at hanswered
        cases hheard.symm.trans hanswered
      rw [Function.update_of_ne hne]
      exact hanswered
    · cases hpoint.symm.trans hsocket
      rw [Function.update_self]
      cases hheard.symm.trans hround'
      rfl

/-- The service closes its end. -/
theorem Net.Attends.close {N : Net} {stand : ℕ → Stand} {c : ℕ} {conn : Conn}
    (h : N.Attends stand)
    (hM : ({ N with socket := .saving, conns := N.conns.set c conn.close } : Net).Orderly)
    (hpoint : N.socket = .closing c) (hconn : N.conns[c]? = some conn) :
    ({ N with socket := .saving, conns := N.conns.set c conn.close } : Net).Attends stand := by
  obtain ⟨request, response, hanswered⟩ :
    ∃ request response, stand c = .answered request response := by
    have hstands := h.point
    rw [hpoint] at hstands
    exact hstands
  have hat := h.conns c conn hconn
  rw [hanswered] at hat
  have hset := at_set (c := c) h.conns hat.close
  rw [← hanswered, Function.update_eq_self] at hset
  refine ⟨hM, h.buffer, ?_, hset, h.behind, fun k hk => h.unknown k ?_, trivial,
    fun round hround => ?_⟩
  · change _ ++ [] ++ _ = List.range (N.conns.set c _).length
    rw [List.length_set, ← h.order, hpoint]
    rfl
  · change (N.conns.set c _).length ≤ k at hk
    rwa [List.length_set] at hk
  · refine (h.rounds round hround).imp_right fun hright => ?_
    cases hpoint.symm.trans hright.2

/-- What a step does to the connections and to the rounds. -/
theorem Net.Attends.step {N M : Net} {event : NetEvent} {stand : ℕ → Stand} (h : N.Attends stand)
    (hready : event.Ready) (hstep : NetSteps N event M) (halive : M.ending = none) :
    ∃ stand', M.Attends stand' := by
  have hM := h.orderly.step hstep halive
  have hsilent : ∀ {point : SocketPoint}, N.socket = point →
      (∀ c response, point ≠ .answering c response) → ∀ c response,
        N.socket ≠ .answering c response :=
    fun hpoint hne c response heq => hne c response (hpoint.symm.trans heq)
  have hstands : ∀ {point : SocketPoint}, N.socket = point → point.Stands stand :=
    fun hpoint => hpoint ▸ h.point
  cases hstep.cases with
  | connect hroom => exact ⟨stand, h.connect hready⟩
  | client hconn hclient => exact ⟨stand, h.set hM ((h.conns _ _ hconn).step hclient)⟩
  | leave hconn hleave => exact ⟨stand, h.set hM ((h.conns _ _ hconn).leave hleave)⟩
  | hangUp hconn hclosed =>
    exact ⟨stand, h.set hM ((h.conns _ _ hconn).hangUp (hclosed halive))⟩
  | accept _ hpoint hbacklog =>
    refine ⟨stand, h.turn hM h.buffer ?_ ?_ ?_ (hsilent hpoint (by simp))⟩
    · rw [hpoint, hbacklog]
      rfl
    · rw [hbacklog]
      exact fun c hc => .tail _ hc
    · exact h.behind _ (hbacklog ▸ .head _)
  | lock _ hpoint hmutex =>
    have hahead := hstands hpoint
    refine ⟨stand, h.turn hM h.buffer ?_ (fun c hc => hc) hahead (hsilent hpoint (by simp))⟩
    rw [hpoint]
    rfl
  | readCommand _ hpoint hconn hread =>
    have hat := h.conns _ _ hconn
    rw [hstands hpoint] at hat
    exact ⟨_, h.serve hM (by rw [hpoint]; rfl) rfl List.length_set
      (at_set h.conns (hat.readCommand hread)) (Function.update_self _ _ _)⟩
  | pong _ hpoint hoperand hconn hopen =>
    have hat := h.conns _ _ hconn
    rw [hstands hpoint] at hat
    rw [Server.commandBuffer, h.buffer] at hoperand
    exact ⟨_, h.serve hM (by rw [hpoint]; rfl) rfl List.length_set
      (at_set h.conns (hat.askOperand hopen hoperand)) (Function.update_self _ _ _)⟩
  | @noOperand _ c command _ hpoint hoperand =>
    rw [Server.commandBuffer, h.buffer] at hoperand
    refine ⟨_, h.serve (s := .heard ⟨command, []⟩) hM (by rw [hpoint]; rfl) rfl rfl
      (fun k conn hk => ?_) (Function.update_self _ _ _)⟩
    by_cases heq : k = c
    · subst heq
      have hat := h.conns k conn hk
      rw [hstands hpoint] at hat
      rw [Function.update_self]
      exact hat.takeCommand hoperand
    · rw [Function.update_of_ne heq]
      exact h.conns k conn hk
  | readOperand _ hpoint hconn hread =>
    have hat := h.conns _ _ hconn
    rw [hstands hpoint] at hat
    exact ⟨_, h.serve hM (by rw [hpoint]; rfl) rfl List.length_set
      (at_set h.conns (hat.readOperand hread)) (Function.update_self _ _ _)⟩
  | handle _ hpoint _ hhandle => exact ⟨stand, h.handle hM hpoint hhandle⟩
  | answer _ hpoint hconn hopen => exact h.answer hM hpoint hconn hopen
  | close _ hpoint hconn =>
    have hclose := h.close hM hpoint hconn
    exact ⟨stand, hclose⟩
  | empty _ hpoint =>
    refine ⟨stand, h.turn hM h.buffer ?_ (fun c hc => hc) trivial (hsilent hpoint (by simp))⟩
    rw [hpoint]
    rfl
  | print _ hpoint hsave =>
    refine ⟨stand, h.turn hM h.buffer ?_ (fun c hc => hc) trivial (hsilent hpoint (by simp))⟩
    rw [hpoint]
    rfl
  | clear _ hpoint =>
    refine ⟨stand, h.turn hM rfl ?_ (fun c hc => hc) trivial (hsilent hpoint (by simp))⟩
    rw [hpoint]
    rfl
  | broken => cases halive
  | iterate _ _ hi _ hiterate =>
    obtain ⟨-, -, -, hbuffer⟩ := h.orderly.flagged.iterated hi hiterate
    exact ⟨stand, h.aside hM (hbuffer.trans h.buffer)⟩
  | finish _ hpoint hi => exact ⟨stand, h.aside hM h.buffer⟩
  | lockMain => exact ⟨stand, h.aside hM h.buffer⟩
  | handleExit _ _ _ hhandle =>
    have hbuffer := (h.orderly.flagged.reaped_files hhandle).2
    exact ⟨stand, h.aside hM (hbuffer.trans h.buffer)⟩
  | unlockMain => exact ⟨stand, h.aside hM h.buffer⟩
  | wait => exact ⟨stand, h.aside hM h.buffer⟩
  | exit => exact ⟨stand, h.aside hM h.buffer⟩
  | socketFault | mainFault => cases halive

theorem Net.Attends.launched {server : Server} (h : Flagged server) (hbuffer : server.buffer = []) :
    (Net.launched server).Attends fun _ => .ahead := by
  have horderly : (Net.launched server).Orderly := ⟨h, iff_of_false id (by simp [Net.launched]),
    iff_of_false id (by simp [Net.launched])⟩
  refine ⟨horderly, hbuffer, rfl, fun c conn hc => ?_, fun c hc => ?_, fun _ _ => rfl, trivial,
    fun round hround => ?_⟩
  · cases hc
  · cases hc
  · cases hround

theorem attends_run {server : Server} (hflagged : Flagged server) (hbuffer : server.buffer = [])
    {events : List NetEvent} (hready : ∀ exchange, .connect exchange ∈ events → exchange.Ready)
    {M : Net} (hrun : Run NetSteps (.launched server) events M) (halive : M.ending = none) :
    ∃ stand, M.Attends stand := by
  have hready : ∀ event ∈ events, event.Ready := by
    intro event hevent
    cases event with
    | connect exchange => exact hready exchange hevent
    | _ => trivial
  have hinv := hrun.invariant_of (I := fun N => N.ending = none → ∃ stand, N.Attends stand)
    (fun N event M' hevent hN hstep halive => ?_) hready
    fun _ => ⟨_, Net.Attends.launched hflagged hbuffer⟩
  · exact hinv halive
  · -- the service has been there before, too
    have hbefore : N.ending = none := by
      by_contra hend
      exact (ended_step hend hstep).1 halive
    obtain ⟨stand, hstand⟩ := hN hbefore
    exact hstand.step hevent hstep halive

/-- The client that is being served has no answer yet. -/
theorem SocketPoint.Stands.unanswered {stand : ℕ → Stand} {point : SocketPoint} {c : ℕ}
    {request : Request} {response : Text} (h : point.Stands stand) (hc : c ∈ point.pending) :
    stand c ≠ .answered request response := by
  intro hstand
  cases point with
  | accepted d | reading d | comparing d command | asked d command | received d request =>
    obtain rfl := List.mem_singleton.mp hc
    cases hstand.symm.trans h
  | _ => cases hc

/-- Who has been answered, is one of the rounds. -/
theorem Net.Attends.answered {N : Net} {stand : ℕ → Stand} {c : ℕ} {request : Request}
    {response : Text} (h : N.Attends stand) (hstand : stand c = .answered request response) :
    ∃ round ∈ N.rounds, round.client = c ∧ round.request = request ∧ round.response = response := by
  have hknown : c < N.conns.length := by
    by_contra hge
    cases hstand.symm.trans (h.unknown c (by omega))
  have hmem : c ∈ N.rounds.map (·.client) ++ N.socket.pending ++ N.backlog := by
    rw [h.order]
    exact List.mem_range.mpr hknown
  rcases List.mem_append.mp hmem with hmem | hmem
  · rcases List.mem_append.mp hmem with hmem | hmem
    · obtain ⟨round, hround, rfl⟩ := List.mem_map.mp hmem
      rcases h.rounds round hround with hanswered | ⟨hheard, -⟩
      · cases hstand.symm.trans hanswered
        exact ⟨round, hround, rfl, rfl, rfl⟩
      · cases hstand.symm.trans hheard
    · exact absurd hstand (h.point.unanswered hmem)
  · cases hstand.symm.trans (h.behind c hmem)

theorem Net.Attends.handled {N : Net} {stand : ℕ → Stand} {round : HandledRound}
    (h : N.Attends stand) (hround : round ∈ N.rounds) :
    ∃ conn, N.conns[round.client]? = some conn ∧ (conn.point ≠ .gone →
      round.request = conn.exchange.request ∧
        (conn.exchange.Twofold → round.request.operand ≠ [])) := by
  have hlt : round.client < N.conns.length :=
    h.lt (List.mem_append_left _ (List.mem_append_left _ (List.mem_map_of_mem hround)))
  have hconn := List.getElem?_eq_getElem hlt
  refine ⟨N.conns[round.client], hconn, fun hpoint => ?_⟩
  have hat := h.conns _ _ hconn
  rcases h.rounds round hround with hs | ⟨hs, -⟩ <;> rw [hs] at hat
  · exact hat.answered_request hpoint
  · exact hat.heard_request hpoint

theorem Net.Attends.returned {N : Net} {stand : ℕ → Stand} {c : ℕ} {conn : Conn} {res : ℤ}
    (h : N.Attends stand) (hconn : N.conns[c]? = some conn) (hpoint : conn.point = .returned res) :
    res = 0 ∧ ∃ round ∈ N.rounds, round.client = c ∧
      conn.buffer = conn.exchange.final round.response := by
  have hat := h.conns c conn hconn
  cases hs : stand c with
  | answered request response =>
    rw [hs] at hat
    obtain ⟨round, hround, hclient, -, hresponse⟩ := h.answered hs
    cases hat with
    | gone hgone => cases hpoint.symm.trans hgone
    | @answered e he => cases e <;> cases hpoint
    | returned he =>
      cases hpoint
      exact ⟨rfl, round, hround, hclient, by rw [hresponse]⟩
  | heard request =>
    rw [hs] at hat
    cases hat with
    | gone hgone => cases hpoint.symm.trans hgone
    | @heard e he => cases e <;> cases hpoint
  | _ =>
    rw [hs] at hat
    cases hat with
    | gone hgone => cases hpoint.symm.trans hgone
    | _ => cases hpoint

/-- Every client gets its own answer.  Clients are served once each, in the order in which they
connect; what is handled is what the client asks, unless it has gone away; and a client that returns
while the service is there returns 0, with the response to its own request in its buffer. -/
theorem own_answers {server : Server} (hflagged : Flagged server) (hbuffer : server.buffer = [])
    {events : List NetEvent} (hready : ∀ exchange, .connect exchange ∈ events → exchange.Ready)
    {M : Net} (hrun : Run NetSteps (.launched server) events M) (halive : M.ending = none) :
    M.rounds.map (·.client) ++ M.socket.pending ++ M.backlog = List.range M.conns.length ∧
    (∀ round ∈ M.rounds, ∃ conn, M.conns[round.client]? = some conn ∧
      (conn.point ≠ .gone → round.request = conn.exchange.request)) ∧
    ∀ (c : ℕ) conn res, M.conns[c]? = some conn → conn.point = .returned res →
      res = 0 ∧ ∃ round ∈ M.rounds, round.client = c ∧
        conn.buffer = conn.exchange.final round.response := by
  obtain ⟨stand, h⟩ := attends_run hflagged hbuffer hready hrun halive
  refine ⟨h.order, fun round hround => ?_, fun c conn res hconn => h.returned hconn⟩
  obtain ⟨conn, hconn, hrequest⟩ := h.handled hround
  exact ⟨conn, hconn, fun hpoint => (hrequest hpoint).1⟩

/-! A client that starts an app, and one that leaves before it has sent anything. -/

def startAndLeave : List NetEvent :=
  [.connect (.signals (str "start") (str "0") []), .connect (.word (str "ping") []), .client 0,
    .socket (onePid 7), .socket (onePid 7), .socket (onePid 7), .socket (onePid 7), .leave 1,
    .client 0, .client 0, .socket (onePid 7), .socket (onePid 7), .socket (onePid 7), .client 0]

theorem own_answers_start : ∃ M, Run NetSteps (.launched webSystem.server) startAndLeave M ∧
    ∃ round ∈ M.rounds, ∃ conn, M.conns[0]? = some conn ∧ conn.point = .returned 0 ∧
      conn.buffer = conn.exchange.final round.response := by
  have hany : (startAndLeave.foldlM Net.step (.launched webSystem.server)).any (fun M =>
      decide (M.ending = none ∧ (M.conns[0]?).map Conn.point = some (.returned 0))) = true := by
    decide +kernel
  obtain ⟨M, hM, hp⟩ := Run.of_any hany
  obtain ⟨halive, hreturned⟩ := of_decide_eq_true hp
  obtain ⟨conn, hconn, hpoint⟩ := Option.map_eq_some_iff.mp hreturned
  have hready : ∀ exchange, .connect exchange ∈ startAndLeave → exchange.Ready := by
    intro exchange hconnect
    simp only [startAndLeave, List.mem_cons, NetEvent.connect.injEq, reduceCtorEq,
      List.not_mem_nil, or_false] at hconnect
    rcases hconnect with rfl | rfl
    · exact ⟨.signals (by decide) (by decide) (by decide), rfl⟩
    · exact ⟨.word (by decide), trivial⟩
  obtain ⟨-, -, hreturn⟩ := own_answers webSystem_flagged rfl hready hM halive
  obtain ⟨-, round, hround, -, hfinal⟩ := hreturn 0 conn 0 hconn hpoint
  exact ⟨M, hM, round, hround, conn, hconn, hpoint, hfinal⟩

end KbPm
