/-
Who waits for whom.

* `NetSteps.conn`, `NetSteps.rounds` — what a step does to a connection, and to the rounds;
* `exchanges_end` — there are not many steps of the socket thread and of clients, and when no thread
  and no client can go on, every client has its answer;
* `empty_operand_blocks` — an empty operand is never received, so nobody is served any more;
* `stalled_run` — while the socket thread waits for a client that says nothing, nobody is served, no
  dead child is handled, and nothing is saved.
-/
import KbPm.Exchanges

namespace KbPm

open Trace

/-! ### What a step does to a connection and to the rounds -/

theorem getElem?_set_of {conns : List Conn} {c k : ℕ} {next new : Conn}
    (hk : (conns.set c next)[k]? = some new) :
    k = c ∧ new = next ∨ k ≠ c ∧ conns[k]? = some new := by
  rw [List.getElem?_set] at hk
  split_ifs at hk with heq
  · exact Or.inl ⟨heq.symm, (Option.some_inj.mp hk).symm⟩
  · exact Or.inr ⟨Ne.symm heq, hk⟩

/-- A client goes on by its own steps; the service does not change where it is. -/
theorem NetSteps.conn {N M : Net} {event : NetEvent} (h : NetSteps N event M) {c : ℕ} {next : Conn}
    (hnext : M.conns[c]? = some next) :
    (∃ conn, N.conns[c]? = some conn ∧ next.point = conn.point ∧ next.exchange = conn.exchange) ∨
    (∃ conn, N.conns[c]? = some conn ∧ event = .client c ∧ conn.step = some next) ∨
    (∃ conn, N.conns[c]? = some conn ∧ event = .leave c ∧ conn.leave = some next) ∨
    ∃ exchange, event = .connect exchange ∧ next = .connected exchange := by
  -- the service writes, reads or closes at one connection
  have hset : ∀ {d : ℕ} {conn other : Conn}, N.conns[d]? = some conn →
      M.conns = N.conns.set d other →
      other.point = conn.point → other.exchange = conn.exchange →
      ∃ conn, N.conns[c]? = some conn ∧ next.point = conn.point ∧
        next.exchange = conn.exchange := by
    intro d conn other hconn hM hpoint hexchange
    rw [hM] at hnext
    rcases getElem?_set_of hnext with ⟨rfl, rfl⟩ | ⟨-, hsame⟩
    · exact ⟨conn, hconn, hpoint, hexchange⟩
    · exact ⟨next, hsame, rfl, rfl⟩
  have hsame : M.conns = N.conns →
      ∃ conn, N.conns[c]? = some conn ∧ next.point = conn.point ∧ next.exchange = conn.exchange :=
    fun hM => ⟨next, hM ▸ hnext, rfl, rfl⟩
  cases h.cases with
  | @connect exchange hroom =>
    change (N.conns ++ [_])[c]? = some next at hnext
    rcases Nat.lt_or_ge c N.conns.length with hlt | hge
    · rw [List.getElem?_append_left hlt] at hnext
      exact Or.inl ⟨next, hnext, rfl, rfl⟩
    · rw [List.getElem?_append_right hge, List.getElem?_singleton] at hnext
      split_ifs at hnext
      exact Or.inr (Or.inr (Or.inr ⟨exchange, rfl, (Option.some_inj.mp hnext).symm⟩))
  | client hconn hstep =>
    rcases getElem?_set_of hnext with ⟨rfl, rfl⟩ | ⟨-, hother⟩
    · exact Or.inr (Or.inl ⟨_, hconn, rfl, hstep⟩)
    · exact Or.inl ⟨next, hother, rfl, rfl⟩
  | leave hconn hleave =>
    rcases getElem?_set_of hnext with ⟨rfl, rfl⟩ | ⟨-, hother⟩
    · exact Or.inr (Or.inr (Or.inl ⟨_, hconn, rfl, hleave⟩))
    · exact Or.inl ⟨next, hother, rfl, rfl⟩
  | readCommand _ _ hconn | pong _ _ _ hconn | readOperand _ _ hconn | answer _ _ hconn
  | close _ _ hconn | hangUp hconn => exact Or.inl (hset hconn rfl rfl rfl)
  | socketFault _ hconns | mainFault _ hconns => exact Or.inl (hsame hconns)
  | _ => exact Or.inl (hsame rfl)

/-- A round is added when a request is handled. -/
theorem NetSteps.rounds {N M : Net} {event : NetEvent} (h : NetSteps N event M) :
    M.rounds = N.rounds ∨
      ∃ (c : ℕ) (request : Request) (answers : Answers) (response : Text) (server : Server),
        N.socket = .received c request ∧
        handleRequest request (N.server.asked answers) = .ok response server ∧
        M.rounds = N.rounds ++ [⟨c, request, answers, response⟩] := by
  cases h.cases with
  | handle _ hpoint _ hhandle => exact Or.inr ⟨_, _, _, _, _, hpoint, hhandle, rfl⟩
  | socketFault _ _ hrounds | mainFault _ _ hrounds => exact Or.inl hrounds
  | _ => exact Or.inl rfl

/-! ### Steps are limited -/

def ClientPoint.rank : ClientPoint → ℕ
  | .writing => 4
  | .reading => 3
  | .writing2 => 2
  | .reading2 => 1
  | .returned _ => 0
  | .gone => 0

def SocketPoint.rank : SocketPoint → ℕ
  | .accepting => 0
  | .accepted _ => 10
  | .reading _ => 9
  | .comparing _ _ => 8
  | .asked _ _ => 7
  | .received _ _ => 6
  | .answering _ _ => 5
  | .closing _ => 4
  | .saving => 3
  | .printing => 2
  | .clearing => 1

/-- The steps that the clients have before them. -/
def clientRank (conns : List Conn) : ℕ := (conns.map fun conn => conn.point.rank).sum

/-- The socket thread or a client goes on. -/
def NetEvent.exchanges : NetEvent → Bool
  | .client _ => true
  | .socket _ => true
  | _ => false

def NetEvent.connects : NetEvent → Bool
  | .connect _ => true
  | _ => false

theorem clientRank_set {conns : List Conn} {c : ℕ} {conn : Conn} (hconn : conns[c]? = some conn)
    (next : Conn) :
    clientRank (conns.set c next) + conn.point.rank = clientRank conns + next.point.rank := by
  unfold clientRank
  induction conns generalizing c with
  | nil => cases hconn
  | cons first conns ih =>
    cases c with
    | zero =>
      obtain rfl := Option.some_inj.mp hconn
      rw [List.set_cons_zero, List.map_cons, List.sum_cons, List.map_cons, List.sum_cons]
      omega
    | succ c =>
      have hrest := ih (c := c) hconn
      rw [List.set_cons_succ, List.map_cons, List.sum_cons, List.map_cons, List.sum_cons]
      omega

theorem clientRank_connect (conns : List Conn) (exchange : Exchange) :
    clientRank (conns ++ [.connected exchange]) = clientRank conns + 4 := by
  rw [clientRank, List.map_append, List.sum_append]
  rfl

theorem Conn.send_rank {conn : Conn} {sig : Text} {next : ClientPoint}
    (h : next.rank < conn.point.rank) : (conn.send sig next).point.rank < conn.point.rank := by
  unfold Conn.send
  split
  · exact h
  · exact Nat.zero_lt_of_lt h

theorem Conn.step_rank {conn next : Conn} (h : conn.step = some next) :
    next.point.rank < conn.point.rank := by
  unfold Conn.step at h
  cases hpoint : conn.point with
  | writing =>
    simp only [hpoint] at h
    obtain rfl := Option.some_inj.mp h
    rw [← hpoint]
    exact conn.send_rank (by rw [hpoint]; decide)
  | reading =>
    simp only [hpoint] at h
    obtain ⟨received, -, rfl⟩ := Option.map_eq_some_iff.mp h
    unfold Conn.compare
    split
    · exact Nat.zero_lt_succ _
    · split
      · exact Nat.zero_lt_succ _
      · exact Nat.lt_succ_self 2
  | writing2 =>
    simp only [hpoint] at h
    obtain rfl := Option.some_inj.mp h
    rw [← hpoint]
    exact conn.send_rank (by rw [hpoint]; decide)
  | reading2 =>
    simp only [hpoint] at h
    obtain ⟨received, -, rfl⟩ := Option.map_eq_some_iff.mp h
    exact Nat.zero_lt_one
  | returned res => simp [hpoint] at h
  | gone => simp [hpoint] at h

theorem Conn.leave_rank {conn next : Conn} (h : conn.leave = some next) :
    next.point.rank ≤ conn.point.rank := by
  unfold Conn.leave at h
  split_ifs at h
  obtain rfl := Option.some_inj.mp h
  cases hpoint : conn.point with
  | returned res => exact Nat.zero_le _
  | _ => exact Nat.zero_le _

/-- What the service has before it. -/
def Net.serviceRank (N : Net) : ℕ :=
  if N.ending = none then N.socket.rank + 11 * N.backlog.length + 1 else 0

theorem Net.serviceRank_alive {N : Net} (halive : N.ending = none) :
    N.serviceRank = N.socket.rank + 11 * N.backlog.length + 1 := if_pos halive

theorem Net.serviceRank_ends (N : Net) (ending : Ending) : (N.ends ending).serviceRank = 0 :=
  if_neg (by simp [Net.ends])

/-- A step of the socket thread, at one connection or at none. -/
theorem socket_rank {N M : Net} {answers : Answers} (h : NetStepped N (.socket answers) M) :
    M.serviceRank < N.serviceRank ∧ clientRank M.conns = clientRank N.conns := by
  have hsame : ∀ {c : ℕ} {conn next : Conn}, N.conns[c]? = some conn →
      next.point = conn.point → clientRank (N.conns.set c next) = clientRank N.conns := by
    intro c conn next hconn hpoint
    have hset := clientRank_set hconn next
    rw [hpoint] at hset
    omega
  have hdown : ∀ {K : Net}, N.ending = none → K.ending = none →
      K.socket.rank + 11 * K.backlog.length < N.socket.rank + 11 * N.backlog.length →
      K.serviceRank < N.serviceRank := by
    intro K hN hK hlt
    rw [Net.serviceRank_alive hN, Net.serviceRank_alive hK]
    omega
  have hends : ∀ {K : Net} {ending : Ending}, N.ending = none →
      (K.ends ending).serviceRank < N.serviceRank := by
    intro K ending hN
    rw [Net.serviceRank_alive hN, Net.serviceRank_ends]
    omega
  cases h with
  | accept halive hpoint hbacklog =>
    refine ⟨hdown halive halive ?_, rfl⟩
    rw [hpoint, hbacklog, List.length_cons]
    simp only [SocketPoint.rank]
    omega
  | broken halive => exact ⟨hends halive, rfl⟩
  | socketFault halive hconns => exact ⟨hends halive, congrArg clientRank hconns⟩
  | readCommand halive hpoint hconn | pong halive hpoint _ hconn | readOperand halive hpoint hconn
  | answer halive hpoint hconn | close halive hpoint hconn =>
    refine ⟨hdown halive halive (Nat.add_lt_add_right ?_ _), hsame hconn rfl⟩
    simp [hpoint, SocketPoint.rank]
  | lock halive hpoint | noOperand halive hpoint | handle halive hpoint | empty halive hpoint
  | print halive hpoint | clear halive hpoint =>
    refine ⟨hdown halive halive (Nat.add_lt_add_right ?_ _), rfl⟩
    simp [hpoint, SocketPoint.rank]

/-- The main thread has no part in this. -/
theorem main_rank {N M : Net} {answers : Answers} (h : NetStepped N (.main answers) M) :
    M.serviceRank ≤ N.serviceRank ∧ clientRank M.conns = clientRank N.conns := by
  cases h with
  | mainFault halive hconns =>
    rw [Net.serviceRank_ends]
    exact ⟨Nat.zero_le _, congrArg clientRank hconns⟩
  | _ => exact ⟨le_rfl, rfl⟩

/-- The steps that the service and its clients have before them. -/
def Net.rank (N : Net) : ℕ := clientRank N.conns + N.serviceRank

theorem Net.rank_step {N M : Net} {event : NetEvent} (h : NetSteps N event M) :
    (if event.exchanges then 1 else 0) + M.rank ≤ N.rank + if event.connects then 15 else 0 := by
  have hcases := h.cases
  cases event with
  | socket answers =>
    obtain ⟨hlt, hclients⟩ := socket_rank hcases
    change 1 + (clientRank M.conns + M.serviceRank) ≤ clientRank N.conns + N.serviceRank
    omega
  | main answers =>
    obtain ⟨hle, hclients⟩ := main_rank hcases
    change 0 + (clientRank M.conns + M.serviceRank) ≤ clientRank N.conns + N.serviceRank
    omega
  | connect exchange =>
    change 0 + (clientRank M.conns + M.serviceRank) ≤ clientRank N.conns + N.serviceRank + 15
    cases hcases with
    | connect hroom =>
      have hservice : (if N.ending = none then
          N.socket.rank + 11 * (N.backlog ++ [N.conns.length]).length + 1 else 0) ≤
          N.serviceRank + 11 := by
        rw [Net.serviceRank, List.length_append, List.length_singleton]
        split <;> omega
      have hclients := clientRank_connect N.conns exchange
      change 0 + (clientRank (N.conns ++ [.connected exchange]) +
        (if N.ending = none then N.socket.rank + 11 * (N.backlog ++ [N.conns.length]).length + 1
          else 0)) ≤ _
      omega
  | client c =>
    cases hcases with
    | @client _ conn next hconn hstep =>
      have hset := clientRank_set hconn next
      have hlt := Conn.step_rank hstep
      change 1 + (clientRank (N.conns.set c next) + N.serviceRank) ≤ clientRank
        N.conns + N.serviceRank
      omega
  | leave c =>
    cases hcases with
    | @leave _ conn next hconn hleave =>
      have hset := clientRank_set hconn next
      have hle := Conn.leave_rank hleave
      change 0 + (clientRank (N.conns.set c next) + N.serviceRank) ≤ clientRank
        N.conns + N.serviceRank
      omega
  | hangUp c =>
    cases hcases with
    | @hangUp _ conn hconn =>
      have hset := clientRank_set hconn conn.hangUp
      change _ + conn.point.rank = _ + conn.point.rank at hset
      change 0 + (clientRank (N.conns.set c conn.hangUp) + N.serviceRank) ≤
        clientRank N.conns + N.serviceRank
      omega
  | wait pid =>
    cases hcases with
    | wait => exact (Nat.zero_add _).le
  | exit pid =>
    cases hcases with
    | exit => exact (Nat.zero_add _).le

/-! ### Somebody can go on -/

/-- No client and no thread can go on. -/
structure Net.Stuck (N : Net) : Prop where
  client : ∀ c, N.step (.client c) = none
  socket : ∀ answers, N.step (.socket answers) = none
  main : ∀ answers, N.step (.main answers) = none

/-- A kernel that has no pids left. -/
abbrev noPids : Answers := ⟨[], [], fun _ => none, []⟩

theorem fresh_noPids (kernel : Kernel) : kernel.Fresh noPids.forks :=
  ⟨List.nodup_nil, fun _ h => absurd h List.not_mem_nil⟩

/-- The main thread gives the mutex back. -/
theorem Net.Stuck.main_outside {N : Net} (h : N.Stuck) (halive : N.ending = none) :
    ¬N.main.Inside := by
  intro hinside
  have hmain := h.main noPids
  change (if N.ending = none then N.mainStep noPids else none) = none at hmain
  rw [if_pos halive, Net.mainStep] at hmain
  cases hpoint : N.main with
  | locked pid =>
    simp only [hpoint] at hmain
    rw [if_pos (fresh_noPids _)] at hmain
    cases hhandle : handleExit pid (N.server.asked noPids) <;> rw [hhandle] at hmain <;> cases hmain
  | unlocking =>
    simp only [hpoint] at hmain
    cases hmain
  | _ =>
    rw [hpoint] at hinside
    exact hinside

/-- A client that has something to read, reads it. -/
theorem Conn.step_of_arrived {conn : Conn} (harrived : conn.toClient ≠ [])
    (hpoint : conn.point = .reading ∨ conn.point = .reading2) : conn.step ≠ none := by
  have hreceive : conn.receive ≠ none := by
    unfold Conn.receive socketRead
    rw [if_pos (Or.inl harrived)]
    exact Option.some_ne_none _
  intro h
  unfold Conn.step at h
  rcases hpoint with hpoint | hpoint <;> simp only [hpoint] at h <;>
    exact hreceive (Option.map_eq_none_iff.mp h)

theorem Net.Stuck.client_waits {N : Net} (h : N.Stuck) {c : ℕ} {conn : Conn}
    (hconn : N.conns[c]? = some conn) : conn.step = none := by
  have hclient := h.client c
  change (N.conns[c]?).bind _ = none at hclient
  rw [hconn] at hclient
  cases hstep : conn.step with
  | none => rfl
  | some next =>
    change (conn.step).bind _ = none at hclient
    rw [hstep] at hclient
    cases hclient

theorem Net.read_isSome {N : Net} {c : ℕ} {conn : Conn} {next : Text → SocketPoint}
    (hconn : N.conns[c]? = some conn) (harrived : conn.toService ≠ []) : N.read c next ≠ none := by
  intro hread
  change (N.conns[c]?).bind _ = none at hread
  rw [hconn] at hread
  change (socketRead strBufferSize conn.toService conn.clientOpen).bind _ = none at hread
  rw [socketRead, if_pos (Or.inl harrived)] at hread
  cases hread

theorem Net.write_isSome {N : Net} {c : ℕ} {conn : Conn} {message : Text} {next : SocketPoint}
    (hconn : N.conns[c]? = some conn) : N.write c message next ≠ none := by
  intro hwrite
  change (N.conns[c]?).bind _ = none at hwrite
  rw [hconn] at hwrite
  change (if conn.clientOpen = true then _ else _ : Option Net) = none at hwrite
  split_ifs at hwrite

/-- The service waits for the command: the client can send it, or has sent it. -/
theorem Conn.At.command_waits {conn : Conn} (h : conn.At .ahead) (hpresent : conn.point ≠ .gone)
    (hstep : conn.step = none) : conn.toService ≠ [] := by
  cases h with
  | gone hgone => exact absurd hgone hpresent
  | writing he => cases hstep
  | written he => exact he.command.2.1

/-- The service waits for the operand. -/
theorem Conn.At.operand_waits {conn : Conn} {command : Text} (h : conn.At (.asked command))
    (hpresent : conn.point ≠ .gone) (hoperand : conn.exchange.Twofold →
      conn.exchange.request.operand ≠ []) (hstep : conn.step = none) : conn.toService ≠ [] := by
  cases h with
  | gone hgone => exact absurd hgone hpresent
  | pong he htwofold => cases hstep
  | writing2 he htwofold => cases hstep
  | written2 he htwofold => exact hoperand htwofold

/-- Where nothing can go on, the socket thread waits for a client. -/
theorem Net.Stuck.accepting {N : Net} {stand : ℕ → Stand} (h : N.Stuck) (hN : N.Attends stand)
    (halive : N.ending = none)
    (hpresent : ∀ (c : ℕ) conn, N.conns[c]? = some conn → conn.point ≠ .gone)
    (hoperand : ∀ (c : ℕ) conn, N.conns[c]? = some conn →
      conn.exchange.Twofold → conn.exchange.request.operand ≠ []) :
    N.socket = .accepting ∧ N.backlog = [] := by
  have hsocket := h.socket noPids
  change (if N.ending = none then N.socketStep noPids else none) = none at hsocket
  rw [if_pos halive, Net.socketStep] at hsocket
  have hpoint := hN.point
  -- whoever is not ahead has connected
  have hknown : ∀ c, stand c ≠ .ahead → ∃ conn, N.conns[c]? = some conn := by
    intro c hc
    have hlt : c < N.conns.length := by
      by_contra hge
      exact hc (hN.unknown c (by omega))
    exact ⟨_, List.getElem?_eq_getElem hlt⟩
  cases hs : N.socket with
  | accepting =>
    simp only [hs] at hsocket
    cases hbacklog : N.backlog with
    | nil => exact ⟨rfl, rfl⟩
    | cons c backlog =>
      rw [hbacklog] at hsocket
      cases hsocket
  | accepted c =>
    simp only [hs] at hsocket
    split_ifs at hsocket with hmutex
    -- the socket thread is before the lock, and the main thread is not behind it
    have hmain : N.mutex = some .main := by
      have hthread := hN.orderly.socket
      rw [hs] at hthread
      cases hm : N.mutex with
      | none => exact absurd hm hmutex
      | some thread =>
        cases thread with
        | main => rfl
        | socket => exact (hthread.mpr hm).elim
    exact absurd (hN.orderly.main.mpr hmain) (h.main_outside halive)
  | reading c =>
    simp only [hs] at hsocket
    rw [hs] at hpoint
    have hlt : c < N.conns.length :=
      hN.lt (List.mem_append_left _ (List.mem_append_right _ (hs ▸ .head _)))
    have hconn := List.getElem?_eq_getElem hlt
    have hat := hN.conns c _ hconn
    rw [hpoint] at hat
    have harrived := hat.command_waits (hpresent c _ hconn) (h.client_waits hconn)
    exact absurd hsocket (Net.read_isSome hconn harrived)
  | comparing c command =>
    simp only [hs] at hsocket
    rw [hs] at hpoint
    obtain ⟨conn, hconn⟩ := hknown c (by rw [hpoint]; simp)
    split_ifs at hsocket with hask
    exact absurd hsocket (Net.write_isSome hconn)
  | asked c command =>
    simp only [hs] at hsocket
    rw [hs] at hpoint
    obtain ⟨conn, hconn⟩ := hknown c (by rw [hpoint]; simp)
    have hat := hN.conns c _ hconn
    rw [hpoint] at hat
    have harrived :=
      hat.operand_waits (hpresent c _ hconn) (hoperand c _ hconn) (h.client_waits hconn)
    exact absurd hsocket (Net.read_isSome hconn harrived)
  | received c request =>
    simp only [hs] at hsocket
    rw [if_pos (fresh_noPids _)] at hsocket
    cases hhandle : handleRequest request (N.server.asked noPids) <;>
      rw [hhandle] at hsocket <;> cases hsocket
  | answering c response =>
    simp only [hs] at hsocket
    rw [hs] at hpoint
    obtain ⟨request, hheard⟩ := hpoint
    obtain ⟨conn, hconn⟩ := hknown c (by rw [hheard]; simp)
    exact absurd hsocket (Net.write_isSome hconn)
  | closing c =>
    simp only [hs] at hsocket
    rw [hs] at hpoint
    obtain ⟨request, response, hanswered⟩ := hpoint
    obtain ⟨conn, hconn⟩ := hknown c (by rw [hanswered]; simp)
    rw [hconn] at hsocket
    cases hsocket
  | printing =>
    simp only [hs] at hsocket
    cases hsave : saveProcessList N.server.processList <;> rw [hsave] at hsocket <;> cases hsocket
  | saving =>
    simp only [hs] at hsocket
    cases hsocket
  | clearing =>
    simp only [hs] at hsocket
    cases hsocket

/-! ### Everybody is answered -/

/-- The service says something. -/
theorem handleRequest_answers {s t : Server} {request : Request} {response : Text}
    (h : handleRequest request s = .ok response t) : cstr response ≠ [] := by
  by_cases hoperand : (readCommand (s.commandBuffer request)).HasOperand
  · have hlong := handleRequest_long hoperand response t h
    rintro heq
    rw [Long, heq] at hlong
    exact absurd hlong (by decide)
  · refine get_bind_returns (P := fun response => cstr response ≠ []) ?_ response t h
    revert hoperand
    cases readCommand (s.commandBuffer request) with
    | startall => exact fun _ => Returns.bind (fun _ => returns_pure (by decide)) s
    | stopall => exact fun _ => Returns.bind (fun _ => returns_pure (by decide)) s
    | status =>
      refine fun _ => (?_ : Returns getProcessListStatus fun response => cstr response ≠ []) s
      refine Returns.bind fun u => Returns.bind fun items => ?_
      -- the text of an array begins with a bracket
      simp only
      split
      · exact returns_pure (by simp [cJsonPrint, printValue, cstr, lbracket])
      · intro u a v h
        cases h
    | ping => exact fun _ => returns_pure (by decide) s
    | error => exact fun _ => returns_pure (by decide) s
    | _ => exact fun hoperand => absurd trivial hoperand

theorem answers_run {N M : Net} {events : List NetEvent} (hrun : Run NetSteps N events M)
    (hN : ∀ round ∈ N.rounds, cstr round.response ≠ []) :
    ∀ round ∈ M.rounds, cstr round.response ≠ [] := by
  refine hrun.invariant (I := fun N => ∀ round ∈ N.rounds, cstr round.response ≠ [])
    (fun N event M h hstep round hround => ?_) hN
  rcases hstep.rounds with hsame | ⟨c, request, answers, response, server, -, hhandle, hadd⟩
  · exact h round (hsame ▸ hround)
  · rw [hadd] at hround
    rcases List.mem_append.mp hround with hold | hnew
    · exact h round hold
    · obtain rfl := List.mem_singleton.mp hnew
      exact handleRequest_answers hhandle

/-- The exchange of a client is the one for which it has connected. -/
theorem Conn.step_exchange {conn next : Conn} (h : conn.step = some next) :
    next.exchange = conn.exchange := by
  have hsend : ∀ sig point, (conn.send sig point).exchange = conn.exchange := by
    intro sig point
    unfold Conn.send
    split <;> rfl
  have hreceive : ∀ received : Conn, conn.receive = some received →
      received.exchange = conn.exchange := by
    intro received h
    obtain ⟨⟨message, rest⟩, -, h⟩ := Option.bind_eq_some_iff.mp h
    obtain rfl := Option.some_inj.mp h
    rfl
  unfold Conn.step at h
  split at h
  · obtain rfl := Option.some_inj.mp h
    exact hsend _ _
  · obtain ⟨received, hreceived, rfl⟩ := Option.map_eq_some_iff.mp h
    rw [← hreceive received hreceived]
    unfold Conn.compare
    split
    · rfl
    · split <;> rfl
  · obtain rfl := Option.some_inj.mp h
    exact hsend _ _
  · obtain ⟨received, hreceived, rfl⟩ := Option.map_eq_some_iff.mp h
    exact hreceive received hreceived
  · cases h
  · cases h

theorem Conn.leave_exchange {conn next : Conn} (h : conn.leave = some next) :
    next.exchange = conn.exchange := by
  unfold Conn.leave at h
  split_ifs at h
  obtain rfl := Option.some_inj.mp h
  rfl

theorem connected_run {server : Server} {events : List NetEvent} {M : Net}
    (hrun : Run NetSteps (.launched server) events M) (c : ℕ) (conn : Conn)
    (hconn : M.conns[c]? = some conn) : .connect conn.exchange ∈ events := by
  refine hrun.invariant_of (P := (· ∈ events))
    (I := fun N => ∀ (c : ℕ) conn, N.conns[c]? = some conn → .connect conn.exchange ∈ events)
    (fun N event M hevent hN hstep c next hnext => ?_) (fun _ h => h) (fun c conn h => ?_) c conn
    hconn
  · rcases hstep.conn hnext with ⟨conn, hconn, -, hsame⟩ | ⟨conn, hconn, -, hclient⟩ |
      ⟨conn, hconn, -, hleave⟩ | ⟨exchange, rfl, rfl⟩
    · exact hsame ▸ hN c conn hconn
    · exact Conn.step_exchange hclient ▸ hN c conn hconn
    · exact Conn.leave_exchange hleave ▸ hN c conn hconn
    · exact hevent
  · cases h

/-- A client whose write succeeds is not gone. -/
theorem Conn.step_present {conn next : Conn} (h : conn.step = some next)
    (hopen : conn.point = .writing ∨ conn.point = .writing2 → conn.serviceOpen = true) :
    next.point ≠ .gone := by
  have hsend : ∀ {sig : Text} {point : ClientPoint}, conn.serviceOpen = true → point ≠ .gone →
      (conn.send sig point).point ≠ .gone := by
    intro sig point hopen hpoint
    rw [Conn.send, if_pos hopen]
    exact hpoint
  unfold Conn.step at h
  cases hpoint : conn.point with
  | writing =>
    simp only [hpoint] at h
    obtain rfl := Option.some_inj.mp h
    exact hsend (hopen (Or.inl hpoint)) (by simp)
  | reading =>
    simp only [hpoint] at h
    obtain ⟨received, -, rfl⟩ := Option.map_eq_some_iff.mp h
    unfold Conn.compare
    split
    · simp [Conn.finish]
    · split <;> simp
  | writing2 =>
    simp only [hpoint] at h
    obtain rfl := Option.some_inj.mp h
    exact hsend (hopen (Or.inr hpoint)) (by simp)
  | reading2 =>
    simp only [hpoint] at h
    obtain ⟨received, -, rfl⟩ := Option.map_eq_some_iff.mp h
    simp [Conn.finish]
  | returned res => simp [hpoint] at h
  | gone => simp [hpoint] at h

theorem Conn.At.serviceOpen {conn : Conn} {stand : Stand} (h : conn.At stand)
    (hpresent : conn.point ≠ .gone) (hpoint : conn.point = .writing ∨ conn.point = .writing2) :
    conn.serviceOpen = true := by
  cases h with
  | gone hgone => exact absurd hgone hpresent
  | @answered e => cases e <;> simp [Exchange.lastRead] at hpoint
  | returned => simp at hpoint
  | _ => rfl

/-- A client that does not go away is there, as long as the service is. -/
theorem present_run {server : Server} (hflagged : Flagged server) (hbuffer : server.buffer = [])
    {events : List NetEvent} (hready : ∀ exchange, .connect exchange ∈ events → exchange.Ready)
    {c : ℕ} (hleave : .leave c ∉ events) {M : Net} (hrun : Run NetSteps (.launched server) events M)
    (halive : M.ending = none) {conn : Conn} (hconn : M.conns[c]? = some conn) :
    conn.point ≠ .gone := by
  induction events using List.reverseRecOn generalizing M conn with
  | nil =>
    obtain rfl := run_nil.mp hrun
    cases hconn
  | append_singleton events event ih =>
    obtain ⟨N, hbefore, hlast⟩ := run_append.mp hrun
    obtain ⟨_, hstep, hnil⟩ := run_cons.mp hlast
    obtain rfl := run_nil.mp hnil
    have hN : N.ending = none := by
      by_contra hend
      exact (ended_step hend hstep).1 halive
    have hready' : ∀ exchange, .connect exchange ∈ events → exchange.Ready :=
      fun exchange h => hready exchange (List.mem_append_left _ h)
    have hih : ∀ {old : Conn}, N.conns[c]? = some old → old.point ≠ .gone :=
      ih hready' (fun h => hleave (List.mem_append_left _ h)) hbefore hN
    rcases hstep.conn hconn with ⟨old, hold, hsame, -⟩ | ⟨old, hold, -, hclient⟩ |
      ⟨old, -, rfl, -⟩ | ⟨exchange, rfl, rfl⟩
    · rw [hsame]
      exact hih hold
    · obtain ⟨stand, hstand⟩ := attends_run hflagged hbuffer hready' hbefore hN
      exact Conn.step_present hclient ((hstand.conns c old hold).serviceOpen (hih hold))
    · exact absurd (List.mem_append_right _ (.head _)) hleave
    · simp [Conn.connected]

/-- A client that is not gone returns when it is answered. -/
theorem Conn.At.answer_returns {conn : Conn} {request : Request} {response : Text}
    (h : conn.At (.answered request response)) (hresponse : cstr response ≠ [])
    (hpresent : conn.point ≠ .gone) (hstep : conn.step = none) : conn.point = .returned 0 := by
  cases h with
  | gone hgone => exact absurd hgone hpresent
  | returned => rfl
  | @answered e he hoperand =>
    have hpoint : e.lastRead = .reading ∨ e.lastRead = .reading2 := by
      cases e with
      | word => exact Or.inl rfl
      | signals => exact Or.inr rfl
    exact absurd hstep (Conn.step_of_arrived hresponse hpoint)

/-- Exchanges come to an end.  Each client costs at most fifteen steps of the socket thread and its
own, and when no thread and no client can go on, every client has returned 0 with the response to
its own request, provided that operands are not empty and that no client goes away. -/
theorem exchanges_end {server : Server} (hflagged : Flagged server) (hbuffer : server.buffer = [])
    {events : List NetEvent}
    (hready : ∀ exchange, .connect exchange ∈ events →
      exchange.Ready ∧ (exchange.Twofold → exchange.request.operand ≠ []))
    (hstay : ∀ c, .leave c ∉ events) {M : Net} (hrun : Run NetSteps (.launched server) events M)
    (halive : M.ending = none) :
    events.countP (·.exchanges) ≤ 15 * events.countP (·.connects) ∧
      (M.Stuck → ∀ (c : ℕ) conn, M.conns[c]? = some conn → conn.point = .returned 0 ∧
        ∃ round ∈ M.rounds, round.client = c ∧
          conn.buffer = conn.exchange.final round.response) := by
  constructor
  · have hle := hrun.countP_le (μ := Net.rank) (k := 15) fun _ _ _ h => Net.rank_step h
    have hstart : (Net.launched server).rank = 1 := rfl
    have hend : 1 ≤ M.rank := by
      rw [Net.rank, Net.serviceRank_alive halive]
      omega
    omega
  · intro hstuck c conn hconn
    have hreal := fun exchange h => (hready exchange h).1
    obtain ⟨stand, h⟩ := attends_run hflagged hbuffer hreal hrun halive
    have hpresent : ∀ (c : ℕ) conn, M.conns[c]? = some conn → conn.point ≠ .gone :=
      fun c conn => present_run hflagged hbuffer hreal (hstay c) hrun halive
    have hoperand : ∀ (c : ℕ) conn, M.conns[c]? = some conn →
        conn.exchange.Twofold → conn.exchange.request.operand ≠ [] :=
      fun c conn hconn => (hready _ (connected_run hrun c conn hconn)).2
    -- nobody is being served and nobody is left, so this client has had its round
    obtain ⟨hsocket, hbacklog⟩ := hstuck.accepting h halive hpresent hoperand
    have hserved : c ∈ M.rounds.map (·.client) := by
      have horder := h.order
      rw [hsocket, hbacklog, List.append_nil] at horder
      rw [← List.append_nil (M.rounds.map _)]
      change c ∈ M.rounds.map (·.client) ++ SocketPoint.accepting.pending
      rw [horder]
      exact List.mem_range.mpr (List.getElem?_eq_some_iff.mp hconn).1
    obtain ⟨round, hround, rfl⟩ := List.mem_map.mp hserved
    have hat := h.conns _ _ hconn
    rcases h.rounds round hround with hanswered | ⟨-, hwriting⟩
    · rw [hanswered] at hat
      have hresponse := answers_run hrun (fun _ h => absurd h List.not_mem_nil) round hround
      have hreturned :=
        hat.answer_returns hresponse (hpresent _ _ hconn) (hstuck.client_waits hconn)
      exact ⟨hreturned, (h.returned hconn hreturned).2⟩
    · cases hsocket.symm.trans hwriting

theorem stuck_of_answered {N : Net} (hsocket : N.socket = .accepting) (hbacklog : N.backlog = [])
    (hmain : N.main = .waiting) (hconns : ∀ conn ∈ N.conns, conn.point = .returned 0) :
    N.Stuck := by
  refine ⟨fun c => ?_, fun answers => ?_, fun answers => ?_⟩
  · change (N.conns[c]?).bind _ = none
    cases hconn : N.conns[c]? with
    | none => rfl
    | some conn =>
      change (conn.step).bind _ = none
      rw [Conn.step, hconns conn (List.mem_of_getElem? hconn)]
      rfl
  · change (if N.ending = none then N.socketStep answers else none) = none
    rw [Net.socketStep, hsocket, hbacklog, ite_self]
  · change (if N.ending = none then N.mainStep answers else none) = none
    rw [Net.mainStep, hmain, ite_self]

theorem exchanges_end_ping : ∃ M, Run NetSteps (.launched webSystem.server) pingRound M ∧ M.Stuck ∧
    M.conns.length = 1 ∧ ∀ (c : ℕ) conn, M.conns[c]? = some conn → conn.point = .returned 0 ∧
      ∃ round ∈ M.rounds, round.client = c ∧ conn.buffer = conn.exchange.final round.response := by
  have hany : (pingRound.foldlM Net.step (.launched webSystem.server)).any (fun M =>
      decide (M.ending = none ∧ M.backlog = [] ∧ M.main = .waiting ∧ M.socket.rank = 0 ∧
        M.conns.map Conn.point = [.returned 0])) = true := by
    decide +kernel
  obtain ⟨M, hM, hp⟩ := Run.of_any hany
  obtain ⟨halive, hbacklog, hmain, hpoint, hconns⟩ := of_decide_eq_true hp
  have hsocket : M.socket = .accepting := by
    cases hs : M.socket with
    | accepting => rfl
    | _ =>
      rw [hs] at hpoint
      cases hpoint
  have hreturned : ∀ conn ∈ M.conns, conn.point = .returned 0 := by
    intro conn hconn
    have hmem : conn.point ∈ M.conns.map Conn.point := List.mem_map_of_mem hconn
    rw [hconns] at hmem
    exact List.mem_singleton.mp hmem
  have hready : ∀ exchange, .connect exchange ∈ pingRound →
      exchange.Ready ∧ (exchange.Twofold → exchange.request.operand ≠ []) := by
    intro exchange hconnect
    simp only [pingRound, List.mem_cons, NetEvent.connect.injEq, reduceCtorEq, List.not_mem_nil,
      or_false] at hconnect
    subst hconnect
    exact ⟨⟨.word (by decide), trivial⟩, False.elim⟩
  have hstuck := stuck_of_answered hsocket hbacklog hmain hreturned
  have hstay : ∀ c, .leave c ∉ pingRound := by
    intro c h
    simp [pingRound] at h
  refine ⟨M, hM, hstuck, ?_, (exchanges_end webSystem_flagged rfl hready hstay hM halive).2 hstuck⟩
  rw [← List.length_map (f := Conn.point), hconns]
  rfl

/-! ### Nobody can go on -/

/-- An empty operand is never received: the service waits for it, and serves nobody any more,
neither this client nor one behind it, unless the client goes away. -/
theorem empty_operand_blocks {server : Server} (hflagged : Flagged server)
    (hbuffer : server.buffer = []) {events : List NetEvent}
    (hready : ∀ exchange, .connect exchange ∈ events → exchange.Ready) {c : ℕ}
    (hstay : .leave c ∉ events) {M : Net} (hrun : Run NetSteps (.launched server) events M)
    (halive : M.ending = none) {conn : Conn} (hconn : M.conns[c]? = some conn)
    (htwofold : conn.exchange.Twofold) (hempty : conn.exchange.request.operand = []) :
    ∀ round ∈ M.rounds, round.client < c := by
  obtain ⟨stand, h⟩ := attends_run hflagged hbuffer hready hrun halive
  have hpresent := present_run hflagged hbuffer hready hstay hrun halive hconn
  -- this client has had no round
  have hunserved : c ∉ M.rounds.map (·.client) := by
    intro hserved
    obtain ⟨round, hround, rfl⟩ := List.mem_map.mp hserved
    obtain ⟨conn', hconn', hhandled⟩ := h.handled hround
    obtain rfl := Option.some_inj.mp (hconn.symm.trans hconn')
    obtain ⟨hrequest, hoperand⟩ := hhandled hpresent
    exact hoperand htwofold (hrequest ▸ hempty)
  -- and clients are served in their order
  have hinitial : M.rounds.map (·.client) = List.range (M.rounds.map (·.client)).length := by
    have hprefix : M.rounds.map (·.client) <+: List.range M.conns.length :=
      ⟨_, by rw [← List.append_assoc]; exact h.order⟩
    have htake := List.prefix_iff_eq_take.mp hprefix
    rw [List.take_range] at htake
    rw [htake, List.length_range]
  intro round hround
  by_contra hge
  refine hunserved ?_
  have hmem : round.client ∈ M.rounds.map (·.client) := List.mem_map_of_mem hround
  rw [hinitial, List.mem_range] at hmem ⊢
  omega

/-! A client that stops the app with the empty name, and one behind it. -/

def stopEmpty : List NetEvent :=
  [.connect (.signals (str "stop") [] []), .client 0, .socket noPids, .socket noPids,
    .socket noPids, .socket noPids, .client 0, .client 0,
      .connect (.word (str "ping") []), .client 1]

theorem empty_operand_blocks_stop : ∃ M, Run NetSteps (.launched webSystem.server) stopEmpty M ∧
    M.conns.length = 2 ∧ ∀ round ∈ M.rounds, round.client < 0 := by
  have hany : (stopEmpty.foldlM Net.step (.launched webSystem.server)).any (fun M =>
      decide (M.ending = none ∧ M.conns.map (fun conn => conn.exchange.request.command) =
        [str "stop", str "ping"])) = true := by
    decide +kernel
  obtain ⟨M, hM, hp⟩ := Run.of_any hany
  obtain ⟨halive, hconns⟩ := of_decide_eq_true hp
  have hexchanges : ∀ exchange, .connect exchange ∈ stopEmpty →
      exchange = .signals (str "stop") [] [] ∨ exchange = .word (str "ping") [] := by
    intro exchange hconnect
    simp only [stopEmpty, List.mem_cons, NetEvent.connect.injEq, reduceCtorEq, List.not_mem_nil,
      or_false, false_or] at hconnect
    exact hconnect
  have hready : ∀ exchange, .connect exchange ∈ stopEmpty → exchange.Ready := by
    intro exchange hconnect
    rcases hexchanges exchange hconnect with rfl | rfl
    · exact ⟨.signals (by decide) (by decide) (by decide), rfl⟩
    · exact ⟨.word (by decide), trivial⟩
  have hstay : .leave 0 ∉ stopEmpty := by
    intro h
    simp [stopEmpty] at h
  obtain ⟨conn, conns, hlist, hstop, hrest⟩ := List.map_eq_cons_iff.mp hconns
  have hconn : M.conns[0]? = some conn := by
    rw [hlist]
    rfl
  have hlength : M.conns.length = 2 := by
    rw [← List.length_map (f := fun conn : Conn => conn.exchange.request.command), hconns]
    rfl
  have hexchange : conn.exchange = .signals (str "stop") [] [] := by
    refine (hexchanges _ (connected_run hM 0 conn hconn)).resolve_right fun hping => ?_
    rw [hping] at hstop
    exact absurd hstop (by decide)
  refine ⟨M, hM, hlength, empty_operand_blocks webSystem_flagged rfl hready hstay hM
    halive hconn ?_ ?_⟩
  · rw [hexchange]
    trivial
  · rw [hexchange]
    rfl

/-- The socket thread has the mutex, and waits for client `c`, which has sent nothing. -/
structure Net.Stalled (N : Net) (c : ℕ) : Prop where
  held : N.mutex = some .socket
  waits : N.socket = .reading c ∨ ∃ command, N.socket = .asked c command
  silent : ∃ conn, N.conns[c]? = some conn ∧ conn.toService = [] ∧ conn.clientOpen = true

/-- The startup loop is over. -/
def MainPoint.Started (main : MainPoint) : Prop := ∀ i, main ≠ .starting i

theorem MainPoint.Started.of_ne {main : MainPoint} (h : ∀ i, main ≠ .starting i) : main.Started := h

/-- Nothing has been handled and nothing has been saved since. -/
structure Net.Frozen (N M : Net) (c : ℕ) : Prop where
  orderly : M.Orderly
  stalled : M.Stalled c
  file : M.server.configFile = N.server.configFile
  started : N.main.Started → M.main.Started
  list : N.main.Started → M.server.processList = N.server.processList ∧
    M.server.processCount = N.server.processCount

/-- The main thread is not behind the lock. -/
theorem Net.Stalled.outside {N : Net} {c : ℕ} (h : N.Stalled c) (hN : N.Orderly) :
    ¬N.main.Inside := by
  intro hinside
  cases h.held.symm.trans (hN.main.mp hinside)

theorem Net.Stalled.step {N M : Net} {event : NetEvent} {c : ℕ} (h : N.Stalled c) (hN : N.Orderly)
    (hstep : NetSteps N event M) (hclient : event ≠ .client c) (hleave : event ≠ .leave c) :
    M.rounds = N.rounds ∧ (N.main.Started → M.ending = N.ending) ∧
      (M.ending = none → N.Frozen M c) := by
  have houtside := h.outside hN
  obtain ⟨hheld, hwaits, conn, hconn, hservice, hopen⟩ := h
  -- the socket thread is nowhere else
  have hnowhere : ∀ {point : SocketPoint}, N.socket = point → (∀ c, point ≠ .reading c) →
      (∀ c command, point ≠ .asked c command) → False := by
    intro point hpoint hreading hasked
    rcases hwaits with hwaits | ⟨command, hwaits⟩
    · exact hreading c (hpoint.symm.trans hwaits)
    · exact hasked c command (hpoint.symm.trans hwaits)
  have hother : ∀ {d : ℕ} {next : Conn}, d ≠ c →
      ∃ conn, (N.conns.set d next)[c]? = some conn ∧ conn.toService = [] ∧
        conn.clientOpen = true := by
    intro d next hne
    exact ⟨conn, (List.getElem?_set_ne hne).trans hconn, hservice, hopen⟩
  have hsame : ∀ {conns : List Conn}, ({ N with conns := conns } : Net).Orderly →
      (∃ conn, conns[c]? = some conn ∧ conn.toService = [] ∧ conn.clientOpen = true) →
      N.Frozen { N with conns := conns } c :=
    fun hM hsilent => ⟨hM, ⟨hheld, hwaits, hsilent⟩, rfl, id, fun _ => ⟨rfl, rfl⟩⟩
  have hsilent : ∃ conn, N.conns[c]? = some conn ∧ conn.toService = [] ∧ conn.clientOpen = true :=
    ⟨conn, hconn, hservice, hopen⟩
  have hM := hN.step hstep
  cases hstep.cases with
  | @connect exchange hroom =>
    have hlt : c < N.conns.length := (List.getElem?_eq_some_iff.mp hconn).1
    have hconn' : (N.conns ++ [.connected exchange])[c]? = some conn :=
      (List.getElem?_append_left hlt).trans hconn
    refine ⟨rfl, fun _ => rfl, fun halive => ⟨hM halive, ⟨hheld, hwaits, ?_⟩, rfl, id, ?_⟩⟩
    · exact ⟨conn, hconn', hservice, hopen⟩
    · exact fun _ => ⟨rfl, rfl⟩
  | @client d _ next hconn' hstep =>
    have hne : d ≠ c := fun heq => hclient (heq ▸ rfl)
    exact ⟨rfl, fun _ => rfl, fun halive => hsame (hM halive) (hother hne)⟩
  | @leave d _ next hconn' hstep =>
    have hne : d ≠ c := fun heq => hleave (heq ▸ rfl)
    exact ⟨rfl, fun _ => rfl, fun halive => hsame (hM halive) (hother hne)⟩
  | @hangUp d other hconn' =>
    refine ⟨rfl, fun _ => rfl, fun halive => hsame (hM halive) ?_⟩
    by_cases heq : d = c
    · subst heq
      obtain rfl := Option.some_inj.mp (hconn.symm.trans hconn')
      have hlt : d < N.conns.length := (List.getElem?_eq_some_iff.mp hconn).1
      exact ⟨conn.hangUp, List.getElem?_set_self hlt, hservice, hopen⟩
    · exact hother heq
  | @readCommand _ d other message rest _ hpoint hconn' hread =>
    -- there is nothing to read
    rcases hwaits with hwaits | ⟨command, hwaits⟩ <;> cases hpoint.symm.trans hwaits
    obtain rfl := Option.some_inj.mp (hconn.symm.trans hconn')
    rw [hservice, hopen] at hread
    cases hread
  | @readOperand _ d other command message rest _ hpoint hconn' hread =>
    rcases hwaits with hwaits | ⟨command, hwaits⟩ <;> cases hpoint.symm.trans hwaits
    obtain rfl := Option.some_inj.mp (hconn.symm.trans hconn')
    rw [hservice, hopen] at hread
    cases hread
  | accept _ hpoint | lock _ hpoint | pong _ hpoint | noOperand _ hpoint | handle _ hpoint
  | answer _ hpoint | close _ hpoint | empty _ hpoint | print _ hpoint | clear _ hpoint =>
    exact (hnowhere hpoint (by simp) (by simp)).elim
  | broken _ hpoint =>
    rcases hpoint with ⟨command, hpoint⟩ | ⟨response, hpoint⟩ <;>
      exact (hnowhere hpoint (by simp) (by simp)).elim
  | socketFault _ _ _ hpoint =>
    rcases hpoint with ⟨d, request, hpoint⟩ | hpoint <;>
      exact (hnowhere hpoint (by simp) (by simp)).elim
  | lockMain _ _ hmutex => cases hheld.symm.trans hmutex
  | handleExit _ hpoint => exact absurd (by rw [hpoint]; trivial) houtside
  | unlockMain _ hpoint => exact absurd (by rw [hpoint]; trivial) houtside
  | iterate _ hpoint hi _ hiterate =>
    obtain ⟨-, -, hfile, -⟩ := hN.flagged.iterated hi hiterate
    refine ⟨rfl, fun _ => rfl, fun halive => ⟨hM halive, ⟨hheld, hwaits, hsilent⟩, hfile, ?_, ?_⟩⟩
    · exact fun hstarted => absurd hpoint (hstarted _)
    · exact fun hstarted => absurd hpoint (hstarted _)
  | finish _ hpoint =>
    refine ⟨rfl, fun _ => rfl, fun halive => ⟨hM halive, ⟨hheld, hwaits, hsilent⟩, rfl, ?_, ?_⟩⟩
    · exact fun _ => .of_ne (by simp)
    · exact fun _ => ⟨rfl, rfl⟩
  | mainFault _ _ hrounds hpoint =>
    rcases hpoint with ⟨i, hpoint⟩ | ⟨pid, hpoint⟩
    · refine ⟨hrounds, fun hstarted => absurd hpoint (hstarted i), fun halive => ?_⟩
      cases halive
    · exact absurd (by rw [hpoint]; trivial) houtside
  | wait _ hpoint =>
    refine ⟨rfl, fun _ => rfl, fun halive => ⟨hM halive, ⟨hheld, hwaits, hsilent⟩, rfl, ?_, ?_⟩⟩
    · exact fun _ => .of_ne (by simp)
    · exact fun _ => ⟨rfl, rfl⟩
  | exit =>
    exact ⟨rfl, fun _ => rfl,
      fun halive => ⟨hM halive, ⟨hheld, hwaits, hsilent⟩, rfl, id, fun _ => ⟨rfl, rfl⟩⟩⟩

theorem Net.Frozen.trans {N K M : Net} {c : ℕ} (h : N.Frozen K c) (h' : K.Frozen M c) :
    N.Frozen M c := by
  refine ⟨h'.orderly, h'.stalled, h'.file.trans h.file, fun hN => h'.started (h.started hN),
    fun hN => ?_⟩
  obtain ⟨hlist, hcount⟩ := h.list hN
  obtain ⟨hlist', hcount'⟩ := h'.list (h.started hN)
  exact ⟨hlist'.trans hlist, hcount'.trans hcount⟩

theorem orderly_run {server : Server} (hflagged : Flagged server) {events : List NetEvent} {M : Net}
    (hrun : Run NetSteps (.launched server) events M) (halive : M.ending = none) : M.Orderly := by
  refine hrun.invariant (I := fun N => N.ending = none → N.Orderly)
    (fun N event M h hstep halive => ?_)
    (fun _ => ?_) halive
  · have hN : N.ending = none := by
      by_contra hend
      exact (ended_step hend hstep).1 halive
    exact (h hN).step hstep halive
  · exact ⟨hflagged, iff_of_false id (by simp [Net.launched]),
      iff_of_false id (by simp [Net.launched])⟩

/-- A client that says nothing stops the whole service.  While the socket thread waits for it, no
request is handled and nothing is saved, and once the startup loop is over the service does not end
and no entry changes, whichever children die. -/
theorem stalled_run {server : Server} (hflagged : Flagged server) {events later : List NetEvent}
    {N M : Net} (hrun : Run NetSteps (.launched server) events N) (halive : N.ending = none) {c : ℕ}
    (hstalled : N.Stalled c) (hlater : Run NetSteps N later M) (hclient : .client c ∉ later)
    (hleave : .leave c ∉ later) :
    M.rounds = N.rounds ∧ (N.main.Started → M.ending = none) ∧
      (M.ending = none → N.Frozen M c) := by
  have hstart : N.Frozen N c :=
    ⟨orderly_run hflagged hrun halive, hstalled, rfl, id, fun _ => ⟨rfl, rfl⟩⟩
  refine hlater.invariant_of (P := fun event => event ≠ .client c ∧ event ≠ .leave c)
    (I := fun K => K.rounds = N.rounds ∧ (N.main.Started → K.ending = none) ∧
      (K.ending = none → N.Frozen K c)) (fun K event M hevent hK hstep => ?_)
    (fun event h => ⟨fun heq => hclient (heq ▸ h), fun heq => hleave (heq ▸ h)⟩)
    ⟨rfl, fun _ => halive, fun _ => hstart⟩
  obtain ⟨hrounds, hending, hfrozen⟩ := hK
  by_cases hK : K.ending = none
  · have hbefore := hfrozen hK
    obtain ⟨hsame, hgoes, hafter⟩ :=
      hbefore.stalled.step hbefore.orderly hstep hevent.1 hevent.2
    refine ⟨hsame.trans hrounds, fun hN => ?_, fun hM => hbefore.trans (hafter hM)⟩
    exact (hgoes (hbefore.started hN)).trans hK
  · -- the startup loop has ended the service
    obtain ⟨hM, hsame⟩ := ended_step hK hstep
    exact ⟨hsame.trans hrounds, fun hN => absurd (hending hN) hK, fun halive => absurd halive hM⟩

/-! A client that connects and sends nothing, while the app of the service dies. -/

def silentClient : List NetEvent :=
  [.main (onePid 7), .main noPids, .connect (.word (str "ping") []), .socket noPids, .socket noPids]

def appDies : List NetEvent := [.exit 7, .wait 7]

theorem stalled_run_ping : ∃ N M, Run NetSteps (.launched webSystem.server) silentClient N ∧
    Run NetSteps N appDies M ∧ M.main = .reaped 7 ∧ N.Frozen M 0 ∧
      M.server.processList = N.server.processList := by
  have hany : (silentClient.foldlM Net.step (.launched webSystem.server)).any (fun N =>
      decide (N.ending = none ∧ N.main = .waiting ∧ N.mutex = some .socket ∧
        N.socket.rank = 9 ∧ N.socket.pending = [0] ∧
        N.conns.map (fun conn => (conn.toService, conn.clientOpen)) = [([], true)]) &&
      (appDies.foldlM Net.step N).any fun M => decide (M.main = .reaped 7)) = true := by
    decide +kernel
  obtain ⟨N, hN, hp⟩ := Run.of_any hany
  obtain ⟨hp, hlater⟩ := (Bool.and_eq_true _ _).mp hp
  obtain ⟨halive, hwaiting, hheld, hrank, hpending, hconns⟩ := of_decide_eq_true hp
  obtain ⟨M, hM, hmain⟩ := Run.of_any hlater
  have hstarted : N.main.Started := fun i h => by cases hwaiting.symm.trans h
  have hstalled : N.Stalled 0 := by
    refine ⟨hheld, ?_, ?_⟩
    · cases hs : N.socket with
      | reading c =>
        rw [hs] at hpending
        cases hpending
        exact Or.inl rfl
      | _ =>
        rw [hs] at hrank
        cases hrank
    · obtain ⟨conn, hlist, hconn⟩ := List.map_eq_singleton_iff.mp hconns
      exact ⟨conn, by rw [hlist]; rfl, congrArg Prod.fst hconn, congrArg Prod.snd hconn⟩
  obtain ⟨-, hending, hfrozen⟩ := stalled_run webSystem_flagged hN halive hstalled hM
    (by simp [appDies]) (by simp [appDies])
  have hafter := hfrozen (hending hstarted)
  exact ⟨N, M, hN, hM, of_decide_eq_true hmain, hafter, (hafter.list hstarted).1⟩

end KbPm
