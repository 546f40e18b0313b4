/-
The client's exchanges with the service (`client.c`), and their framing.

A message is sent without its NUL, so the string that is received ends where the
buffer happens to have one.

* `communicateWithServer`, `communicateTwoSignalsWithServer`, `pingServer` — the
  client's side, once it is connected;
* `Exchange.Framed` — every string that is received is the one that was sent;
* `cstr_overwrite` — it is, exactly if a NUL was there already;
* `framed_iff` — what the two buffers have to hold, after any exchanges.
-/
import KbPm.Decoding

namespace KbPm

open Trace

/-! ### The client -/

/-- `read(sockfd, buffer, BUFFER_SIZE)` -/
def receiveAnswer (buffer message : Text) : Text :=
  message.take bufferSize ++ buffer.drop (message.take bufferSize).length

/-- The service goes on to read an operand. -/
abbrev Server.Asks (s : Server) (sig : Text) : Prop :=
  (readCommand (receive s.buffer sig)).HasOperand

/-- `communicate_with_server`: its result, and the buffer that it fills. -/
def communicateWithServer (sig buffer : Text) : ServerM (ℤ × Text) := do
  let s ← get
  let response ← serve ⟨sig, []⟩
  let message := if s.Asks sig then str "pong" else cstr response
  return (0, receiveAnswer buffer message)

/-- `communicate_two_signals_with_server`: its result, and the buffer that it fills. -/
def communicateTwoSignalsWithServer (sig1 sig2 buffer : Text) : ServerM (ℤ × Text) := do
  let s ← get
  if s.Asks sig1 then
    let buffer := receiveAnswer buffer (str "pong")
    if cstr buffer ≠ str "pong" then
      -- the client ends, and the service reads nothing
      let _ ← serve ⟨sig1, []⟩
      return (-1, buffer)
    else
      let response ← serve ⟨sig1, sig2⟩
      return (0, receiveAnswer buffer (cstr response))
  else
    -- the service closes its end after this answer
    let response ← serve ⟨sig1, []⟩
    let buffer := receiveAnswer buffer (cstr response)
    return (if cstr buffer ≠ str "pong" then -1 else 0, buffer)

/-- `ping_server` -/
def pingServer (buffer : Text) : ServerM ℤ := do
  let (_, buffer) ← communicateWithServer (str "ping") buffer
  return if cstr buffer ≠ str "pong" then -1 else 0

/-- An exchange, with what the client's buffer holds before it. -/
inductive Exchange
  | word (sig buffer : Text)
  | signals (sig1 sig2 buffer : Text)

namespace Exchange

def request : Exchange → Request
  | word sig _ => ⟨sig, []⟩
  | signals sig1 sig2 _ => ⟨sig1, sig2⟩

def perform : Exchange → ServerM (ℤ × Text)
  | word sig buffer => communicateWithServer sig buffer
  | signals sig1 sig2 buffer => communicateTwoSignalsWithServer sig1 sig2 buffer

/-- The exchanges that the client makes. -/
inductive Real : Exchange → Prop
  | word {sig buffer : Text}
    (hsig : sig ∈ [str "ping", str "startall", str "stopall", str "status"]) :
      Real (.word sig buffer)
  | signals {sig1 sig2 buffer : Text}
    (hsig : sig1 ∈ [str "start", str "stop", str "restart", str "remove"]) (hnul : 0 ∉ sig2)
    (hfits : sig2.length < strBufferSize) : Real (.signals sig1 sig2 buffer)

/-- The client's array holds the string, and a NUL behind it. -/
def Holds (buffer string : Text) : Prop := string.length < bufferSize ∧ cstr buffer = string

/-- The client's buffer when the response has been read. -/
def final : Exchange → Text → Text
  | word _ buffer, response => receiveAnswer buffer (cstr response)
  | signals _ _ buffer, response =>
    receiveAnswer (receiveAnswer buffer (str "pong")) (cstr response)

/-- The service compares and resolves the strings that the client has sent, and the client compares
and prints those that the service has written. -/
def Framed (s : Server) (exchange : Exchange) (answers : Answers) : Prop :=
  (match exchange with
    | word sig _ => cstr (s.commandBuffer exchange.request) = sig
    | signals sig1 sig2 buffer =>
      cstr (s.commandBuffer exchange.request) = sig1 ∧
        cstr (s.operandBuffer exchange.request) = sig2 ∧
        Holds (receiveAnswer buffer (str "pong")) (str "pong")) ∧
  ∀ response t, serve exchange.request (s.asked answers) = .ok response t →
    Holds (exchange.final response) (cstr response)

end Exchange

/-- An exchange that comes to its end. -/
def Exchanged (s : Server) (label : Exchange × Answers) (t : Server) : Prop :=
  ∃ result, label.1.perform (s.asked label.2) = .ok result t

/-! ### What the buffers have to hold -/

namespace Exchange

/-- The service's buffer has a NUL behind each message.  Its first eight bytes are cleared before
the second one. -/
def ServerClear (buffer : Text) : Exchange → Prop
  | word sig _ => buffer.getD sig.length 0 = 0
  | signals sig1 sig2 _ =>
    buffer.getD sig1.length 0 = 0 ∧ (sig2.length < 8 ∨ buffer.getD sig2.length 0 = 0)

/-- The client's buffer has a NUL behind each answer. -/
def ClientClear (s : Server) (exchange : Exchange) (answers : Answers) : Prop :=
  (match exchange with
    | word _ _ => True
    | signals _ _ buffer => buffer.getD 4 0 = 0) ∧
  ∀ response t, serve exchange.request (s.asked answers) = .ok response t →
    (cstr response).length < bufferSize ∧
      (match exchange with
        | word _ buffer => buffer
        | signals _ _ buffer => buffer).getD (cstr response).length 0 = 0

end Exchange

theorem cstr_append {a : Text} (ha : 0 ∉ a) (b : Text) : cstr (a ++ b) = a ++ cstr b := by
  rw [cstr, List.takeWhile_append_of_pos]
  · rfl
  · intro c hc
    simpa using fun h0 : c = 0 => ha (h0 ▸ hc)

theorem cstr_eq_nil_iff (t : Text) : cstr t = [] ↔ t.getD 0 0 = 0 := by
  cases t with
  | nil => simp [cstr]
  | cons c t => simp [cstr, List.takeWhile_cons]

/-- A message that is written over a buffer is received if a NUL follows it there. -/
theorem cstr_overwrite {message buffer : Text} (h : 0 ∉ message) :
    cstr (message ++ buffer.drop message.length) = message ↔ buffer.getD message.length 0 = 0 := by
  rw [cstr_append h, List.append_right_eq_self, cstr_eq_nil_iff]
  simp

theorem receive_eq {buffer message : Text} (h : message.length ≤ strBufferSize) :
    receive buffer message = message ++ buffer.drop message.length := by
  rw [receive, List.take_of_length_le h]

theorem cstr_receive {buffer message : Text} (h : message.length ≤ strBufferSize)
    (h0 : 0 ∉ message) :
    cstr (receive buffer message) = message ↔ buffer.getD message.length 0 = 0 := by
  rw [receive_eq h, cstr_overwrite h0]

theorem holds_receiveAnswer {buffer message : Text} (h0 : 0 ∉ message) :
    Exchange.Holds (receiveAnswer buffer message) message ↔
      message.length < bufferSize ∧ buffer.getD message.length 0 = 0 := by
  rw [Exchange.Holds, and_congr_right_iff]
  intro hlt
  rw [receiveAnswer, List.take_of_length_le hlt.le, cstr_overwrite h0]

/-- Behind a message the buffer is what it was. -/
theorem getD_overwrite {buffer message : Text} {n : ℕ} (h : message.length ≤ n) :
    (message ++ buffer.drop message.length).getD n 0 = buffer.getD n 0 := by
  rw [List.getD_append_right _ _ _ _ h, List.getD_eq_getElem?_getD, List.getElem?_drop,
    Nat.add_sub_cancel' h, List.getD_eq_getElem?_getD]

/-- The second message.  The first one is not longer than what is cleared. -/
theorem cstr_pongAndReceiveData {buffer sig1 sig2 : Text} (hsig : sig1.length ≤ 8)
    (h : sig2.length ≤ strBufferSize) (h0 : 0 ∉ sig2) :
    cstr (pongAndReceiveData (receive buffer sig1) sig2) = sig2 ↔
      sig2.length < 8 ∨ buffer.getD sig2.length 0 = 0 := by
  have hle : sig1.length ≤ strBufferSize := hsig.trans (by decide)
  rw [pongAndReceiveData, cstr_receive h h0]
  -- the end is among the cleared bytes, or behind them
  rcases Nat.lt_or_ge sig2.length 8 with hlt | hge
  · refine iff_of_true ?_ (Or.inl hlt)
    rw [List.getD_append _ _ _ _ (by simpa using hlt), List.getD_replicate _ hlt]
  · have hzeros : (List.replicate 8 (0 : UInt8)).length ≤ sig2.length := by simpa using hge
    have hcleared :
      (List.replicate 8 0 ++ (receive buffer sig1).drop (List.replicate 8 (0 : UInt8)).length).getD
        sig2.length 0 = (receive buffer sig1).getD sig2.length 0 := getD_overwrite hzeros
    rw [List.length_replicate] at hcleared
    rw [hcleared, receive_eq hle, getD_overwrite (hsig.trans hge)]
    exact (or_iff_right (Nat.not_lt.mpr hge)).symm

/-- The second answer is written over the first one. -/
theorem holds_second {buffer first message : Text} (h0 : 0 ∉ message)
    (hfirst : first.length ≤ message.length) :
    Exchange.Holds (receiveAnswer (receiveAnswer buffer first) message) message ↔
      message.length < bufferSize ∧ buffer.getD message.length 0 = 0 := by
  rw [holds_receiveAnswer h0, and_congr_right_iff]
  intro hlt
  have hle : first.length ≤ bufferSize := hfirst.trans hlt.le
  rw [receiveAnswer, List.take_of_length_le hle, getD_overwrite hfirst]

/-! ### Responses to an operand -/

/-- The response is longer than `pong`. -/
def Long (response : Text) : Prop := 4 ≤ (cstr response).length

theorem long_append {a : Text} (ha : 0 ∉ a) (h : 4 ≤ a.length) (b : Text) : Long (a ++ b) := by
  rw [Long, cstr_append ha, List.length_append]
  omega

theorem long_named (name : StrBuf) {a : Text} (ha : 0 ∉ a) (h : 4 ≤ a.length) :
    Long (name.bytes ++ a) := by
  rw [Long, cstr_append name.nulFree, cstr_of_notMem ha, List.length_append]
  omega

theorem getErrorResponse_long (buffer : Text) : Long (getErrorResponse buffer) := by
  unfold getErrorResponse
  split <;> exact long_append (by decide) (by decide) _

theorem serverStartProcessAndGetResponse_long (buffer : Text) :
    Returns (serverStartProcessAndGetResponse buffer) Long := by
  unfold serverStartProcessAndGetResponse
  refine Returns.bind fun s => Returns.bind fun r => ?_
  obtain ⟨type, process⟩ := r
  cases type with
  | cmd =>
    refine Returns.bind fun found => ?_
    cases found with
    | some i =>
      refine returns_pure ?_
      rw [List.append_assoc]
      exact long_append (by decide) (by decide) _
    | none =>
      refine Returns.bind fun q => Returns.bind fun u => Returns.bind fun _ =>
        Returns.bind fun _ => ?_
      refine returns_pure ?_
      simp only [List.append_assoc]
      exact long_append (by decide) (by decide) _
  | err => exact returns_pure (getErrorResponse_long buffer)
  | _ =>
    change Returns (if process.isRunning = 0 then _ else _) Long
    split
    · refine Returns.bind fun pos => Returns.bind fun _ => Returns.bind fun q => returns_pure ?_
      simp only [List.append_assoc]
      exact long_append (by decide) (by decide) _
    · exact returns_pure (long_named _ (by decide) (by decide))

theorem serverStopProcessAndGetResponse_long (buffer : Text) :
    Returns (serverStopProcessAndGetResponse buffer) Long := by
  unfold serverStopProcessAndGetResponse
  refine Returns.bind fun s => Returns.bind fun r => ?_
  obtain ⟨type, process⟩ := r
  cases type with
  | id | appName =>
    change Returns (if process.isRunning ≠ 0 then _ else _) Long
    split
    · refine Returns.bind fun pos => Returns.bind fun _ => returns_pure ?_
      rw [List.append_assoc]
      exact long_append (by decide) (by decide) _
    · exact returns_pure (long_named _ (by decide) (by decide))
  | _ => exact returns_pure (getErrorResponse_long buffer)

theorem serverRestartProcessAndGetResponse_long (buffer : Text) :
    Returns (serverRestartProcessAndGetResponse buffer) Long := by
  unfold serverRestartProcessAndGetResponse
  refine Returns.bind fun s => Returns.bind fun r => ?_
  obtain ⟨type, process⟩ := r
  cases type with
  | id | appName =>
    change Returns (if process.isRunning ≠ 0 then _ else _) Long
    split
    · refine Returns.bind fun pos => Returns.bind fun _ => Returns.bind fun q => returns_pure ?_
      simp only [List.append_assoc]
      exact long_append (by decide) (by decide) _
    · exact returns_pure (long_named _ (by decide) (by decide))
  | _ => exact returns_pure (getErrorResponse_long buffer)

theorem serverRemoveProcessAndGetResponse_long (buffer : Text) :
    Returns (serverRemoveProcessAndGetResponse buffer) Long := by
  unfold serverRemoveProcessAndGetResponse
  refine Returns.bind fun s => Returns.bind fun r => ?_
  obtain ⟨type, process⟩ := r
  cases type with
  | id | appName =>
    refine Returns.bind fun pos => Returns.bind fun name => ?_
    change Returns (if process.isRunning ≠ 0 then _ else _) Long
    split <;>
    · refine returns_pure ?_
      rw [List.append_assoc]
      exact long_append (by decide) (by decide) _
  | _ => exact returns_pure (getErrorResponse_long buffer)

/-- What the service answers to a command with an operand. -/
theorem handleRequest_long {s : Server} {request : Request}
    (hcommand : (readCommand (s.commandBuffer request)).HasOperand) :
    ∀ response t, handleRequest request s = .ok response t → Long response := by
  refine get_bind_returns ?_
  revert hcommand
  cases readCommand (s.commandBuffer request) with
  | start => exact fun _ => serverStartProcessAndGetResponse_long _ s
  | stop => exact fun _ => serverStopProcessAndGetResponse_long _ s
  | restart => exact fun _ => serverRestartProcessAndGetResponse_long _ s
  | remove => exact fun _ => serverRemoveProcessAndGetResponse_long _ s
  | _ => exact fun h => h.elim

theorem serve_long {s t : Server} {request : Request} {response : Text}
    (hcommand : (readCommand (s.commandBuffer request)).HasOperand)
    (h : serve request s = .ok response t) : Long response := by
  obtain ⟨u, text, hhandle, -, -⟩ := serve_ok h
  exact handleRequest_long hcommand response u hhandle

/-! ### Exchanges -/

/-- The buffer is cleared at the end of every round. -/
theorem serve_buffer {s t : Server} {request : Request} {response : Text}
    (h : serve request s = .ok response t) : t.buffer = [] := by
  obtain ⟨u, text, -, -, rfl⟩ := serve_ok h
  rfl

theorem perform_word {s t : Server} {sig buffer : Text} {result : ℤ × Text} :
    (Exchange.word sig buffer).perform s = .ok result t ↔
      ∃ response, serve ⟨sig, []⟩ s = .ok response t ∧
        (0, receiveAnswer buffer (if s.Asks sig then str "pong" else cstr response)) = result :=
  bind_pure_ok (g := fun response =>
    (0, receiveAnswer buffer (if s.Asks sig then str "pong" else cstr response)))

/-- The service asks for the second message, and the client reads `pong`. -/
theorem perform_asked {s : Server} {sig1 sig2 buffer : Text} (hasks : s.Asks sig1)
    (hpong : cstr (receiveAnswer buffer (str "pong")) = str "pong") :
    (Exchange.signals sig1 sig2 buffer).perform s =
      (serve ⟨sig1, sig2⟩ >>= fun response =>
        pure (0, receiveAnswer (receiveAnswer buffer (str "pong")) (cstr response))) s := by
  change (if s.Asks sig1 then _ else _ : ServerM (ℤ × Text)) s = _
  rw [if_pos hasks, if_neg (not_not.mpr hpong)]

theorem perform_signals {s t : Server} {sig1 sig2 buffer : Text} {result : ℤ × Text}
    (h : (Exchange.signals sig1 sig2 buffer).perform s = .ok result t) :
    ∃ request response, serve request s = .ok response t := by
  -- asked or not, the client has one round with the service
  by_cases hasks : s.Asks sig1
  · by_cases hpong : cstr (receiveAnswer buffer (str "pong")) = str "pong"
    · rw [perform_asked hasks hpong] at h
      obtain ⟨response, hserve, -⟩ := bind_pure_ok.mp h
      exact ⟨_, response, hserve⟩
    · change (if s.Asks sig1 then _ else _ : ServerM (ℤ × Text)) s = _ at h
      rw [if_pos hasks] at h
      change (if cstr (receiveAnswer buffer (str "pong")) ≠ str "pong" then _ else _ :
        ServerM (ℤ × Text)) s = _ at h
      rw [if_pos hpong] at h
      obtain ⟨response, hserve, -⟩ := bind_pure_ok.mp h
      exact ⟨_, response, hserve⟩
  · change (if s.Asks sig1 then _ else _ : ServerM (ℤ × Text)) s = _ at h
    rw [if_neg hasks] at h
    obtain ⟨response, hserve, -⟩ := bind_pure_ok.mp h
    exact ⟨_, response, hserve⟩

theorem Exchanged.buffer {s t : Server} {label : Exchange × Answers} (h : Exchanged s label t) :
    t.buffer = [] := by
  obtain ⟨exchange, answers⟩ := label
  obtain ⟨result, hperform⟩ := h
  cases exchange with
  | word sig buffer =>
    obtain ⟨response, hserve, -⟩ := perform_word.mp hperform
    exact serve_buffer hserve
  | signals sig1 sig2 buffer =>
    obtain ⟨request, response, hserve⟩ := perform_signals hperform
    exact serve_buffer hserve

theorem serverClear_nil (exchange : Exchange) : exchange.ServerClear [] := by
  cases exchange with
  | word sig buffer => rfl
  | signals sig1 sig2 buffer => exact ⟨rfl, Or.inr rfl⟩

/-- The service's buffer is that of its start, or cleared. -/
theorem serverClear_run {s t : Server} {exchanges : List (Exchange × Answers)}
    (hrun : Run Exchanged s exchanges t) (exchange : Exchange) :
    exchange.ServerClear t.buffer ↔ (exchanges = [] → exchange.ServerClear s.buffer) := by
  -- every exchange leaves the buffer clear
  have hend : exchanges ≠ [] → t.buffer = [] := by
    intro hne
    cases hrun with
    | nil => exact absurd rfl hne
    | cons hfirst hrest =>
      exact hrest.invariant (I := fun u => u.buffer = []) (fun _ _ _ _ h => h.buffer) hfirst.buffer
  constructor
  · rintro h rfl
    obtain rfl := run_nil.mp hrun
    exact h
  · intro h
    by_cases hnil : exchanges = []
    · subst hnil
      obtain rfl := run_nil.mp hrun
      exact h rfl
    · rw [hend hnil]
      exact serverClear_nil exchange

/-- The words of the client. -/
theorem readCommand_hasOperand {buffer sig : Text}
    (hsig : sig ∈ [str "start", str "stop", str "restart", str "remove"]) (h : cstr buffer = sig) :
    (readCommand buffer).HasOperand := by
  unfold readCommand
  rw [h]
  simp only [List.mem_cons, List.not_mem_nil, or_false] at hsig
  rcases hsig with rfl | rfl | rfl | rfl <;> decide

theorem framed_word {s : Server} {sig buffer : Text} {answers : Answers}
    (hsig : sig ∈ [str "ping", str "startall", str "stopall", str "status"]) :
    (Exchange.word sig buffer).Framed s answers ↔
      (Exchange.word sig buffer).ServerClear s.buffer ∧
        (Exchange.word sig buffer).ClientClear s answers := by
  have hwords : ∀ sig ∈ [str "ping", str "startall", str "stopall", str "status"],
      0 ∉ sig ∧ sig.length ≤ strBufferSize := by decide
  obtain ⟨h0, hle⟩ := hwords sig hsig
  have hserver : cstr (s.commandBuffer ⟨sig, []⟩) = sig ↔ s.buffer.getD sig.length 0 = 0 :=
    cstr_receive hle h0
  -- the service has to see the word, and the client the response
  refine and_congr hserver ?_
  refine (forall_congr' fun response => forall_congr' fun t => forall_congr' fun _ => ?_).trans
    (and_iff_right trivial).symm
  exact holds_receiveAnswer (zero_notMem_cstr response)

theorem framed_signals {s : Server} {sig1 sig2 buffer : Text} {answers : Answers}
    (hsig : sig1 ∈ [str "start", str "stop", str "restart", str "remove"]) (hnul : 0 ∉ sig2)
    (hfits : sig2.length < strBufferSize) :
    (Exchange.signals sig1 sig2 buffer).Framed s answers ↔
      (Exchange.signals sig1 sig2 buffer).ServerClear s.buffer ∧
        (Exchange.signals sig1 sig2 buffer).ClientClear s answers := by
  have hwords : ∀ sig ∈ [str "start", str "stop", str "restart", str "remove"],
      0 ∉ sig ∧ sig.length ≤ 8 := by decide
  obtain ⟨h0, hle⟩ := hwords sig1 hsig
  have hcommand : cstr (s.commandBuffer ⟨sig1, sig2⟩) = sig1 ↔ s.buffer.getD sig1.length 0 = 0 :=
    cstr_receive (hle.trans (by decide)) h0
  have hoperand : cstr (s.operandBuffer ⟨sig1, sig2⟩) = sig2 ↔
      sig2.length < 8 ∨ s.buffer.getD sig2.length 0 = 0 := cstr_pongAndReceiveData hle hfits.le hnul
  have hpong : Exchange.Holds (receiveAnswer buffer (str "pong")) (str "pong") ↔
      buffer.getD 4 0 = 0 := (holds_receiveAnswer (by decide)).trans (and_iff_right (by decide))
  -- the last answer is longer than `pong` if the service has read the command
  have hlast : cstr (s.commandBuffer ⟨sig1, sig2⟩) = sig1 → ∀ response t,
      serve ⟨sig1, sig2⟩ (s.asked answers) = .ok response t →
        (Exchange.Holds ((Exchange.signals sig1 sig2 buffer).final response) (cstr response) ↔
          (cstr response).length < bufferSize ∧ buffer.getD (cstr response).length 0 = 0) := by
    intro hread response t hserve
    have hlong : Long response :=
      serve_long (s := s.asked answers) (readCommand_hasOperand hsig hread) hserve
    exact holds_second (zero_notMem_cstr response) hlong
  constructor
  · rintro ⟨⟨hread, hread2, hread3⟩, hall⟩
    refine ⟨⟨hcommand.mp hread, hoperand.mp hread2⟩, hpong.mp hread3, fun response t hserve => ?_⟩
    exact (hlast hread response t hserve).mp (hall response t hserve)
  · rintro ⟨⟨hclear, hclear2⟩, hclear3, hall⟩
    have hread := hcommand.mpr hclear
    refine ⟨⟨hread, hoperand.mpr hclear2, hpong.mpr hclear3⟩, fun response t hserve => ?_⟩
    exact (hlast hread response t hserve).mpr (hall response t hserve)

/-- After any exchanges, all strings of the next one are received as they are sent exactly if the
client's buffer has a NUL behind each answer and, for the first exchange, the service's buffer has
one behind each message; and then the client gets the response to what it has sent. -/
theorem framed_iff {s t : Server} {exchanges : List (Exchange × Answers)}
    (hrun : Run Exchanged s exchanges t) {exchange : Exchange} (hreal : exchange.Real)
    (answers : Answers) :
    (exchange.Framed t answers ↔
      (exchanges = [] → exchange.ServerClear s.buffer) ∧ exchange.ClientClear t answers) ∧
    (exchange.Framed t answers → ∀ result u, exchange.perform (t.asked answers) = .ok result u →
      ∃ response, serve exchange.request (t.asked answers) = .ok response u ∧
        result = (0, exchange.final response)) := by
  rw [← serverClear_run hrun exchange]
  cases hreal with
  | @word sig buffer hsig =>
    refine ⟨framed_word hsig, ?_⟩
    rintro ⟨hread, -⟩ result u hperform
    obtain ⟨response, hserve, hresult⟩ := perform_word.mp hperform
    have hread : cstr (receive t.buffer sig) = sig := hread
    -- a single word has no operand, so the answer is the response
    have hanswered : ¬(t.asked answers).Asks sig := by
      change ¬(readCommand (receive t.buffer sig)).HasOperand
      unfold readCommand
      rw [hread]
      simp only [List.mem_cons, List.not_mem_nil, or_false] at hsig
      rcases hsig with rfl | rfl | rfl | rfl <;> decide
    rw [if_neg hanswered] at hresult
    exact ⟨response, hserve, hresult.symm⟩
  | @signals sig1 sig2 buffer hsig hnul hfits =>
    refine ⟨framed_signals hsig hnul hfits, ?_⟩
    rintro ⟨⟨hread, -, -, hpong⟩, -⟩ result u hperform
    -- both ends have read what was sent, so the second round takes place
    have hoperand : (readCommand (receive t.buffer sig1)).HasOperand :=
      readCommand_hasOperand hsig hread
    have hasks : (t.asked answers).Asks sig1 := hoperand
    rw [perform_asked hasks hpong] at hperform
    obtain ⟨response, hserve, hresult⟩ := bind_pure_ok.mp hperform
    exact ⟨response, hserve, hresult.symm⟩

/-- What a buffer may hold before it is used. -/
def garbage : Text := str "xxxxxxxxxxxxxxxx"

/-- What is left of an answer that was as long. -/
def leftovers : Text := str "sent" ++ 0 :: garbage

theorem exchanged_of_isSome {s : Server} {label : Exchange × Answers}
    (h : (label.1.perform.run' (s.asked label.2)).isSome = true) : ∃ t, Exchanged s label t := by
  cases hperform : label.1.perform (s.asked label.2) with
  | ok result t => exact ⟨t, result, hperform⟩
  | error f t =>
    rw [EStateM.run', EStateM.run, hperform] at h
    cases h

/-- A ping behind one that the service has not understood. -/
theorem framed_iff_ping :
    ∃ t, Run Exchanged (.loaded .zero 0 [] garbage)
        [(.word (str "ping") garbage, ⟨[], [], fun _ => none, []⟩)] t ∧
      (Exchange.word (str "ping") leftovers).Framed t ⟨[], [], fun _ => none, []⟩ := by
  obtain ⟨t, hfirst⟩ : ∃ t, Exchanged (.loaded .zero 0 [] garbage)
      (.word (str "ping") garbage, ⟨[], [], fun _ => none, []⟩) t :=
    exchanged_of_isSome (by decide +kernel)
  have hreal : (Exchange.word (str "ping") leftovers).Real := .word (by decide)
  have hrun := Run.single hfirst
  refine ⟨t, hrun, (framed_iff hrun hreal ⟨[], [], fun _ => none, []⟩).1.mpr
    ⟨fun hnil => absurd hnil (List.cons_ne_nil _ _), trivial, fun response u hserve => ?_⟩⟩
  have hread : readCommand ((t.asked ⟨[], [], fun _ => none, []⟩).commandBuffer
      ⟨str "ping", []⟩) = .ping := by
    show readCommand (receive t.buffer (str "ping")) = .ping
    rw [hfirst.buffer]
    decide
  obtain ⟨v, text, hhandle, -, -⟩ := serve_ok hserve
  set s := t.asked ⟨[], [], fun _ => none, []⟩
  have hget : (get : ServerM Server) s = .ok s s := rfl
  have hpong : handleRequest ⟨str "ping", []⟩ s = .ok (str "pong") s := by
    rw [handleRequest, bind_ok hget, hread]
    rfl
  obtain ⟨rfl, -⟩ := EStateM.Result.ok.inj (hpong.symm.trans hhandle)
  decide

/-- The service takes the first `ping` for no command and the client takes it for offline; and
the client does not know the answer of a service with a clear buffer. -/
theorem garbage_unframed :
    ¬(Exchange.word (str "ping") []).Framed (.loaded .zero 0 [] garbage)
      ⟨[], [], fun _ => none, []⟩ ∧
    (∃ t, pingServer [] (.loaded .zero 0 [] garbage) = .ok (-1) t) ∧
    ∃ t, pingServer garbage .empty = .ok (-1) t := by
  have hrun : ∀ {buffer : Text} {s : Server}, (match pingServer buffer s with
      | .ok result _ => decide (result = -1)
      | .error _ _ => false) = true → ∃ t, pingServer buffer s = .ok (-1) t := by
    intro buffer s h
    split at h
    · rename_i result t hping
      obtain rfl : result = -1 := of_decide_eq_true h
      exact ⟨t, hping⟩
    · cases h
  refine ⟨fun h => absurd h.1 (by decide +kernel), ?_, ?_⟩
  · exact hrun (by decide +kernel)
  · exact hrun (by decide +kernel)

end KbPm
