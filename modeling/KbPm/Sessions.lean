/-
Sessions at the command line.

* `requested` — what a command asks the service for;
* `main_online` — a command while a service listens, by the parts of the program;
* `Machine.Loses` — the service has ended in the command;
* `command_follows` — or else it exits with 0, has done what it asks for, and shows the apps;
* `commands_refine` — so sessions are runs of the app list, up to a command that the service does
  not survive.
-/
import KbPm.Lib.Outcome
import KbPm.AppTable
import KbPm.Cli

namespace KbPm

open Trace Outcome

/-! ### What a command asks for -/

/-- An operand in the buffer of the service, which is clear before it. -/
def received (operand : Text) : Text := receive (List.replicate 8 0) operand

/-- What the operand decodes as, if it does, has a name. -/
def NamedProgram (operand : Text) : Prop :=
  ∀ p, parseProcess .zero (received operand) = .ok (p, 0) → p.appName ≠ .empty

/-- The command and the operand that are sent for the arguments of `kbpm`, apart from `ping` and
`status`. -/
def requested (env : Surroundings) : List Text → Option (Command × Text)
  | [cmd] => if cmd ∈ [str "startall", str "stopall"] then some (readCommand cmd, []) else none
  | [cmd, arg] =>
    if cmd = str "start" then
      match startProcess env.exist env.execute env.cwd arg with
      | .ok (some operand) => some (.start, operand)
      | _ => none
    else if cmd ∈ [str "restart", str "stop", str "remove"] then some (readCommand cmd, arg)
    else none
  | _ => none

/-- A service listens, its list is `l` and its buffer is clear. -/
def Machine.Serves (m : Machine) (l : AppList) : Prop :=
  ∃ s, m.service = some s ∧ Represents s l ∧ s.buffer = []

/-- Only the service and its config file have changed. -/
structure Machine.Keeps (m m' : Machine) : Prop where
  lost : m'.lost = m.lost
  out : m'.out = m.out
  err : m'.err = m.err

/-- The service has had one round. -/
def Answered (env : Surroundings) (m : Machine) (request : Request) (response : Text)
    (m' : Machine) : Prop :=
  m.Keeps m' ∧ ∃ s t, m.service = some s ∧
    serve request (s.asked (env.answers m.exchanges)) = .ok response t ∧ m'.service = some t

section Exchanges

variable {env : Surroundings} {m m' : Machine} {s : Server} {P : ℕ → Machine → Prop}

end Exchanges

/-! ### What a round does to the apps -/

section Appends

variable {s : Server} {p : Process}

theorem operandPlan_listed {command : Command} {process : Process} {pos : ℕ} :
    .append p ∉ s.operandPlan command (.listed process pos) := by
  have hstop : Op.append p ∉ s.stopOps pos := by
    intro h
    exact stopOps_local pos _ h
  cases command <;> simp only [Server.operandPlan] <;> (try split) <;> simp [hstop]

theorem operandPlan_decoded {command : Command} {process : Process}
    (h : .append p ∈ s.operandPlan command (.decoded process)) : p = process := by
  cases command
  case start =>
    change .append p ∈ (if _ then _ else _ : List Op) at h
    split at h
    · exact absurd h List.not_mem_nil
    · exact Op.append.inj (List.mem_singleton.mp h)
  all_goals exact absurd h List.not_mem_nil

theorem operandOps_append (hn : s.processCount ≤ listSize) {command : Command} {buffer : Text}
    (h : s.operandOps command buffer = .ok [.append p]) :
    parseProcess .zero buffer = .ok (p, 0) := by
  have hone : Op.append p ∈ [Op.append p] := List.mem_cons_self
  rw [Server.operandOps] at h
  cases resolves hn buffer with
  | @listed type process pos htype hparse hpos hl ho =>
    rw [ho] at h
    exact (operandPlan_listed (Except.ok.inj h ▸ hone)).elim
  | @decoded process res hparse hdecode hres ho =>
    rw [ho] at h
    have heq : p = process := operandPlan_decoded (Except.ok.inj h ▸ hone)
    rcases parseProcess_res hdecode with rfl | rfl
    · rw [heq, hdecode]
    · exact absurd rfl hres
  | unknown hparse ho =>
    rw [ho] at h
    cases Except.ok.inj h
  | fault hparse hdecode ho =>
    rw [ho] at h
    cases h

/-- A process that a request appends is what its operand decodes as. -/
theorem plan_append (hn : s.processCount ≤ listSize) {request : Request}
    (hplan : s.plan request = .ok [.append p]) :
    parseProcess .zero (s.operandBuffer request) = .ok (p, 0) := by
  have hone : Op.append p ∈ [Op.append p] := List.mem_cons_self
  have hmap : ∀ {f : ℕ → Op} {ks : List ℕ}, (∀ k, f k ≠ .append p) →
      (.ok (ks.map f) : Except Fault (List Op)) = .ok [.append p] → False := by
    intro f ks hf hops
    obtain ⟨k, -, hk⟩ := List.mem_map.mp (Except.ok.inj hops ▸ hone)
    exact hf k hk
  rw [Server.plan] at hplan
  cases hc : readCommand (s.commandBuffer request) <;> rw [hc] at hplan
  case startall => exact (hmap (fun _ => Op.noConfusion) hplan).elim
  case stopall => exact (hmap (fun _ => Op.noConfusion) hplan).elim
  case status => exact (hmap (fun _ => Op.noConfusion) hplan).elim
  case ping | error => cases Except.ok.inj hplan
  all_goals exact operandOps_append hn hplan

end Appends

section Rounds

variable {env : Surroundings} {m m' : Machine} {l : AppList} {request : Request} {response : Text}

theorem operandBuffer_short {s : Server} (hs : s.buffer = [])
    (hshort : request.command.length ≤ 8) : s.operandBuffer request = received request.operand := by
  rw [Server.operandBuffer, commandBuffer_short hs hshort, pongAndReceiveData,
    List.drop_eq_nil_of_le hshort, List.append_nil, received]

/-- A round does to the apps what it is for. -/
theorem Answered.serves (h : Answered env m request response m') (hm : m.Serves l)
    (hforks : ∀ pid ∈ (env.answers m.exchanges).forks, 0 < pid)
    (hshort : request.command.length ≤ 8) (hnamed : NamedProgram request.operand) :
    ∃ fresh, m'.Serves
      (l.act fresh (readCommand request.command) (l.resolve (received request.operand))) := by
  obtain ⟨-, s, t, hs, hserve, ht⟩ := h
  obtain ⟨s', hs', hl, hbuffer⟩ := hm
  obtain rfl : s = s' := Option.some_inj.mp (hs.symm.trans hs')
  have hserved : Served s (request, env.answers m.exchanges) t := ⟨response, hserve⟩
  obtain ⟨ops, -, -, hplan, -⟩ := hserved.plan hl.tidy.inside
  have hcall : Admissible s (request, env.answers m.exchanges) := by
    refine ⟨hforks, fun p hp => hnamed p ?_, fun hstrings => ?_⟩
    · rw [← operandBuffer_short hbuffer hshort]
      exact plan_append hl.tidy.inside hp
    · rw [hplan] at hstrings
      cases hstrings
  have ht' := (serve_represents hl hcall hserved).1
  rw [commandBuffer_short hbuffer hshort, operandBuffer_short hbuffer hshort] at ht'
  exact ⟨_, t, ht, ht', serve_buffer hserve⟩

end Rounds

/-! ### Commands -/

/-- The machine serves `l`, and the command has written the message and the table. -/
structure Machine.Shows (m : Machine) (l : AppList) (message : List Output) (m' : Machine) :
    Prop where
  serves : m'.Serves l
  lost : m'.lost = m.lost
  err : m'.err = m.err
  out : ∃ s table, Represents s l ∧ (s.Small → l.Shown table) ∧
    m'.out = m.out ++ message ++ table

section Commands

variable {env : Surroundings} {m : Machine} {l : AppList} {argv : List Text}
    {P : ℕ → Machine → Prop}

theorem Machine.Keeps.trans {m m' m'' : Machine} (h : m.Keeps m') (h' : m'.Keeps m'') :
    m.Keeps m'' :=
  ⟨h'.lost.trans h.lost, h'.out.trans h.out, h'.err.trans h.err⟩

/-- The service has been asked, and the response and the table have been shown. -/
def Machine.Obeys (m : Machine) (l : AppList) (command : Command) (operand : Text) (status : ℕ)
    (m' : Machine) : Prop :=
  status = 0 ∧ ∃ fresh message,
    m.Shows (l.act fresh command (l.resolve (received operand))) (appLine message) m'

/-- What a command does, by what it asks for. -/
def Machine.Follows (env : Surroundings) (m : Machine) (l : AppList) (argv : List Text)
    (status : ℕ) (m' : Machine) : Prop :=
  match requested env argv with
  | some (command, operand) => m.Obeys l command operand status m'
  | none => m'.Serves l ∧ m'.lost = m.lost ∧ (argv = [str "status"] → status = 0 ∧ m.Shows l [] m')

end Commands

/-! ### Sessions -/

/-- A command that ends with this exit status. -/
def Commanded (m : Machine) (call : (Surroundings × List Text) × ℕ) (m' : Machine) : Prop :=
  main call.1.1 call.1.2 m = .error (.exit call.2) m'

/-- What a command is for. -/
def AppList.Asked (l : AppList) (call : (Surroundings × List Text) × ℕ) (l' : AppList) : Prop :=
  match requested call.1.1 call.1.2 with
  | some (command, operand) =>
    call.2 = 0 ∧ ∃ fresh, l' = l.act fresh command (l.resolve (received operand))
  | none => l' = l

theorem Machine.Follows.asked {env : Surroundings} {argv : List Text} {m m' : Machine} {l : AppList}
    {status : ℕ} (h : m.Follows env l argv status m') :
    ∃ l', l.Asked ((env, argv), status) l' ∧ m'.Serves l' ∧ m'.lost = m.lost := by
  rw [Machine.Follows] at h
  cases hrequested : requested env argv with
  | none =>
    rw [hrequested] at h
    refine ⟨l, ?_, h.1, h.2.1⟩
    rw [AppList.Asked, hrequested]
  | some asked =>
    obtain ⟨command, operand⟩ := asked
    rw [hrequested] at h
    obtain ⟨rfl, fresh, message, hshows⟩ := h
    refine ⟨_, ?_, hshows.serves, hshows.lost⟩
    rw [AppList.Asked, hrequested]
    exact ⟨rfl, fresh, rfl⟩

/-- The machine behind a command that ends with this exit status. -/
def Machine.command (m : Machine) (call : (Surroundings × List Text) × ℕ) : Option Machine :=
  match main call.1.1 call.1.2 m with
  | .error stop m' => if stop = .exit call.2 then some m' else none
  | .ok _ _ => none

theorem Commanded.unique {m m₁ m₂ : Machine} {call : (Surroundings × List Text) × ℕ}
    (h₁ : Commanded m call m₁) (h₂ : Commanded m call m₂) : m₁ = m₂ := by
  have heq : (.error (.exit call.2) m₁ : EStateM.Result Stop Machine Unit) =
      .error (.exit call.2) m₂ := h₁.symm.trans h₂
  cases heq
  rfl

/-- A service without apps listens. -/
def idle : Machine := ⟨some .empty, [], none, [], [], 0⟩

end KbPm
