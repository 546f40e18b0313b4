/-
A round of the socket thread is one step of the service.

In `Supervisor.lean` a request is served in one step.  In `Connection.lean` it takes many, and in
between clients write and go away, children die, `wait` returns, and the startup loop, which takes
no mutex, goes on.

* `Flagged` — what makes an iteration of it leave the text of the list as it is;
* `Owes`, `Files` — what a round that has been handled still has to write;
* `rounds_serial` — whatever is interleaved, the rounds in the order in which they are handled are
  requests that are served one at a time.
-/
import KbPm.Bounds
import KbPm.Connection
import KbPm.Programs

namespace KbPm

open Trace

/-- The list is not longer than its array, and each flag is one that the service sets itself. -/
structure Flagged (s : Server) : Prop where
  inside : s.processCount ≤ listSize
  flag : ∀ (k : ℕ) p, s.processList[k]? = some p → p.isRunning = 0 ∨ p.isRunning = 1

theorem slot_eq_ok {α : Type} {x : Except ℕ α} {a : α} : slot x = .ok a ↔ x = .ok a := by
  cases x <;> simp [slot, Except.mapError]

theorem delProcessByAppName_keeps {P : Process → Prop} (hP : ∀ p, P p → P p.shifted)
    {l l' : ProcessList} {name : StrBuf} {res : ℤ} (hl : ∀ (k : ℕ) p, l[k]? = some p → P p)
    (h : delProcessByAppName l name = .ok (l', res)) : ∀ (k : ℕ) p, l'[k]? = some p → P p := by
  obtain ⟨index, -, h⟩ := Slots.bind_eq_ok h
  cases index with
  | none =>
    cases h
    exact hl
  | some index =>
    obtain ⟨shifted, hshift, h⟩ := Slots.bind_eq_ok h
    cases h
    -- every slot of the new list comes from one of the old
    obtain ⟨other, -, hrel⟩ := Slots.shiftDown_related (R := fun p _ => P p)
      (f := Process.shifted) (g := Process.shifted) (b := l) (fun p _ hp => hP p hp)
      (fun k p _ hp _ => hl k p hp) (slot_eq_ok.mp hshift)
    intro k p hp
    have hk : k < listSize := (Vector.getElem?_eq_some_iff.mp hp).1
    exact hrel k p other[k] hp (by simp [hk])

theorem Flagged.setKernel {s : Server} (h : Flagged s) (kernel : Kernel) :
    Flagged (s.setKernel kernel) := ⟨h.inside, h.flag⟩

theorem Flagged.setSlot {s : Server} (h : Flagged s) (k : ℕ) {q : Process}
    (hq : q.isRunning = 0 ∨ q.isRunning = 1) : Flagged (s.setSlot k q) := by
  refine ⟨h.inside, fun j p hp => ?_⟩
  rw [getElem?_setSlot] at hp
  split_ifs at hp
  · obtain rfl := Option.some_inj.mp hp
    exact hq
  · exact h.flag j p hp

theorem Flagged.step {s t : Server} {op : Op} (h : Flagged s) (hstep : Effect s op t) :
    Flagged t := by
  cases hstep with
  | tick => exact ⟨h.inside, h.flag⟩
  | @note k p q hk hp hq =>
    refine h.setSlot k ?_
    rw [hq]
    exact h.flag k p hp
  | @number k p hk hp => exact h.setSlot k (h.flag k p hp)
  | @start k p pid forks hk hp hf h0 =>
    exact (h.setKernel _).setSlot (q := p.started pid s.kernel.now) k (Or.inr rfl)
  | @relaunch k p pid forks hk hp hrun hf h0 =>
    exact (h.setKernel _).setSlot (q := p.started pid s.kernel.now) k (Or.inr rfl)
  | @stop k p hk hp hrun hpid =>
    exact (h.setKernel _).setSlot (q := p.stopped) k (Or.inl rfl)
  | @quit k p hk hp hrun => exact h.setSlot (q := p.quit) k (Or.inl rfl)
  | @append p pid forks hn hf h0 =>
    refine ⟨hn, ((h.setKernel (s.kernel.forked p pid forks)).setSlot s.processCount ?_).flag⟩
    exact Or.inr rfl
  | remove hdel =>
    exact ⟨(Nat.sub_le _ _).trans h.inside,
      delProcessByAppName_keeps (P := fun p => p.isRunning = 0 ∨ p.isRunning = 1)
        (fun _ hp => hp) h.flag hdel⟩

theorem Flagged.run {s t : Server} {ops : List Op} (h : Flagged s) (hrun : Run Effect s ops t) :
    Flagged t :=
  hrun.invariant (fun _ _ _ hs hstep => hs.step hstep) h

/-- What the text of the list says of an entry. -/
def Process.recorded (process : Process) : (StrBuf × StrBuf × StrBuf) × Int32 :=
  (process.program, process.isRunning)

def recordedCJson (record : (StrBuf × StrBuf × StrBuf) × Int32) : CJson :=
  .object
    [(str "app_name", .string record.1.1.bytes),
      (str "cmd", .string record.1.2.1.bytes),
      (str "dir", .string record.1.2.2.bytes),
      (str "is_running", .number record.2.toInt)]

theorem saveProcessList_congr {l l' : ProcessList}
    (h : ∀ k : ℕ, (l'[k]?).map Process.recorded = (l[k]?).map Process.recorded) :
    saveProcessList l' = saveProcessList l := by
  have hmap : ∀ {β : Type} (f : (StrBuf × StrBuf × StrBuf) × Int32 → β) (k : ℕ),
      (l'[k]?).map (f ∘ Process.recorded) = (l[k]?).map (f ∘ Process.recorded) := by
    intro β f k
    rw [← Option.map_map, ← Option.map_map, h k]
  have hcount : getProcessListCount l' = getProcessListCount l :=
    getProcessListCount_congr (hmap fun record => record.1.1)
  have htext : listText l' = listText l := by
    unfold listText
    rw [hcount]
    congr 2
    apply List.ext_getElem?
    intro k
    rw [List.getElem?_map, List.getElem?_map, Slots.getElem?_inUse, Slots.getElem?_inUse]
    split
    · exact hmap recordedCJson k
    · rfl
  rw [saveProcessList_eq, saveProcessList_eq, htext]

/-- An iteration of the startup loop leaves the text of the list as it is. -/
theorem Flagged.save_startup {s t : Server} {i : ℕ} (h : Flagged s)
    (hrun : Run Effect s (s.startupPlan i) t) :
    saveProcessList t.processList = saveProcessList s.processList := by
  refine saveProcessList_congr fun k => ?_
  refine hrun.invariant_of (P := fun op => op = .number i ∨ op = .relaunch i)
    (I := fun u => Flagged u ∧
      (u.processList[k]?).map Process.recorded = (s.processList[k]?).map Process.recorded)
    (fun u op v hop hu hstep => ⟨hu.1.step hstep, ?_⟩) (fun op hop => ?_) ⟨h, rfl⟩ |>.2
  · rw [← hu.2]
    rcases hop with rfl | rfl
    · cases hstep with
      | @number _ p hk hp =>
        exact setSlot_keeps (f := Process.recorded) (q := { p with id := i }) hp rfl k
    · cases hstep with
      | @relaunch _ p pid forks hk hp hrunning hf h0 =>
        -- what runs has the flag that a start sets
        have hflag : p.isRunning = 1 := (hu.1.flag _ p hp).resolve_left hrunning
        refine setSlot_keeps (f := Process.recorded) (s := u.setKernel _)
          (q := p.started pid u.kernel.now) hp ?_ k
        rw [Process.recorded, Process.recorded, hflag]
        rfl
  · unfold Server.startupPlan at hop
    split at hop
    · simpa using hop
    · exact Or.inl (List.mem_singleton.mp hop)

/-! ### Rounds that are not over -/

/-- The thread has the mutex. -/
def SocketPoint.Inside : SocketPoint → Prop
  | .accepting => False
  | .accepted _ => False
  | _ => True

def MainPoint.Inside : MainPoint → Prop
  | .locked _ => True
  | .unlocking => True
  | _ => False

/-- A request has been handled, and the list has not been saved since. -/
def SocketPoint.Owes : SocketPoint → Prop
  | .answering _ _ => True
  | .closing _ => True
  | .saving => True
  | .printing => True
  | _ => False

/-- The file and the buffer that the round will leave. -/
def Files (s : Server) (point : SocketPoint) (file buffer : Text) : Prop :=
  match point with
  | .answering _ _ | .closing _ | .saving | .printing =>
    saveProcessList s.processList = .ok file ∧ buffer = []
  | .clearing => file = s.configFile ∧ buffer = []
  | _ => file = s.configFile ∧ buffer = s.buffer

theorem SocketPoint.Owes.inside {point : SocketPoint} (h : point.Owes) : point.Inside := by
  cases point with
  | answering c response => trivial
  | closing c => trivial
  | saving => trivial
  | printing => trivial
  | _ => exact h.elim

/-- Outside there is nothing to write. -/
theorem files_outside {s : Server} {point : SocketPoint} {file buffer : Text}
    (h : ¬point.Inside) : Files s point file buffer ↔ file = s.configFile ∧ buffer = s.buffer := by
  cases point with
  | accepting => exact Iff.rfl
  | accepted c => exact Iff.rfl
  | _ => exact absurd trivial h

/-- The phase of the main thread: it is before the lock until it handles a pid, and before `wait`
when it has. -/
def MainPoint.phase : MainPoint → Phase
  | .starting i => .starting i
  | .waiting => .waiting
  | .reaped pid => .reaped pid
  | .locked pid => .reaped pid
  | .unlocking => .waiting

structure Net.Orderly (N : Net) : Prop where
  flagged : Flagged N.server
  socket : N.socket.Inside ↔ N.mutex = some .socket
  main : N.main.Inside ↔ N.mutex = some .main

/-- A step of the system, with the response if it is a request. -/
def Responds (σ : System) (label : Event × Option Text) (τ : System) : Prop :=
  Steps σ label.1 τ ∧
    match label.1 with
    | .request request answers => ∃ response t, label.2 = some response ∧
        handleRequest request (σ.server.asked answers) = .ok response t
    | _ => label.2 = none

/-- A request with its answers and its response. -/
abbrev Reply : Type := Request × Answers × Text

def Reply.shown : Event × Option Text → List Reply
  | (.request request answers, some response) => [(request, answers, response)]
  | _ => []

def Net.replies (N : Net) : List Reply :=
  N.rounds.map fun round => (round.request, round.answers, round.response)

/-- The system serves requests in one step as the service does in rounds, unless the service is
over, or will be when it comes to save the list. -/
inductive Serial (N : Net) (σ : System) : Prop
  | ended (h : N.ending ≠ none)
  | doomed {fault : Fault} (h : N.Orderly) (howes : N.socket.Owes)
    (hsave : saveProcessList N.server.processList = .error fault)
  | follows {file buffer : Text} (h : N.Orderly) (hfiles : Files N.server N.socket file buffer)
    (hσ : σ = ⟨N.server.filed file buffer, N.main.phase⟩)

/-! ### Steps -/

/-- When the service is over, it stays so. -/
theorem ended_step {N M : Net} {event : NetEvent} (h : N.ending ≠ none)
    (hstep : NetSteps N event M) :
    M.ending ≠ none ∧ M.rounds = N.rounds := by
  cases hstep.cases with
  | client => exact ⟨h, rfl⟩
  | leave => exact ⟨h, rfl⟩
  | exit => exact ⟨h, rfl⟩
  | connect => exact ⟨h, rfl⟩
  | hangUp => exact ⟨h, rfl⟩
  | _ => contradiction

theorem Flagged.handled {s t : Server} {request : Request} {answers : Answers} {response : Text}
    (h : Flagged s) (hhandle : handleRequest request (s.asked answers) = .ok response t) :
    Flagged t := by
  have hs : Flagged (s.asked answers) := ⟨h.inside, h.flag⟩
  obtain ⟨ops, hrun, -⟩ := (handleRequest_performs hs.inside request).ok hhandle
  exact hs.run hrun

theorem Flagged.reaped {s t : Server} {pid : ℤ} {answers : Answers} (h : Flagged s)
    (hhandle : handleExit pid (s.asked answers) = .ok () t) : Flagged t := by
  have hs : Flagged (s.asked answers) := ⟨h.inside, h.flag⟩
  obtain ⟨ops, hrun, -⟩ := (handleExit_performs pid (s := s.asked answers) hs.inside).ok hhandle
  exact hs.run hrun

theorem Flagged.handled_files {s t : Server} {request : Request} {answers : Answers}
    {response : Text} (h : Flagged s)
    (hhandle : handleRequest request (s.asked answers) = .ok response t) :
    t.configFile = s.configFile ∧ t.buffer = s.buffer := by
  obtain ⟨ops, hrun, -⟩ :=
    (handleRequest_performs (s := s.asked answers) h.inside request).ok hhandle
  have hfiles := files_run hrun
  exact hfiles

theorem Flagged.reaped_files {s t : Server} {pid : ℤ} {answers : Answers} (h : Flagged s)
    (hhandle : handleExit pid (s.asked answers) = .ok () t) :
    t.configFile = s.configFile ∧ t.buffer = s.buffer := by
  obtain ⟨ops, hrun, -⟩ := (handleExit_performs pid (s := s.asked answers) h.inside).ok hhandle
  have hfiles := files_run hrun
  exact hfiles

theorem Flagged.iterated {s t : Server} {i : ℕ} {answers : Answers} (h : Flagged s)
    (hi : i < s.processCount) (hiterate : startupIteration i (s.asked answers) = .ok () t) :
    Flagged t ∧ saveProcessList t.processList = saveProcessList s.processList ∧
      t.configFile = s.configFile ∧ t.buffer = s.buffer := by
  have hs : Flagged (s.asked answers) := ⟨h.inside, h.flag⟩
  obtain ⟨ops, hrun, rfl⟩ :=
    (startupIteration_performs (s := s.asked answers) hi hs.inside).ok hiterate
  have hfiles := files_run hrun
  exact ⟨hs.run hrun, hs.save_startup hrun, hfiles.1, hfiles.2⟩

/-- Neither thread takes a mutex that the other has. -/
theorem Net.Orderly.step {N M : Net} {event : NetEvent} (h : N.Orderly)
    (hstep : NetSteps N event M) (halive : M.ending = none) : M.Orderly := by
  obtain ⟨hflagged, hsocket, hmain⟩ := h
  cases hstep.cases with
  | connect => exact ⟨hflagged, hsocket, hmain⟩
  | client => exact ⟨hflagged, hsocket, hmain⟩
  | leave => exact ⟨hflagged, hsocket, hmain⟩
  | hangUp => exact ⟨hflagged, hsocket, hmain⟩
  | wait _ hpoint =>
    exact ⟨⟨hflagged.inside, hflagged.flag⟩, hsocket, by rw [hpoint] at hmain; exact hmain⟩
  | exit => exact ⟨⟨hflagged.inside, hflagged.flag⟩, hsocket, hmain⟩
  | accept _ hpoint => exact ⟨hflagged, by rw [hpoint] at hsocket; exact hsocket, hmain⟩
  | lock _ hpoint hmutex =>
    refine ⟨hflagged, iff_of_true trivial rfl, ?_⟩
    rw [hmutex] at hmain
    exact hmain.trans (by simp)
  | readCommand _ hpoint => exact ⟨hflagged, by rw [hpoint] at hsocket; exact hsocket, hmain⟩
  | pong _ hpoint => exact ⟨hflagged, by rw [hpoint] at hsocket; exact hsocket, hmain⟩
  | noOperand _ hpoint => exact ⟨hflagged, by rw [hpoint] at hsocket; exact hsocket, hmain⟩
  | readOperand _ hpoint => exact ⟨hflagged, by rw [hpoint] at hsocket; exact hsocket, hmain⟩
  | handle _ hpoint _ hhandle =>
    exact ⟨hflagged.handled hhandle, by rw [hpoint] at hsocket; exact hsocket, hmain⟩
  | answer _ hpoint => exact ⟨hflagged, by rw [hpoint] at hsocket; exact hsocket, hmain⟩
  | close _ hpoint => exact ⟨hflagged, by rw [hpoint] at hsocket; exact hsocket, hmain⟩
  | empty _ hpoint =>
    exact ⟨⟨hflagged.inside, hflagged.flag⟩, by rw [hpoint] at hsocket; exact hsocket, hmain⟩
  | print _ hpoint =>
    exact ⟨⟨hflagged.inside, hflagged.flag⟩, by rw [hpoint] at hsocket; exact hsocket, hmain⟩
  | clear _ hpoint =>
    -- the main thread does not have what the socket thread gives back
    rw [hpoint] at hsocket
    rw [hsocket.mp trivial] at hmain
    exact ⟨⟨hflagged.inside, hflagged.flag⟩, iff_of_false id (by simp), hmain.trans (by simp)⟩
  | iterate _ hpoint hi _ hiterate =>
    exact ⟨(hflagged.iterated hi hiterate).1, hsocket, by rw [hpoint] at hmain; exact hmain⟩
  | finish _ hpoint => exact ⟨hflagged, hsocket, by rw [hpoint] at hmain; exact hmain⟩
  | lockMain _ hpoint hmutex =>
    refine ⟨hflagged, ?_, iff_of_true trivial rfl⟩
    rw [hmutex] at hsocket
    exact hsocket.trans (by simp)
  | handleExit _ hpoint _ hhandle =>
    exact ⟨hflagged.reaped hhandle, hsocket, by rw [hpoint] at hmain; exact hmain⟩
  | unlockMain _ hpoint =>
    rw [hpoint] at hmain
    rw [hmain.mp trivial] at hsocket
    exact ⟨hflagged, hsocket.trans (by simp), iff_of_false id (by simp)⟩
  | broken => cases halive
  | socketFault | mainFault => cases halive

theorem Serial.alive {N M : Net} {σ : System} {event : NetEvent} (h : Serial N σ)
    (hstep : NetSteps N event M) (halive : M.ending = none) : N.Orderly ∧ M.Orderly := by
  cases h with
  | ended h => exact absurd halive (ended_step h hstep).1
  | doomed h => exact ⟨h, h.step hstep halive⟩
  | follows h => exact ⟨h, h.step hstep halive⟩

/-- The service goes on, and leaves to the end of the round what it has to write. -/
theorem Serial.stutter {N M : Net} {σ : System} (h : Serial N σ)
    (horderly : M.ending = none → N.Orderly ∧ M.Orderly)
    (hending : N.ending ≠ none → M.ending ≠ none)
    (howes : N.socket.Owes → M.socket.Owes)
    (hlist : M.server.processList = N.server.processList)
    (hfiles : ∀ file buffer, Files N.server N.socket file buffer →
      Files M.server M.socket file buffer ∧ M.server.filed file buffer = N.server.filed file buffer)
    (hphase : M.main.phase = N.main.phase) : Serial M σ := by
  by_cases halive : M.ending = none
  · have hM := (horderly halive).2
    cases h with
    | ended h => exact absurd halive (hending h)
    | doomed _ hN hsave => exact .doomed hM (howes hN) (hlist ▸ hsave)
    | @follows file buffer _ hN hσ =>
      obtain ⟨hfile, hserver⟩ := hfiles file buffer hN
      exact .follows hM hfile (by rw [hserver, hphase]; exact hσ)
  · exact .ended halive

/-- Nothing is seen of a step. -/
theorem unseen {N M : Net} {σ : System} (h : Serial M σ) (hrounds : M.rounds = N.rounds) :
    ∃ ms τ, Run Responds σ ms τ ∧ Serial M τ ∧ M.replies = N.replies ++ ms.flatMap Reply.shown := by
  refine ⟨[], σ, .nil σ, h, ?_⟩
  rw [Net.replies, hrounds]
  exact (List.append_nil _).symm

/-- The system takes a step that is not a request. -/
theorem matched {N M : Net} {σ τ : System} {event : Event} (hstep : Steps σ event τ)
    (hevent : ∀ request answers, event ≠ .request request answers) (h : Serial M τ)
    (hrounds : M.rounds = N.rounds) :
    ∃ ms τ, Run Responds σ ms τ ∧ Serial M τ ∧ M.replies = N.replies ++ ms.flatMap Reply.shown := by
  have hresponds : Responds σ (event, none) τ := by
    refine ⟨hstep, ?_⟩
    cases event with
    | request request answers => exact absurd rfl (hevent request answers)
    | _ => rfl
  refine ⟨[(event, none)], τ, .single hresponds, h, ?_⟩
  rw [Net.replies, hrounds]
  cases event <;> exact (List.append_nil _).symm

theorem serve_of_handle {s t : Server} {request : Request} {response text : Text}
    (hhandle : handleRequest request s = .ok response t)
    (hsave : saveProcessList t.processList = .ok text) :
    serve request s = .ok response (t.filed text []) := by
  change (handleRequest request >>= _) s = _
  rw [bind_ok hhandle]
  have hconfig : saveConfig t = .ok () { t with configFile := text } := by
    change (attempt (saveProcessList t.processList) >>= _) { t with configFile := [] } = _
    rw [hsave]
    rfl
  rw [bind_ok hconfig]
  rfl

/-- A round is served when its request is handled. -/
theorem Serial.handle {N M : Net} {σ : System} {answers : Answers} {c : ℕ} {request : Request}
    {response : Text} {server : Server} (h : Serial N σ) (hM : M.Orderly) (halive : N.ending = none)
    (hpoint : N.socket = .received c request)
    (hfresh : N.server.kernel.Fresh answers.forks)
    (hhandle : handleRequest request (N.server.asked answers) = .ok response server)
    (hMeq : M = { N with
      server := server
      socket := .answering c response
      rounds := N.rounds ++ [⟨c, request, answers, response⟩] }) :
    ∃ ms τ, Run Responds σ ms τ ∧ Serial M τ ∧ M.replies = N.replies ++ ms.flatMap Reply.shown := by
  subst hMeq
  cases h with
  | ended h => exact absurd halive h
  | doomed _ howes => exact (by rw [hpoint] at howes; exact howes : False).elim
  | @follows file buffer _ hfiles hσ =>
    rw [hpoint] at hfiles
    obtain ⟨rfl, rfl⟩ := hfiles
    subst hσ
    have hphase : ∀ fault, N.main.phase ≠ .ended fault := by
      cases N.main <;> intro fault h <;> cases h
    -- the request is served, and is seen to be
    have hresponds : Responds ⟨N.server, N.main.phase⟩ (.request request answers, some response)
        ((⟨N.server, N.main.phase⟩ : System).after (serve request) answers N.main.phase) := by
      refine ⟨?_, response, server, rfl, hhandle⟩
      unfold Steps System.step
      cases hmain : N.main.phase with
      | ended fault => exact absurd hmain (hphase fault)
      | _ => exact if_pos hfresh
    refine ⟨_, _, .single hresponds, ?_, ?_⟩
    · cases hsave : saveProcessList server.processList with
      | error fault => exact .doomed hM trivial hsave
      | ok text =>
        have hserve := serve_of_handle hhandle hsave
        have hfiles' : Files server (.answering c response) text [] := ⟨hsave, rfl⟩
        refine .follows hM hfiles' ?_
        rw [System.after, hserve]
    · rw [Net.replies, List.map_append]
      rfl

/-- The main thread takes a step with an outcome: the startup loop, which runs in the middle of a
round, or the handling of a pid, which does not. -/
theorem Serial.iterate {N M : Net} {σ : System} {answers : Answers} {i : ℕ} {server : Server}
    (h : Serial N σ) (hN : N.Orderly) (hM : M.Orderly) (halive : N.ending = none)
    (hpoint : N.main = .starting i) (hi : i < N.server.processCount)
    (hfresh : N.server.kernel.Fresh answers.forks)
    (hiterate : startupIteration i (N.server.asked answers) = .ok () server)
    (hMeq : M = { N with server := server, main := .starting (i + 1) }) :
    ∃ ms τ, Run Responds σ ms τ ∧ Serial M τ ∧ M.replies = N.replies ++ ms.flatMap Reply.shown := by
  obtain ⟨-, hsave, hfile, hbuffer⟩ := hN.flagged.iterated hi hiterate
  subst hMeq
  cases h with
  | ended h => exact absurd halive h
  | doomed _ howes hfault => exact unseen (.doomed hM howes (hsave.trans hfault)) rfl
  | @follows file buffer _ hfiles hσ =>
    -- it does the same with the file and the buffer that the round will leave
    have hiterate' : startupIteration i ((N.server.filed file buffer).asked answers) =
        .ok () (server.filed file buffer) :=
          (compositional_blind.startupIteration i file buffer).ok hiterate
    have hfiles' : Files server N.socket file buffer := by
      unfold Files at hfiles ⊢
      rw [hsave, hfile, hbuffer]
      exact hfiles
    rw [hpoint] at hσ
    subst hσ
    have hstep : Steps ⟨N.server.filed file buffer, .starting i⟩ (.startup answers)
        ⟨server.filed file buffer, .starting (i + 1)⟩ := by
      unfold Steps System.step
      change (if i < N.server.processCount then
        if N.server.kernel.Fresh answers.forks then _ else none else _) = _
      rw [if_pos hi, if_pos hfresh, System.after, hiterate']
    exact matched hstep (by simp) (.follows hM hfiles' rfl) rfl

theorem Serial.finish {N M : Net} {σ : System} {i : ℕ} (h : Serial N σ) (hM : M.Orderly)
    (halive : N.ending = none) (hpoint : N.main = .starting i) (hi : N.server.processCount ≤ i)
    (hMeq : M = { N with main := .waiting }) :
    ∃ ms τ, Run Responds σ ms τ ∧ Serial M τ ∧ M.replies = N.replies ++ ms.flatMap Reply.shown := by
  subst hMeq
  cases h with
  | ended h => exact absurd halive h
  | doomed _ howes hfault => exact unseen (.doomed hM howes hfault) rfl
  | @follows file buffer _ hfiles hσ =>
    rw [hpoint] at hσ
    subst hσ
    have hstep : Steps ⟨N.server.filed file buffer, .starting i⟩
        (.startup ⟨[], [], fun _ => none, []⟩) ⟨N.server.filed file buffer, .waiting⟩ :=
      if_neg (Nat.not_lt.mpr hi)
    exact matched hstep (by simp) (.follows hM hfiles rfl) rfl

theorem Serial.handleExit {N M : Net} {σ : System} {answers : Answers} {pid : ℤ} {server : Server}
    (h : Serial N σ) (hN : N.Orderly) (hM : M.Orderly) (halive : N.ending = none)
    (hpoint : N.main = .locked pid) (hfresh : N.server.kernel.Fresh answers.forks)
    (hhandle : KbPm.handleExit pid (N.server.asked answers) = .ok () server)
    (hMeq : M = { N with server := server, main := .unlocking }) :
    ∃ ms τ, Run Responds σ ms τ ∧ Serial M τ ∧ M.replies = N.replies ++ ms.flatMap Reply.shown := by
  subst hMeq
  -- the socket thread is outside, and has nothing left to write
  have houtside : ¬N.socket.Inside := by
    have hmain := hN.main
    rw [hpoint] at hmain
    rw [hN.socket, hmain.mp trivial]
    simp
  cases h with
  | ended h => exact absurd halive h
  | doomed _ howes => exact absurd howes.inside houtside
  | @follows file buffer _ hfiles hσ =>
    obtain ⟨rfl, rfl⟩ := (files_outside houtside).mp hfiles
    have hfiles' := (files_outside (s := server) houtside).mpr ⟨rfl, rfl⟩
    have hsame : N.server.filed N.server.configFile N.server.buffer = N.server := rfl
    rw [hpoint, hsame] at hσ
    subst hσ
    have hstep : Steps ⟨N.server, .reaped pid⟩ (.handle answers) ⟨server, .waiting⟩ := by
      unfold Steps System.step
      change (if N.server.kernel.Fresh answers.forks then _ else none) = _
      rw [if_pos hfresh, System.after, hhandle]
    exact matched hstep (by simp) (.follows hM hfiles' rfl) rfl

/-- What happens to children, the system sees at once. -/
theorem Serial.kernel {N M : Net} {σ : System} {kernel : Kernel} {main : MainPoint} {event : Event}
    (h : Serial N σ) (hM : M.Orderly) (halive : N.ending = none)
    (hstep : ∀ file buffer, Steps ⟨N.server.filed file buffer, N.main.phase⟩ event
      ⟨({ N.server with kernel := kernel }).filed file buffer, main.phase⟩)
    (hevent : ∀ request answers, event ≠ .request request answers)
    (hMeq : M = { N with server := { N.server with kernel := kernel }, main := main }) :
    ∃ ms τ, Run Responds σ ms τ ∧ Serial M τ ∧ M.replies = N.replies ++ ms.flatMap Reply.shown := by
  subst hMeq
  cases h with
  | ended h => exact absurd halive h
  | doomed _ howes hfault => exact unseen (.doomed hM howes hfault) rfl
  | @follows file buffer _ hfiles hσ =>
    subst hσ
    exact matched (hstep file buffer) hevent (.follows hM hfiles rfl) rfl

/-- Every step of the service and its clients is a run of the system, of at most one step. -/
theorem Serial.step {N M : Net} {σ : System} {event : NetEvent} (h : Serial N σ)
    (hstep : NetSteps N event M) :
    ∃ ms τ, Run Responds σ ms τ ∧ Serial M τ ∧ M.replies = N.replies ++ ms.flatMap Reply.shown := by
  by_cases hend : N.ending = none
  swap
  · obtain ⟨hM, hrounds⟩ := ended_step hend hstep
    exact unseen (.ended (σ := σ) hM) hrounds
  have horderly := h.alive hstep
  have hending : N.ending ≠ none → M.ending ≠ none := fun h => absurd hend h
  cases hstep.cases with
  | connect =>
    exact unseen (h.stutter horderly hending id rfl (fun _ _ hf => ⟨hf, rfl⟩) rfl) rfl
  | client => exact unseen (h.stutter horderly hending id rfl (fun _ _ hf => ⟨hf, rfl⟩) rfl) rfl
  | leave => exact unseen (h.stutter horderly hending id rfl (fun _ _ hf => ⟨hf, rfl⟩) rfl) rfl
  | hangUp => exact unseen (h.stutter horderly hending id rfl (fun _ _ hf => ⟨hf, rfl⟩) rfl) rfl
  | accept _ hpoint | lock _ hpoint | readCommand _ hpoint | pong _ hpoint | noOperand _ hpoint
  | readOperand _ hpoint =>
    refine unseen (h.stutter horderly hending ?_ rfl (fun _ _ hf => ⟨?_, rfl⟩) rfl) rfl
    · rw [hpoint]
      exact id
    · rw [hpoint] at hf
      exact hf
  | handle halive hpoint hfresh hhandle =>
    exact h.handle (horderly halive).2 halive hpoint hfresh hhandle rfl
  | answer _ hpoint | close _ hpoint =>
    refine unseen (h.stutter horderly hending (fun _ => trivial)
      rfl (fun _ _ hf => ⟨?_, rfl⟩) rfl) rfl
    rw [hpoint] at hf
    exact hf
  | empty _ hpoint =>
    refine unseen (h.stutter horderly hending (fun _ => trivial)
      rfl (fun _ _ hf => ⟨?_, rfl⟩) rfl) rfl
    rw [hpoint] at hf
    exact hf
  | print halive hpoint hsave =>
    obtain ⟨hN, hM⟩ := horderly halive
    refine unseen (σ := σ) ?_ rfl
    cases h with
    | ended h => exact absurd halive h
    | doomed _ _ hfault => cases hsave.symm.trans hfault
    | @follows file buffer _ hfiles hσ =>
      rw [hpoint] at hfiles
      obtain ⟨hfile, rfl⟩ := hfiles
      obtain rfl := Except.ok.inj (hsave.symm.trans hfile)
      exact .follows hM ⟨rfl, rfl⟩ hσ
  | clear halive hpoint =>
    obtain ⟨hN, hM⟩ := horderly halive
    refine unseen (σ := σ) ?_ rfl
    cases h with
    | ended h => exact absurd halive h
    | doomed _ howes => exact (by rw [hpoint] at howes; exact howes : False).elim
    | @follows file buffer _ hfiles hσ =>
      rw [hpoint] at hfiles
      obtain ⟨rfl, rfl⟩ := hfiles
      exact .follows hM ⟨rfl, rfl⟩ hσ
  | iterate halive hpoint hi hfresh hiterate =>
    obtain ⟨hN, hM⟩ := horderly halive
    exact h.iterate hN hM halive hpoint hi hfresh hiterate rfl
  | finish halive hpoint hi => exact h.finish (horderly halive).2 halive hpoint hi rfl
  | lockMain _ hpoint =>
    exact unseen (h.stutter horderly hending id rfl (fun _ _ hf => ⟨hf, rfl⟩)
      (by rw [hpoint]; rfl)) rfl
  | handleExit halive hpoint hfresh hhandle =>
    obtain ⟨hN, hM⟩ := horderly halive
    exact h.handleExit hN hM halive hpoint hfresh hhandle rfl
  | unlockMain _ hpoint =>
    exact unseen (h.stutter horderly hending id rfl (fun _ _ hf => ⟨hf, rfl⟩)
      (by rw [hpoint]; rfl)) rfl
  | @wait pid kernel halive hpoint hreap =>
    have hwait : ∀ file buffer, Steps ⟨N.server.filed file buffer, N.main.phase⟩ (.wait pid)
        ⟨({ N.server with kernel := kernel }).filed file buffer, .reaped pid⟩ := by
      intro file buffer
      rw [hpoint]
      exact congrArg (Option.map _) hreap
    exact h.kernel (horderly halive).2 halive hwait (by simp) rfl
  | @exit pid hchild =>
    have hexit : ∀ file buffer, Steps ⟨N.server.filed file buffer, N.main.phase⟩ (.exit pid)
        ⟨({ N.server with
          kernel := { N.server.kernel with children := die pid N.server.kernel.children } }).filed
            file buffer, N.main.phase⟩ := fun _ _ => if_pos hchild
    exact h.kernel (horderly hend).2 hend hexit (by simp) rfl
  | broken => exact unseen (.ended (σ := σ) (by simp [Net.ends])) rfl
  | socketFault _ _ hrounds | mainFault _ _ hrounds =>
    exact unseen (.ended (σ := σ) (by simp [Net.ends])) hrounds

/-- Before its startup loop the service has nothing to write. -/
theorem Serial.launched {server : Server} (h : Flagged server) :
    Serial (.launched server) ⟨server, .starting 0⟩ := by
  have horderly : (Net.launched server).Orderly := ⟨h, iff_of_false id (by simp [Net.launched]),
    iff_of_false id (by simp [Net.launched])⟩
  have hfiles : Files server .accepting server.configFile server.buffer := ⟨rfl, rfl⟩
  exact .follows horderly hfiles rfl

/-- While the mutex is free the two are in the same state. -/
theorem Serial.free {N : Net} {σ : System} (h : Serial N σ) (halive : N.ending = none)
    (hfree : N.mutex = none) : σ = ⟨N.server, N.main.phase⟩ := by
  have houtside : N.Orderly → ¬N.socket.Inside := by
    intro hN hinside
    cases hfree.symm.trans (hN.socket.mp hinside)
  cases h with
  | ended h => exact absurd halive h
  | doomed h howes => exact absurd howes.inside (houtside h)
  | follows h hfiles hσ =>
    obtain ⟨rfl, rfl⟩ := (files_outside (houtside h)).mp hfiles
    exact hσ

/-- Rounds are serial: whatever the clients, the children and the main thread do in the middle of
them, the answers are those of requests that are served one at a time, in the order of the rounds,
and so is the state, whenever no round is under way. -/
theorem rounds_serial {server : Server} (hflagged : Flagged server)
    {events : List NetEvent} {M : Net}
    (hrun : Run NetSteps (.launched server) events M) :
    ∃ labels σ, Run Responds ⟨server, .starting 0⟩ labels σ ∧
      labels.flatMap Reply.shown = M.replies ∧
      (M.ending = none → M.mutex = none → σ = ⟨M.server, M.main.phase⟩) := by
  obtain ⟨labels, σ, hlabels, hM, hseen⟩ :=
    hrun.simulated (fun hN hstep => hN.step hstep) (Serial.launched hflagged)
  exact ⟨labels, σ, hlabels, hseen.symm, hM.free⟩

/-! A client that asks whether the service is there, while the startup loop starts an app. -/

def pingRound : List NetEvent :=
  [.connect (.word (str "ping") []), .client 0, .socket (onePid 7), .socket (onePid 7),
    .socket (onePid 7), .main (onePid 7), .socket (onePid 8), .socket (onePid 8),
    .main (onePid 8), .socket (onePid 8), .client 0, .socket (onePid 8), .socket (onePid 8),
    .socket (onePid 8), .socket (onePid 8)]

theorem webSystem_flagged : Flagged webSystem.server := by
  refine ⟨by decide, fun k p hp => ?_⟩
  change (ProcessList.zero.setIfInBounds 0 Process.web)[k]? = some p at hp
  rw [Vector.getElem?_setIfInBounds] at hp
  split_ifs at hp
  · obtain rfl := Option.some_inj.mp hp
    exact Or.inr rfl
  · rw [ProcessList.zero, Vector.getElem?_replicate] at hp
    split_ifs at hp
    obtain rfl := Option.some_inj.mp hp
    exact Or.inl rfl

theorem rounds_serial_ping :
    Flagged webSystem.server ∧ ∃ M labels σ, Run NetSteps (.launched webSystem.server) pingRound M ∧
      M.rounds.map (fun round => (round.client, round.response)) = [(0, str "pong")] ∧
      Run Responds webSystem labels σ ∧ labels.flatMap Reply.shown = M.replies ∧
      σ = ⟨M.server, .waiting⟩ := by
  have hany : (pingRound.foldlM Net.step (.launched webSystem.server)).any (fun M =>
      decide (M.ending = none ∧ M.mutex = none ∧ M.main.phase = .waiting ∧
        M.rounds.map (fun round => (round.client, round.response)) = [(0, str "pong")])) =
          true := by
    decide +kernel
  obtain ⟨M, hM, hp⟩ := Run.of_any hany
  obtain ⟨halive, hfree, hphase, hround⟩ := of_decide_eq_true hp
  obtain ⟨labels, σ, hlabels, hseen, hσ⟩ := rounds_serial webSystem_flagged hM
  refine ⟨webSystem_flagged, M, labels, σ, hM, hround, hlabels, hseen, ?_⟩
  rw [← hphase]
  exact hσ halive hfree

end KbPm
