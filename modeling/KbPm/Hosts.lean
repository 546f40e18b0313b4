/-
Several services at once.

`kbpm service start` goes on if its ping is not answered, and until its service listens no other
ping is answered either.  The services of a machine write one config file, and one of them, at
most, has the name of the socket.

* `Saving`, `overwrite` — a save writes its text block by block, at an offset of its own;
* `Service`, `Host`, `Host.step` — the services, their clients, and the starts under way;
* `single_service` — starts that wait for each other leave one service at a time.
-/
import KbPm.Lives

namespace KbPm

open Trace Scan Outcome

/-! ### Writes of a stream -/

/-- `st_blksize` of the config file: a stream writes whole blocks, and at its end what is left. -/
def blockSize : ℕ := 4096

/-- A write at an offset; what the file does not have in front of it is filled with zeros. -/
def overwrite (file : Text) (offset : ℕ) (bytes : Text) : Text :=
  file.take offset ++ List.replicate (offset - file.length) 0 ++ bytes ++
    file.drop (offset + bytes.length)

theorem overwrite_zero (file bytes : Text) :
    overwrite file 0 bytes = bytes ++ file.drop bytes.length := by
  simp [overwrite]

/-- A write behind the first part of a text. -/
theorem overwrite_take {text : Text} {n : ℕ} (hn : n ≤ text.length) (m : ℕ) :
    overwrite (text.take n) n ((text.drop n).take m) = text.take (n + m) := by
  have hlength : (text.take n).length = n := List.length_take_of_le hn
  have hend : (text.take n).drop (n + ((text.drop n).take m).length) = [] :=
    List.drop_eq_nil_of_le (by omega)
  rw [overwrite, hend, hlength, Nat.sub_self, List.replicate_zero, List.append_nil, List.append_nil,
    List.take_take, Nat.min_self, ← List.take_add]

/-- The text of a save, and how much of it has been written behind the `fopen`. -/
structure Saving where
  text : Text
  written : ℕ
  inside : written = 0 ∨ (blockSize ≤ written ∧ written < text.length)

namespace Saving

def first (text : Text) : Saving := ⟨text, 0, Or.inl rfl⟩

/-- Where the next write ends, if it writes one block and so many more. -/
def upTo (w : Saving) (blocks : ℕ) : ℕ := w.written + (blocks + 1) * blockSize

theorem blockSize_le_upTo (w : Saving) (blocks : ℕ) : blockSize ≤ w.upTo blocks :=
  Nat.le_add_left_of_le (Nat.le_mul_of_pos_left blockSize (Nat.succ_pos blocks))

def next (w : Saving) (blocks : ℕ) (hpart : w.upTo blocks < w.text.length) : Saving :=
  ⟨w.text, w.upTo blocks, Or.inr ⟨w.blockSize_le_upTo blocks, hpart⟩⟩

theorem written_le (w : Saving) : w.written ≤ w.text.length := by
  rcases w.inside with h | ⟨-, h⟩ <;> omega

/-- The text is written in one call. -/
def Brief (w : Saving) : Prop := w.text.length ≤ blockSize

theorem Brief.written {w : Saving} (h : w.Brief) : w.written = 0 := by
  rcases w.inside with hzero | ⟨hle, hlt⟩
  · exact hzero
  · exact absurd (hle.trans_lt hlt) (Nat.not_lt.mpr h)

theorem Brief.upTo {w : Saving} (h : w.Brief) (blocks : ℕ) : w.text.length ≤ w.upTo blocks :=
  Nat.le_trans h (w.blockSize_le_upTo blocks)

end Saving

/-! ### Services -/

/-- Where the socket thread is. -/
inductive Stage
  /-- before `unlink` -/
  | loaded
  /-- before `bind` -/
  | unlinked
  /-- before `listen` -/
  | bound
  | listening
  /-- `bind` has failed, and with it `listen`; `accept` fails, and the thread goes on -/
  | deaf
  deriving DecidableEq

structure Service where
  system : System
  stage : Stage
  /-- what the clients are going to ask that have connected -/
  queue : List Request
  /-- the save that has emptied the file and is not over -/
  saving : Option Saving
  killed : Bool

/-- What services share: the config file, and `LOCAL_SOCKET_FILE`, which names the socket of one of
them. -/
structure Shared where
  configFile : Text
  name : Option ℕ

inductive ServiceEvent
  | unlink
  | bind
  | listen
  /-- a client is accepted, and handled up to the `fopen` of the save -/
  | accept (answers : Answers)
  /-- the same without a client: `accept` and `read` return -1 -/
  | spin (answers : Answers)
  /-- so many blocks of the text, besides one, or what is left of it: then the round is over -/
  | flush (blocks : ℕ)
  /-- the main thread goes on, or a child dies -/
  | step (event : Event)
  | kill

def Shared.write (shared : Shared) (w : Saving) (blocks : ℕ) : Shared :=
  { shared with
    configFile := overwrite shared.configFile w.written
      ((w.text.drop w.written).take ((blocks + 1) * blockSize)) }

/-- What the main thread and the children can do; the monitor waits for the lock while a save is
under way. -/
def Event.besides (saving : Option Saving) : Event → Bool
  | .request _ _ => false
  | .handle _ => saving.isNone
  | _ => true

namespace Service

def live (s : Service) : Bool := !s.killed && !s.system.phase.over

/-- A round of the socket thread, up to the write of its save. -/
def round (s : Service) (shared : Shared) (request : Request) (answers : Answers) :
    Service × Shared :=
  match handleRequest request (s.system.server.asked answers) with
  | .ok _ server =>
    match saveProcessList server.processList with
    | .ok text => ({ s with system := ⟨server, s.system.phase⟩, saving := some (.first text) },
        { shared with configFile := [] })
    | .error fault =>
      ({ s with system := ⟨server, .ended fault⟩ }, { shared with configFile := [] })
  | .error fault server => ({ s with system := ⟨server, .ended fault⟩ }, shared)

/-- A write of the save; it is over with what is left of its text. -/
def wrote (s : Service) (w : Saving) (blocks : ℕ) : Service :=
  if hpart : w.upTo blocks < w.text.length then { s with saving := some (w.next blocks hpart) }
  else { s with
    system := { s.system with server := { s.system.server with buffer := [] } }
    saving := none }

/-- What happens to the service `k`. -/
def step (k : ℕ) (s : Service) (shared : Shared) : ServiceEvent → Option (Service × Shared)
  | .unlink =>
    if s.stage = .loaded then some ({ s with stage := .unlinked }, { shared with name := none })
    else none
  | .bind =>
    if s.stage = .unlinked then
      if shared.name = none then some ({ s with stage := .bound }, { shared with name := some k })
      else some ({ s with stage := .deaf }, shared)
    else none
  | .listen => if s.stage = .bound then some ({ s with stage := .listening }, shared) else none
  | .accept answers =>
    if s.stage = .listening ∧ s.saving = none ∧ s.system.server.kernel.Fresh answers.forks then
      match s.queue with
      | request :: queue => some (round { s with queue := queue } shared request answers)
      | [] => none
    else none
  | .spin answers =>
    if s.stage = .deaf ∧ s.saving = none ∧ s.system.server.kernel.Fresh answers.forks then
      some (s.round shared ⟨[], []⟩ answers)
    else none
  | .flush blocks => s.saving.map fun w => (s.wrote w blocks, shared.write w blocks)
  | .step event =>
    if event.besides s.saving then
      (s.system.step event).map fun σ => ({ s with system := σ }, shared)
    else none
  | .kill => some ({ s with killed := true }, shared)

/-- What it is that happens. -/
inductive Stepped (k : ℕ) (s : Service) (shared : Shared) : ServiceEvent → Service × Shared → Prop
  | unlink (hstage : s.stage = .loaded) :
    Stepped k s shared .unlink ({ s with stage := .unlinked }, { shared with name := none })
  | bind (hstage : s.stage = .unlinked) (hname : shared.name = none) :
    Stepped k s shared .bind ({ s with stage := .bound }, { shared with name := some k })
  | fail (hstage : s.stage = .unlinked) (hname : shared.name ≠ none) :
    Stepped k s shared .bind ({ s with stage := .deaf }, shared)
  | listen (hstage : s.stage = .bound) :
    Stepped k s shared .listen ({ s with stage := .listening }, shared)
  | accept {answers : Answers} {request : Request} {queue : List Request}
    (hstage : s.stage = .listening) (hsaving : s.saving = none)
    (hqueue : s.queue = request :: queue) :
    Stepped k s shared (.accept answers) (round { s with queue := queue } shared request answers)
  | spin {answers : Answers} (hstage : s.stage = .deaf) (hsaving : s.saving = none) :
    Stepped k s shared (.spin answers) (s.round shared ⟨[], []⟩ answers)
  | flush {w : Saving} {blocks : ℕ} (hsaving : s.saving = some w) :
    Stepped k s shared (.flush blocks) (s.wrote w blocks, shared.write w blocks)
  | step {event : Event} {σ : System} (hbesides : event.besides s.saving = true)
    (hstep : Steps s.system event σ) :
    Stepped k s shared (.step event) ({ s with system := σ }, shared)
  | kill : Stepped k s shared .kill ({ s with killed := true }, shared)

theorem stepped {k : ℕ} {s : Service} {shared : Shared} {event : ServiceEvent}
    {next : Service × Shared} (h : s.step k shared event = some next) :
    Stepped k s shared event next := by
  unfold step at h
  cases event with
  | unlink =>
    obtain ⟨hstage, h⟩ := Option.ite_none_right_eq_some.mp h
    obtain rfl := Option.some_inj.mp h
    exact .unlink hstage
  | bind =>
    obtain ⟨hstage, h⟩ := Option.ite_none_right_eq_some.mp h
    split at h
    · rename_i hname
      obtain rfl := Option.some_inj.mp h
      exact .bind hstage hname
    · rename_i hname
      obtain rfl := Option.some_inj.mp h
      exact .fail hstage hname
  | listen =>
    obtain ⟨hstage, h⟩ := Option.ite_none_right_eq_some.mp h
    obtain rfl := Option.some_inj.mp h
    exact .listen hstage
  | accept answers =>
    obtain ⟨⟨hstage, hsaving, -⟩, h⟩ := Option.ite_none_right_eq_some.mp h
    cases hqueue : s.queue with
    | nil => simp [hqueue] at h
    | cons request queue =>
      rw [hqueue] at h
      obtain rfl := Option.some_inj.mp h
      exact .accept hstage hsaving hqueue
  | spin answers =>
    obtain ⟨⟨hstage, hsaving, -⟩, h⟩ := Option.ite_none_right_eq_some.mp h
    obtain rfl := Option.some_inj.mp h
    exact .spin hstage hsaving
  | flush blocks =>
    obtain ⟨w, hsaving, rfl⟩ := Option.map_eq_some_iff.mp h
    exact .flush hsaving
  | step event =>
    obtain ⟨hbesides, h⟩ := Option.ite_none_right_eq_some.mp h
    obtain ⟨σ, hstep, rfl⟩ := Option.map_eq_some_iff.mp h
    exact .step hbesides hstep
  | kill =>
    obtain rfl := Option.some_inj.mp h
    exact .kill

end Service

/-! ### The machine -/

structure Host where
  shared : Shared
  services : List Service
  /-- starts whose ping has not been answered and that have not loaded the list -/
  starting : ℕ

inductive HostEvent
  /-- `kbpm service start` pings, and nobody answers -/
  | ping
  /-- and loads the list, with this in the rest of its buffers -/
  | load (junk buffer : Text)
  | connect (request : Request)
  /-- `kbpm service clean` -/
  | clean
  | service (k : ℕ) (event : ServiceEvent)

namespace Host

/-- The service that clients get to. -/
def listener (h : Host) : Option (ℕ × Service) := do
  let k ← h.shared.name
  let s ← h.services[k]?
  if s.live ∧ s.stage = .listening then some (k, s) else none

def put (h : Host) (k : ℕ) (next : Service × Shared) : Host :=
  { h with shared := next.2, services := h.services.set k next.1 }

def step (h : Host) : HostEvent → Option Host
  | .ping => if h.listener.isNone then some { h with starting := h.starting + 1 } else none
  | .load junk buffer =>
    if h.starting = 0 then none
    else
      match serviceLoad (some h.shared.configFile) junk with
      | .ok (l, n) =>
        some { h with
          services :=
            h.services ++ [⟨⟨.loaded l n [] buffer, .starting 0⟩, .loaded, [], none, false⟩]
          starting := h.starting - 1 }
      | .error _ => some { h with starting := h.starting - 1 }
  | .connect request => h.listener.map fun l =>
    h.put l.1 ({ l.2 with queue := l.2.queue ++ [request] }, h.shared)
  | .clean => some { h with shared := { h.shared with name := none } }
  | .service k event => do
    let s ← h.services[k]?
    if s.live then (s.step k h.shared event).map (h.put k) else none

end Host

def Hosted (h : Host) (event : HostEvent) (h' : Host) : Prop := h.step event = some h'

section Hosted

variable {h h' : Host}

theorem Host.listener_eq_some {k : ℕ} {s : Service} :
    h.listener = some (k, s) ↔ h.shared.name = some k ∧ h.services[k]? = some s ∧ s.live = true ∧
      s.stage = .listening := by
  simp only [Host.listener, Option.bind_eq_bind, Option.bind_eq_some_iff,
    Option.ite_none_right_eq_some, Option.some_inj, Prod.mk.injEq]
  constructor
  · rintro ⟨j, hname, t, ht, ⟨hlive, hstage⟩, rfl, rfl⟩
    exact ⟨hname, ht, hlive, hstage⟩
  · rintro ⟨hname, hs, hlive, hstage⟩
    exact ⟨k, hname, s, hs, ⟨hlive, hstage⟩, rfl, rfl⟩

/-- What it is that happens on the machine. -/
inductive Host.Stepped (h : Host) : HostEvent → Host → Prop
  | ping (hlistener : h.listener = none) :
    Stepped h .ping { h with starting := h.starting + 1 }
  | load {junk buffer : Text} {l : ProcessList} {n : ℕ} (hstarting : h.starting ≠ 0)
    (hload : serviceLoad (some h.shared.configFile) junk = .ok (l, n)) :
    Stepped h (.load junk buffer) { h with
      services :=
        h.services ++ [⟨⟨.loaded l n [] buffer, .starting 0⟩, .loaded, [], none, false⟩]
      starting := h.starting - 1 }
  | refuse {junk buffer : Text} {fault : Fault} (hstarting : h.starting ≠ 0)
    (hload : serviceLoad (some h.shared.configFile) junk = .error fault) :
    Stepped h (.load junk buffer) { h with starting := h.starting - 1 }
  | connect {request : Request} {k : ℕ} {s : Service} (hname : h.shared.name = some k)
    (hs : h.services[k]? = some s) (hlive : s.live = true) (hstage : s.stage = .listening) :
    Stepped h (.connect request) (h.put k ({ s with queue := s.queue ++ [request] }, h.shared))
  | clean : Stepped h .clean { h with shared := { h.shared with name := none } }
  | service {k : ℕ} {event : ServiceEvent} {s : Service} {next : Service × Shared}
    (hs : h.services[k]? = some s) (hlive : s.live = true)
    (hstep : s.step k h.shared event = some next)
    (hstepped : Service.Stepped k s h.shared event next) :
    Stepped h (.service k event) (h.put k next)

theorem Host.stepped {event : HostEvent} (hstep : Hosted h event h') : h.Stepped event h' := by
  cases event with
  | ping =>
    obtain ⟨hlistener, hstep⟩ := Option.ite_none_right_eq_some.mp hstep
    obtain rfl := Option.some_inj.mp hstep
    exact .ping (Option.isNone_iff_eq_none.mp hlistener)
  | load junk buffer =>
    obtain ⟨hstarting, hstep⟩ := Option.ite_none_left_eq_some.mp hstep
    cases hload : serviceLoad (some h.shared.configFile) junk with
    | error fault =>
      rw [hload] at hstep
      obtain rfl := Option.some_inj.mp hstep
      exact .refuse hstarting hload
    | ok loaded =>
      rw [hload] at hstep
      obtain rfl := Option.some_inj.mp hstep
      exact .load hstarting hload
  | connect request =>
    obtain ⟨⟨k, s⟩, hlistener, rfl⟩ := Option.map_eq_some_iff.mp hstep
    obtain ⟨hname, hs, hlive, hstage⟩ := Host.listener_eq_some.mp hlistener
    exact .connect hname hs hlive hstage
  | clean =>
    obtain rfl := Option.some_inj.mp hstep
    exact .clean
  | service k event =>
    obtain ⟨s, hs, hrest⟩ := Option.bind_eq_some_iff.mp hstep
    obtain ⟨hlive, hrest⟩ := Option.ite_none_right_eq_some.mp hrest
    obtain ⟨next, hnext, rfl⟩ := Option.map_eq_some_iff.mp hrest
    exact .service hs hlive hnext (Service.stepped hnext)

/-- A service after something has happened to the service `k`. -/
theorem Host.get_put {k j : ℕ} {s t : Service} {next : Service × Shared}
    (hs : h.services[k]? = some s) :
    (h.put k next).services[j]? = some t ↔
      (j = k ∧ next.1 = t) ∨ (j ≠ k ∧ h.services[j]? = some t) := by
  have hk : k < h.services.length := (List.getElem?_eq_some_iff.mp hs).1
  rw [Host.put, List.getElem?_set]
  by_cases hj : j = k
  · subst hj
    simp [hk]
  · simp [hj, Ne.symm hj]

/-- The services after one more has loaded its list. -/
theorem Host.get_load {services : List Service} {j : ℕ} {s t : Service} :
    (services ++ [s])[j]? = some t ↔ services[j]? = some t ∨ (j = services.length ∧ s = t) := by
  rcases Nat.lt_trichotomy j services.length with hlt | rfl | hgt
  · rw [List.getElem?_append_left hlt]
    simp [Nat.ne_of_lt hlt]
  · simp
  · have hlast : j - services.length ≠ 0 := by omega
    rw [List.getElem?_append_right (Nat.le_of_lt hgt), List.getElem?_singleton, if_neg hlast]
    simp [Nat.ne_of_gt hgt, Nat.le_of_lt hgt]

end Hosted

/-- A round, and the work of the main thread, leave the socket as it is. -/
theorem Service.round_keeps (s : Service) (shared : Shared) (request : Request)
    (answers : Answers) :
    (s.round shared request answers).1.stage = s.stage ∧
      (s.round shared request answers).1.queue = s.queue ∧
      (s.round shared request answers).2.name = shared.name := by
  unfold Service.round
  cases handleRequest request (s.system.server.asked answers) with
  | error fault server => exact ⟨rfl, rfl, rfl⟩
  | ok response server =>
    dsimp only
    cases saveProcessList server.processList <;> exact ⟨rfl, rfl, rfl⟩

theorem Service.wrote_part {s : Service} {w : Saving} {blocks : ℕ}
    (hpart : w.upTo blocks < w.text.length) :
    s.wrote w blocks = { s with saving := some (w.next blocks hpart) } := dif_pos hpart

theorem Service.wrote_last {s : Service} {w : Saving} {blocks : ℕ}
    (hlast : w.text.length ≤ w.upTo blocks) : s.wrote w blocks = { s with
      system := { s.system with server := { s.system.server with buffer := [] } }
      saving := none } := dif_neg (Nat.not_lt.mpr hlast)

theorem Service.wrote_stage (s : Service) (w : Saving) (blocks : ℕ) :
    (s.wrote w blocks).stage = s.stage := by
  unfold Service.wrote
  split <;> rfl

/-- What the file has behind a write, if the text is written in one call or the file is as the save
has left it. -/
theorem Shared.write_part {shared : Shared} {w : Saving}
    (hfile : shared.configFile = w.text.take w.written) (blocks : ℕ) :
    (shared.write w blocks).configFile = w.text.take (w.upTo blocks) := by
  rw [Shared.write, hfile]
  exact overwrite_take w.written_le _

theorem Shared.write_last {shared : Shared} {w : Saving} {blocks : ℕ}
    (hlast : w.text.length ≤ w.upTo blocks)
    (hfile : w.written = 0 ∨ shared.configFile = w.text.take w.written) :
    ∃ rest, (shared.write w blocks).configFile = w.text ++ rest := by
  rcases hfile with hzero | hfile
  · refine ⟨shared.configFile.drop w.text.length, ?_⟩
    rw [Saving.upTo, hzero, Nat.zero_add] at hlast
    rw [Shared.write, hzero, List.drop_zero, List.take_of_length_le hlast]
    exact overwrite_zero _ _
  · refine ⟨[], ?_⟩
    rw [Shared.write_part hfile, List.take_of_length_le hlast, List.append_nil]

/-! ### One service at a time -/

/-- A start waits for the one before it, and the name is taken from no service that is there. -/
def Host.Orderly (h : Host) : HostEvent → Prop
  | .ping => h.starting = 0 ∧
    ∀ s ∈ h.services, s.live = true → s.stage = .listening ∨ s.stage = .deaf
  | .clean => ∀ s ∈ h.services, s.live = false
  | _ => True

/-- Who has the name, if the service `k` is there and no other. -/
def Placed (k : ℕ) (name : Option ℕ) : Stage → Prop
  | .loaded => True
  | .unlinked => name = none
  | .bound => name = some k
  | .listening => name = some k
  | .deaf => False

inductive Single (h : Host) : Prop
  | none (hstarting : h.starting ≤ 1) (hdead : ∀ s ∈ h.services, s.live = false)
  | one {k : ℕ} {s : Service} (hstarting : h.starting = 0) (hs : h.services[k]? = some s)
    (hlive : s.live = true) (hplaced : Placed k h.shared.name s.stage)
    (hothers : ∀ j t, h.services[j]? = some t → t.live = true → j = k)

section Single

variable {h h' : Host} {k : ℕ} {s : Service}

theorem Single.put (hstarting : h.starting = 0) (hs : h.services[k]? = some s)
    (hothers : ∀ j t, h.services[j]? = some t → t.live = true → j = k) {next : Service × Shared}
    (hplaced : next.1.live = true → Placed k next.2.name next.1.stage) : Single (h.put k next) := by
  have hothers' : ∀ j t, (h.put k next).services[j]? = some t → t.live = true → j = k := by
    intro j t ht hlive
    rcases (Host.get_put hs).mp ht with ⟨hj, -⟩ | ⟨-, ht⟩
    · exact hj
    · exact hothers j t ht hlive
  have hk : (h.put k next).services[k]? = some next.1 :=
    (Host.get_put hs).mpr (Or.inl ⟨rfl, rfl⟩)
  by_cases hlive : next.1.live = true
  · exact .one hstarting hk hlive (hplaced hlive) hothers'
  · refine .none (by show h.starting ≤ 1; omega) fun t ht => ?_
    obtain ⟨j, hj⟩ := List.mem_iff_getElem?.mp ht
    by_contra htlive
    rw [Bool.not_eq_false] at htlive
    obtain rfl := hothers' j t hj htlive
    obtain rfl := Option.some_inj.mp (hk.symm.trans hj)
    exact hlive htlive

theorem Placed.stepped {shared : Shared} (h : Placed k shared.name s.stage) {event : ServiceEvent}
    {next : Service × Shared} (hstep : Service.Stepped k s shared event next) :
    Placed k next.2.name next.1.stage := by
  cases hstep with
  | unlink => rfl
  | bind => rfl
  | fail hstage hname =>
    rw [hstage] at h
    exact absurd h hname
  | listen hstage =>
    rw [hstage] at h
    exact h
  | @accept answers request queue hstage =>
    obtain ⟨hstage', -, hname⟩ :=
      Service.round_keeps { s with queue := queue } shared request answers
    rw [hstage', hname]
    exact h
  | spin hstage =>
    rw [hstage] at h
    exact h.elim
  | @flush w blocks =>
    rw [Service.wrote_stage]
    exact h
  | step => exact h
  | kill => exact h

theorem Single.step (h₁ : Single h) {event : HostEvent} (horderly : h.Orderly event)
    (hstep : Hosted h event h') : Single h' := by
  cases Host.stepped hstep with
  | ping hlistener =>
    obtain ⟨hstarting, hwaits⟩ := horderly
    cases h₁ with
    | none _ hdead => exact .none (by show h.starting + 1 ≤ 1; omega) hdead
    | @one k s _ hs hlive hplaced =>
      -- it would have answered
      have hmem := List.mem_of_getElem? hs
      rcases hwaits s hmem hlive with hstage | hstage <;> rw [hstage] at hplaced
      · rw [Host.listener_eq_some.mpr ⟨hplaced, hs, hlive, hstage⟩] at hlistener
        cases hlistener
      · exact hplaced.elim
  | load hstarting hload =>
    cases h₁ with
    | one hstarting' => exact absurd hstarting' hstarting
    | none hle hdead =>
      refine .one (k := h.services.length) (by show h.starting - 1 = 0; omega)
        List.getElem?_concat_length rfl trivial fun j t ht hlive => ?_
      rcases Host.get_load.mp ht with ht | ⟨hj, -⟩
      · rw [hdead t (List.mem_of_getElem? ht)] at hlive
        cases hlive
      · exact hj
  | refuse hstarting hload =>
    cases h₁ with
    | one hstarting' => exact absurd hstarting' hstarting
    | none hle hdead => exact .none (by show h.starting - 1 ≤ 1; omega) hdead
  | @connect request k s hname hs hlive hstage =>
    cases h₁ with
    | none _ hdead =>
      rw [hdead s (List.mem_of_getElem? hs)] at hlive
      cases hlive
    | one hstarting _ _ _ hothers =>
      obtain rfl := hothers k s hs hlive
      refine Single.put hstarting hs hothers fun _ => ?_
      show Placed k h.shared.name s.stage
      rw [hstage]
      exact hname
  | clean =>
    cases h₁ with
    | none hle hdead => exact .none hle hdead
    | @one k s _ hs hlive =>
      rw [horderly s (List.mem_of_getElem? hs)] at hlive
      cases hlive
  | @service k event s next hs hlive _ hnext =>
    cases h₁ with
    | none _ hdead =>
      rw [hdead s (List.mem_of_getElem? hs)] at hlive
      cases hlive
    | one hstarting hs' _ hplaced hothers =>
      obtain rfl := hothers k s hs hlive
      obtain rfl := Option.some_inj.mp (hs.symm.trans hs')
      exact Single.put hstarting hs hothers fun _ => hplaced.stepped hnext

end Single

/-- A machine on which no service has been started. -/
def Host.fresh (file : Text) : Host := ⟨⟨file, none⟩, [], 0⟩

/-- If starts wait for each other, and the name is removed only when no service is there, then in
every run there is at most one service at a time, its `bind` does not fail, and clients get to it as
soon as it listens. -/
theorem single_service {file : Text} {events : List HostEvent} {h : Host}
    (hrun : Guarded Hosted Host.Orderly (.fresh file) events h) :
    (∀ (i j : ℕ) (s t : Service), h.services[i]? = some s → h.services[j]? = some t →
      s.live = true →
      t.live = true → i = j) ∧
      ∀ (k : ℕ) (s : Service), h.services[k]? = some s → s.live = true →
        s.stage ≠ .deaf ∧ (s.stage = .listening → h.listener = some (k, s)) := by
  have hfirst : Single (.fresh file) := .none (Nat.zero_le 1) fun s hs => by cases hs
  cases hrun.invariant (I := Single) (fun _ _ _ h₁ horderly hstep => h₁.step horderly hstep)
    hfirst with
  | none _ hdead =>
    have hnone : ∀ {k : ℕ} {s : Service}, h.services[k]? = some s → s.live ≠ true := by
      intro k s hs hlive
      rw [hdead s (List.mem_of_getElem? hs)] at hlive
      cases hlive
    exact ⟨fun i j s t hs _ hlive => absurd hlive (hnone hs),
      fun k s hs hlive => absurd hlive (hnone hs)⟩
  | one _ hs _ hplaced hothers =>
    refine ⟨fun i j s t hi hj hlive hlive' =>
      (hothers i s hi hlive).trans (hothers j t hj hlive').symm, fun k t ht hlive => ?_⟩
    obtain rfl := hothers k t ht hlive
    obtain rfl := Option.some_inj.mp (hs.symm.trans ht)
    constructor
    · intro hstage
      rw [hstage] at hplaced
      exact hplaced
    · intro hstage
      rw [hstage] at hplaced
      exact Host.listener_eq_some.mpr ⟨hplaced, hs, hlive, hstage⟩

instance (h : Host) : DecidablePred h.Orderly := fun event =>
  match event with
  | .ping => inferInstanceAs (Decidable (h.starting = 0 ∧
      ∀ s ∈ h.services, s.live = true → s.stage = .listening ∨ s.stage = .deaf))
  | .clean => inferInstanceAs (Decidable (∀ s ∈ h.services, s.live = false))
  | .load _ _ => .isTrue trivial
  | .connect _ => .isTrue trivial
  | .service _ _ => .isTrue trivial

/-- What a service does until it listens. -/
def listens (k : ℕ) : List HostEvent :=
  [.service k .unlink, .service k .bind, .service k .listen]

/-- A service is started and killed, and then another one is started. -/
def oneByOne : List HostEvent :=
  [.ping, .load [] []] ++ listens 0 ++ [.connect (plainRequest "ping"),
    .service 0 (.accept (onePid 7)), .service 0 (.flush 0), .service 0 .kill, .ping, .load [] []] ++
    listens 1

theorem single_service_web :
    ∃ h s, Run Hosted (.fresh webConfig) oneByOne h ∧ h.listener = some (1, s) := by
  obtain ⟨h, hrun, htest⟩ : ∃ h, Guarded Hosted Host.Orderly (.fresh webConfig) oneByOne h ∧
      (h.services[1]?.any fun s : Service => s.live && decide (s.stage = .listening)) = true :=
    Guarded.of_any (f := Host.step) (by decide +kernel)
  obtain ⟨s, hs, hlistens⟩ := (Option.any_eq_true _ _).mp htest
  rw [Bool.and_eq_true, decide_eq_true_iff] at hlistens
  obtain ⟨hlive, hstage⟩ := hlistens
  exact ⟨h, s, hrun.run, ((single_service hrun).2 1 s hs hlive).2 hstage⟩

end KbPm
