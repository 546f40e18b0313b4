/-
A client that goes away too early ends the service.

* `Net.Lags` — what has been handled and is not saved;
* `sigpipe_forgets` — when the service ends by SIGPIPE, a client has gone away before its answer,
  and the config file is that of a service that has served all rounds before.
-/
import KbPm.Waiting

namespace KbPm

open Trace

/-- While a response is being written, the file is that of the rounds before. -/
def Net.Lags (server : Server) (N : Net) : Prop :=
  ∀ c response, N.socket = .answering c response →
    (∃ round, N.rounds.getLast? = some round ∧ round.client = c) ∧
    ∃ labels σ, Run Responds ⟨server, .starting 0⟩ labels σ ∧
      labels.flatMap Reply.shown = N.replies.dropLast ∧ σ.server.configFile = N.server.configFile

/-- The system behind the rounds of `N`. -/
def Net.Served (server : Server) (N : Net) : Prop :=
  ∃ labels σ, Run Responds ⟨server, .starting 0⟩ labels σ ∧ Serial N σ ∧
    labels.flatMap Reply.shown = N.replies

theorem served_run {server : Server} (hflagged : Flagged server) {events : List NetEvent} {M : Net}
    (hrun : Run NetSteps (.launched server) events M) : M.Served server := by
  obtain ⟨labels, σ, hlabels, hM, hseen⟩ :=
    hrun.simulated (fun hN hstep => hN.step hstep) (Serial.launched hflagged)
  exact ⟨labels, σ, hlabels, hM, hseen.symm⟩

/-- Before a request is handled, the system has the same file. -/
theorem Serial.file {N : Net} {σ : System} (h : Serial N σ) (halive : N.ending = none)
    (hpoint : (∃ c request, N.socket = .received c request) ∨
      ∃ c command, N.socket = .comparing c command) :
    σ.server.configFile = N.server.configFile := by
  cases h with
  | ended h => exact absurd halive h
  | doomed h howes =>
    rcases hpoint with ⟨c, request, hpoint⟩ | ⟨c, command, hpoint⟩ <;> rw [hpoint] at howes <;>
      exact howes.elim
  | follows h hfiles hσ =>
    subst hσ
    rcases hpoint with ⟨c, request, hpoint⟩ | ⟨c, command, hpoint⟩ <;> rw [hpoint] at hfiles <;>
      exact hfiles.1

theorem Net.Lags.step {server : Server} {N M : Net} {event : NetEvent} (h : N.Lags server)
    (hN : N.Served server) (horderly : N.Orderly) (hstep : NetSteps N event M)
    (halive : M.ending = none) : M.Lags server := by
  obtain ⟨labels, σ, hlabels, hserial, hseen⟩ := hN
  cases hstep.cases with
  | @handle answers c request response server' hN hpoint _ hhandle =>
    intro d response' hM
    cases hM
    refine ⟨⟨_, List.getLast?_concat, rfl⟩, labels, σ, hlabels, ?_, ?_⟩
    · rw [hseen, Net.replies, Net.replies, List.map_append]
      exact List.dropLast_concat.symm
    · rw [hserial.file hN (Or.inl ⟨c, request, hpoint⟩)]
      exact (horderly.flagged.handled_files hhandle).1.symm
  | iterate _ _ hi _ hiterate =>
    intro d response' hM
    obtain ⟨hlast, labels, τ, hrun, hshown, hfile⟩ := h d response' hM
    obtain ⟨-, -, hsame, -⟩ := horderly.flagged.iterated hi hiterate
    exact ⟨hlast, labels, τ, hrun, hshown, hfile.trans hsame.symm⟩
  | handleExit _ _ _ hhandle =>
    intro d response' hM
    obtain ⟨hlast, labels, τ, hrun, hshown, hfile⟩ := h d response' hM
    exact ⟨hlast, labels, τ, hrun, hshown,
      hfile.trans (horderly.flagged.reaped_files hhandle).1.symm⟩
  | accept | lock | readCommand | pong | noOperand | readOperand | answer | close | empty | print
  | clear =>
    intro d response' hM
    cases hM
  | broken => cases halive
  | socketFault | mainFault => cases halive
  | _ => exact h

/-- What is left when the write to client `c` has failed. -/
structure Net.Broken (server : Server) (N : Net) (c : ℕ) : Prop where
  gone : ∃ conn, N.conns[c]? = some conn ∧ conn.point = .gone
  saved : ∃ labels σ, Run Responds ⟨server, .starting 0⟩ labels σ ∧
    σ.server.configFile = N.server.configFile ∧
    (labels.flatMap Reply.shown = N.replies ∨
      labels.flatMap Reply.shown = N.replies.dropLast ∧
        ∃ round, N.rounds.getLast? = some round ∧ round.client = c)

/-- Who is written to and is not there, is gone. -/
theorem Conn.At.gone_of_closed {conn : Conn} {stand : Stand} (h : conn.At stand)
    (hstand : (∃ command, stand = .told command) ∨ ∃ request, stand = .heard request)
    (hclosed : conn.clientOpen = false) : conn.point = .gone := by
  cases h with
  | gone hgone => exact hgone
  | returned =>
    rcases hstand with ⟨command, hstand⟩ | ⟨request, hstand⟩ <;> cases hstand
  | _ => cases hclosed

/-- What comes behind the end of the service changes neither what it has served nor the file, and a
client that is gone stays so. -/
theorem Net.Broken.step {server : Server} {N M : Net} {event : NetEvent} {c : ℕ}
    (h : N.Broken server c) (hend : N.ending ≠ none) (hstep : NetSteps N event M) :
    M.Broken server c := by
  obtain ⟨⟨conn, hconn, hgone⟩, hsaved⟩ := h
  have hset : ∀ {d : ℕ} {old next : Conn}, N.conns[d]? = some old →
      (old.point = .gone → next.point = .gone) →
      ∃ conn, (N.conns.set d next)[c]? = some conn ∧ conn.point = .gone := by
    intro d old next hold hnext
    by_cases heq : d = c
    · subst heq
      obtain rfl := Option.some_inj.mp (hconn.symm.trans hold)
      have hlt : d < N.conns.length := (List.getElem?_eq_some_iff.mp hconn).1
      exact ⟨next, List.getElem?_set_self hlt, hnext hgone⟩
    · exact ⟨conn, (List.getElem?_set_ne heq).trans hconn, hgone⟩
  cases hstep.cases with
  | @connect exchange hroom =>
    have hlt : c < N.conns.length := (List.getElem?_eq_some_iff.mp hconn).1
    exact ⟨⟨conn, (List.getElem?_append_left hlt).trans hconn, hgone⟩, hsaved⟩
  | client hold hclient =>
    refine ⟨hset hold fun hpoint => ?_, hsaved⟩
    rw [Conn.step, hpoint] at hclient
    cases hclient
  | leave hold hleave =>
    refine ⟨hset hold fun hpoint => ?_, hsaved⟩
    unfold Conn.leave at hleave
    split_ifs at hleave
    obtain rfl := Option.some_inj.mp hleave
    simp only [hpoint]
  | hangUp hold => exact ⟨hset hold id, hsaved⟩
  | exit => exact ⟨⟨conn, hconn, hgone⟩, hsaved⟩
  | _ => contradiction

/-- The write fails. -/
theorem Net.broken {server : Server} {N : Net} {stand : ℕ → Stand} {c : ℕ} {conn : Conn}
    (hN : N.Attends stand) (hserved : N.Served server) (hlags : N.Lags server)
    (halive : N.ending = none)
    (hpoint : (∃ command, N.socket = .comparing c command) ∨
      ∃ response, N.socket = .answering c response)
    (hconn : N.conns[c]? = some conn) (hclosed : conn.clientOpen = false) :
    (N.ends .sigpipe).Broken server c := by
  have hat := hN.conns c conn hconn
  have hstand := hN.point
  rcases hpoint with ⟨command, hpoint⟩ | ⟨response, hpoint⟩ <;> rw [hpoint] at hstand
  · -- nothing has been handled for this client
    obtain ⟨labels, σ, hrun, hserial, hseen⟩ := hserved
    refine ⟨⟨conn, hconn, hat.gone_of_closed (Or.inl ⟨command, hstand⟩) hclosed⟩, labels, σ, hrun,
      hserial.file halive (Or.inr ⟨c, command, hpoint⟩), Or.inl hseen⟩
  · obtain ⟨hlast, labels, σ, hrun, hseen, hfile⟩ := hlags c response hpoint
    exact ⟨⟨conn, hconn, hat.gone_of_closed (Or.inr hstand) hclosed⟩, labels, σ, hrun, hfile,
      Or.inr ⟨hseen, hlast⟩⟩

/-- A client that goes away before its answer ends the service by SIGPIPE, and nothing else does.
The config file is then that of a service that has served all rounds but the last, if the write of
the response has failed: what has been done for this client, no later life of the service knows. -/
theorem sigpipe_forgets {server : Server} (hflagged : Flagged server) (hbuffer : server.buffer = [])
    {events : List NetEvent} (hready : ∀ exchange, .connect exchange ∈ events → exchange.Ready)
    {M : Net} (hrun : Run NetSteps (.launched server) events M) (hend : M.ending = some .sigpipe) :
    ∃ c, M.Broken server c := by
  suffices hboth : (M.ending = none → M.Lags server) ∧
      (M.ending = some .sigpipe → ∃ c, M.Broken server c) from hboth.2 hend
  clear hend
  induction events using List.reverseRecOn generalizing M with
  | nil =>
    obtain rfl := run_nil.mp hrun
    refine ⟨fun _ c response h => ?_, fun h => ?_⟩ <;> cases h
  | append_singleton events event ih =>
    obtain ⟨N, hbefore, hlast⟩ := run_append.mp hrun
    obtain ⟨_, hstep, hnil⟩ := run_cons.mp hlast
    obtain rfl := run_nil.mp hnil
    have hready' : ∀ exchange, .connect exchange ∈ events → exchange.Ready :=
      fun exchange h => hready exchange (List.mem_append_left _ h)
    obtain ⟨hlags, hbroken⟩ := ih hready' hbefore
    by_cases hN : N.ending = none
    · have hserved := served_run hflagged hbefore
      obtain ⟨stand, hstand⟩ := attends_run hflagged hbuffer hready' hbefore hN
      refine ⟨fun hM => (hlags hN).step hserved hstand.orderly hstep hM, fun hM => ?_⟩
      -- the service ends in this step
      cases hstep.cases with
      | broken _ hpoint hconn hclosed =>
        exact ⟨_, Net.broken hstand hserved (hlags hN) hN hpoint hconn hclosed⟩
      | socketFault => cases hM
      | mainFault => cases hM
      | _ => cases hN.symm.trans hM
    · have hsame : M.ending = N.ending := by
        cases hstep.cases <;> first | rfl | contradiction
      refine ⟨fun hM => absurd (hsame.symm.trans hM) hN, fun hM => ?_⟩
      obtain ⟨c, hc⟩ := hbroken (hsame.symm.trans hM)
      exact ⟨c, hc.step hN hstep⟩

/-! A client that goes away before it has sent its word. -/

def leaveFirst : List NetEvent :=
  [.connect (.word (str "ping") []), .leave 0, .socket noPids, .socket noPids, .socket noPids,
    .socket noPids, .socket noPids, .socket noPids]

theorem sigpipe_forgets_ping : ∃ M, Run NetSteps (.launched webSystem.server) leaveFirst M ∧
    M.ending = some .sigpipe ∧ ∃ c, M.Broken webSystem.server c := by
  have hany : (leaveFirst.foldlM Net.step (.launched webSystem.server)).any (fun M =>
      decide (M.ending = some .sigpipe)) = true := by
    decide +kernel
  obtain ⟨M, hM, hp⟩ := Run.of_any hany
  have hend := of_decide_eq_true hp
  have hready : ∀ exchange, .connect exchange ∈ leaveFirst → exchange.Ready := by
    intro exchange hconnect
    simp only [leaveFirst, List.mem_cons, NetEvent.connect.injEq, reduceCtorEq, List.not_mem_nil,
      or_false] at hconnect
    subst hconnect
    exact ⟨.word (by decide), trivial⟩
  exact ⟨M, hM, hend, sigpipe_forgets webSystem_flagged rfl hready hM hend⟩

end KbPm
