/-
Runs in which no status file is missing.

* `killAll`, `NoneMissed` — the kills of a request, one after the other, each on walks of its own;
* `serve_null` — a request other than status reads from a missing file exactly if one of its kills
  does;
* `FilesStay`, `reads_open_files` — so does a step of the service, in every run.
-/
import KbPm.Persistence
import KbPm.Plan
import KbPm.StatusFiles

namespace KbPm

open Trace

/-! ### The kills of a request -/

/-- The kills of `pids`, one after the other, and the walks that are left. -/
def killAll : List Walk → List ℤ → Except Fault (List Walk)
  | walks, [] => .ok walks
  | walks, pid :: pids => do
    (nextWalk walks).kill pid
    killAll walks.tail pids

/-- No kill of `pids` comes to a process that has gone, up to the first one that ends the
service. -/
def NoneMissed : List Walk → List ℤ → Prop
  | _, [] => True
  | walks, pid :: pids =>
    ¬(nextWalk walks).Misses pid ∧ ((nextWalk walks).kill pid = .ok () → NoneMissed walks.tail pids)

section Kills

variable {walks : List Walk} {pids : List ℤ}

theorem killAll_cons_ok {pid : ℤ} (h : (nextWalk walks).kill pid = .ok ()) (pids : List ℤ) :
    killAll walks (pid :: pids) = killAll walks.tail pids := by
  rw [killAll, h]
  rfl

theorem killAll_cons_error {pid : ℤ} {f : Fault} (h : (nextWalk walks).kill pid = .error f)
    (pids : List ℤ) : killAll walks (pid :: pids) = .error f := by
  rw [killAll, h]
  rfl

theorem missed_of_killAll (h : killAll walks pids = .error .nullFile) : ¬NoneMissed walks pids := by
  induction pids generalizing walks with
  | nil => cases h
  | cons pid pids ih =>
    rintro ⟨hhere, hrest⟩
    cases hkill : (nextWalk walks).kill pid with
    | error f =>
      rw [killAll_cons_error hkill] at h
      obtain rfl : f = .nullFile := Except.error.inj h
      exact hhere (Walk.misses_of_kill hkill)
    | ok u =>
      rw [killAll_cons_ok hkill] at h
      exact ih h (hrest hkill)

theorem readable_nextWalk (hwalks : ∀ walk ∈ walks, walk.Readable) : (nextWalk walks).Readable := by
  cases walks with
  | nil =>
    intro killed dir hdir
    cases hdir
  | cons walk walks => exact hwalks walk List.mem_cons_self

theorem killAll_of_missed (hwalks : ∀ walk ∈ walks, walk.Readable) (h : ¬NoneMissed walks pids) :
    killAll walks pids = .error .nullFile := by
  induction pids generalizing walks with
  | nil => exact absurd trivial h
  | cons pid pids ih =>
    by_cases hhere : (nextWalk walks).Misses pid
    · exact killAll_cons_error (Walk.kill_of_misses (readable_nextWalk hwalks) hhere) pids
    · -- it is one of the later kills, so this one comes to its end
      simp only [NoneMissed, not_and, Classical.not_imp] at h
      obtain ⟨hkill, hrest⟩ := h hhere
      rw [killAll_cons_ok hkill]
      exact ih (fun walk hwalk => hwalks walk (List.mem_of_mem_tail hwalk)) hrest

end Kills

namespace Server

/-- The pids of the entries in the slots `ks`. -/
def pidsAt (s : Server) (ks : List ℕ) : List ℤ :=
  ks.filterMap fun k => (s.processList[k]?).map Process.pid

/-- The pids that a request kills: those of the entries that it stops. -/
def killPids (s : Server) (request : Request) : List ℤ :=
  match s.plan request with
  | .ok ops => s.pidsAt (ops.filterMap fun op => if let .stop k := op then some k else none)
  | .error _ => []

end Server

/-- A plan stops entries first, each of them once, and none later. -/
theorem Planned.stops {s : Server} {ops : List Op} (h : Planned s ops) :
    ∃ (ks : List ℕ) (rest : List Op), ops = ks.map .stop ++ rest ∧ ks.Nodup ∧
      ∀ k, .stop k ∉ rest := by
  have hstop : ∀ (pos : ℕ) (rest : List Op), (∀ k, .stop k ∉ rest) →
      ∃ (ks : List ℕ) (rest' : List Op), s.stopOps pos ++ rest = ks.map .stop ++ rest' ∧ ks.Nodup ∧
        ∀ k, .stop k ∉ rest' := by
    intro pos rest hrest
    rcases stopOps_cases s pos with ⟨h, -⟩ | ⟨h, -⟩
    · exact ⟨[], rest, by rw [h]; rfl, List.nodup_nil, hrest⟩
    · exact ⟨[pos], rest, by rw [h]; rfl, List.nodup_singleton pos, hrest⟩
  cases h with
  | stopall =>
    exact ⟨_, [], (List.append_nil _).symm, List.nodup_range.filter _, fun _ => List.not_mem_nil⟩
  | stop =>
    rw [← List.append_nil (s.stopOps _)]
    exact hstop _ [] fun _ => List.not_mem_nil
  | restart => exact hstop _ _ (by simp)
  | remove => exact hstop _ _ (by simp)
  | _ => exact ⟨[], _, rfl, List.nodup_nil, by simp⟩

section Requests

variable {s t u : Server} {request : Request}

theorem killPids_eq {ks : List ℕ} {rest : List Op} (hplan : s.plan request =
    .ok (ks.map .stop ++ rest)) (hrest : ∀ k, .stop k ∉ rest) :
    s.killPids request = s.pidsAt ks := by
  have hnone : rest.filterMap (fun op => if let .stop k := op then some k else none) = [] := by
    refine List.filterMap_eq_nil_iff.mpr fun op hop => ?_
    cases op with
    | stop k => exact absurd hop (hrest k)
    | _ => rfl
  rw [Server.killPids, hplan]
  simp only [List.filterMap_append, hnone, List.append_nil, List.filterMap_map]
  congr 1
  exact List.filterMap_some

/-- Operations on other slots. -/
theorem pidsAt_congr {ks : List ℕ} (h : ∀ k ∈ ks, t.processList[k]? = s.processList[k]?) :
    t.pidsAt ks = s.pidsAt ks :=
  List.filterMap_congr fun k hk => by rw [h k hk]

theorem pidsAt_cons {k : ℕ} {p : Process} (hp : s.processList[k]? = some p) (ks : List ℕ) :
    s.pidsAt (k :: ks) = p.pid :: s.pidsAt ks := by
  rw [Server.pidsAt, List.filterMap_cons, hp]
  rfl

/-- Stopping an entry is killing its pid. -/
theorem killAll_stop {k : ℕ} {ks : List ℕ} (h : Effect s (.stop k) t) (hk : k ∉ ks) :
    killAll s.kernel.answers.walks (s.pidsAt (k :: ks)) =
      killAll t.kernel.answers.walks (t.pidsAt ks) := by
  have hframe : t.pidsAt ks = s.pidsAt ks := pidsAt_congr fun j hj => h.frame trivial (by
    rw [Op.slot, ne_eq, Option.some.injEq]
    rintro rfl
    exact hk hj)
  rw [hframe]
  cases h with
  | stop hlt hp hrun hpid hkill =>
    rw [pidsAt_cons hp, killAll_cons_ok hkill]
    rfl

theorem killAll_of_run {ks : List ℕ} (hks : ks.Nodup) (h : Run Effect s (ks.map .stop) t) :
    killAll s.kernel.answers.walks (s.pidsAt ks) = .ok t.kernel.answers.walks := by
  induction ks generalizing s with
  | nil =>
    obtain rfl := run_nil.mp h
    rfl
  | cons k ks ih =>
    obtain ⟨hk, hks⟩ := List.nodup_cons.mp hks
    obtain ⟨v, hstop, hrest⟩ := run_cons.mp h
    rw [killAll_stop hstop hk]
    exact ih hks hrest

theorem killAll_of_fails {before after : List ℕ} {k : ℕ} {f : Fault}
    (hks : (before ++ k :: after).Nodup) (h : Run Effect s (before.map .stop) u)
    (hf : Fails u (.stop k) f t) :
    killAll s.kernel.answers.walks (s.pidsAt (before ++ k :: after)) = .error f := by
  induction before generalizing s with
  | nil =>
    obtain rfl := run_nil.mp h
    cases hf with
    | stop hlt hp hrun hkill =>
      rw [List.nil_append, pidsAt_cons hp]
      exact killAll_cons_error hkill _
  | cons j before ih =>
    rw [List.cons_append] at hks ⊢
    obtain ⟨hj, hks⟩ := List.nodup_cons.mp hks
    obtain ⟨v, hstop, hrest⟩ := run_cons.mp h
    rw [killAll_stop hstop hj]
    exact ih hks hrest

/-- The operations before `o` in a plan: only stops, or all the stops of the plan. -/
theorem plan_split (hn : s.processCount ≤ listSize) {ops rest : List Op} {o : Op}
    (hplan : s.plan request = .ok (ops ++ o :: rest)) :
    (∃ before k after, o = .stop k ∧ ops = before.map .stop ∧ (before ++ k :: after).Nodup ∧
        s.killPids request = s.pidsAt (before ++ k :: after)) ∨
      (∀ k, o ≠ .stop k) ∧ ∃ ks more, ops = ks.map .stop ++ more ∧ ks.Nodup ∧
        s.killPids request = s.pidsAt ks := by
  obtain ⟨ks, more, heq, hks, hmore⟩ := (plan_cases hn hplan).stops
  have hpids : s.killPids request = s.pidsAt ks := killPids_eq (heq ▸ hplan) hmore
  rcases List.append_eq_append_iff.mp heq with ⟨as, hstops, hrest⟩ | ⟨bs, hops, hrest⟩
  · cases as with
    | nil =>
      rw [List.nil_append] at hrest
      rw [List.append_nil] at hstops
      exact Or.inr ⟨fun k ho => hmore k (hrest ▸ ho ▸ List.mem_cons_self),
        ks, [], by rw [hstops, List.append_nil], hks, hpids⟩
    | cons a as =>
      obtain ⟨rfl, -⟩ := List.cons_eq_cons.mp hrest
      obtain ⟨before, behind, rfl, rfl, hbehind⟩ := List.map_eq_append_iff.mp hstops
      obtain ⟨k, after, rfl, rfl, -⟩ := List.map_eq_cons_iff.mp hbehind
      exact Or.inl ⟨before, k, after, rfl, rfl, hks, hpids⟩
  · exact Or.inr ⟨fun k ho => hmore k (hrest ▸ List.mem_append_right _ (ho ▸ List.mem_cons_self)),
      ks, bs, hops, hks, hpids⟩

theorem killAll_done {ks : List ℕ} {more : List Op} (hks : ks.Nodup)
    (h : Run Effect s (ks.map .stop ++ more) t) :
    ∃ walks, killAll s.kernel.answers.walks (s.pidsAt ks) = .ok walks := by
  obtain ⟨v, hstops, -⟩ := run_append.mp h
  exact ⟨_, killAll_of_run hks hstops⟩

end Requests

/-! ### What reads no file -/

theorem attempt_avoids {α : Type} {x : Except Fault α} {f : Fault} (h : x ≠ .error f) :
    Avoids (attempt x) f := by
  intro s t hx
  cases x with
  | ok a => cases hx
  | error f' =>
    cases hx
    exact h rfl

theorem slot_ne_nullFile {α : Type} (x : Except ℕ α) : slot x ≠ .error .nullFile := by
  cases x with
  | ok a => simp [slot, Except.mapError]
  | error k => simp [slot, Except.mapError]

theorem readSlot_avoids (k : ℕ) : Avoids (readSlot k) .nullFile :=
  (avoids_get _).bind fun _ => attempt_avoids (slot_ne_nullFile _)

theorem writeSlot_avoids (k : ℕ) (p : Process) : Avoids (writeSlot k p) .nullFile :=
  (avoids_get _).bind fun _ => (attempt_avoids (slot_ne_nullFile _)).bind fun _ => avoids_modify _ _

theorem time_avoids : Avoids time .nullFile :=
  (avoids_get _).bind fun _ => (avoids_modify _ _).bind fun _ => avoids_pure _ _

theorem fork_avoids (p : Process) : Avoids (fork p) .nullFile := by
  refine (avoids_get _).bind fun s => ?_
  simp only
  split
  · exact avoids_pure _ _
  · exact (avoids_modify _ _).bind fun _ => avoids_pure _ _

theorem serverStartProcess_avoids (p : Process) : Avoids (serverStartProcess p) .nullFile := by
  refine (fork_avoids p).bind fun pid => ?_
  split
  · exact (avoids_throw (by decide)).bind fun _ => time_avoids.bind fun _ => avoids_pure _ _
  · exact time_avoids.bind fun _ => avoids_pure _ _

theorem startupIteration_avoids (i : ℕ) : Avoids (startupIteration i) .nullFile := by
  refine (readSlot_avoids i).bind fun p => (writeSlot_avoids i _).bind fun _ => ?_
  split
  · exact (readSlot_avoids i).bind fun p => (serverStartProcess_avoids p).bind fun _ =>
      writeSlot_avoids i _
  · exact avoids_pure _ _

theorem handleExitFrom_avoids (pid : ℤ) (steps i : ℕ) :
    Avoids (handleExitFrom pid steps i) .nullFile := by
  induction steps generalizing i with
  | zero => exact avoids_pure _ _
  | succ steps ih =>
    refine (readSlot_avoids i).bind fun p => ?_
    split
    · exact ih _
    · split
      · exact avoids_pure _ _
      · refine time_avoids.bind fun now => ?_
        split
        · exact writeSlot_avoids i _
        · exact (serverStartProcess_avoids p).bind fun _ =>
            (writeSlot_avoids i _).bind fun _ => ih _

theorem handleExit_avoids (pid : ℤ) : Avoids (handleExit pid) .nullFile :=
  (avoids_get _).bind fun _ => handleExitFrom_avoids pid _ _

/-! ### A restart -/

section Restart

variable {s t : Server} {p : Process}

theorem serverStopProcess_null (h : serverStopProcess p s = .error .nullFile t) :
    p.isRunning ≠ 0 ∧ s.kernel.walk.kill p.pid = .error .nullFile := by
  by_cases hrun : p.isRunning = 0
  · rw [serverStopProcess_idle hrun] at h
    cases h
  · refine ⟨hrun, ?_⟩
    cases hkill : s.kernel.walk.kill p.pid with
    | ok u =>
      rw [serverStopProcess_run hrun hkill] at h
      cases h
    | error f =>
      obtain ⟨u, hu, -⟩ := serverStopProcess_fail hrun hkill
      rw [hu] at h
      cases h
      rfl

theorem serverRestartProcess_null (h : serverRestartProcess p s = .error .nullFile t) :
    p.isRunning ≠ 0 ∧ s.kernel.walk.kill p.pid = .error .nullFile := by
  rw [serverRestartProcess] at h
  cases hstop : serverStopProcess p s with
  | error f u =>
    rw [bind_error hstop] at h
    cases h
    exact serverStopProcess_null hstop
  | ok q u =>
    rw [bind_ok hstop] at h
    exact absurd h ((serverStartProcess_avoids q).bind (fun _ => avoids_pure _ _) u t)

/-- A restart reads no file but in the kill before it. -/
theorem serverRestartProcessAndGetResponse_null (hn : s.processCount ≤ listSize) {buffer : Text}
    (h : serverRestartProcessAndGetResponse buffer s = .error .nullFile t) :
    ∃ process pos, s.operand buffer = .ok (.listed process pos) ∧ process.isRunning ≠ 0 ∧
      ∃ p, s.processList[pos]? = some p ∧ p.isRunning ≠ 0 ∧
        s.kernel.walk.kill p.pid = .error .nullFile := by
  have hread : (get : ServerM Server) s = .ok s s := rfl
  rw [serverRestartProcessAndGetResponse, bind_ok hread] at h
  cases resolves hn buffer with
  | @listed type process pos htype hparse hpos hlisted ho =>
    rw [hparse, bind_ok (attempt_ok _ s)] at h
    obtain ⟨k, p, -, -, -, hp, -⟩ := hlisted
    have hpos' : attempt (getPosInProcessList s.processList s.processCount process) s =
        .ok pos s := by
      rw [hpos, attempt_ok]
    refine ⟨process, pos, ho, ?_⟩
    by_cases hrun : process.isRunning = 0
    · rcases htype with rfl | rfl <;>
      · simp only [hrun] at h
        cases h
    · refine ⟨hrun, p, hp, ?_⟩
      have hrest : Avoids (do
          return str "Restarted " ++ process.appName.bytes ++ str " with " ++
            decimal (← readSlot pos).pid ++ str ".") Fault.nullFile :=
        (readSlot_avoids pos).bind fun _ => avoids_pure _ _
      -- the restart itself has failed
      have hrestart : updateSlot pos serverRestartProcess s = .error .nullFile t := by
        have h' : (updateSlot pos serverRestartProcess >>= fun _ => do
            return str "Restarted " ++ process.appName.bytes ++ str " with " ++
              decimal (← readSlot pos).pid ++ str ".") s = .error .nullFile t := by
          rcases htype with rfl | rfl <;>
          · simp only [if_pos hrun] at h
            rwa [bind_ok hpos'] at h
        cases hup : updateSlot pos serverRestartProcess s with
        | ok a u =>
          rw [bind_ok hup] at h'
          exact absurd h' (hrest u t)
        | error f u =>
          rw [bind_error hup] at h'
          cases h'
          rfl
      rw [updateSlot, bind_ok (readSlot_run hp)] at hrestart
      cases hbody : serverRestartProcess p s with
      | ok q u =>
        rw [bind_ok hbody] at hrestart
        exact absurd hrestart (writeSlot_avoids pos q u t)
      | error f u =>
        rw [bind_error hbody] at hrestart
        cases hrestart
        exact serverRestartProcess_null hbody
  | decoded hparse =>
    rw [hparse] at h
    cases h
  | unknown hparse =>
    rw [hparse] at h
    cases h
  | fault hparse hdecode =>
    rw [hparse, bind_error (attempt_error _ s)] at h
    cases h
    rcases parseProcess_error hdecode with h | h | h <;> cases h

end Restart

/-! ### A request -/

section Requests

variable {s t : Server} {request : Request}

/-- A request other than status reads from a missing file in a kill. -/
theorem handleRequest_null (hn : s.processCount ≤ listSize)
    (hcommand : readCommand (s.commandBuffer request) ≠ .status)
    (h : handleRequest request s = .error .nullFile t) :
    killAll s.kernel.answers.walks (s.killPids request) = .error .nullFile := by
  by_cases hrestart : readCommand (s.commandBuffer request) = .restart
  · have hread : (get : ServerM Server) s = .ok s s := rfl
    rw [handleRequest, bind_ok hread, hrestart] at h
    obtain ⟨process, pos, ho, hrun, p, hp, hrunning, hkill⟩ :=
      serverRestartProcessAndGetResponse_null hn h
    -- so the plan begins with the stop
    have hops : s.stopOps pos = [.stop pos] := by
      rw [Server.stopOps, runs_eq hp, if_pos (by simpa using hrunning)]
    have hplan : s.plan request = .ok ([pos].map .stop ++ [.start pos, .note pos]) := by
      rw [Server.plan, hrestart]
      change s.operandOps .restart _ = _
      rw [Server.operandOps, ho]
      change Except.ok (if process.isRunning ≠ 0 then _ else _) = _
      rw [if_pos hrun, hops]
      rfl
    rw [killPids_eq hplan (by simp), pidsAt_cons hp]
    exact killAll_cons_error hkill _
  · obtain ⟨ops, u, hrun, hbreaks⟩ := (handleRequest_performs hn request).error h
    cases hbreaks with
    | operand hplan =>
      obtain ⟨buffer, hdecode⟩ := plan_error hn hplan
      rcases parseProcess_error hdecode with h | h | h <;> cases h
    | op hplan hf =>
      rcases plan_split hn hplan with ⟨before, k, after, rfl, rfl, hks, hpids⟩ | ⟨hstop, -⟩
      · rw [hpids]
        exact killAll_of_fails hks hrun hf
      · -- no other operation reads a file
        cases hf with
        | stop => exact absurd rfl (hstop _)
        | remove hdel => cases (delProcessByAppName_error hdel).2
        | note =>
          have hnote := note_of_plan hplan (List.mem_append_right _ List.mem_cons_self)
          exact (hnote.elim hcommand hrestart).elim

theorem serve_null (hn : s.processCount ≤ listSize)
    (hwalks : ∀ walk ∈ s.kernel.answers.walks, walk.Readable)
    (hcommand : readCommand (s.commandBuffer request) ≠ .status) :
    (∃ t, serve request s = .error .nullFile t) ↔
      ¬NoneMissed s.kernel.answers.walks (s.killPids request) := by
  constructor
  · rintro ⟨t, h⟩
    rcases serve_error h with hhandle | ⟨response, u, -, hsave, -⟩
    · exact missed_of_killAll (handleRequest_null hn hcommand hhandle)
    · cases saveProcessList_error hsave
  · intro hmissed
    have hkills := killAll_of_missed hwalks hmissed
    -- otherwise all kills of the plan have come to their end
    have hdone : ∀ {ks : List ℕ} {more : List Op} {u : Server}, ks.Nodup →
        s.killPids request = s.pidsAt ks → Run Effect s (ks.map .stop ++ more) u → False := by
      intro ks more u hks hpids hrun
      obtain ⟨walks, hok⟩ := killAll_done hks hrun
      rw [hpids, hok] at hkills
      cases hkills
    have hall : ∀ {ops : List Op} {u : Server}, s.plan request = .ok ops → Run Effect s ops u →
        False := by
      intro ops u hplan hrun
      obtain ⟨ks, more, rfl, hks, hmore⟩ := (plan_cases hn hplan).stops
      exact hdone hks (killPids_eq hplan hmore) hrun
    cases hhandle : handleRequest request s with
    | ok response u =>
      obtain ⟨ops, hrun, hplan⟩ := (handleRequest_performs hn request).ok hhandle
      exact (hall hplan hrun).elim
    | error f u =>
      obtain ⟨ops, v, hrun, hbreaks⟩ := (handleRequest_performs hn request).error hhandle
      refine ⟨u, ?_⟩
      rw [serve, bind_error hhandle]
      cases hbreaks with
      | operand hplan =>
        rw [Server.killPids, hplan] at hkills
        cases hkills
      | op hplan hf =>
        rcases plan_split hn hplan with ⟨before, k, after, rfl, rfl, hks, hpids⟩ |
          ⟨-, ks, more, rfl, hks, hpids⟩
        · rw [hpids, killAll_of_fails hks hrun hf] at hkills
          cases hkills
          rfl
        · exact (hdone hks hpids hrun).elim
      | text hplan => exact (hall hplan hrun).elim

end Requests

/-! ### Runs -/

/-- The processes whose files are asked for are there: those of the running entries in a status
request, and on the walks of a kill those that `readdir` has returned. -/
def FilesStay (σ : System) : Event → Prop
  | .request request answers =>
    (readCommand (σ.server.commandBuffer request) = .status →
      ∀ p ∈ σ.server.entries, p.isRunning ≠ 0 → answers.procStatus p.pid ≠ none) ∧
    (readCommand (σ.server.commandBuffer request) ≠ .status →
      NoneMissed answers.walks (σ.server.killPids request))
  | _ => True

/-- The files that are there are files of the kernel. -/
def FilesKept : Event → Prop
  | .request _ answers =>
    (∀ pid lines, answers.procStatus pid = some lines → StatusFile lines) ∧
      ∀ walk ∈ answers.walks, walk.Readable
  | _ => True

section Runs

variable {σ τ : System} {event : Event}

theorem stays_status {request : Request} {answers : Answers}
    (h : readCommand (σ.server.commandBuffer request) = .status)
    (hfiles : ∀ p ∈ σ.server.entries, p.isRunning ≠ 0 → answers.procStatus p.pid ≠ none) :
    FilesStay σ (.request request answers) :=
  ⟨fun _ => hfiles, fun hne => absurd h hne⟩

/-- Nothing is missing in kills that come to their end. -/
theorem stays_killAll {request : Request} {answers : Answers}
    (h : readCommand (σ.server.commandBuffer request) ≠ .status)
    (hwalks : ∀ walk ∈ answers.walks, walk.Readable)
    (hkills : (killAll answers.walks (σ.server.killPids request)).isOk = true) :
    FilesStay σ (.request request answers) := by
  refine ⟨fun hstatus => absurd hstatus h, fun _ => ?_⟩
  by_contra hmissed
  rw [killAll_of_missed hwalks hmissed] at hkills
  cases hkills

/-- A request that meets the condition reads from no missing file. -/
theorem serve_reads {request : Request} {answers : Answers} {t : Server}
    (hn : σ.server.processCount ≤ listSize) (hstay : FilesStay σ (.request request answers)) :
    serve request (σ.server.asked answers) ≠ .error .nullFile t := by
  intro hserve
  have hn' : (σ.server.asked answers).processCount ≤ listSize := hn
  rcases serve_error hserve with hhandle | ⟨response, u, -, hsave, -⟩
  · by_cases hcommand : readCommand ((σ.server.asked answers).commandBuffer request) = .status
    · rw [handleRequest_status hcommand] at hhandle
      obtain ⟨p, hp, hrun, hfile⟩ := missing_of_null hn' hhandle
      exact hstay.1 hcommand p hp hrun hfile
    · exact missed_of_killAll (handleRequest_null hn' hcommand hhandle) (hstay.2 hcommand)
  · cases saveProcessList_error hsave

/-- And with files of the kernel, no other does. -/
theorem serve_misses {request : Request} {answers : Answers}
    (hn : σ.server.processCount ≤ listSize) (hkept : FilesKept (.request request answers))
    (hstay : ¬FilesStay σ (.request request answers)) :
    ∃ t, serve request (σ.server.asked answers) = .error .nullFile t := by
  have hn' : (σ.server.asked answers).processCount ≤ listSize := hn
  by_cases hcommand : readCommand ((σ.server.asked answers).commandBuffer request) = .status
  · have hmissing : ∃ p ∈ σ.server.entries, p.isRunning ≠ 0 ∧ answers.procStatus p.pid = none := by
      by_contra hnone
      push Not at hnone
      exact hstay (stays_status hcommand hnone)
    obtain ⟨t, hstatus⟩ := (status_null hn' hkept.1).mpr hmissing
    refine ⟨t, ?_⟩
    rw [serve, bind_error ((handleRequest_status hcommand).trans hstatus)]
  · refine (serve_null hn' hkept.2 hcommand).mpr fun hnone => ?_
    exact hstay ⟨fun h => absurd h hcommand, fun _ => hnone⟩

theorem Steps.reads (h : Steps σ event τ) (hn : σ.server.processCount ≤ listSize)
    (hσ : σ.phase ≠ .ended .nullFile) (hstay : FilesStay σ event) :
    τ.phase ≠ .ended .nullFile := by
  -- what a thread runs under the lock, and where it goes on
  have hafter : ∀ {α : Type} {m : ServerM α} {answers : Answers} {next : Phase},
      (∀ t, m (σ.server.asked answers) ≠ .error .nullFile t) → next ≠ .ended .nullFile →
      (σ.after m answers next).phase ≠ .ended .nullFile := by
    intro α m answers next hm hnext
    rcases σ.after_cases m answers next with ⟨a, t, hok, heq⟩ | ⟨f, t, herror, heq⟩
    · rw [heq]
      exact hnext
    · rw [heq]
      intro hf
      cases hf
      exact hm t herror
  cases h.cases with
  | iterate hphase hi hfresh => exact hafter (startupIteration_avoids _ _) (by simp)
  | handle hphase hfresh => exact hafter (handleExit_avoids _ _) (by simp)
  | finish => simp
  | wait => simp
  | exit => exact hσ
  | request hphase hfresh => exact hafter (fun t => serve_reads hn hstay) hσ

theorem Steps.reads_iff (h : Steps σ event τ) (hn : σ.server.processCount ≤ listSize)
    (hσ : σ.phase ≠ .ended .nullFile) (hkept : FilesKept event) :
    τ.phase = .ended .nullFile ↔ ¬FilesStay σ event := by
  refine ⟨fun hτ hstay => h.reads hn hσ hstay hτ, fun hstay => ?_⟩
  cases h.cases with
  | @request request answers hphase hfresh =>
    obtain ⟨t, hserve⟩ := serve_misses hn hkept hstay
    rcases σ.after_cases (serve request) answers σ.phase with ⟨a, u, hok, heq⟩ | ⟨f, u, herror, heq⟩
    · rw [hserve] at hok
      cases hok
    · rw [hserve] at herror
      cases herror
      rw [heq]
  | _ => exact absurd trivial hstay

/-- Status and stop read from no file that could not be opened, in any order of exits, reaping and
requests, as long as the processes that they ask for are there: those of the running entries, and
on the walks of each kill those that `readdir` has returned.  A file that is not there is read
from. -/
theorem reads_open_files {events : List Event} (hn : σ.server.processCount ≤ listSize)
    (hσ : ∀ fault, σ.phase ≠ .ended fault) (hrun : Guarded Steps FilesStay σ events τ) :
    τ.phase ≠ .ended .nullFile ∧
      ((∀ fault, τ.phase ≠ .ended fault) → ∀ event υ, Steps τ event υ → FilesKept event →
        (υ.phase = .ended .nullFile ↔ ¬FilesStay τ event)) ∧
      ∀ procStatus pid tag, (∀ lines, procStatus pid = some lines → Numbered tag lines) →
        ((∃ lines value, procStatus pid = some lines ∧
          parseProcStatusValByTag procStatus pid tag = .ok value ∧
          Yields tag lines value) ↔ procStatus pid ≠ none) := by
  -- the count stays inside the list only as long as the service is alive
  have hinv : τ.phase ≠ .ended .nullFile ∧
      ((∀ fault, τ.phase ≠ .ended fault) → τ.server.processCount ≤ listSize) := by
    refine hrun.invariant (I := fun σ => σ.phase ≠ .ended .nullFile ∧
      ((∀ fault, σ.phase ≠ .ended fault) → σ.server.processCount ≤ listSize)) ?_ ⟨hσ _, fun _ => hn⟩
    rintro σ event τ ⟨hphase, hinside⟩ hstay hstep
    by_cases hrunning : ∀ fault, σ.phase ≠ .ended fault
    · exact ⟨hstep.reads (hinside hrunning) hphase hstay, fun hτ =>
        hstep.inside (hinside hrunning) hτ⟩
    · refine ⟨fun hτ => ?_, fun hτ => absurd (hstep.running hτ) hrunning⟩
      push Not at hrunning
      obtain ⟨fault, hfault⟩ := hrunning
      rw [hstep.ended hfault] at hτ
      exact hphase (hfault.trans hτ)
  exact ⟨hinv.1, fun hτ event υ hstep hkept => hstep.reads_iff (hinv.2 hτ) hinv.1 hkept,
    fun procStatus pid tag hlines => parse_ok hlines⟩

end Runs

/-- Answers that show a status file for every process, and process 9 as a child of process 7. -/
def shownFiles : Answers :=
  ⟨[], [], fun _ => some [str "VmHWM:\t    1200 kB\n"],
    [⟨fun _ => some [⟨str "9", true, some [str "PPid:\t7\n"]⟩], 5⟩]⟩

theorem shownFiles_readable : ∀ walk ∈ shownFiles.walks, walk.Readable := by
  intro walk hwalk killed dir hdir e he lines hlines line hline
  obtain rfl := List.mem_singleton.mp hwalk
  obtain rfl := Option.some_inj.mp hdir
  obtain rfl := List.mem_singleton.mp he
  obtain rfl := Option.some_inj.mp hlines
  obtain rfl := List.mem_singleton.mp (List.mem_of_find?_eq_some hline)
  exact ⟨55, by decide +kernel, by decide⟩

def stopWeb (answers : Answers) : Event := .request ⟨str "stop", str "web"⟩ answers

/-- The service has answered a status request. -/
def webShown : System :=
  (webStarted.step (.request (plainRequest "status") shownFiles)).getD webStarted

theorem webStarted_stays : FilesStay webStarted (.request (plainRequest "status") shownFiles) :=
  stays_status (by decide +kernel) fun p _ _ => by simp [shownFiles]

/-- The kill of process 7 and its child comes to its end. -/
theorem webShown_stays : FilesStay webShown (stopWeb shownFiles) := by
  refine stays_killAll (by decide +kernel) shownFiles_readable ?_
  decide +kernel

theorem reads_open_files_web :
    ∃ τ, Guarded Steps FilesStay webSystem
        [.startup (onePid 7), .startup (onePid 8), .request (plainRequest "status") shownFiles,
          stopWeb shownFiles] τ ∧
      τ.phase ≠ .ended .nullFile := by
  have hstarted : Guarded Steps FilesStay webSystem [.startup (onePid 7), .startup (onePid 8)]
      webStarted := by
    refine webStarted_run.guarded fun as event bs υ hevents _ => ?_
    have hmem : event ∈ as ++ event :: bs := by simp
    rw [← hevents] at hmem
    simp only [List.mem_cons, List.not_mem_nil, or_false] at hmem
    rcases hmem with rfl | rfl <;> trivial
  have hshown : Steps webStarted (.request (plainRequest "status") shownFiles) webShown :=
    steps_of_isSome (by decide +kernel)
  obtain ⟨τ, hstep⟩ : ∃ τ, Steps webShown (stopWeb shownFiles) τ :=
    Option.isSome_iff_exists.mp (by decide +kernel)
  have hguarded : Guarded Steps FilesStay webSystem [.startup (onePid 7), .startup (onePid 8),
      .request (plainRequest "status") shownFiles, stopWeb shownFiles] τ :=
    hstarted.append (.cons webStarted_stays hshown (.cons webShown_stays hstep (.nil τ)))
  have hrunning : ∀ fault, webSystem.phase ≠ .ended fault := by simp [webSystem]
  exact ⟨τ, hguarded, (reads_open_files (by decide +kernel) hrunning hguarded).1⟩

/-- The app has exited, and `wait` has returned its pid, but the monitor has not handled it: a
status request asks for the file of process 7.  And in a stop process 700 goes behind `readdir`. -/
theorem vanished_child :
    (∃ σ τ, Run Steps webSystem [.startup (onePid 7), .startup (onePid 8), .exit 7, .wait 7] σ ∧
      σ.phase = .reaped 7 ∧ (∃ p ∈ σ.server.entries, p.isRunning ≠ 0 ∧ p.pid = 7) ∧
      Steps σ (.request (plainRequest "status") (onePid 8)) τ ∧ τ.phase = .ended .nullFile) ∧
    ∃ σ τ, Run Steps webSystem [.startup (onePid 7), .startup (onePid 8)] σ ∧
      Steps σ (stopWeb ⟨[], [], fun _ => none, [⟨fun _ => some [⟨str "700", true, none⟩], 5⟩]⟩) τ ∧
      τ.phase = .ended .nullFile := by
  constructor
  · obtain ⟨σ, hrun, hσ⟩ :=
      run_of_any webSystem [.startup (onePid 7), .startup (onePid 8), .exit 7, .wait 7]
      (fun σ => decide (σ.phase = .reaped 7) &&
        (σ.server.entries.any fun p => p.isRunning ≠ 0 && p.pid = 7) &&
        (σ.step (.request (plainRequest "status") (onePid 8))).any fun τ =>
          τ.phase = .ended .nullFile)
      (by decide +kernel)
    simp only [Bool.and_eq_true, decide_eq_true_eq, List.any_eq_true, Option.any_eq_true] at hσ
    obtain ⟨⟨hphase, p, hp, hrunning, hpid⟩, τ, hstep, hend⟩ := hσ
    exact ⟨σ, τ, hrun, hphase, ⟨p, hp, by simpa using hrunning, hpid⟩, hstep, hend⟩
  · exact ⟨webStarted, _, webStarted_run, steps_of_isSome (by decide +kernel), by decide +kernel⟩

end KbPm
