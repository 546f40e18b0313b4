/-
Requests, the startup loop and the monitor perform operations.

* `serverStartProcess_run`, `serverStopProcess_run`, … — the functions on a
  process, on a given state;
* `resolves` — what `parse_process_and_process_type` and
  `get_pos_in_process_list` can find;
* `handleRequest_performs` — handling a request performs its plan, up to an
  operation that fails;
* `startupIteration_performs`, `handleExitFrom_performs` — the startup loop and
  the monitor.
-/
import KbPm.Operation

namespace KbPm

open Trace

/-! ### Functions on a slot -/

theorem lt_of_slot {s : Server} {k : ℕ} {p : Process} (hp : s.processList[k]? = some p) :
    k < listSize :=
  (Vector.getElem?_eq_some_iff.mp hp).1

theorem exists_slot (s : Server) {k : ℕ} (hk : k < listSize) : ∃ p, s.processList[k]? = some p :=
  ⟨s.processList[k], by simp⟩

theorem readSlot_run {s : Server} {k : ℕ} {p : Process} (hp : s.processList[k]? = some p) :
    readSlot k s = .ok p s := by
  have hread : (get : ServerM Server) s = .ok s s := rfl
  rw [readSlot, bind_ok hread, Slots.read_eq hp]
  rfl

theorem writeSlot_run {s : Server} {k : ℕ} (p : Process) (hk : k < listSize) :
    writeSlot k p s = .ok () (s.setSlot k p) := by
  have hread : (get : ServerM Server) s = .ok s s := rfl
  rw [writeSlot, bind_ok hread, Slots.write_eq p hk]
  rfl

theorem writeSlot_full {s : Server} {k : ℕ} (p : Process) (hk : listSize ≤ k) :
    writeSlot k p s = .error (.index k) s := by
  have hread : (get : ServerM Server) s = .ok s s := rfl
  rw [writeSlot, bind_ok hread, Slots.write_error p hk]
  rfl

theorem attempt_ok {α : Type} (a : α) (s : Server) : attempt (.ok a) s = .ok a s := rfl

theorem attempt_error {α : Type} (f : Fault) (s : Server) :
    (attempt (.error f) : ServerM α) s = .error f s := rfl

theorem setSlot_self {s : Server} {k : ℕ} {p : Process} (hp : s.processList[k]? = some p) :
    s.setSlot k p = s := by
  have h : s.processList.setIfInBounds k p = s.processList := by
    obtain ⟨hk, rfl⟩ := Vector.getElem?_eq_some_iff.mp hp
    apply Vector.ext
    intro i hi
    rw [Vector.getElem_setIfInBounds]
    split
    · rename_i hki
      subst hki
      rfl
    · rfl
  rw [Server.setSlot, h]

theorem setSlot_setSlot (s : Server) (k : ℕ) (p q : Process) :
    (s.setSlot k p).setSlot k q = s.setSlot k q := by
  simp only [Server.setSlot, Vector.setIfInBounds_setIfInBounds]

theorem slot_setSlot {s : Server} {k : ℕ} (p : Process) (hk : k < listSize) :
    (s.setSlot k p).processList[k]? = some p := by
  rw [Server.setSlot_processList, Vector.getElem?_setIfInBounds_self_of_lt hk]

theorem slot_setSlot_ne {s : Server} {k j : ℕ} (p : Process) (h : k ≠ j) :
    (s.setSlot k p).processList[j]? = s.processList[j]? := by
  rw [Server.setSlot_processList, Vector.getElem?_setIfInBounds_ne h]

theorem time_run (s : Server) : time s = .ok s.kernel.now (s.setKernel s.kernel.tick) := rfl

theorem serverStartProcess_run (p : Process) {s : Server} {pid : ℤ} {forks : List ℤ}
    (hf : s.kernel.answers.forks = pid :: forks) (h0 : 0 ≤ pid) :
    serverStartProcess p s =
      .ok (p.started pid s.kernel.now) (s.setKernel (s.kernel.forked p pid forks)) := by
  have hfork : fork p s = .ok pid (s.setKernel
      { s.kernel with
        children := ⟨pid, p, true⟩ :: s.kernel.children
        answers := { s.kernel.answers with forks := forks } }) := by
    have hget : (get : ServerM Server) s = .ok s s := rfl
    rw [fork, bind_ok hget, hf]
    rfl
  rw [serverStartProcess, bind_ok hfork, if_neg (by omega)]
  rfl

theorem serverStartProcess_fail (p : Process) {s : Server} (hf : ForkFails s) :
    ∃ t, serverStartProcess p s = .error .forkFailed t ∧ t.kernel.kills = s.kernel.kills := by
  have hget : (get : ServerM Server) s = .ok s s := rfl
  cases hforks : s.kernel.answers.forks with
  | nil =>
    have hfork : fork p s = .ok (-1) s := by
      rw [fork, bind_ok hget, hforks]
      rfl
    refine ⟨s, ?_, rfl⟩
    rw [serverStartProcess, bind_ok hfork, if_pos (by omega)]
    rfl
  | cons pid forks =>
    have hfork : fork p s = .ok pid (s.setKernel
        { s.kernel with
          children := ⟨pid, p, true⟩ :: s.kernel.children
          answers := { s.kernel.answers with forks := forks } }) := by
      rw [fork, bind_ok hget, hforks]
      rfl
    have hneg : pid < 0 := hf pid forks hforks
    refine ⟨s.setKernel
        { s.kernel with
          children := ⟨pid, p, true⟩ :: s.kernel.children
          answers := { s.kernel.answers with forks := forks } }, ?_, rfl⟩
    rw [serverStartProcess, bind_ok hfork, if_pos hneg]
    rfl

/-- The next `fork` succeeds or fails. -/
theorem fork_cases (s : Server) :
    (∃ pid forks, s.kernel.answers.forks = pid :: forks ∧ 0 ≤ pid) ∨ ForkFails s := by
  by_cases h : ∃ pid forks, s.kernel.answers.forks = pid :: forks ∧ 0 ≤ pid
  · exact Or.inl h
  · refine Or.inr fun pid forks hf => ?_
    by_contra hneg
    exact h ⟨pid, forks, hf, by omega⟩

theorem serverStopProcess_idle {p : Process} (hrun : p.isRunning = 0) (s : Server) :
    serverStopProcess p s = .ok p s := by
  rw [serverStopProcess, if_neg (by simpa using hrun)]
  rfl

theorem killProcess_run {p : Process} {s : Server} (hkill : s.kernel.walk.kill p.pid = .ok ()) :
    killProcess p s = .ok () (s.setKernel (s.kernel.killed p)) := by
  have hattempt : ∀ t, attempt (s.kernel.walk.kill p.pid) t = .ok () t := by
    intro t
    rw [hkill, attempt_ok]
  rw [killProcess, bind_ok (rfl : modifyKernel _ s = .ok () _),
    bind_ok (rfl : (get : ServerM Server) _ = .ok _ _)]
  exact (bind_ok (hattempt _)).trans rfl

theorem killProcess_error {p : Process} {s : Server} {f : Fault}
    (hkill : s.kernel.walk.kill p.pid = .error f) :
    ∃ t, killProcess p s = .error f t ∧
      t.kernel.kills = s.kernel.kills ++ [⟨p, s.kernel.children⟩] := by
  refine ⟨s.setKernel { s.kernel with kills := s.kernel.kills ++ [⟨p, s.kernel.children⟩] }, ?_,
    rfl⟩
  have hattempt : ∀ t, attempt (s.kernel.walk.kill p.pid) t = .error f t := by
    intro t
    rw [hkill, attempt_error]
  rw [killProcess, bind_ok (rfl : modifyKernel _ s = .ok () _),
    bind_ok (rfl : (get : ServerM Server) _ = .ok _ _)]
  exact bind_error (hattempt _)

theorem serverStopProcess_run {p : Process} (hrun : p.isRunning ≠ 0) {s : Server}
    (hkill : s.kernel.walk.kill p.pid = .ok ()) :
    serverStopProcess p s =
      .ok p.stopped (s.setKernel (s.kernel.killed { p with isRunning := 0 })) := by
  rw [serverStopProcess, if_pos hrun]
  simp only [bind_ok (killProcess_run (p := { p with isRunning := 0 }) hkill)]
  rfl

theorem serverStopProcess_fail {p : Process} (hrun : p.isRunning ≠ 0) {s : Server} {f : Fault}
    (hkill : s.kernel.walk.kill p.pid = .error f) :
    ∃ t, serverStopProcess p s = .error f t ∧
      t.kernel.kills = s.kernel.kills ++ [⟨{ p with isRunning := 0 }, s.kernel.children⟩] := by
  obtain ⟨t, ht, hkills⟩ := killProcess_error (p := { p with isRunning := 0 }) hkill
  refine ⟨t, ?_, hkills⟩
  rw [serverStopProcess, if_pos hrun]
  simp only [bind_error ht]

theorem updateSlot_run {s t : Server} {k : ℕ} {p q : Process} {f : Process → ServerM Process}
    (hp : s.processList[k]? = some p) (hf : f p s = .ok q t) :
    updateSlot k f s = .ok () (t.setSlot k q) := by
  rw [updateSlot, bind_ok (readSlot_run hp), bind_ok hf, writeSlot_run q (lt_of_slot hp)]

theorem updateSlot_error {s t : Server} {k : ℕ} {p : Process} {f : Process → ServerM Process}
    {e : Fault} (hp : s.processList[k]? = some p) (hf : f p s = .error e t) :
    updateSlot k f s = .error e t := by
  rw [updateSlot, bind_ok (readSlot_run hp), bind_error hf]

/-! ### Operations on a slot -/

/-- The operations `ops` are done and the next one has failed. -/
def FailsIn (plan : List Op) : Fault → List Op → Server → Server → Prop :=
  fun f ops u t => ∃ o rest, plan = ops ++ o :: rest ∧ Fails u o f t

theorem FailsIn.append {plan ops d : List Op} {f : Fault} {u t : Server}
    (h : FailsIn plan f ops u t) : FailsIn (d ++ plan) f (d ++ ops) u t := by
  obtain ⟨o, rest, hplan, hf⟩ := h
  exact ⟨o, rest, by rw [hplan, List.append_assoc], hf⟩

theorem FailsIn.extend {plan r ops : List Op} {f : Fault} {u t : Server}
    (h : FailsIn plan f ops u t) : FailsIn (plan ++ r) f ops u t := by
  obtain ⟨o, more, hplan, hf⟩ := h
  exact ⟨o, more ++ r, by rw [hplan, List.append_assoc]; rfl, hf⟩

theorem runs_eq {s : Server} {k : ℕ} {p : Process} (hp : s.processList[k]? = some p) :
    s.runs k = decide (p.isRunning ≠ 0) := by
  rw [Server.runs, hp]

theorem start_performs {s : Server} {k : ℕ} (hk : k < s.processCount)
    (hn : s.processCount ≤ listSize) :
    Performs Effect (updateSlot k serverStartProcess) s (fun _ ops _ => ops = [.start k])
      (FailsIn [.start k]) := by
  obtain ⟨p, hp⟩ := exists_slot s (show k < listSize by omega)
  rcases fork_cases s with ⟨pid, forks, hf, h0⟩ | hf
  · exact performs_of_ok (updateSlot_run hp (serverStartProcess_run p hf h0))
      (.single (.start hk hp hf h0)) rfl
  · obtain ⟨t, ht, hkills⟩ := serverStartProcess_fail p hf
    exact performs_of_error (updateSlot_error hp ht) ⟨.start k, [], rfl, .start hf hkills⟩

theorem relaunch_performs {s : Server} {k : ℕ} {p : Process} (hk : k < s.processCount)
    (hp : s.processList[k]? = some p) (hrun : p.isRunning ≠ 0) :
    Performs Effect (updateSlot k serverStartProcess) s (fun _ ops _ => ops = [.relaunch k])
      (FailsIn [.relaunch k]) := by
  rcases fork_cases s with ⟨pid, forks, hf, h0⟩ | hf
  · exact performs_of_ok (updateSlot_run hp (serverStartProcess_run p hf h0))
      (.single (.relaunch hk hp hrun hf h0)) rfl
  · obtain ⟨t, ht, hkills⟩ := serverStartProcess_fail p hf
    exact performs_of_error (updateSlot_error hp ht) ⟨.relaunch k, [], rfl, .relaunch hf hkills⟩

theorem stop_performs {s : Server} {k : ℕ} (hk : k < s.processCount)
    (hn : s.processCount ≤ listSize) :
    Performs Effect (updateSlot k serverStopProcess) s (fun _ ops _ => ops = s.stopOps k)
      (FailsIn (s.stopOps k)) := by
  obtain ⟨p, hp⟩ := exists_slot s (show k < listSize by omega)
  by_cases hrun : p.isRunning = 0
  · have hops : s.stopOps k = [] := by rw [Server.stopOps, runs_eq hp, if_neg (by simpa using hrun)]
    have hrun' := updateSlot_run hp (serverStopProcess_idle hrun s)
    rw [setSlot_self hp] at hrun'
    exact performs_of_ok hrun' (.nil s) hops.symm
  · have hops : s.stopOps k = [.stop k] := by
      rw [Server.stopOps, runs_eq hp, if_pos (by simpa using hrun)]
    rw [hops]
    cases hkill : s.kernel.walk.kill p.pid with
    | ok u =>
      exact performs_of_ok (updateSlot_run hp (serverStopProcess_run hrun hkill))
        (.single (.stop hk hp hrun (Walk.kill_pos hkill) hkill)) rfl
    | error f =>
      obtain ⟨t, ht, hkills⟩ := serverStopProcess_fail hrun hkill
      exact performs_of_error (updateSlot_error hp ht)
        ⟨.stop k, [], rfl, .stop hk hp hrun hkill hkills⟩

/-- A start, and what is noted of the entry behind it. -/
theorem Effect.thenNote {u v : Server} {op : Op} {k : ℕ} {p q : Process}
    (h : Effect u op (v.setSlot k p)) (hk : k < v.processCount) (hlt : k < listSize)
    (hq : p.Similar q) : Run Effect u [op, .note k] (v.setSlot k q) := by
  have hnote := Effect.note (s := v.setSlot k p) hk (slot_setSlot p hlt) hq
  rw [setSlot_setSlot] at hnote
  exact .cons h (.single hnote)

theorem restart_performs {s : Server} {k : ℕ} (hk : k < s.processCount)
    (hn : s.processCount ≤ listSize) :
    Performs Effect (updateSlot k serverRestartProcess) s
      (fun _ ops _ => ops = s.stopOps k ++ [.start k, .note k])
      (FailsIn (s.stopOps k ++ [.start k, .note k])) := by
  obtain ⟨p, hp⟩ := exists_slot s (show k < listSize by omega)
  -- what `server_stop_process` makes of the process, and the operations behind it
  have hstop : (∃ q t u, serverStopProcess p s = .ok q t ∧ Run Effect s (s.stopOps k) u ∧
        u.processList[k]? = some q ∧ u.processCount = s.processCount ∧ u.kernel = t.kernel ∧
        ∀ r, t.setSlot k r = u.setSlot k r) ∨
      (s.stopOps k = [.stop k] ∧
        ∃ f t, serverStopProcess p s = .error f t ∧ Fails s (.stop k) f t) := by
    by_cases hrun : p.isRunning = 0
    · have hops : s.stopOps k = [] := by
        rw [Server.stopOps, runs_eq hp, if_neg (by simpa using hrun)]
      rw [hops]
      exact Or.inl ⟨p, s, s, serverStopProcess_idle hrun s, .nil s, hp, rfl, rfl, fun _ => rfl⟩
    · have hops : s.stopOps k = [.stop k] := by
        rw [Server.stopOps, runs_eq hp, if_pos (by simpa using hrun)]
      rw [hops]
      cases hkill : s.kernel.walk.kill p.pid with
      | ok u =>
        refine Or.inl ⟨p.stopped, _, _, serverStopProcess_run hrun hkill,
          .single (.stop hk hp hrun (Walk.kill_pos hkill) hkill), slot_setSlot _ (lt_of_slot hp),
          rfl, rfl, fun r => ?_⟩
        rw [setSlot_setSlot]
      | error f =>
        obtain ⟨t, ht, hkills⟩ := serverStopProcess_fail hrun hkill
        exact Or.inr ⟨rfl, f, t, ht, .stop hk hp hrun hkill hkills⟩
  rcases hstop with ⟨q, t, u, hq, hrun, hslot, hcount, hkernel, hset⟩ | ⟨hops, f, t, ht, hfail⟩
  · have hku : k < u.processCount := by omega
    rcases fork_cases u with ⟨pid, forks, hf, h0⟩ | hf
    · have hft : t.kernel.answers.forks = pid :: forks := by rw [← hkernel]; exact hf
      have hrestart : serverRestartProcess p s =
          .ok { q.started pid t.kernel.now with
                restartTimes := (q.started pid t.kernel.now).restartTimes + 1 }
            (t.setKernel (t.kernel.forked q pid forks)) := by
        rw [serverRestartProcess, bind_ok hq, bind_ok (serverStartProcess_run q hft h0)]
        rfl
      have hrun' := updateSlot_run hp hrestart
      have hend : ∀ r, (t.setKernel (t.kernel.forked q pid forks)).setSlot k r =
          (u.setKernel (u.kernel.forked q pid forks)).setSlot k r := by
        intro r
        have hs : (t.setSlot k r).setKernel (t.kernel.forked q pid forks) =
            (u.setSlot k r).setKernel (u.kernel.forked q pid forks) := by rw [hset, hkernel]
        exact hs
      rw [hend, ← hkernel] at hrun'
      exact performs_of_ok hrun'
        (hrun.append ((Effect.start hku hslot hf h0).thenNote hku (lt_of_slot hslot) rfl)) rfl
    · have hft : ForkFails t := by
        intro pid forks h
        exact hf pid forks (by rw [hkernel]; exact h)
      obtain ⟨w, hw, hkills⟩ := serverStartProcess_fail q hft
      have herror : serverRestartProcess p s = .error .forkFailed w := by
        rw [serverRestartProcess, bind_ok hq, bind_error hw]
      rw [Performs, updateSlot_error hp herror]
      exact ⟨s.stopOps k, u, hrun, .start k, [.note k], rfl,
        .start hf (by rw [hkills, hkernel])⟩
  · have herror : serverRestartProcess p s = .error f t := by
      rw [serverRestartProcess, bind_error ht]
    refine performs_of_error (updateSlot_error hp herror) ?_
    exact ⟨.stop k, [.start k, .note k], by rw [hops]; rfl, hfail⟩

/-! ### Operands -/

theorem getProcessId_range {n : ℕ} {buffer : Text} (h : getProcessId n buffer ≠ -1) :
    0 ≤ getProcessId n buffer ∧ getProcessId n buffer < n := by
  unfold getProcessId at h ⊢
  simp only at h ⊢
  split_ifs at h ⊢ with hid
  · exact hid.2
  · exact absurd rfl h

/-- The entry that an operand names, by its id or by its name. -/
def Server.lookup (s : Server) (buffer : Text) : Option ℕ :=
  if getProcessId s.processCount buffer ≠ -1 then
    some (getProcessId s.processCount buffer).toNat
  else
    s.entries.findIdx? fun process => process.appName.bytes == cstr buffer

theorem entries_get {s : Server} {k : ℕ} {p : Process} (h : s.entries[k]? = some p) :
    k < s.processCount ∧ s.processList[k]? = some p := Slots.inUse_get h

theorem entries_of_slot {s : Server} {k : ℕ} {p : Process} (hk : k < s.processCount)
    (hp : s.processList[k]? = some p) : s.entries[k]? = some p := by
  rw [Server.entries, Slots.getElem?_inUse, if_pos hk, hp]

theorem length_entries {s : Server} (hn : s.processCount ≤ listSize) :
    s.entries.length = s.processCount := Slots.length_inUse hn

section Operands

variable {s : Server} {buffer : Text}

theorem parse_listed (hn : s.processCount ≤ listSize) {k : ℕ} (hk : s.lookup buffer = some k) :
    ∃ type p, (type = ProcessType.id ∨ type = ProcessType.appName) ∧ k < s.processCount ∧
      s.processList[k]? = some p ∧
      parseProcessAndProcessType s.processList s.processCount buffer = .ok (type, p) := by
  unfold Server.lookup at hk
  split_ifs at hk with hid
  · have hrange := getProcessId_range hid
    obtain rfl : (getProcessId s.processCount buffer).toNat = k := by simpa using hk
    obtain ⟨p, hp⟩ := exists_slot s
      (show (getProcessId s.processCount buffer).toNat < listSize by omega)
    refine ⟨.id, p, Or.inl rfl, by omega, hp, ?_⟩
    simp only [parseProcessAndProcessType, if_pos hid, Slots.read_eq hp]
    rfl
  · obtain ⟨hlt, -, -⟩ := List.findIdx?_eq_some_iff_getElem.mp hk
    have hp := entries_get (List.getElem?_eq_getElem hlt)
    refine ⟨.appName, _, Or.inr rfl, hp.1, hp.2, ?_⟩
    simp only [parseProcessAndProcessType, if_neg hid, Slots.findFirst_eq _ _ hn]
    change (slot (Except.ok (s.entries.findIdx? _)) >>= _) = _
    rw [hk]
    change (slot (Slots.read s.processList k) >>= _) = _
    rw [Slots.read_eq hp.2]
    rfl

theorem parse_unlisted (hn : s.processCount ≤ listSize) (hk : s.lookup buffer = none) :
    parseProcessAndProcessType s.processList s.processCount buffer =
      (parseProcess .zero buffer).map fun r => (if r.2 = -1 then .err else .cmd, r.1) := by
  unfold Server.lookup at hk
  split_ifs at hk with hid
  simp only [parseProcessAndProcessType, if_neg hid, Slots.findFirst_eq _ _ hn]
  change (slot (Except.ok (s.entries.findIdx? _)) >>= _) = _
  rw [hk]
  change (parseProcess .zero buffer >>= _) = _
  cases parseProcess .zero buffer with
  | error f => rfl
  | ok r =>
    change (if r.2 = -1 then _ else _ : Except Fault (ProcessType × Process)) = _
    change _ = Except.ok (if r.2 = -1 then ProcessType.err else ProcessType.cmd, r.1)
    split_ifs <;> rfl

theorem getPos_listed (hn : s.processCount ≤ listSize) {k : ℕ} {p : Process}
    (hk : k < s.processCount) (hp : s.processList[k]? = some p) :
    ∃ pos q, getPosInProcessList s.processList s.processCount p = .ok pos ∧ pos ≤ k ∧
      s.processList[pos]? = some q ∧ q.appName = p.appName ∧
      ∀ j r, j < pos → s.processList[j]? = some r → r.appName ≠ p.appName := by
  have hmem := entries_of_slot hk hp
  obtain ⟨hlt, hget⟩ := List.getElem?_eq_some_iff.mp hmem
  cases hfind : s.entries.findIdx? fun q => decide (q.appName = p.appName) with
  | none =>
    have := List.findIdx?_eq_none_iff.mp hfind p (hget ▸ List.getElem_mem hlt)
    simp at this
  | some pos =>
    obtain ⟨hpos, hname, hfirst⟩ := List.findIdx?_eq_some_iff_getElem.mp hfind
    have hq := entries_get (List.getElem?_eq_getElem hpos)
    -- the entry itself has the name
    have hle : pos ≤ k := by
      by_contra hlt'
      refine hfirst k (by omega) ?_
      rw [hget]
      simp
    refine ⟨pos, _, ?_, hle, hq.2, by simpa using hname, fun j r hj hr => ?_⟩
    · rw [getPosInProcessList, Slots.findFirst_eq _ _ hn]
      change (slot (Except.ok (s.entries.findIdx? _)) >>= _) = _
      rw [hfind]
      rfl
    · have hjr := entries_of_slot (show j < s.processCount by omega) hr
      obtain ⟨hjlt, rfl⟩ := List.getElem?_eq_some_iff.mp hjr
      simpa using hfirst j hj

/-- An id or a name stands for a copy of its entry and the first place of that one's name. -/
theorem operand_listed {type : ProcessType} {p : Process} {pos : ℕ}
    (htype : type = ProcessType.id ∨ type = ProcessType.appName)
    (hparse : parseProcessAndProcessType s.processList s.processCount buffer = .ok (type, p))
    (hpos : getPosInProcessList s.processList s.processCount p = .ok pos) :
    s.operand buffer = .ok (.listed p pos) := by
  rw [Server.operand, hparse]
  rcases htype with rfl | rfl <;>
  · change (getPosInProcessList s.processList s.processCount p >>= _) = _
    rw [hpos]
    rfl

/-- `process` is a copy of a listed entry, and `pos` the first place of its name. -/
def Listed (s : Server) (process : Process) (pos : ℕ) : Prop :=
  ∃ k q, k < s.processCount ∧ s.processList[k]? = some process ∧ pos ≤ k ∧
    s.processList[pos]? = some q ∧ q.appName = process.appName ∧
    ∀ j r, j < pos → s.processList[j]? = some r → r.appName ≠ process.appName

/-- What an operand can stand for, and how that is found out. -/
inductive Resolves (s : Server) (buffer : Text) : Prop
  | listed {type : ProcessType} {process : Process} {pos : ℕ}
    (htype : type = ProcessType.id ∨ type = ProcessType.appName)
    (hparse : parseProcessAndProcessType s.processList s.processCount buffer =
      .ok (type, process))
    (hpos : getPosInProcessList s.processList s.processCount process = .ok pos)
    (hlisted : Listed s process pos) (h : s.operand buffer = .ok (.listed process pos))
  | decoded {process : Process} {res : ℤ}
    (hparse : parseProcessAndProcessType s.processList s.processCount buffer =
      .ok (.cmd, process))
    (hdecode : parseProcess .zero buffer = .ok (process, res)) (hres : res ≠ -1)
    (h : s.operand buffer = .ok (.decoded process))
  | unknown {process : Process}
    (hparse : parseProcessAndProcessType s.processList s.processCount buffer =
      .ok (.err, process))
    (h : s.operand buffer = .ok .unknown)
  | fault {f : Fault}
    (hparse : parseProcessAndProcessType s.processList s.processCount buffer = .error f)
    (hdecode : parseProcess .zero buffer = .error f) (h : s.operand buffer = .error f)

theorem resolves (hn : s.processCount ≤ listSize) (buffer : Text) : Resolves s buffer := by
  cases hk : s.lookup buffer with
  | some k =>
    obtain ⟨type, p, htype, hlt, hp, hparse⟩ := parse_listed hn hk
    obtain ⟨pos, q, hpos, hle, hq, hname, hfirst⟩ := getPos_listed hn hlt hp
    exact .listed htype hparse hpos ⟨k, q, hlt, hp, hle, hq, hname, hfirst⟩
      (operand_listed htype hparse hpos)
  | none =>
    have hparse := parse_unlisted hn hk
    cases hp : parseProcess .zero buffer with
    | error f =>
      rw [hp] at hparse
      refine .fault hparse hp ?_
      rw [Server.operand, hparse]
      rfl
    | ok r =>
      rw [hp] at hparse
      -- what is not listed is decoded, and `TYPE_CMD` if that succeeds
      by_cases hr : r.2 = -1
      · have hparse : parseProcessAndProcessType s.processList s.processCount buffer =
            .ok (.err, r.1) := by
          rw [hparse]
          simp only [Except.map, if_pos hr]
        refine .unknown hparse ?_
        rw [Server.operand, hparse]
        rfl
      · have hparse : parseProcessAndProcessType s.processList s.processCount buffer =
            .ok (.cmd, r.1) := by
          rw [hparse]
          simp only [Except.map, if_neg hr]
        refine .decoded hparse hp hr ?_
        rw [Server.operand, hparse]
        rfl

end Operands

/-! ### Requests with an operand -/

section Requests

variable {s : Server} {buffer : Text}

/-- A handler goes by what its operand stands for. -/
theorem performs_operand (hn : s.processCount ≤ listSize) {command : Command}
    {m : ProcessType × Process → ServerM Text}
    (hlisted : ∀ type p pos q, type = ProcessType.id ∨ type = ProcessType.appName →
      getPosInProcessList s.processList s.processCount p = .ok pos → pos < s.processCount →
      s.processList[pos]? = some q → q.appName = p.appName →
      Performs Effect (m (type, p)) s
        (fun _ ops _ => ops = s.operandPlan command (.listed p pos))
        (FailsIn (s.operandPlan command (.listed p pos))))
    (hcmd : ∀ p, Performs Effect (m (.cmd, p)) s
      (fun _ ops _ => ops = s.operandPlan command (.decoded p))
      (FailsIn (s.operandPlan command (.decoded p))))
    (herr : ∀ p, ∃ response, m (.err, p) s = .ok response s) :
    Performs Effect
      (attempt (parseProcessAndProcessType s.processList s.processCount buffer) >>= m) s
      (fun _ ops _ => s.operandOps command buffer = .ok ops)
      (Breaks s (s.operandOps command buffer)) := by
  have hdone : ∀ {o x}, parseProcessAndProcessType s.processList s.processCount buffer = .ok x →
      s.operand buffer = .ok o →
      Performs Effect (m x) s (fun _ ops _ => ops = s.operandPlan command o)
        (FailsIn (s.operandPlan command o)) →
      Performs Effect
        (attempt (parseProcessAndProcessType s.processList s.processCount buffer) >>= m) s
        (fun _ ops _ => s.operandOps command buffer = .ok ops)
        (Breaks s (s.operandOps command buffer)) := by
    intro o x hparse hoperand hm
    have hops : s.operandOps command buffer = .ok (s.operandPlan command o) := by
      rw [Server.operandOps, hoperand]
      rfl
    rw [hparse, hops]
    -- finding out what the operand stands for changes nothing
    refine performs_bind_of_ok (attempt_ok x s) (hm.mono (fun _ ops _ _ h => by rw [h]) ?_)
    rintro f ops u t - ⟨o', rest, hplan, hf⟩
    exact .op (by rw [hplan]) hf
  cases resolves hn buffer with
  | listed htype hparse hpos hl h =>
    obtain ⟨k, q, hlt, -, hle, hq, hname, -⟩ := hl
    exact hdone hparse h (hlisted _ _ _ q htype hpos (by omega) hq hname)
  | decoded hparse hdecode hres h => exact hdone hparse h (hcmd _)
  | unknown hparse h =>
    obtain ⟨response, hm⟩ := herr _
    exact hdone hparse h (performs_of_ok hm (.nil s) rfl)
  | @fault f hparse hdecode h =>
    have hops : s.operandOps command buffer = .error f := by
      rw [Server.operandOps, h]
      rfl
    rw [hparse, hops]
    exact performs_bind_of_error (attempt_error f s) (.operand rfl)

/-- A call on a slot, and the response that is made of it. -/
theorem performs_then {α : Type} {m : ServerM Unit} {f : Unit → ServerM α} {ops : List Op}
    (hm : Performs Effect m s (fun _ ops' _ => ops' = ops) (FailsIn ops))
    (hf : ∀ t : Server, ∃ a, f () t = .ok a t) :
    Performs Effect (m >>= f) s (fun _ ops' _ => ops' = ops) (FailsIn ops) := by
  refine hm.bind (fun _ ls t _ hls => ?_) fun _ _ _ _ _ h => h
  obtain ⟨a, ha⟩ := hf t
  exact performs_of_ok ha (.nil t) (by rw [hls, List.append_nil])

theorem serverStopProcessAndGetResponse_performs (hn : s.processCount ≤ listSize) :
    Performs Effect (serverStopProcessAndGetResponse buffer) s
      (fun _ ops _ => s.operandOps .stop buffer = .ok ops)
      (Breaks s (s.operandOps .stop buffer)) := by
  refine performs_get_bind (performs_operand hn ?_ ?_ ?_)
  · intro type p pos q htype hpos hlt hq hname
    by_cases hrun : p.isRunning = 0
    · have hplan : s.operandPlan .stop (.listed p pos) = [] := if_neg (by simpa using hrun)
      rw [hplan]
      refine performs_of_ok (a := p.appName.bytes ++ str " is not running.") ?_ (.nil s) rfl
      rcases htype with rfl | rfl <;>
      · simp only [hrun]
        rfl
    · have hplan : s.operandPlan .stop (.listed p pos) = s.stopOps pos := if_pos hrun
      rw [hplan]
      have hstop : Performs Effect (updateSlot pos serverStopProcess >>= fun _ =>
          pure (str "Stopped " ++ p.appName.bytes ++ str " success.")) s
          (fun _ ops _ => ops = s.stopOps pos) (FailsIn (s.stopOps pos)) :=
        performs_then (stop_performs hlt hn) fun t => ⟨_, rfl⟩
      have hpos' := attempt_ok pos s
      rw [← hpos] at hpos'
      rcases htype with rfl | rfl <;>
      · simp only [if_pos hrun]
        exact performs_bind_of_ok hpos' hstop
  · intro p
    exact performs_pure rfl
  · intro p
    exact ⟨_, rfl⟩

theorem named_eq (hn : s.processCount ≤ listSize) (name : StrBuf) :
    slot (Slots.findFirst (fun p : Process => name = p.appName) s.processList s.processCount 0) =
      .ok (s.entries.findIdx? fun p => name = p.appName) ∧
    s.named name = (s.entries.findIdx? fun p => name = p.appName).isSome := by
  rw [Slots.findFirst_eq _ _ hn, Server.named, List.findIdx?_isSome]
  exact ⟨rfl, rfl⟩

theorem serverStartProcessWithCmd_performs (process : Process) :
    Performs Effect (serverStartProcessWithCmd process) s
      (fun _ ops _ => ops = [.append process]) (FailsIn [.append process]) := by
  rcases fork_cases s with ⟨pid, forks, hf, h0⟩ | hf
  · have hstart := serverStartProcess_run process hf h0
    set u := s.setKernel (s.kernel.forked process pid forks) with hu
    have hget : (get : ServerM Server) u = .ok u u := rfl
    -- the child is forked before its slot is known to be one
    by_cases hn : s.processCount < listSize
    · have hwrite : ∀ q, writeSlot u.processCount q u = .ok () (u.setSlot u.processCount q) :=
        fun q => writeSlot_run q hn
      refine performs_of_ok (a := str "Starting " ++ process.appName.bytes ++ str " with pid:" ++
        decimal pid ++ str ".") ?_ (.single (.append hn hf h0)) rfl
      rw [serverStartProcessWithCmd, bind_ok hstart, bind_ok hget, bind_ok (hwrite _)]
      rfl
    · have hwrite : ∀ q, writeSlot u.processCount q u = .error (.index s.processCount) u :=
        fun q => writeSlot_full q (show listSize ≤ s.processCount by omega)
      refine performs_of_error ?_ ⟨.append process, [], rfl, .full (by omega) (t := u) rfl⟩
      rw [serverStartProcessWithCmd, bind_ok hstart, bind_ok hget, bind_error (hwrite _)]
  · obtain ⟨t, ht, hkills⟩ := serverStartProcess_fail process hf
    refine performs_of_error ?_ ⟨.append process, [], rfl, .append hf hkills⟩
    rw [serverStartProcessWithCmd, bind_error ht]

theorem serverStartProcessAndGetResponse_performs (hn : s.processCount ≤ listSize) :
    Performs Effect (serverStartProcessAndGetResponse buffer) s
      (fun _ ops _ => s.operandOps .start buffer = .ok ops)
      (Breaks s (s.operandOps .start buffer)) := by
  refine performs_get_bind (performs_operand hn ?_ ?_ ?_)
  · intro type p pos q htype hpos hlt hq hname
    by_cases hrun : p.isRunning = 0
    · have hplan : s.operandPlan .start (.listed p pos) = [.start pos] := if_pos hrun
      rw [hplan]
      have hstart : Performs Effect (updateSlot pos serverStartProcess >>= fun _ => do
          return str "Started " ++ p.appName.bytes ++ str " with pid:" ++
            decimal (← readSlot pos).pid ++ str ".") s
          (fun _ ops _ => ops = [.start pos]) (FailsIn [.start pos]) := by
        refine performs_then (start_performs hlt hn) fun t => ?_
        obtain ⟨r, hr⟩ := exists_slot t (lt_of_slot hq)
        exact ⟨_, bind_ok (readSlot_run hr)⟩
      have hpos' := attempt_ok pos s
      rw [← hpos] at hpos'
      rcases htype with rfl | rfl <;>
      · simp only [if_pos hrun]
        exact performs_bind_of_ok hpos' hstart
    · have hplan : s.operandPlan .start (.listed p pos) = [] := if_neg hrun
      rw [hplan]
      rcases htype with rfl | rfl <;>
      · simp only [if_neg hrun]
        exact performs_pure rfl
  · intro p
    -- the name of a decoded process is looked for first
    obtain ⟨hfind, hnamed⟩ := named_eq hn p.appName
    have hfind' := attempt_ok (s.entries.findIdx? fun q => p.appName = q.appName) s
    rw [← hfind] at hfind'
    refine performs_bind_of_ok hfind' ?_
    cases hidx : s.entries.findIdx? fun q => decide (p.appName = q.appName) with
    | some i =>
      have hplan : s.operandPlan .start (.decoded p) = [] := if_pos (by rw [hnamed, hidx]; rfl)
      rw [hplan]
      exact performs_pure rfl
    | none =>
      have hplan : s.operandPlan .start (.decoded p) = [.append p] :=
        if_neg (by rw [hnamed, hidx]; simp)
      rw [hplan]
      exact serverStartProcessWithCmd_performs p
  · intro p
    exact ⟨_, rfl⟩

theorem serverRestartProcessAndGetResponse_performs (hn : s.processCount ≤ listSize) :
    Performs Effect (serverRestartProcessAndGetResponse buffer) s
      (fun _ ops _ => s.operandOps .restart buffer = .ok ops)
      (Breaks s (s.operandOps .restart buffer)) := by
  refine performs_get_bind (performs_operand hn ?_ ?_ ?_)
  · intro type p pos q htype hpos hlt hq hname
    by_cases hrun : p.isRunning = 0
    · have hplan : s.operandPlan .restart (.listed p pos) = [] := if_neg (by simpa using hrun)
      rw [hplan]
      refine performs_of_ok (a := p.appName.bytes ++ str " is not running.") ?_ (.nil s) rfl
      rcases htype with rfl | rfl <;>
      · simp only [hrun]
        rfl
    · have hplan : s.operandPlan .restart (.listed p pos) =
          s.stopOps pos ++ [.start pos, .note pos] := if_pos hrun
      rw [hplan]
      have hrestart : Performs Effect (updateSlot pos serverRestartProcess >>= fun _ => do
          return str "Restarted " ++ p.appName.bytes ++ str " with " ++
            decimal (← readSlot pos).pid ++ str ".") s
          (fun _ ops _ => ops = s.stopOps pos ++ [.start pos, .note pos])
          (FailsIn (s.stopOps pos ++ [.start pos, .note pos])) := by
        refine performs_then (restart_performs hlt hn) fun t => ?_
        obtain ⟨r, hr⟩ := exists_slot t (lt_of_slot hq)
        exact ⟨_, bind_ok (readSlot_run hr)⟩
      have hpos' := attempt_ok pos s
      rw [← hpos] at hpos'
      rcases htype with rfl | rfl <;>
      · simp only [if_pos hrun]
        exact performs_bind_of_ok hpos' hrestart
  · intro p
    exact performs_pure rfl
  · intro p
    exact ⟨_, rfl⟩

theorem stopOps_local (k : ℕ) : ∀ op ∈ s.stopOps k, op.Local := by
  intro op hop
  unfold Server.stopOps at hop
  split at hop
  · rw [List.mem_singleton.mp hop]
    trivial
  · simp at hop

theorem serverRemoveProcess_performs {k : ℕ} {q : Process} (hk : k < s.processCount)
    (hn : s.processCount ≤ listSize) (hq : s.processList[k]? = some q) :
    Performs Effect (serverRemoveProcess k) s
      (fun _ ops _ => ops = s.stopOps k ++ [.remove q.appName])
      (FailsIn (s.stopOps k ++ [.remove q.appName])) := by
  refine (stop_performs hk hn).bind (fun _ ls t hrun hls => ?_) fun _ _ _ _ _ h => h.extend
  subst hls
  obtain ⟨r, hr⟩ := exists_slot t (lt_of_slot hq)
  -- the stopped entry has kept its name
  have hname : r.appName = q.appName := by
    have h := (Effect.keeps_run hrun (stopOps_local k)).2 k
    rw [hr, hq, Option.map_some, Option.map_some, Option.some_inj] at h
    exact congrArg Prod.fst h
  refine performs_bind_of_ok (readSlot_run hr) (performs_get_bind ?_)
  rw [hname]
  cases hdel : delProcessByAppName t.processList q.appName with
  | error f =>
    exact performs_bind_of_error (attempt_error f t) ⟨.remove q.appName, [], by simp, .remove hdel⟩
  | ok x =>
    obtain ⟨processList, res⟩ := x
    exact performs_bind_of_ok (attempt_ok _ t)
      (performs_of_ok rfl (.single (.remove hdel)) rfl)

theorem serverRemoveProcessAndGetResponse_performs (hn : s.processCount ≤ listSize) :
    Performs Effect (serverRemoveProcessAndGetResponse buffer) s
      (fun _ ops _ => s.operandOps .remove buffer = .ok ops)
      (Breaks s (s.operandOps .remove buffer)) := by
  refine performs_get_bind (performs_operand hn ?_ ?_ ?_)
  · intro type p pos q htype hpos hlt hq hname
    have hplan : s.operandPlan .remove (.listed p pos) = s.stopOps pos ++ [.remove q.appName] := by
      rw [hname]
      rfl
    rw [hplan]
    have hpos' := attempt_ok pos s
    rw [← hpos] at hpos'
    have hremove : ∀ f : Text → ServerM Text, (∀ a t, ∃ b, f a t = .ok b t) →
        Performs Effect (serverRemoveProcess pos >>= f) s
          (fun _ ops _ => ops = s.stopOps pos ++ [.remove q.appName])
          (FailsIn (s.stopOps pos ++ [.remove q.appName])) := by
      intro f hf
      refine (serverRemoveProcess_performs hlt hn hq).bind (fun a ls t _ hls => ?_)
        fun _ _ _ _ _ h => h
      obtain ⟨b, hb⟩ := hf a t
      exact performs_of_ok hb (.nil t) (by rw [hls, List.append_nil])
    rcases htype with rfl | rfl <;>
    · refine performs_bind_of_ok hpos' (hremove _ fun a t => ?_)
      by_cases hrun : p.isRunning ≠ 0
      · exact ⟨_, by simp only [if_pos hrun]; rfl⟩
      · exact ⟨_, by simp only [if_neg hrun]; rfl⟩
  · intro p
    exact performs_pure rfl
  · intro p
    exact ⟨_, rfl⟩

end Requests

/-! ### Requests for all entries -/

theorem runs_congr {s t : Server} {k : ℕ} (h : t.processList[k]? = s.processList[k]?) :
    t.runs k = s.runs k := by
  rw [Server.runs, Server.runs, h]

/-- An operation on slot `i` does not decide which of the later slots are picked. -/
theorem filter_runs {s t : Server} {op : Op} {i steps : ℕ} (h : Run Effect s [op] t)
    (hop : op.Local) (hslot : op.slot = some i) (f : Bool → Bool) :
    ((List.range' (i + 1) steps).filter fun k => f (t.runs k)) =
      (List.range' (i + 1) steps).filter fun k => f (s.runs k) := by
  obtain ⟨u, heffect, hu⟩ := run_cons.mp h
  obtain rfl := run_nil.mp hu
  refine List.filter_congr fun k hk => ?_
  have hk' := (List.mem_range'_1.mp hk).1
  rw [runs_congr (heffect.frame hop (j := k) (by rw [hslot]; simp; omega))]

theorem startFrom_performs {s : Server} {i steps : ℕ} (hi : i + steps ≤ s.processCount)
    (hn : s.processCount ≤ listSize) :
    Performs Effect (startFrom steps i) s
      (fun _ ops _ => ops = ((List.range' i steps).filter fun k => !s.runs k).map .start)
      (FailsIn (((List.range' i steps).filter fun k => !s.runs k).map .start)) := by
  induction steps generalizing s i with
  | zero => exact performs_pure rfl
  | succ steps ih =>
    obtain ⟨p, hp⟩ := exists_slot s (show i < listSize by omega)
    rw [startFrom, List.range'_succ, List.filter_cons, runs_eq hp]
    refine performs_bind_of_ok (readSlot_run hp) ?_
    by_cases hrun : p.isRunning = 0
    · rw [if_neg (by simpa using hrun), if_pos (by simpa using hrun), List.map_cons]
      refine (start_performs (show i < s.processCount by omega) hn).bind (fun _ ls t hr hls => ?_)
        fun _ _ _ _ _ h => h.extend (r := ((List.range' (i + 1) steps).filter _).map _)
      subst hls
      have hcount := (Effect.keeps_run hr (by simp [Op.Local])).1
      have hrest := ih (s := t) (i := i + 1) (by omega) (by omega)
      rw [filter_runs hr trivial rfl] at hrest
      exact hrest.mono (fun _ ops _ _ h => by rw [h]; rfl) fun _ _ _ _ _ h =>
        h.append (d := [.start i])
    · rw [if_pos (by simpa using hrun), if_neg (by simpa using hrun)]
      exact ih (by omega) hn

theorem stopFrom_performs {s : Server} {i steps : ℕ} (hi : i + steps ≤ s.processCount)
    (hn : s.processCount ≤ listSize) :
    Performs Effect (stopFrom steps i) s
      (fun _ ops _ => ops = ((List.range' i steps).filter s.runs).map .stop)
      (FailsIn (((List.range' i steps).filter s.runs).map .stop)) := by
  induction steps generalizing s i with
  | zero => exact performs_pure rfl
  | succ steps ih =>
    obtain ⟨p, hp⟩ := exists_slot s (show i < listSize by omega)
    rw [stopFrom, List.range'_succ, List.filter_cons, runs_eq hp]
    refine performs_bind_of_ok (readSlot_run hp) ?_
    by_cases hrun : p.isRunning = 0
    · rw [if_neg (by simpa using hrun), if_neg (by simpa using hrun)]
      exact ih (by omega) hn
    · have hops : s.stopOps i = [.stop i] := by
        rw [Server.stopOps, runs_eq hp, if_pos (by simpa using hrun)]
      have hstop := stop_performs (show i < s.processCount by omega) hn
      rw [hops] at hstop
      rw [if_pos (by simpa using hrun), if_pos (by simpa using hrun), List.map_cons]
      refine hstop.bind (fun _ ls t hr hls => ?_)
        fun _ _ _ _ _ h => h.extend (r := ((List.range' (i + 1) steps).filter _).map _)
      subst hls
      have hcount := (Effect.keeps_run hr (by simp [Op.Local])).1
      have hrest := ih (s := t) (i := i + 1) (by omega) (by omega)
      -- to stop one entry leaves the others running
      have hfilter : (List.range' (i + 1) steps).filter t.runs =
          (List.range' (i + 1) steps).filter s.runs := filter_runs hr trivial rfl id
      rw [hfilter] at hrest
      exact hrest.mono (fun _ ops _ _ h => by rw [h]; rfl) fun _ _ _ _ _ h =>
        h.append (d := [.stop i])

theorem createProcessCJsonWithStatus_similar {procStatus : ℤ → Option (List Text)} {p q : Process}
    {json : CJson} (h : createProcessCJsonWithStatus procStatus p = .ok (q, json)) :
    p.Similar q := by
  unfold createProcessCJsonWithStatus at h
  split at h
  · cases hm : getMemByPid procStatus p.pid with
    | error f =>
      rw [hm] at h
      cases h
    | ok memory =>
      rw [hm] at h
      cases h
      rfl
  · cases h
    rfl

theorem statusFrom_performs {s : Server} {i steps : ℕ} (hi : i + steps ≤ s.processCount)
    (hn : s.processCount ≤ listSize) :
    Performs Effect (statusFrom steps i) s
      (fun _ ops _ => ops = (List.range' i steps).map .note)
      (FailsIn ((List.range' i steps).map .note)) := by
  induction steps generalizing s i with
  | zero => exact performs_pure rfl
  | succ steps ih =>
    obtain ⟨p, hp⟩ := exists_slot s (show i < listSize by omega)
    rw [statusFrom, List.range'_succ, List.map_cons]
    refine performs_bind_of_ok (readSlot_run hp) (performs_get_bind ?_)
    cases hs : createProcessCJsonWithStatus s.kernel.answers.procStatus p with
    | error f =>
      exact performs_bind_of_error (attempt_error f s) ⟨.note i, _, rfl, .note hp hs⟩
    | ok x =>
      obtain ⟨q, json⟩ := x
      -- only the memory is written back
      have hsim := createProcessCJsonWithStatus_similar hs
      have hnote : Performs Effect (writeSlot i q) s (fun _ ops _ => ops = [.note i])
          (FailsIn [.note i]) :=
        performs_of_ok (writeSlot_run q (lt_of_slot hp))
          (.single (.note (show i < s.processCount by omega) hp hsim)) rfl
      refine performs_bind_of_ok (attempt_ok _ s) (hnote.bind (fun _ ls t hr hls => ?_)
        fun _ _ _ _ _ h => h.extend (r := (List.range' (i + 1) steps).map _))
      subst hls
      have hcount := (Effect.keeps_run hr (by simp [Op.Local])).1
      refine (ih (s := t) (i := i + 1) (by omega) (by omega)).bind (fun _ ls u _ hls => ?_)
        fun _ _ _ _ _ h => h.append (d := [.note i])
      exact performs_pure (by rw [hls, List.append_nil]; rfl)

theorem getProcessListStatus_performs {s : Server} (hn : s.processCount ≤ listSize) :
    Performs Effect getProcessListStatus s
      (fun _ ops _ => ops = (List.range s.processCount).map .note)
      (Breaks s (.ok ((List.range s.processCount).map .note))) := by
  rw [List.range_eq_range']
  refine performs_get_bind ((statusFrom_performs (by omega) hn).bind (fun v ls t _ hls => ?_) ?_)
  · by_cases hfits : (cJsonPrint (.array v)).length < bufferSize
    · simp only [if_pos hfits]
      exact performs_pure (by rw [hls, List.append_nil])
    · simp only [if_neg hfits]
      exact performs_throw (.text (by rw [hls, List.append_nil]))
  · rintro f ops u t - ⟨o, rest, hplan, hf⟩
    exact .op (by rw [hplan]) hf

/-- Handling a request performs its plan; if the service does not survive it, the
plan is done up to the operation that has failed. -/
theorem handleRequest_performs {s : Server} (hn : s.processCount ≤ listSize) (request : Request) :
    Performs Effect (handleRequest request) s (fun _ ops _ => s.plan request = .ok ops)
      (Breaks s (s.plan request)) := by
  -- the requests for all entries have a fixed response
  have hall : ∀ {m : ServerM Unit} {ops : List Op} {response : Text},
      Performs Effect m s (fun _ ops' _ => ops' = ops) (FailsIn ops) →
      Performs Effect (m >>= fun _ => pure response) s
        (fun _ ops' _ => (.ok ops : Except Fault (List Op)) = .ok ops')
        (Breaks s (.ok ops)) := by
    intro m ops response hm
    refine hm.bind (fun _ ls t _ hls => performs_pure (by rw [hls, List.append_nil])) ?_
    rintro f ops' u t - ⟨o, rest, hplan, hf⟩
    exact .op (by rw [hplan]) hf
  refine performs_get_bind ?_
  unfold Server.plan
  cases readCommand (s.commandBuffer request) with
  | startall =>
    refine hall (performs_get_bind ?_)
    rw [List.range_eq_range']
    exact startFrom_performs (by omega) hn
  | stopall =>
    refine hall (performs_get_bind ?_)
    rw [List.range_eq_range']
    exact stopFrom_performs (by omega) hn
  | status =>
    exact (getProcessListStatus_performs hn).mono (fun _ ops _ _ h => by rw [h])
      fun _ _ _ _ _ h => h
  | start => exact serverStartProcessAndGetResponse_performs hn
  | stop => exact serverStopProcessAndGetResponse_performs hn
  | restart => exact serverRestartProcessAndGetResponse_performs hn
  | remove => exact serverRemoveProcessAndGetResponse_performs hn
  | ping => exact performs_pure rfl
  | error => exact performs_pure rfl

theorem saveConfig_run (s : Server) :
    saveConfig s =
      match saveProcessList s.processList with
      | .ok text => .ok () { s with configFile := text }
      | .error f => .error f { s with configFile := [] } := by
  have hopen : (modify fun s => { s with configFile := [] } : ServerM Unit) s =
      .ok () { s with configFile := [] } := rfl
  rw [saveConfig, bind_ok hopen]
  change (attempt (saveProcessList s.processList) >>= _) _ = _
  cases saveProcessList s.processList with
  | ok text => rfl
  | error f => rfl

/-- A request that is served is handled, and then the list is saved. -/
theorem serve_ok {s t : Server} {request : Request} {response : Text}
    (h : serve request s = .ok response t) :
    ∃ u text, handleRequest request s = .ok response u ∧ saveProcessList u.processList = .ok text ∧
      t = { u with configFile := text, buffer := [] } := by
  cases hr : handleRequest request s with
  | error f u =>
    rw [serve, bind_error hr] at h
    cases h
  | ok a u =>
    have hsave := saveConfig_run u
    rw [serve, bind_ok hr] at h
    cases hs : saveProcessList u.processList with
    | error f =>
      rw [hs] at hsave
      rw [bind_error hsave] at h
      cases h
    | ok text =>
      rw [hs] at hsave
      rw [bind_ok hsave] at h
      cases h
      exact ⟨u, text, rfl, hs, rfl⟩

theorem serve_error {s t : Server} {request : Request} {f : Fault}
    (h : serve request s = .error f t) :
    handleRequest request s = .error f t ∨
      ∃ response u, handleRequest request s = .ok response u ∧
        saveProcessList u.processList = .error f ∧ t = { u with configFile := [] } := by
  cases hr : handleRequest request s with
  | error f' u =>
    rw [serve, bind_error hr] at h
    cases h
    exact Or.inl rfl
  | ok a u =>
    have hsave := saveConfig_run u
    rw [serve, bind_ok hr] at h
    cases hs : saveProcessList u.processList with
    | error f' =>
      rw [hs] at hsave
      rw [bind_error hsave] at h
      cases h
      exact Or.inr ⟨a, u, rfl, hs, rfl⟩
    | ok text =>
      rw [hs] at hsave
      rw [bind_ok hsave] at h
      cases h

/-- A request that is served has its plan done, and then the list is saved. -/
theorem Served.plan {s t : Server} {call : Request × Answers} (hn : s.processCount ≤ listSize)
    (h : Served s call t) :
    ∃ ops u text, s.plan call.1 = .ok ops ∧ Run Effect (s.asked call.2) ops u ∧
      saveProcessList u.processList = .ok text ∧
        t = { u with configFile := text, buffer := [] } := by
  obtain ⟨response, hserve⟩ := h
  obtain ⟨u, text, hhandle, hsave, rfl⟩ := serve_ok hserve
  have hn' : (s.asked call.2).processCount ≤ listSize := hn
  obtain ⟨ops, hrun, hplan⟩ := (handleRequest_performs hn' call.1).ok hhandle
  exact ⟨ops, u, text, hplan, hrun, hsave, rfl⟩

theorem served_of (s : Server) (call : Request × Answers) (p : Server → Bool)
    (h : (match serve call.1 (s.asked call.2) with
      | .ok _ t => p t
      | .error _ _ => false) = true) : ∃ t, Served s call t ∧ p t = true := by
  split at h
  · rename_i response t hserve
    exact ⟨t, ⟨response, hserve⟩, h⟩
  · cases h

/-- The state behind requests that are all served, each of them in a state with `ok`. -/
def servedAll (ok : Server → Request × Answers → Bool) :
    Server → List (Request × Answers) → Option Server
  | s, [] => some s
  | s, call :: calls =>
    if ok s call then
      match serve call.1 (s.asked call.2) with
      | .ok _ t => servedAll ok t calls
      | .error _ _ => none
    else none

theorem guarded_of_servedAll {ok : Server → Request × Answers → Bool} {s t : Server}
    {calls : List (Request × Answers)} (h : servedAll ok s calls = some t) :
    Guarded Served (fun s call => ok s call = true) s calls t := by
  induction calls generalizing s with
  | nil =>
    obtain rfl := Option.some_inj.mp h
    exact .nil s
  | cons call calls ih =>
    rw [servedAll] at h
    split at h
    · rename_i hok
      split at h
      · rename_i response u hserve
        exact .cons hok ⟨response, hserve⟩ (ih h)
      · cases h
    · cases h

/-! ### The startup loop and the monitor -/

theorem startupIteration_performs {s : Server} {i : ℕ} (hi : i < s.processCount)
    (hn : s.processCount ≤ listSize) :
    Performs Effect (startupIteration i) s (fun _ ops _ => ops = s.startupPlan i)
      (FailsIn (s.startupPlan i)) := by
  obtain ⟨p, hp⟩ := exists_slot s (show i < listSize by omega)
  -- the id is written before the entry is looked at
  have hnumber : Performs Effect (writeSlot i { p with id := i }) s
      (fun _ ops t => ops = [.number i] ∧ t.processList[i]? = some { p with id := i } ∧
        t.processCount = s.processCount) (FailsIn [.number i]) :=
    performs_of_ok (writeSlot_run _ (lt_of_slot hp)) (.single (.number hi hp))
      ⟨rfl, slot_setSlot _ (lt_of_slot hp), rfl⟩
  rw [startupIteration]
  refine performs_bind_of_ok (readSlot_run hp) ?_
  by_cases hrun : p.isRunning = 0
  · have hplan : s.startupPlan i = [.number i] := by
      rw [Server.startupPlan, runs_eq hp, if_neg (by simpa using hrun)]
    rw [hplan]
    refine hnumber.bind (fun _ ls t _ hls => ?_) fun _ _ _ _ _ h => h
    rw [if_neg (by simpa using hrun)]
    exact performs_pure (by rw [hls.1, List.append_nil])
  · have hplan : s.startupPlan i = [.number i, .relaunch i] := by
      rw [Server.startupPlan, runs_eq hp, if_pos (by simpa using hrun)]
    rw [hplan]
    refine hnumber.bind (fun _ ls t _ hls => ?_) fun _ _ _ _ _ h => h.extend (r := [.relaunch i])
    obtain ⟨rfl, hslot, hcount⟩ := hls
    rw [if_pos hrun]
    exact (relaunch_performs (by omega) hslot hrun).mono (fun _ ops _ _ h => by rw [h]; rfl)
      fun _ _ _ _ _ h => h.append (d := [.number i])

theorem drop_entries {s : Server} {i : ℕ} {p : Process} (hi : i < s.processCount)
    (hp : s.processList[i]? = some p) : s.entries.drop i = p :: s.entries.drop (i + 1) := by
  obtain ⟨hlt, hget⟩ := List.getElem?_eq_some_iff.mp (entries_of_slot hi hp)
  rw [List.drop_eq_getElem_cons hlt, hget]

/-- The entries behind slot `i` do not change with it. -/
theorem drop_entries_run {s t : Server} {ops : List Op} {i : ℕ} (h : Run Effect s ops t)
    (hops : ∀ op ∈ ops, op.Local ∧ ∀ j, i < j → op.slot ≠ some j) :
    t.entries.drop (i + 1) = s.entries.drop (i + 1) := by
  induction h with
  | nil s => rfl
  | cons hl _ ih =>
    rw [ih fun op hop => hops op (List.mem_cons_of_mem _ hop)]
    obtain ⟨hlocal, hslot⟩ := hops _ List.mem_cons_self
    apply List.ext_getElem?
    intro k
    rw [List.getElem?_drop, List.getElem?_drop, Server.entries, Server.entries,
      Slots.getElem?_inUse, Slots.getElem?_inUse, (hl.keeps hlocal).1,
      hl.frame hlocal (hslot _ (by omega))]

/-- The monitor starts an entry whose child is dead, and counts the restart. -/
theorem relaunch_note_performs {s : Server} {i : ℕ} {p : Process} {c : Int32}
    (hi : i < s.processCount) (hp : s.processList[i]? = some p) (hrun : p.isRunning ≠ 0) :
    Performs Effect (serverStartProcess p >>= fun restarted =>
        writeSlot i { restarted with restartTimes := c }) s
      (fun _ ops t => ops = [.relaunch i, .note i] ∧
        t.kernel.answers.times = s.kernel.answers.times.tail)
      (FailsIn [.relaunch i, .note i]) := by
  rcases fork_cases s with ⟨pid, forks, hf, h0⟩ | hf
  · refine performs_of_ok (a := ()) ?_ ((Effect.relaunch hi hp hrun hf h0).thenNote
      (q := { p.started pid s.kernel.now with restartTimes := c }) hi (lt_of_slot hp) rfl)
      ⟨rfl, rfl⟩
    rw [bind_ok (serverStartProcess_run p hf h0)]
    exact writeSlot_run _ (lt_of_slot hp)
  · obtain ⟨t, ht, hkills⟩ := serverStartProcess_fail p hf
    exact performs_of_error (bind_error ht) ⟨.relaunch i, _, rfl, .relaunch hf hkills⟩

theorem handleExitFrom_performs {pid : ℤ} {s : Server} {i steps : ℕ}
    (hi : i + steps = s.processCount) (hn : s.processCount ≤ listSize) :
    Performs Effect (handleExitFrom pid steps i) s
      (fun _ ops _ =>
        ops = Server.exitPlanFrom pid i (s.entries.drop i) s.kernel.answers.times)
      (FailsIn (Server.exitPlanFrom pid i (s.entries.drop i) s.kernel.answers.times)) := by
  induction steps generalizing s i with
  | zero =>
    have hdrop : s.entries.drop i = [] :=
      List.drop_eq_nil_of_le (by rw [length_entries hn]; omega)
    rw [hdrop]
    exact performs_pure rfl
  | succ steps ih =>
    obtain ⟨p, hp⟩ := exists_slot s (show i < listSize by omega)
    have hin : i < s.processCount := by omega
    have hdrop := drop_entries hin hp
    rw [handleExitFrom]
    refine performs_bind_of_ok (readSlot_run hp) ?_
    by_cases hpid : p.pid = pid
    · rw [if_neg (not_not.mpr hpid)]
      by_cases hrun : p.isRunning = 0
      · have hplan : Server.exitPlanFrom pid i (s.entries.drop i) s.kernel.answers.times = [] := by
          rw [hdrop, Server.exitPlanFrom, if_neg (not_not.mpr hpid), if_pos hrun]
        rw [if_pos hrun, hplan]
        exact performs_pure rfl
      · rw [if_neg hrun]
        -- the monitor asks for the time
        have htime : Performs Effect time s
            (fun now ops t => now = s.kernel.now ∧ ops = [.tick] ∧ t = s.setKernel s.kernel.tick)
            (FailsIn []) :=
          performs_of_ok (time_run s) (.single (.tick s)) ⟨rfl, rfl, rfl⟩
        have hnil : ∀ {plan : List Op} {f ops u t}, FailsIn [] f ops u t →
            FailsIn plan f ops u t := by
          rintro plan f ops u t ⟨o, rest, h, -⟩
          simp at h
        refine htime.bind (fun now ls t _ hls => ?_) fun _ _ _ _ _ h => hnil h
        obtain ⟨rfl, rfl, rfl⟩ := hls
        by_cases hquick : p.startTime = s.kernel.now
        · have hplan : Server.exitPlanFrom pid i (s.entries.drop i) s.kernel.answers.times =
              [.tick, .quit i] := by
            rw [hdrop, Server.exitPlanFrom, if_neg (not_not.mpr hpid), if_neg hrun]
            exact if_pos hquick
          rw [if_pos hquick, hplan]
          exact performs_of_ok (writeSlot_run _ (lt_of_slot hp))
            (.single (.quit (s := s.setKernel s.kernel.tick) hin hp hrun)) rfl
        · have hplan : Server.exitPlanFrom pid i (s.entries.drop i) s.kernel.answers.times =
              .tick :: .relaunch i :: .note i :: Server.exitPlanFrom pid (i + 1)
                (s.entries.drop (i + 1)) s.kernel.answers.times.tail.tail := by
            rw [hdrop, Server.exitPlanFrom, if_neg (not_not.mpr hpid), if_neg hrun]
            exact if_neg hquick
          rw [if_neg hquick, hplan]
          have hrestart := relaunch_note_performs (s := s.setKernel s.kernel.tick)
            (c := p.restartTimes + 1) hin hp hrun
          rw [← bind_assoc]
          refine hrestart.bind (fun _ ls w hr hls => ?_) fun _ _ _ _ _ h => ?_
          · obtain ⟨rfl, htimes⟩ := hls
            have hlocal : ∀ op ∈ [Op.relaunch i, .note i],
                op.Local ∧ ∀ j, i < j → op.slot ≠ some j := by
              intro op hop
              simp only [List.mem_cons, List.not_mem_nil, or_false] at hop
              rcases hop with rfl | rfl <;>
              · refine ⟨trivial, fun j hj => ?_⟩
                simp only [Op.slot, ne_eq, Option.some.injEq]
                omega
            have hcount := (Effect.keeps_run hr fun op hop => (hlocal op hop).1).1
            have hrest := ih (s := w) (i := i + 1)
              (by rw [hcount, Server.setKernel_processCount]; omega)
              (by rw [hcount]; exact hn)
            have hrestDrop : w.entries.drop (i + 1) = s.entries.drop (i + 1) :=
              (drop_entries_run hr hlocal).trans rfl
            rw [hrestDrop, htimes] at hrest
            exact hrest.mono (fun _ ops _ _ h => by rw [h]; rfl)
              fun _ _ _ _ _ h => h.append (d := [.tick, .relaunch i, .note i])
          · exact (h.extend (r := Server.exitPlanFrom pid (i + 1) (s.entries.drop (i + 1))
              s.kernel.answers.times.tail.tail)).append (d := [.tick])
    · have hplan : Server.exitPlanFrom pid i (s.entries.drop i) s.kernel.answers.times =
          Server.exitPlanFrom pid (i + 1) (s.entries.drop (i + 1)) s.kernel.answers.times := by
        rw [hdrop, Server.exitPlanFrom, if_pos hpid]
      rw [if_pos hpid, hplan]
      exact ih (by omega) hn

theorem handleExit_performs (pid : ℤ) {s : Server} (hn : s.processCount ≤ listSize) :
    Performs Effect (handleExit pid) s (fun _ ops _ => ops = s.exitPlan pid)
      (FailsIn (s.exitPlan pid)) := by
  have h : 0 + s.processCount = s.processCount := by omega
  exact performs_get_bind (handleExitFrom_performs h hn)

end KbPm
