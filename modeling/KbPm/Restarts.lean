/-
The restart counter.

* `Restart`, `System.restarts` — the restarts of an entry in a step, by a client or
  by the monitor;
* `Restart.count` — what a restart makes of the counter;
* `CountsOn`, `Steps.counted` — a step that neither starts nor stops the entry
  otherwise does this and nothing more;
* `restart_times_iff` — the counter counts the restarts exactly when no client's
  restart comes after another restart, and there are as many as an `int` can count.
-/
import KbPm.Snapshot
import KbPm.StatusFiles

namespace KbPm

open Trace

/-- Who restarts an app. -/
inductive Restart
  | client
  | monitor
  deriving DecidableEq

/-- What a restart makes of the counter. -/
def Restart.count (restartTimes : Int32) : Restart → Int32
  | .client => 1
  | .monitor => restartTimes + 1

theorem toInt_add_one {c : Int32} (h : c.toInt + 1 < 2 ^ 31) : (c + 1).toInt = c.toInt + 1 := by
  have hlow := Int32.le_toInt c
  rw [Int32.toInt_add, Int32.toInt_one, Int.bmod_eq_of_le] <;> omega

/-- As long as the counter does not wrap around, it is behind the number of restarts once a client
has asked for one. -/
theorem Restart.foldl_count {c : Int32} {restarts : List Restart} (hc : 1 ≤ c.toInt)
    (hmax : c.toInt + restarts.length < 2 ^ 31) :
    (restarts.foldl Restart.count c).toInt ≤ c.toInt + restarts.length ∧
      ((restarts.foldl Restart.count c).toInt = c.toInt + restarts.length ↔
        .client ∉ restarts) := by
  induction restarts generalizing c with
  | nil => simp
  | cons restart restarts ih =>
    rw [List.length_cons] at hmax
    push_cast at hmax
    rw [List.foldl_cons, List.length_cons, List.mem_cons]
    cases restart with
    | client =>
      obtain ⟨hle, -⟩ := ih (c := 1) (by decide) (by rw [Int32.toInt_one]; omega)
      rw [Int32.toInt_one] at hle
      simp only [Restart.count]
      constructor
      · push_cast
        omega
      · simp only [true_or, not_true_eq_false, iff_false]
        push_cast
        omega
    | monitor =>
      have hone := toInt_add_one (c := c) (by omega)
      obtain ⟨hle, hiff⟩ := ih (c := c + 1) (by omega) (by omega)
      simp only [Restart.count]
      constructor
      · push_cast
        omega
      · rw [or_iff_right (by simp), ← hiff]
        push_cast
        constructor <;> intro h <;> omega

/-- From zero on, the first restart counts whoever has asked for it; no number of restarts that is
not an `int` is reached. -/
theorem Restart.foldl_eq_iff (restarts : List Restart) :
    (restarts.foldl Restart.count 0).toInt = restarts.length ↔
      .client ∉ restarts.tail ∧ restarts.length < 2 ^ 31 := by
  by_cases hmax : restarts.length < 2 ^ 31
  · cases restarts with
    | nil => simp
    | cons restart restarts =>
      have hfirst : Restart.count 0 restart = 1 := by cases restart <;> rfl
      rw [List.length_cons] at hmax
      have hbound : (1 : Int32).toInt + restarts.length < 2 ^ 31 := by
        rw [Int32.toInt_one]
        omega
      have hcount := (Restart.foldl_count (by decide) hbound).2
      rw [List.foldl_cons, hfirst, List.tail_cons, ← hcount, List.length_cons, Int32.toInt_one]
      push_cast
      constructor
      · intro h
        exact ⟨by omega, by omega⟩
      · intro h
        omega
  · have hlt := Int32.toInt_lt (restarts.foldl Restart.count 0)
    refine iff_of_false (fun h => ?_) fun h => hmax h.2
    omega

/-! ### The counter in a request -/

theorem serverStartProcess_restartTimes {p q : Process} {s t : Server}
    (h : serverStartProcess p s = .ok q t) : q.restartTimes = 0 := by
  rcases fork_cases s with ⟨pid, forks, hf, h0⟩ | hf
  · rw [serverStartProcess_run p hf h0] at h
    cases h
    rfl
  · obtain ⟨u, hu, -⟩ := serverStartProcess_fail p hf
    rw [hu] at h
    cases h

/-- The counter is zero behind the start, whatever it was. -/
theorem serverRestartProcess_restartTimes {p q : Process} {s t : Server}
    (h : serverRestartProcess p s = .ok q t) : q.restartTimes = 1 := by
  obtain ⟨stopped, u, -, h⟩ := bind_eq_ok.mp h
  obtain ⟨started, v, hstart, h⟩ := bind_eq_ok.mp h
  cases h
  change started.restartTimes + 1 = 1
  rw [serverStartProcess_restartTimes hstart]
  rfl

theorem updateSlot_ok {k : ℕ} {f : Process → ServerM Process} {s t : Server} {p : Process}
    (hp : s.processList[k]? = some p) (h : updateSlot k f s = .ok () t) :
    ∃ q u, f p s = .ok q u ∧ t = u.setSlot k q := by
  cases hf : f p s with
  | ok q u =>
    rw [updateSlot_run hp hf] at h
    cases h
    exact ⟨q, u, rfl, rfl⟩
  | error e u =>
    rw [updateSlot_error hp hf] at h
    cases h

/-- A client's restart leaves the counter at one. -/
theorem serverRestartProcessAndGetResponse_restartTimes {s t : Server} {buffer response : Text}
    {ops : List Op} {k : ℕ} (hn : s.processCount ≤ listSize)
    (h : serverRestartProcessAndGetResponse buffer s = .ok response t)
    (hops : s.operandOps .restart buffer = .ok ops) (hk : .start k ∈ ops) :
    ∃ q, t.processList[k]? = some q ∧ q.restartTimes = 1 := by
  rw [Server.operandOps] at hops
  cases resolves hn buffer with
  | @listed type p pos htype hparse hpos hlisted ho =>
    rw [ho] at hops
    obtain rfl : s.operandPlan .restart (.listed p pos) = ops := Except.ok.inj hops
    obtain ⟨-, r, -, -, -, hr, -, -⟩ := hlisted
    by_cases hrun : p.isRunning = 0
    · have hplan : s.operandPlan .restart (.listed p pos) = [] := if_neg (by simpa using hrun)
      simp [hplan] at hk
    · have hplan : s.operandPlan .restart (.listed p pos) =
          s.stopOps pos ++ [.start pos, .note pos] := if_pos hrun
      obtain rfl : k = pos := by
        rcases stopOps_cases s pos with ⟨hstop, -⟩ | ⟨hstop, -⟩ <;> simpa [hplan, hstop] using hk
      change (attempt (parseProcessAndProcessType s.processList s.processCount buffer) >>= _) s =
        _ at h
      rw [hparse, bind_ok (attempt_ok _ s)] at h
      have hupdate : ∃ v, updateSlot k serverRestartProcess s = .ok () v ∧ t = v := by
        rcases htype with rfl | rfl <;>
        · simp only [if_pos hrun] at h
          rw [hpos, bind_ok (attempt_ok k s)] at h
          obtain ⟨_, v, hupdate, h⟩ := bind_eq_ok.mp h
          obtain ⟨q, hq⟩ := exists_slot v (lt_of_slot hr)
          rw [bind_ok (readSlot_run hq)] at h
          cases h
          exact ⟨t, hupdate, rfl⟩
      obtain ⟨v, hupdate, rfl⟩ := hupdate
      obtain ⟨q, u, hq, rfl⟩ := updateSlot_ok hr hupdate
      exact ⟨q, slot_setSlot q (lt_of_slot hr), serverRestartProcess_restartTimes hq⟩
  | decoded hparse hdecode hres ho =>
    rw [ho] at hops
    cases hops
    cases hk
  | unknown hparse ho =>
    rw [ho] at hops
    cases hops
    cases hk
  | fault hparse hdecode ho =>
    rw [ho] at hops
    cases hops

/-- The status text leaves all counters as they are. -/
theorem statusFrom_restartTimes {steps i : ℕ} {s t : Server} {items : List CJson}
    (hi : i + steps ≤ listSize) (h : statusFrom steps i s = .ok items t) (k : ℕ) :
    (t.processList[k]?).map Process.restartTimes =
    (s.processList[k]?).map Process.restartTimes := by
  induction steps generalizing s i items with
  | zero =>
    cases h
    rfl
  | succ steps ih =>
    obtain ⟨p, hp⟩ := exists_slot s (show i < listSize by omega)
    rw [statusFrom, bind_ok (readSlot_run hp)] at h
    change (attempt (createProcessCJsonWithStatus s.kernel.answers.procStatus p) >>= _) s = _ at h
    cases hs : createProcessCJsonWithStatus s.kernel.answers.procStatus p with
    | error f =>
      rw [hs, bind_error (attempt_error f s)] at h
      cases h
    | ok made =>
      obtain ⟨q, json⟩ := made
      rw [hs, bind_ok (attempt_ok _ s)] at h
      have hkept : q.restartTimes = p.restartTimes := by
        cases (queried_of_create hs).1 <;> rfl
      simp only [bind_ok (writeSlot_run q (lt_of_slot hp))] at h
      obtain ⟨rest, v, hrest, h⟩ := bind_eq_ok.mp h
      cases h
      rw [ih (by omega) hrest]
      exact setSlot_keeps hp hkept k

/-! ### The counter in the monitor -/

/-- The monitor raises the counters of the entries that it starts, and no others. -/
theorem handleExitFrom_restartTimes {pid : ℤ} {steps i : ℕ} {s t : Server}
    (hi : i + steps = s.processCount) (hn : s.processCount ≤ listSize)
    (h : handleExitFrom pid steps i s = .ok () t) {k : ℕ} {p : Process}
    (hp : s.processList[k]? = some p) :
    ∃ q, t.processList[k]? = some q ∧ q.restartTimes =
      if .relaunch k ∈ Server.exitPlanFrom pid i (s.entries.drop i) s.kernel.answers.times
      then p.restartTimes + 1 else p.restartTimes := by
  induction steps generalizing s i p with
  | zero =>
    have hdrop : s.entries.drop i = [] :=
      List.drop_eq_nil_of_le (by rw [length_entries hn]; omega)
    cases h
    exact ⟨p, hp, by simp [hdrop, Server.exitPlanFrom]⟩
  | succ steps ih =>
    obtain ⟨r, hr⟩ := exists_slot s (show i < listSize by omega)
    have hin : i < s.processCount := by omega
    rw [drop_entries hin hr, Server.exitPlanFrom]
    rw [handleExitFrom, bind_ok (readSlot_run hr)] at h
    by_cases hpid : r.pid = pid
    · rw [if_neg (not_not.mpr hpid)] at h ⊢
      by_cases hrun : r.isRunning = 0
      · rw [if_pos hrun] at h ⊢
        cases h
        exact ⟨p, hp, by simp⟩
      · rw [if_neg hrun, bind_ok (time_run s)] at h
        rw [if_neg hrun]
        have hnow : s.kernel.answers.times.headD 0 = s.kernel.now := rfl
        rw [hnow]
        by_cases hquick : r.startTime = s.kernel.now
        · rw [if_pos hquick, writeSlot_run _ (lt_of_slot hr)] at h
          rw [if_pos hquick]
          cases h
          -- the entry that is stopped keeps its counter
          have hkept := setSlot_keeps (f := Process.restartTimes) (s := s.setKernel s.kernel.tick)
            (q := { r with isRunning := 0, pid := 0 }) hr rfl k
          rw [Server.setKernel_processList, hp, Option.map_some, Option.map_eq_some_iff] at hkept
          obtain ⟨q, hq, heq⟩ := hkept
          exact ⟨q, hq, by simp [heq]⟩
        · rw [if_neg hquick] at h ⊢
          rcases fork_cases (s.setKernel s.kernel.tick) with ⟨pid', forks, hf, h0⟩ | hf
          · set q := { r.started pid' (s.setKernel s.kernel.tick).kernel.now with
              restartTimes := r.restartTimes + 1 }
            set w := ((s.setKernel s.kernel.tick).setKernel
              ((s.setKernel s.kernel.tick).kernel.forked r pid' forks)).setSlot i q with hw
            have h : handleExitFrom pid steps (i + 1) w = .ok () t := by
              rw [bind_ok (serverStartProcess_run r hf h0),
                bind_ok (writeSlot_run _ (lt_of_slot hr))] at h
              exact h
            have hdrop : w.entries.drop (i + 1) = s.entries.drop (i + 1) := by
              rw [hw, entries_setSlot, List.drop_set_of_lt (Nat.lt_succ_self i)]
              rfl
            have hrest := fun {x} (hx : w.processList[k]? = some x) =>
              ih (s := w) (i := i + 1) (show i + 1 + steps = s.processCount by omega) hn h hx
            rw [hdrop] at hrest
            by_cases hki : i = k
            · -- it is not started a second time
              subst hki
              obtain rfl : r = p := Option.some_inj.mp (hr.symm.trans hp)
              obtain ⟨x, hx, hcount⟩ := hrest (slot_setSlot q (lt_of_slot hr))
              have hgone : .relaunch i ∉ Server.exitPlanFrom pid (i + 1) (s.entries.drop (i + 1))
                  w.kernel.answers.times := by
                intro h
                rcases exitPlanFrom_shape h with h | ⟨j, hj, h | h | h⟩ <;> cases h
                omega
              rw [if_neg hgone] at hcount
              exact ⟨x, hx, by rw [hcount, if_pos (by simp)]⟩
            · obtain ⟨x, hx, hcount⟩ := hrest ((slot_setSlot_ne q hki).trans hp)
              refine ⟨x, hx, hcount.trans ?_⟩
              have hmem : ∀ plan : List Op, .relaunch k ∈ .tick :: .relaunch i :: .note i :: plan ↔
                  .relaunch k ∈ plan := by
                intro plan
                simp [Ne.symm hki]
              simp only [hmem]
              rfl
          · obtain ⟨u, hu, -⟩ := serverStartProcess_fail r hf
            rw [bind_error hu] at h
            cases h
    · rw [if_pos hpid] at h ⊢
      exact ih (by omega) hn h hp

/-! ### The counter in a step -/

namespace System

/-- The restarts of entry `k` in a step. -/
def restarts (σ : System) (k : ℕ) : Event → List Restart
  | .request request _ =>
    match readCommand (σ.server.commandBuffer request), σ.server.plan request with
    | .restart, .ok ops => if .start k ∈ ops then [.client] else []
    | _, _ => []
  | .handle answers =>
    match σ.phase with
    | .reaped pid => if .relaunch k ∈ (σ.server.asked answers).exitPlan pid then [.monitor] else []
    | _ => []
  | _ => []

/-- And in a run. -/
def restartsIn (k : ℕ) : System → List Event → List Restart
  | _, [] => []
  | σ, event :: events =>
    σ.restarts k event ++
      match σ.step event with
      | some τ => restartsIn k τ events
      | none => []

end System

/-- The step starts and stops entry `k` by a restart only, and removes no entry. -/
def RestartsOnly (k : ℕ) (σ : System) : Event → Prop
  | .startup _ => σ.phase ≠ .starting k
  | .request request _ =>
    readCommand (σ.server.commandBuffer request) = .restart ∨
      ∀ ops, σ.server.plan request = .ok ops →
        ∀ op ∈ ops, (∀ name, op ≠ .remove name) ∧ (op.slot = some k → op = .note k)
  | _ => True

/-- Operations on other entries, and at the end of the list, keep an entry. -/
theorem entry_untouched {s t : Server} {ops : List Op} {k : ℕ} {p : Process}
    (h : Run Effect s ops t)
    (hops : ∀ op ∈ ops, (∀ name, op ≠ .remove name) ∧ op.slot ≠ some k)
    (hp : s.entries[k]? = some p) : t.entries[k]? = some p := by
  induction h with
  | nil s => exact hp
  | @cons s u t op ops hstep _ ih =>
    refine ih (fun op hop => hops op (List.mem_cons_of_mem _ hop)) ?_
    obtain ⟨hremove, hslot⟩ := hops op List.mem_cons_self
    by_cases hop : op.Local
    · exact (hstep.entry hop hp).elim (fun h => absurd h.1 hslot) And.right
    · cases op with
      | append app =>
        obtain ⟨_, _, _, _, hentries, -, -⟩ := hstep.append_entries
        rw [hentries, List.getElem?_append_left (List.getElem?_eq_some_iff.mp hp).1, hp]
      | remove name => exact absurd rfl (hremove name)
      | _ => exact absurd trivial hop

theorem restart_ops {s : Server} {buffer : Text} {ops : List Op}
    (h : s.operandOps .restart buffer = .ok ops) :
    ops = [] ∨ ∃ pos, ops = s.stopOps pos ++ [.start pos, .note pos] := by
  rw [Server.operandOps] at h
  cases ho : s.operand buffer with
  | error f =>
    rw [ho] at h
    cases h
  | ok operand =>
    rw [ho] at h
    obtain rfl : s.operandPlan .restart operand = ops := Except.ok.inj h
    cases operand with
    | listed p pos =>
      change (if p.isRunning ≠ 0 then _ else _) = [] ∨ ∃ pos, (if p.isRunning ≠ 0 then _ else _) = _
      split
      · exact Or.inr ⟨pos, rfl⟩
      · exact Or.inl rfl
    | decoded p => exact Or.inl rfl
    | unknown => exact Or.inl rfl

/-- The operations of a restart are on one entry. -/
theorem restart_slots {s : Server} {buffer : Text} {ops : List Op}
    (h : s.operandOps .restart buffer = .ok ops) {k : ℕ} :
    (∀ op ∈ ops, op.Local) ∧ (.start k ∉ ops → ∀ op ∈ ops, op.slot ≠ some k) := by
  rcases restart_ops h with rfl | ⟨pos, rfl⟩
  · simp
  · have hcases := stopOps_cases s pos
    constructor
    · intro op hop
      rcases List.mem_append.mp hop with hop | hop
      · exact stopOps_local pos op hop
      · simp only [List.mem_cons, List.not_mem_nil, or_false] at hop
        rcases hop with rfl | rfl <;> trivial
    · intro hk
      have hne : k ≠ pos := by
        rintro rfl
        simp at hk
      rcases hcases with ⟨hstop, -⟩ | ⟨hstop, -⟩ <;> rw [hstop] <;>
        simp [Op.slot, Ne.symm hne]

/-- An entry with a counter. -/
def Counter (s : Server) (k : ℕ) (restartTimes : Int32) : Prop :=
  ∃ p, s.entries[k]? = some p ∧ p.restartTimes = restartTimes

/-- What a request does to the counter. -/
theorem Served.counted {s t : Server} {call : Request × Answers} {k : ℕ} {c : Int32}
    (h : Served s call t) (hn : s.processCount ≤ listSize) (hcounter : Counter s k c)
    (hok : readCommand (s.commandBuffer call.1) = .restart ∨
      ∀ ops, s.plan call.1 = .ok ops →
        ∀ op ∈ ops, (∀ name, op ≠ .remove name) ∧ (op.slot = some k → op = .note k)) :
    ∃ ops, s.plan call.1 = .ok ops ∧
      Counter t k (if readCommand (s.commandBuffer call.1) = .restart ∧ .start k ∈ ops then 1
        else c) := by
  obtain ⟨response, hserve⟩ := h
  obtain ⟨u, text, hhandle, -, rfl⟩ := serve_ok hserve
  have hn' : (s.asked call.2).processCount ≤ listSize := hn
  obtain ⟨ops, hrun, hplan⟩ := (handleRequest_performs hn' call.1).ok hhandle
  have hplan : s.plan call.1 = .ok ops := hplan
  refine ⟨ops, hplan, ?_⟩
  obtain ⟨p, hp, rfl⟩ := hcounter
  -- an entry that is not touched, and one whose slot is written
  have hkept : (∀ op ∈ ops, (∀ name, op ≠ .remove name) ∧ op.slot ≠ some k) →
      Counter u k p.restartTimes := fun hops => ⟨p, entry_untouched hrun hops hp, rfl⟩
  have hwritten : ∀ {c : Int32}, (∀ op ∈ ops, op.Local) →
      (u.processList[k]?).map Process.restartTimes = some c → Counter u k c := by
    intro c hlocal hq
    obtain ⟨q, hq, hc⟩ := Option.map_eq_some_iff.mp hq
    have hcount := (Effect.keeps_run hrun hlocal).1
    exact ⟨q, entries_of_slot (hcount ▸ (entries_get hp).1) hq, hc⟩
  change Counter u k _
  by_cases hc : readCommand (s.commandBuffer call.1) = .restart
  · have hops : s.operandOps .restart (s.operandBuffer call.1) = .ok ops := by
      rw [← hplan, Server.plan, hc]
    obtain ⟨hlocal, hother⟩ := restart_slots (k := k) hops
    by_cases hk : .start k ∈ ops
    · rw [if_pos ⟨hc, hk⟩]
      have hrestart : serverRestartProcessAndGetResponse (s.operandBuffer call.1)
          (s.asked call.2) = .ok response u := by
        have hread : (get : ServerM Server) (s.asked call.2) =
            .ok (s.asked call.2) (s.asked call.2) :=
          rfl
        have hc : readCommand ((s.asked call.2).commandBuffer call.1) = .restart := hc
        rw [← hhandle, handleRequest, bind_ok hread, hc]
        rfl
      obtain ⟨q, hq, hcount⟩ := serverRestartProcessAndGetResponse_restartTimes hn' hrestart hops hk
      exact hwritten hlocal (by rw [hq, Option.map_some, hcount])
    · rw [if_neg fun h => hk h.2]
      refine hkept fun op hop => ⟨?_, hother hk op hop⟩
      rintro name rfl
      exact hlocal _ hop
  · have hops := (hok.resolve_left hc) ops hplan
    rw [if_neg fun h => hc h.1]
    by_cases hs : readCommand (s.commandBuffer call.1) = .status
    · -- all memories are written, and no counters
      have hplan' : s.plan call.1 = .ok ((List.range s.processCount).map .note) := by
        rw [Server.plan, hs]
      obtain rfl := Except.ok.inj (hplan'.symm.trans hplan)
      rw [handleRequest_status (s := s.asked call.2) hs] at hhandle
      obtain ⟨items, v, hstatus, hhandle⟩ := bind_eq_ok.mp
        (show (statusFrom s.processCount 0 >>= _) (s.asked call.2) = _ from hhandle)
      have hv : u = v := by
        split_ifs at hhandle
        · cases hhandle
          rfl
        · cases hhandle
      subst hv
      refine hwritten (by simp [Op.Local]) ?_
      rw [statusFrom_restartTimes (by omega) hstatus k]
      have hslot : s.processList[k]? = some p := (entries_get hp).2
      exact congrArg (Option.map Process.restartTimes) hslot
    · refine hkept fun op hop => ⟨(hops op hop).1, fun hslot => ?_⟩
      rw [(hops op hop).2 hslot] at hop
      exact (note_of_plan hplan hop).elim hs hc

/-- What a step does to the counter. -/
theorem Steps.counted {σ τ : System} {event : Event} {k : ℕ} {c : Int32} (h : Steps σ event τ)
    (hn : σ.server.processCount ≤ listSize) (hτ : ∀ fault, τ.phase ≠ .ended fault)
    (hok : RestartsOnly k σ event) (hcounter : Counter σ.server k c) :
    Counter τ.server k ((σ.restarts k event).foldl Restart.count c) := by
  cases h.cases with
  | @iterate i answers hphase hi hfresh =>
    obtain ⟨a, hm⟩ := System.after_running hτ
    obtain ⟨ops, hrun, rfl⟩ := (startupIteration_performs (s := σ.server.asked answers) hi hn).ok hm
    obtain ⟨p, hp, hc⟩ := hcounter
    have hik : i ≠ k := fun hik => hok (hik ▸ hphase)
    refine ⟨p, entry_untouched hrun (fun op hop => ?_) hp, hc⟩
    obtain ⟨hlocal, hslot, -⟩ := startupPlan_ops _ i op hop
    refine ⟨?_, by simpa [hslot] using hik⟩
    rintro name rfl
    exact hlocal
  | @handle pid answers hphase hfresh =>
    obtain ⟨a, hm⟩ := System.after_running hτ
    obtain ⟨p, hp, rfl⟩ := hcounter
    obtain ⟨hk, hslot⟩ := entries_get hp
    have hm' : handleExitFrom pid σ.server.processCount 0 (σ.server.asked answers) =
        .ok () (σ.after (handleExit pid) answers .waiting).server := hm
    obtain ⟨q, hq, hcount⟩ := handleExitFrom_restartTimes (s := σ.server.asked answers)
      (Nat.zero_add _) hn hm' hslot
    have hrestarts : σ.restarts k (.handle answers) =
        if .relaunch k ∈ (σ.server.asked answers).exitPlan pid then [.monitor] else [] := by
      rw [System.restarts, hphase]
    obtain ⟨ops, hrun, rfl⟩ := (handleExit_performs pid (s := σ.server.asked answers) hn).ok hm
    have hlength := (Effect.keeps_run hrun fun op hop => (exitPlan_ops _ _ op hop).1).1
    refine ⟨q, entries_of_slot (hlength ▸ hk) hq, ?_⟩
    rw [hcount, hrestarts, List.drop_zero]
    change (if .relaunch k ∈ (σ.server.asked answers).exitPlan pid then _ else _) = _
    split <;> rfl
  | @request request answers hphase hfresh =>
    obtain ⟨a, hm⟩ := System.after_running hτ
    have hserved : Served σ.server (request, answers) _ := ⟨a, hm⟩
    obtain ⟨ops, hops, hcount⟩ := hserved.counted hn hcounter hok
    have hrestarts : σ.restarts k (.request request answers) =
        if readCommand (σ.server.commandBuffer request) = .restart ∧ .start k ∈ ops then [.client]
        else [] := by
      rw [System.restarts, hops]
      cases readCommand (σ.server.commandBuffer request) <;> simp
    rw [hrestarts]
    split at hcount
    · rw [if_pos (by assumption)]
      exact hcount
    · rw [if_neg (by assumption)]
      exact hcount
  | finish => exact hcounter
  | wait => exact hcounter
  | exit => exact hcounter

/-- And what a run does to it. -/
theorem counted_run {σ τ : System} {events : List Event} {k : ℕ} {c : Int32}
    (hrun : Guarded Steps (RestartsOnly k) σ events τ) (hn : σ.server.processCount ≤ listSize)
    (hτ : ∀ fault, τ.phase ≠ .ended fault) (hcounter : Counter σ.server k c) :
    Counter τ.server k ((σ.restartsIn k events).foldl Restart.count c) := by
  induction hrun generalizing c with
  | nil σ => exact hcounter
  | @cons σ ρ τ event events hok hstep hrest ih =>
    have hρ := running_before hrest.run hτ
    have hin : σ.restartsIn k (event :: events) =
        σ.restarts k event ++ ρ.restartsIn k events := by
      have hstep : σ.step event = some ρ := hstep
      rw [System.restartsIn, hstep]
    rw [hin, List.foldl_append]
    exact ih (hstep.inside hn hρ) hτ (hstep.counted hn hρ hok hcounter)

/-- The counter of an entry that has been started is the number of its restarts since,
exactly when a client has asked for none but the first of them and an `int` can count them. -/
theorem restart_times_iff {σ τ : System} {events : List Event} {k : ℕ} {p : Process}
    (hn : σ.server.processCount ≤ listSize) (hp : σ.server.entries[k]? = some p)
    (hstarted : p.restartTimes = 0) (hrun : Guarded Steps (RestartsOnly k) σ events τ)
    (hτ : ∀ fault, τ.phase ≠ .ended fault) :
    ∃ q, τ.server.entries[k]? = some q ∧
      (q.restartTimes.toInt = (σ.restartsIn k events).length ↔
        .client ∉ (σ.restartsIn k events).tail ∧ (σ.restartsIn k events).length < 2 ^ 31) := by
  obtain ⟨q, hq, hcount⟩ := counted_run hrun hn hτ ⟨p, hp, hstarted⟩
  exact ⟨q, hq, by rw [hcount, Restart.foldl_eq_iff]⟩

/-! The app of the config, from when the startup loop has started it. -/

/-- The child `pid` exits, and is handled in a second in which it has not been started. -/
def exited (pid : ℤ) (forks : List ℤ) : List Event :=
  [.exit pid, .wait pid, .handle ⟨forks, [2, 2], fun _ => none, []⟩]

def clientRestart (pid : ℤ) : Event := .request ⟨str "restart", str "web"⟩ (onePid pid)

theorem clientRestart_restartsOnly {σ : System} {pid : ℤ} (hbuffer : σ.server.buffer = []) :
    RestartsOnly 0 σ (clientRestart pid) := by
  refine Or.inl ?_
  rw [Server.commandBuffer, hbuffer]
  decide

theorem exited_restartsOnly {σ τ : System} {pid : ℤ} {forks : List ℤ}
    (h : Run Steps σ (exited pid forks) τ) :
    Guarded Steps (RestartsOnly 0) σ (exited pid forks) τ := by
  obtain ⟨ρ, hexit, h⟩ := run_cons.mp h
  obtain ⟨υ, hwait, h⟩ := run_cons.mp h
  obtain ⟨ω, hhandle, h⟩ := run_cons.mp h
  obtain rfl := run_nil.mp h
  exact .cons trivial hexit (.cons trivial hwait (.cons trivial hhandle (.nil τ)))

/-- A client's restart and then the monitor's. -/
theorem restart_times_iff_web :
    ∃ τ, Guarded Steps (RestartsOnly 0) webStarted (clientRestart 9 :: exited 9 [11]) τ ∧
      webStarted.restartsIn 0 (clientRestart 9 :: exited 9 [11]) = [.client, .monitor] ∧
      ∃ q, τ.server.entries[0]? = some q ∧ q.restartTimes = 2 ∧
        (q.restartTimes.toInt =
            ((webStarted.restartsIn 0 (clientRestart 9 :: exited 9 [11])).length : ℤ) ↔
          .client ∉ (webStarted.restartsIn 0 (clientRestart 9 :: exited 9 [11])).tail ∧
            (webStarted.restartsIn 0 (clientRestart 9 :: exited 9 [11])).length < 2 ^ 31) := by
  obtain ⟨τ, hrun, hτ⟩ := run_of_any webStarted (clientRestart 9 :: exited 9 [11])
    (fun τ => decide (τ.phase = .waiting ∧ τ.server.entries.map Process.restartTimes = [2]))
    (by decide +kernel)
  obtain ⟨hphase, htimes⟩ := of_decide_eq_true hτ
  obtain ⟨ρ, hclient, hexited⟩ := run_cons.mp hrun
  have hguarded : Guarded Steps (RestartsOnly 0) webStarted (clientRestart 9 :: exited 9 [11]) τ :=
    .cons (clientRestart_restartsOnly (by decide +kernel)) hclient (exited_restartsOnly hexited)
  obtain ⟨p, hp, hzero⟩ : ∃ p, webStarted.server.entries[0]? = some p ∧ p.restartTimes = 0 := by
    have h : (webStarted.server.entries.map Process.restartTimes)[0]? = some 0 := by decide +kernel
    rwa [List.getElem?_map, Option.map_eq_some_iff] at h
  obtain ⟨q, hq, hiff⟩ := restart_times_iff (by decide +kernel) hp hzero hguarded (by simp [hphase])
  refine ⟨τ, hguarded, by decide +kernel, q, hq, ?_, hiff⟩
  have h : (τ.server.entries.map Process.restartTimes)[0]? = some 2 := by rw [htimes]; rfl
  rw [List.getElem?_map, hq] at h
  exact Option.some_inj.mp h

/-- The monitor's restart and then a client's: the counter says that there was one. -/
theorem restart_forgets :
    Run Steps webSystem [.startup (onePid 7), .startup (onePid 8)] webStarted ∧
      webStarted.server.entries.map Process.restartTimes = [0] ∧
      ∃ τ, Guarded Steps (RestartsOnly 0) webStarted (exited 7 [9] ++ [clientRestart 11]) τ ∧
        τ.phase = .waiting ∧
        webStarted.restartsIn 0 (exited 7 [9] ++ [clientRestart 11]) = [.monitor, .client] ∧
        τ.server.entries.map Process.restartTimes = [1] := by
  set ρ := ((exited 7 [9]).foldlM System.step webStarted).getD webStarted with hρ
  have hexited : Run Steps webStarted (exited 7 [9]) ρ := run_of_isSome (by decide +kernel)
  obtain ⟨τ, hclient, hτ⟩ := run_of_any ρ [clientRestart 11]
    (fun τ => decide (τ.phase = .waiting ∧ τ.server.entries.map Process.restartTimes = [1]))
    (by decide +kernel)
  obtain ⟨hphase, htimes⟩ := of_decide_eq_true hτ
  obtain ⟨υ, hstep, hυ⟩ := run_cons.mp hclient
  obtain rfl := run_nil.mp hυ
  refine ⟨webStarted_run, by decide +kernel, τ, ?_, hphase, by decide +kernel,
    htimes⟩
  exact (exited_restartsOnly hexited).append
    (.cons (clientRestart_restartsOnly (by decide +kernel)) hstep (.nil τ))

end KbPm
