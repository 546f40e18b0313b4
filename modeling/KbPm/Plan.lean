/-
The shapes of plans.

* `Planned`, `plan_cases` — what the plan of a request can be;
* `Planned.local` — every operation of a plan but the last is on one entry.
-/
import KbPm.Handling

namespace KbPm

/-- The plans that a request can have. -/
inductive Planned (s : Server) : List Op → Prop
  | none : Planned s []
  | startall : Planned s (((List.range s.processCount).filter fun k => !s.runs k).map .start)
  | stopall : Planned s (((List.range s.processCount).filter s.runs).map .stop)
  | status : Planned s ((List.range s.processCount).map .note)
  | start {process : Process} {pos : ℕ} (hlisted : Listed s process pos)
    (hrun : process.isRunning = 0) : Planned s [.start pos]
  | append {process : Process} {buffer : Text} {res : ℤ} (hnew : s.named process.appName = false)
    (hdecode : parseProcess .zero buffer = .ok (process, res)) : Planned s [.append process]
  | stop {process : Process} {pos : ℕ} (hlisted : Listed s process pos)
    (hrun : process.isRunning ≠ 0) : Planned s (s.stopOps pos)
  | restart {process : Process} {pos : ℕ} (hlisted : Listed s process pos)
    (hrun : process.isRunning ≠ 0) : Planned s (s.stopOps pos ++ [.start pos, .note pos])
  | remove {process : Process} {pos : ℕ} (hlisted : Listed s process pos) :
    Planned s (s.stopOps pos ++ [.remove process.appName])

variable {s : Server}

theorem operandPlan_cases (hn : s.processCount ≤ listSize) {command : Command} {buffer : Text}
    {ops : List Op} (h : s.operandOps command buffer = .ok ops) : Planned s ops := by
  rw [Server.operandOps] at h
  cases resolves hn buffer with
  | @listed type process pos htype hparse hpos hl ho =>
    rw [ho] at h
    obtain rfl : s.operandPlan command (.listed process pos) = ops := Except.ok.inj h
    -- the table of commands, for an entry
    unfold Server.operandPlan
    cases command
    case start =>
      change Planned s (if process.isRunning = 0 then _ else _)
      split
      · exact .start hl (by assumption)
      · exact .none
    case stop =>
      change Planned s (if process.isRunning ≠ 0 then _ else _)
      split
      · exact .stop hl (by assumption)
      · exact .none
    case restart =>
      change Planned s (if process.isRunning ≠ 0 then _ else _)
      split
      · exact .restart hl (by assumption)
      · exact .none
    case remove => exact .remove hl
    all_goals exact .none
  | @decoded process res hparse hdecode hres ho =>
    rw [ho] at h
    obtain rfl : s.operandPlan command (.decoded process) = ops := Except.ok.inj h
    unfold Server.operandPlan
    cases command
    case start =>
      change Planned s (if s.named process.appName then _ else _)
      split
      · exact .none
      · rename_i hnew
        exact .append (by simpa using hnew) hdecode
    all_goals exact .none
  | unknown hparse ho =>
    rw [ho] at h
    obtain rfl : [] = ops := Except.ok.inj h
    exact .none
  | fault hparse hdecode ho =>
    rw [ho] at h
    cases h

theorem plan_cases (hn : s.processCount ≤ listSize) {request : Request} {ops : List Op}
    (h : s.plan request = .ok ops) : Planned s ops := by
  unfold Server.plan at h
  cases hc : readCommand (s.commandBuffer request) <;> rw [hc] at h
  case startall =>
    cases h
    exact .startall
  case stopall =>
    cases h
    exact .stopall
  case status =>
    cases h
    exact .status
  case ping =>
    cases h
    exact .none
  case error =>
    cases h
    exact .none
  all_goals exact operandPlan_cases hn h

theorem stopOps_cases (s : Server) (pos : ℕ) :
    (s.stopOps pos = [] ∧ s.runs pos = false) ∨
    (s.stopOps pos = [.stop pos] ∧ s.runs pos = true) := by
  rw [Server.stopOps]
  cases s.runs pos with
  | false => exact Or.inl ⟨rfl, rfl⟩
  | true => exact Or.inr ⟨rfl, rfl⟩

/-- Of the requests for one entry only a restart notes something. -/
theorem note_of_operandPlan {command : Command} {operand : Operand} {k : ℕ}
    (h : .note k ∈ s.operandPlan command operand) : command = .restart := by
  have hstop : ∀ pos, .note k ∉ s.stopOps pos := by
    intro pos
    rcases stopOps_cases s pos with ⟨h, -⟩ | ⟨h, -⟩ <;> simp [h]
  cases operand with
  | listed process pos =>
    cases command
    case restart => rfl
    case start =>
      change .note k ∈ (if process.isRunning = 0 then [Op.start pos] else []) at h
      split at h <;> simp at h
    case stop =>
      change .note k ∈ (if process.isRunning ≠ 0 then s.stopOps pos else []) at h
      split at h
      · exact absurd h (hstop pos)
      · cases h
    case remove =>
      rcases List.mem_append.mp h with h | h
      · exact absurd h (hstop pos)
      · cases List.mem_singleton.mp h
    all_goals cases h
  | decoded process =>
    cases command
    case start =>
      change .note k ∈ (if s.named process.appName then [] else [Op.append process]) at h
      split at h <;> simp at h
    all_goals cases h
  | unknown => cases h

/-- Only two commands have a plan in which something is noted. -/
theorem note_of_plan {request : Request} {ops : List Op} {k : ℕ}
    (hops : s.plan request = .ok ops) (hnote : .note k ∈ ops) :
    readCommand (s.commandBuffer request) = .status ∨
      readCommand (s.commandBuffer request) = .restart := by
  have hoperand : ∀ {command : Command} {buffer : Text}, command ≠ .restart →
      s.operandOps command buffer = .ok ops → False := by
    intro command buffer hne hops
    obtain ⟨operand, -, hplan⟩ := Slots.bind_eq_ok hops
    obtain rfl : s.operandPlan command operand = ops := Except.ok.inj hplan
    exact hne (note_of_operandPlan hnote)
  unfold Server.plan at hops
  cases hc : readCommand (s.commandBuffer request) <;> rw [hc] at hops
  case status => exact Or.inl rfl
  case restart => exact Or.inr rfl
  case startall =>
    cases hops
    simp at hnote
  case stopall =>
    cases hops
    simp at hnote
  case ping =>
    cases hops
    cases hnote
  case error =>
    cases hops
    cases hnote
  all_goals exact (hoperand (by simp) hops).elim

/-- Every operation of a plan but the last is on one entry. -/
theorem Planned.local {ops : List Op} (h : Planned s ops) :
    (∀ op ∈ ops, op.Local) ∨
      (∃ process buffer res, ops = [.append process] ∧ s.named process.appName = false ∧
        parseProcess .zero buffer = .ok (process, (res : ℤ))) ∨
      ∃ process pos, Listed s process pos ∧ ops = s.stopOps pos ++ [.remove process.appName] := by
  have hmap : ∀ {f : ℕ → Op} {l : List ℕ}, (∀ k, (f k).Local) → ∀ op ∈ l.map f, op.Local := by
    intro f l hf op hop
    obtain ⟨k, -, rfl⟩ := List.mem_map.mp hop
    exact hf k
  cases h with
  | none => exact Or.inl (by simp)
  | startall => exact Or.inl (hmap fun _ => trivial)
  | stopall => exact Or.inl (hmap fun _ => trivial)
  | status => exact Or.inl (hmap fun _ => trivial)
  | start hlisted hrun =>
    refine Or.inl fun op hop => ?_
    rw [List.mem_singleton.mp hop]
    trivial
  | append hnew hdecode => exact Or.inr (Or.inl ⟨_, _, _, rfl, hnew, hdecode⟩)
  | stop hlisted hrun => exact Or.inl (stopOps_local _)
  | @restart process pos hlisted hrun =>
    refine Or.inl fun op hop => ?_
    rcases List.mem_append.mp hop with hop | hop
    · exact stopOps_local pos op hop
    · simp only [List.mem_cons, List.not_mem_nil, or_false] at hop
      rcases hop with rfl | rfl <;> trivial
  | remove hlisted => exact Or.inr (Or.inr ⟨_, _, hlisted, rfl⟩)

/-- What comes before an operation of a plan is on single entries. -/
theorem Planned.before_local {ops rest : List Op} {o : Op} (h : Planned s (ops ++ o :: rest)) :
    ∀ op ∈ ops, op.Local := by
  rcases h.local with hlocal | ⟨p, buffer, res, happend, -, -⟩ | ⟨p, pos, -, hremove⟩
  · exact fun op hop => hlocal op (List.mem_append_left _ hop)
  · have hnil : ops = [] := by
      have hlength := congrArg List.length happend
      simp only [List.length_append, List.length_cons, List.length_nil] at hlength
      exact List.eq_nil_of_length_eq_zero (by omega)
    simp [hnil]
  · have hinit := congrArg List.dropLast hremove
    rw [List.dropLast_append_cons, List.dropLast_concat] at hinit
    intro op hop
    exact stopOps_local pos op (hinit ▸ List.mem_append_left _ hop)

theorem plan_error (hn : s.processCount ≤ listSize) {request : Request} {f : Fault}
    (h : s.plan request = .error f) : ∃ buffer, parseProcess .zero buffer = .error f := by
  unfold Server.plan at h
  cases hc : readCommand (s.commandBuffer request) <;> rw [hc] at h
  case start | stop | restart | remove =>
    change (s.operand (s.operandBuffer request) >>= fun o => pure (s.operandPlan _ o)) = _ at h
    cases resolves hn (s.operandBuffer request) with
    | listed htype hparse hpos hl ho =>
      rw [ho] at h
      cases h
    | decoded hparse hdecode hres ho =>
      rw [ho] at h
      cases h
    | unknown hparse ho =>
      rw [ho] at h
      cases h
    | fault hparse hdecode ho =>
      rw [ho] at h
      cases h
      exact ⟨_, hdecode⟩
  all_goals cases h

/-- Requests do not stop entries as the monitor does. -/
theorem Planned.not_quit {ops : List Op} (h : Planned s ops) (k : ℕ) : .quit k ∉ ops := by
  intro hmem
  have hstop : ∀ pos, .quit k ∉ s.stopOps pos := by
    intro pos hmem
    rcases stopOps_cases s pos with ⟨hops, -⟩ | ⟨hops, -⟩ <;> rw [hops] at hmem <;> simp at hmem
  cases h with
  | stop hlisted hrun => exact hstop _ hmem
  | restart hlisted hrun =>
    rcases List.mem_append.mp hmem with hmem | hmem
    · exact hstop _ hmem
    · simp at hmem
  | remove hlisted =>
    rcases List.mem_append.mp hmem with hmem | hmem
    · exact hstop _ hmem
    · simp at hmem
  | _ => simp at hmem

/-- Among operations on different slots, what comes before one is on others. -/
theorem slots_before {f : ℕ → Op} (hf : ∀ k, (f k).slot = some k) {ks : List ℕ} (hks : ks.Nodup)
    {ops rest : List Op} {k : ℕ} (h : ks.map f = ops ++ f k :: rest) :
    ∀ op ∈ ops, op.slot ≠ some k := by
  have hnodup : (ks.map f).Nodup := hks.map fun a b hab => by
    have hslot := congrArg Op.slot hab
    rw [hf, hf] at hslot
    exact Option.some_inj.mp hslot
  rw [h] at hnodup
  intro op hop hslot
  obtain ⟨j, -, rfl⟩ := List.mem_map.mp (h ▸ List.mem_append_left _ hop : op ∈ ks.map f)
  rw [hf] at hslot
  obtain rfl : j = k := Option.some_inj.mp hslot
  exact (List.disjoint_of_nodup_append hnodup) hop List.mem_cons_self

/-- Nothing is done to an entry before it is stopped. -/
theorem Planned.stops_first {ops rest : List Op} {k : ℕ} (h : Planned s (ops ++ .stop k :: rest)) :
    ∀ op ∈ ops, op.slot ≠ some k := by
  -- a plan that stops at most its first entry
  have hfirst : ∀ {pos : ℕ} {more : List Op}, (∀ j, .stop j ∉ more) →
      ops ++ .stop k :: rest = s.stopOps pos ++ more → ∀ op ∈ ops, op.slot ≠ some k := by
    intro pos more hmore heq
    have hmem : .stop k ∈ s.stopOps pos ++ more :=
      heq ▸ List.mem_append_right _ List.mem_cons_self
    rcases stopOps_cases s pos with ⟨hops, -⟩ | ⟨hops, -⟩ <;> rw [hops] at heq hmem
    · exact absurd hmem (hmore k)
    · cases ops with
      | nil => simp
      | cons o ops =>
        have htail : ops ++ .stop k :: rest = more := (List.cons.inj heq).2
        exact absurd (htail ▸ List.mem_append_right _ List.mem_cons_self) (hmore k)
  have hmem : .stop k ∈ ops ++ .stop k :: rest := List.mem_append_right _ List.mem_cons_self
  generalize hplan : ops ++ .stop k :: rest = plan at h hmem
  cases h with
  | stopall => exact slots_before (fun _ => rfl) (List.nodup_range.filter _) hplan.symm
  | stop hlisted hrun =>
    rw [← List.append_nil (s.stopOps _)] at hplan
    exact hfirst (by simp) hplan
  | restart hlisted hrun => exact hfirst (by simp) hplan
  | remove hlisted => exact hfirst (by simp) hplan
  | _ => simp at hmem

theorem startupPlan_ops (s : Server) (i : ℕ) :
    ∀ op ∈ s.startupPlan i, op.Local ∧ op.slot = some i ∧ ∀ k, op ≠ .stop k := by
  intro op hop
  rw [Server.startupPlan] at hop
  split at hop
  · simp only [List.mem_cons, List.not_mem_nil, or_false] at hop
    rcases hop with rfl | rfl <;> exact ⟨trivial, rfl, by simp⟩
  · obtain rfl := List.mem_singleton.mp hop
    exact ⟨trivial, rfl, by simp⟩

end KbPm
