/-
The list of entries against the children of the service.

* `Puts` — one entry is written, and the others stay;
* `Sound pending s` — what the entries say of pids is so: a pid that an entry has
  is that of a child with its program, or `pending`;
* `Sound.step` — operations keep it;
* `Sound.handled_cases` — what the monitor does with the pid that `wait` has returned.
-/
import KbPm.Entries
import KbPm.Supervisor

namespace KbPm

open Trace

/-- Entry `k` of `t` is `q`; the other entries are those of `s`. -/
def Puts (s t : Server) (k : ℕ) (q : Process) : Prop :=
  ∀ j : ℕ, t.entries[j]? = if j = k then some q else s.entries[j]?

theorem puts_setSlot {s : Server} {k : ℕ} {p : Process} (hp : s.entries[k]? = some p)
    (q : Process) : Puts s (s.setSlot k q) k q := by
  intro j
  have hk : k < s.entries.length := (List.getElem?_eq_some_iff.mp hp).1
  rw [entries_setSlot, List.getElem?_set]
  by_cases hj : k = j
  · rw [if_pos hj, if_pos hk, if_pos hj.symm]
  · rw [if_neg hj, if_neg (Ne.symm hj)]

theorem puts_append {s t : Server} {q : Process} (hn : s.processCount ≤ listSize)
    (h : t.entries = s.entries ++ [q]) : Puts s t s.processCount q := by
  intro j
  rw [h, ← length_entries hn]
  by_cases hj : j = s.entries.length
  · rw [if_pos hj, hj, List.getElem?_concat_length]
  · rw [if_neg hj]
    rcases Nat.lt_or_gt_of_ne hj with hlt | hgt
    · rw [List.getElem?_append_left hlt]
    · rw [List.getElem?_eq_none (by simp; omega), List.getElem?_eq_none (by omega)]

theorem Puts.cases {s t : Server} {k j : ℕ} {q r : Process} (h : Puts s t k q)
    (hr : t.entries[j]? = some r) : (j = k ∧ r = q) ∨ (j ≠ k ∧ s.entries[j]? = some r) := by
  rw [h j] at hr
  split at hr
  · exact Or.inl ⟨by assumption, (Option.some_inj.mp hr).symm⟩
  · exact Or.inr ⟨by assumption, hr⟩

/-- What the entries of `s` say of pids, where `pending` is the pid that `wait` has
returned. -/
structure Sound (pending : Option ℤ) (s : Server) : Prop where
  tidy : Tidy s
  stopped : ∀ (k : ℕ) p, s.entries[k]? = some p → p.isRunning = 0 → p.pid = 0
  nonneg : ∀ (k : ℕ) p, s.entries[k]? = some p → 0 ≤ p.pid
  distinct : ∀ (i j : ℕ) p q, s.entries[i]? = some p → s.entries[j]? = some q → p.pid ≠ 0 →
    p.pid = q.pid → i = j
  known : ∀ (k : ℕ) p, s.entries[k]? = some p → p.pid ≠ 0 → pending = some p.pid ∨
    ∃ c ∈ s.kernel.children, c.pid = p.pid ∧ c.app.program = p.program
  children : s.kernel.pids.Nodup
  positive : ∀ pid ∈ s.kernel.pids, 0 < pid
  gone : ∀ pid, pending = some pid → pid ∉ s.kernel.pids ∧ pid ≠ 0

/-- The answers of `fork` are pids that neither a child nor, as far as it matters,
a list entry has. -/
def FreshFor (pending : Option ℤ) (kernel : Kernel) : Prop :=
  kernel.Fresh kernel.answers.forks ∧ ∀ pid ∈ kernel.answers.forks, pending ≠ some pid

section Sound

variable {pending : Option ℤ} {s t : Server} {k : ℕ} {p q : Process}

/-- An entry that is written keeps its pid or gives it up. -/
theorem Sound.put (h : Sound pending s) (hp : s.entries[k]? = some p) (hput : Puts s t k q)
    (htidy : Tidy t) (hpids : t.kernel.pids = s.kernel.pids)
    (hchildren : ∀ c ∈ s.kernel.children, ∃ c' ∈ t.kernel.children, c'.pid = c.pid ∧ c'.app = c.app)
    (hprogram : q.program = p.program) (hstopped : q.isRunning = 0 → q.pid = 0)
    (hpid : q.pid = 0 ∨ q.pid = p.pid) : Sound pending t := by
  have hknown : ∀ {r : Process}, (∃ c ∈ s.kernel.children, c.pid = r.pid ∧
      c.app.program = r.program) → ∃ c ∈ t.kernel.children, c.pid = r.pid ∧
      c.app.program = r.program := by
    rintro r ⟨c, hc, hcpid, hcprogram⟩
    obtain ⟨c', hc', hpid', happ'⟩ := hchildren c hc
    exact ⟨c', hc', hpid'.trans hcpid, by rw [happ', hcprogram]⟩
  refine ⟨htidy, fun j r hr hrun => ?_, fun j r hr => ?_, fun i j a b ha hb h0 heq => ?_,
    fun j r hr h0 => ?_, hpids ▸ h.children, hpids ▸ h.positive, fun pid hpending => ?_⟩
  · rcases hput.cases hr with ⟨-, rfl⟩ | ⟨-, hr⟩
    · exact hstopped hrun
    · exact h.stopped j r hr hrun
  · rcases hput.cases hr with ⟨-, rfl⟩ | ⟨-, hr⟩
    · have := h.nonneg k p hp
      omega
    · exact h.nonneg j r hr
  · -- the written entry stands for the old one
    have hold : ∀ {j : ℕ} {r : Process}, t.entries[j]? = some r → r.pid ≠ 0 →
        ∃ r', s.entries[j]? = some r' ∧ r'.pid = r.pid := by
      intro j r hr h0
      rcases hput.cases hr with ⟨rfl, rfl⟩ | ⟨-, hr⟩
      · exact ⟨p, hp, (hpid.resolve_left h0).symm⟩
      · exact ⟨r, hr, rfl⟩
    obtain ⟨a', ha', hapid⟩ := hold ha h0
    obtain ⟨b', hb', hbpid⟩ := hold hb (heq ▸ h0)
    exact h.distinct i j a' b' ha' hb' (hapid.symm ▸ h0) (by rw [hapid, hbpid, heq])
  · rcases hput.cases hr with ⟨-, rfl⟩ | ⟨-, hr⟩
    · have heq := hpid.resolve_left h0
      rcases h.known k p hp (heq ▸ h0) with hpending | hchild
      · exact Or.inl (by rw [heq]; exact hpending)
      · obtain ⟨c, hc, hcpid, hcprogram⟩ := hknown hchild
        exact Or.inr ⟨c, hc, by rw [heq]; exact hcpid, by rw [hprogram]; exact hcprogram⟩
    · exact (h.known j r hr h0).imp_right hknown
  · rw [hpids]
    exact h.gone pid hpending

/-- A process is started and stored as entry `k`; `pending'` may have been the pid
of this entry. -/
theorem Sound.launch {pending' : Option ℤ} {pid : ℤ} (h : Sound pending s) (app : Process)
    (hput : Puts s t k q) (htidy : Tidy t)
    (hchildren : t.kernel.children = ⟨pid, app, true⟩ :: s.kernel.children)
    (hpid : 0 < pid ∧ pid ∉ s.kernel.pids)
    (hq : q.pid = pid ∧ q.isRunning ≠ 0 ∧ app.program = q.program)
    (hother : ∀ (j : ℕ) r, j ≠ k → s.entries[j]? = some r → r.pid ≠ 0 →
      (pending' = some r.pid ∧ r.pid ≠ pid) ∨
        ∃ c ∈ s.kernel.children, c.pid = r.pid ∧ c.app.program = r.program)
    (hgone : ∀ x, pending' = some x → x ∉ s.kernel.pids ∧ x ≠ 0 ∧ x ≠ pid) :
    Sound pending' t := by
  obtain ⟨hqpid, hqrun, hqprogram⟩ := hq
  have hpids : t.kernel.pids = pid :: s.kernel.pids := congrArg (List.map Child.pid) hchildren
  have hnew : ∀ {j : ℕ} {r : Process}, j ≠ k → s.entries[j]? = some r → r.pid ≠ 0 →
      r.pid ≠ pid := by
    intro j r hj hr h0
    rcases hother j r hj hr h0 with ⟨-, hne⟩ | ⟨c, hc, hcpid, -⟩
    · exact hne
    · rintro rfl
      exact hpid.2 (List.mem_map.mpr ⟨c, hc, hcpid⟩)
  refine ⟨htidy, fun j r hr hrun => ?_, fun j r hr => ?_, fun i j a b ha hb h0 heq => ?_,
    fun j r hr h0 => ?_, ?_, ?_, fun x hx => ?_⟩
  · rcases hput.cases hr with ⟨-, rfl⟩ | ⟨-, hr⟩
    · exact absurd hrun hqrun
    · exact h.stopped j r hr hrun
  · rcases hput.cases hr with ⟨-, rfl⟩ | ⟨-, hr⟩
    · omega
    · exact h.nonneg j r hr
  · rcases hput.cases ha with ⟨rfl, rfl⟩ | ⟨hi, ha⟩
    · rcases hput.cases hb with ⟨rfl, -⟩ | ⟨hj, hb⟩
      · rfl
      · exact absurd (heq.symm.trans hqpid) (hnew hj hb (heq ▸ h0))
    · rcases hput.cases hb with ⟨rfl, rfl⟩ | ⟨hj, hb⟩
      · exact absurd (heq.trans hqpid) (hnew hi ha h0)
      · exact h.distinct i j a b ha hb h0 heq
  · rcases hput.cases hr with ⟨-, rfl⟩ | ⟨hj, hr⟩
    · refine Or.inr ⟨⟨pid, app, true⟩, ?_, hqpid.symm, hqprogram⟩
      rw [hchildren]
      exact List.mem_cons_self
    · rcases hother j r hj hr h0 with ⟨hpending, -⟩ | ⟨c, hc, hcpid, hcprogram⟩
      · exact Or.inl hpending
      · refine Or.inr ⟨c, ?_, hcpid, hcprogram⟩
        rw [hchildren]
        exact List.mem_cons_of_mem _ hc
  · rw [hpids]
    exact List.nodup_cons.mpr ⟨hpid.2, h.children⟩
  · rw [hpids]
    intro x hx
    rcases List.mem_cons.mp hx with rfl | hx
    · exact hpid.1
    · exact h.positive x hx
  · obtain ⟨hx1, hx2, hx3⟩ := hgone x hx
    rw [hpids, List.mem_cons, not_or]
    exact ⟨⟨hx3, hx1⟩, hx2⟩

theorem Sound.congr (h : Sound pending s) (htidy : Tidy t) (hentries : t.entries = s.entries)
    (hchildren : t.kernel.children = s.kernel.children) : Sound pending t := by
  have hpids : t.kernel.pids = s.kernel.pids := congrArg (List.map Child.pid) hchildren
  refine ⟨htidy, ?_, ?_, ?_, ?_, hpids ▸ h.children, hpids ▸ h.positive, hpids ▸ h.gone⟩
  · rw [hentries]
    exact h.stopped
  · rw [hentries]
    exact h.nonneg
  · rw [hentries]
    exact h.distinct
  · rw [hentries, hchildren]
    exact h.known

theorem pids_die (pid : ℤ) (children : List Child) :
    (die pid children).map Child.pid = children.map Child.pid := by
  rw [die, List.map_map]
  refine List.map_congr_left fun c _ => ?_
  simp only [Function.comp]
  split <;> rfl

theorem mem_die (pid : ℤ) {children : List Child} {c : Child} (hc : c ∈ children) :
    ∃ c' ∈ die pid children, c'.pid = c.pid ∧ c'.app = c.app := by
  refine ⟨_, List.mem_map_of_mem hc, ?_⟩
  split <;> exact ⟨rfl, rfl⟩

theorem FreshFor.forked {kernel : Kernel} {pid : ℤ} {forks : List ℤ}
    (h : FreshFor pending kernel) (app : Process) (hf : kernel.answers.forks = pid :: forks) :
    0 < pid ∧ pid ∉ kernel.pids ∧ pending ≠ some pid ∧
      FreshFor pending (kernel.forked app pid forks) := by
  obtain ⟨⟨hnodup, hfresh⟩, hpending⟩ := h
  rw [hf] at hnodup hfresh hpending
  obtain ⟨hpid, hnodup⟩ := List.nodup_cons.mp hnodup
  obtain ⟨hpos, hchild⟩ := hfresh pid List.mem_cons_self
  refine ⟨hpos, hchild, hpending pid List.mem_cons_self, ⟨hnodup, fun x hx => ?_⟩, fun x hx => ?_⟩
  · obtain ⟨hxpos, hxchild⟩ := hfresh x (List.mem_cons_of_mem _ hx)
    refine ⟨hxpos, ?_⟩
    change x ∉ pid :: kernel.pids
    rw [List.mem_cons, not_or]
    exact ⟨fun heq => hpid (heq ▸ hx), hxchild⟩
  · exact hpending x (List.mem_cons_of_mem _ hx)

theorem FreshFor.congr {kernel kernel' : Kernel} (h : FreshFor pending kernel)
    (hforks : kernel'.answers.forks = kernel.answers.forks) (hpids : kernel'.pids = kernel.pids) :
    FreshFor pending kernel' := by
  unfold FreshFor Kernel.Fresh
  rw [hforks, hpids]
  exact h

/-- What an operation relies on: at most the last name is empty when one that is
listed is removed. -/
def Permits (s : Server) : Op → Prop
  | .remove name => Fits s ∧ ∃ (k : ℕ) (p : Process), s.entries[k]? = some p ∧ p.appName = name
  | _ => True

theorem Tidy.put (h : Tidy s) (kernel : Kernel) (hp : s.entries[k]? = some p) :
    Tidy ((s.setKernel kernel).setSlot k q) := by
  refine ⟨h.inside, fun j r hj hr => ?_⟩
  have hk := (entries_get hp).1
  change s.processCount ≤ j at hj
  rw [slot_setSlot_ne (s := s.setKernel kernel) q (by omega)] at hr
  exact h.unnamed j r hj hr

theorem Sound.start {pid : ℤ} {forks : List ℤ} (h : Sound pending s)
    (hfresh : FreshFor pending s.kernel) (hp : s.entries[k]? = some p)
    (hf : s.kernel.answers.forks = pid :: forks) (now : ℤ) :
    Sound pending ((s.setKernel (s.kernel.forked p pid forks)).setSlot k (p.started pid now)) := by
  obtain ⟨hpos, hchild, hpending, -⟩ := hfresh.forked p hf
  refine h.launch p (puts_setSlot (s := s.setKernel _) hp _) (h.tidy.put _ hp) rfl ⟨hpos, hchild⟩
    ⟨rfl, p.started_isRunning pid now, rfl⟩ (fun j r hj hr h0 => ?_) fun x hx => ?_
  · refine (h.known j r hr h0).imp_left fun hx => ⟨hx, ?_⟩
    rintro rfl
    exact hpending hx
  · obtain ⟨hx1, hx2⟩ := h.gone x hx
    refine ⟨hx1, hx2, ?_⟩
    rintro rfl
    exact hpending hx

theorem Sound.append (h : Sound pending s) (hfresh : FreshFor pending s.kernel)
    (hstep : Effect s (.append p) t) : Sound pending t ∧ FreshFor pending t.kernel := by
  have htidy := h.tidy.append hstep
  obtain ⟨pid, forks, hf, -, hentries, hkernel, -⟩ := hstep.append_entries
  obtain ⟨hpos, hchild, hpending, hfresh'⟩ := hfresh.forked p hf
  refine ⟨h.launch p (puts_append h.tidy.inside hentries) htidy (by rw [hkernel]; rfl)
    ⟨hpos, hchild⟩
    ⟨rfl, p.started_isRunning pid s.kernel.now, rfl⟩ (fun j r _ hr h0 => ?_) fun x hx => ?_,
    hkernel ▸ hfresh'⟩
  · refine (h.known j r hr h0).imp_left fun hx => ⟨hx, ?_⟩
    rintro rfl
    exact hpending hx
  · obtain ⟨hx1, hx2⟩ := h.gone x hx
    refine ⟨hx1, hx2, ?_⟩
    rintro rfl
    exact hpending hx

theorem Sound.remove {name : StrBuf} (h : Sound pending s) (hfits : Fits s)
    (hp : s.entries[k]? = some p) (hname : p.appName = name) (hstep : Effect s (.remove name) t) :
    Sound pending t := by
  subst hname
  obtain ⟨j, q, hq, -, -, -, hkernel, htidy, hget⟩ := entries_remove h.tidy hfits hp hstep
  -- each entry that is left was one
  have hold : ∀ {i : ℕ} {r : Process}, t.entries[i]? = some r → ∃ r',
      s.entries[if i < j then i else i + 1]? = some r' ∧ r'.pid = r.pid ∧
      r'.isRunning = r.isRunning ∧ r'.program = r.program := by
    intro i r hr
    rw [hget i] at hr
    split at hr
    · rename_i hi
      rw [if_pos hi]
      exact ⟨r, hr, rfl, rfl, rfl⟩
    · rename_i hi
      obtain ⟨r', hr', rfl⟩ := Option.map_eq_some_iff.mp hr
      rw [if_neg hi]
      exact ⟨r', hr', rfl, rfl, rfl⟩
  refine ⟨htidy, fun i r hr hrun => ?_, fun i r hr => ?_, fun i i' a b ha hb h0 heq => ?_,
    fun i r hr h0 => ?_, hkernel ▸ h.children, hkernel ▸ h.positive, hkernel ▸ h.gone⟩
  · obtain ⟨r', hr', hpid, hrun', -⟩ := hold hr
    rw [← hpid]
    exact h.stopped _ r' hr' (hrun'.trans hrun)
  · obtain ⟨r', hr', hpid, -, -⟩ := hold hr
    rw [← hpid]
    exact h.nonneg _ r' hr'
  · obtain ⟨a', ha', hapid, -, -⟩ := hold ha
    obtain ⟨b', hb', hbpid, -, -⟩ := hold hb
    have hindex := h.distinct _ _ a' b' ha' hb' (hapid.symm ▸ h0) (by rw [hapid, hbpid, heq])
    split_ifs at hindex <;> omega
  · obtain ⟨r', hr', hpid, -, hprogram⟩ := hold hr
    rw [hkernel, ← hpid, ← hprogram]
    exact h.known _ r' hr' (by rw [hpid]; exact h0)

/-- Operations keep the entries sound. -/
theorem Sound.step {op : Op} (h : Sound pending s) (hfresh : FreshFor pending s.kernel)
    (hstep : Effect s op t) (hpermit : Permits s op) :
    Sound pending t ∧ FreshFor pending t.kernel := by
  have hself : ∀ c ∈ s.kernel.children, ∃ c' ∈ s.kernel.children, c'.pid = c.pid ∧ c'.app = c.app :=
    fun c hc => ⟨c, hc, rfl, rfl⟩
  cases hstep with
  | tick =>
    exact ⟨h.congr ⟨h.tidy.inside, h.tidy.unnamed⟩ rfl rfl, hfresh.congr rfl rfl⟩
  | @note k p q hk hp hq =>
    have hp := entries_of_slot hk hp
    refine ⟨h.put hp (puts_setSlot hp q) (h.tidy.put s.kernel hp) rfl hself ?_ ?_ ?_, hfresh⟩
    · rw [hq]
      rfl
    · intro hrun
      rw [hq] at hrun ⊢
      exact h.stopped k p hp hrun
    · rw [hq]
      exact Or.inr rfl
  | @number k p hk hp =>
    have hp := entries_of_slot hk hp
    exact ⟨h.put hp (puts_setSlot hp _) (h.tidy.put s.kernel hp) rfl hself rfl
      (fun hrun => h.stopped k p hp hrun) (Or.inr rfl), hfresh⟩
  | start hk hp hf h0 =>
    have hp := entries_of_slot hk hp
    exact ⟨h.start hfresh hp hf _, (hfresh.forked _ hf).2.2.2⟩
  | relaunch hk hp hrun hf h0 =>
    have hp := entries_of_slot hk hp
    exact ⟨h.start hfresh hp hf _, (hfresh.forked _ hf).2.2.2⟩
  | @stop k p hk hp hrun hpid =>
    have hp := entries_of_slot hk hp
    refine ⟨h.put hp (puts_setSlot (s := s.setKernel _) hp _) (h.tidy.put _ hp) (pids_die _ _)
      (fun c hc => mem_die _ hc) rfl (fun _ => rfl) (Or.inl rfl), hfresh.congr rfl (pids_die _ _)⟩
  | append hn hf h0 => exact h.append hfresh (.append hn hf h0)
  | remove hdel =>
    -- deletion moves the entries behind the deleted one, and their pids along
    obtain ⟨hfits, k, p, hp, hname⟩ := hpermit
    exact ⟨h.remove hfits hp hname (.remove hdel), hfresh⟩
  | @quit k p hk hp hrun =>
    have hp := entries_of_slot hk hp
    exact ⟨h.put hp (puts_setSlot hp _) (h.tidy.put s.kernel hp) rfl hself rfl
      (fun _ => rfl) (Or.inl rfl), hfresh⟩

theorem Sound.run {ops : List Op} (h : Sound pending s) (hfresh : FreshFor pending s.kernel)
    (hrun : Run Effect s ops t) (hops : ∀ op ∈ ops, op.Local) :
    Sound pending t ∧ FreshFor pending t.kernel := by
  refine hrun.invariant_of (I := fun s => Sound pending s ∧ FreshFor pending s.kernel)
    (P := Op.Local) (fun u op v hop hu hstep => hu.1.step hu.2 hstep ?_) hops ⟨h, hfresh⟩
  cases op with
  | remove name => exact hop.elim
  | _ => trivial

/-! ### Requests -/

/-- A name that is listed stays listed while entries are changed. -/
theorem listed_run {ops : List Op} (hp : s.entries[k]? = some p) (hrun : Run Effect s ops t)
    (hops : ∀ op ∈ ops, op.Local) : ∃ q, t.entries[k]? = some q ∧ q.appName = p.appName := by
  have hname := congrArg (fun names => names[k]?) (entries_names hrun hops)
  simp only [List.getElem?_map, hp, Option.map_some, Option.map_eq_some_iff] at hname
  exact hname

/-- What a plan relies on when it is begun, it can rely on all along. -/
theorem Planned.permits {u : Server} {ops rest : List Op} {o : Op}
    (h : Planned s (ops ++ o :: rest)) (hfits : ∀ name, .remove name ∈ ops ++ o :: rest → Fits s)
    (hrun : Run Effect s ops u) : Permits u o := by
  have hmem : o ∈ ops ++ o :: rest := List.mem_append_right _ List.mem_cons_self
  have hlocal := h.before_local
  cases o with
  | remove name =>
    refine ⟨(fits_run hrun hlocal).mpr (hfits name hmem), ?_⟩
    rcases h.local with hall | ⟨q, buffer, res, happend, -, -⟩ | ⟨q, pos, hlisted, hremove⟩
    · exact (hall _ hmem).elim
    · rw [happend] at hmem
      cases List.mem_singleton.mp hmem
    · obtain ⟨j, r, hj, hq, -⟩ := hlisted
      obtain ⟨r, hr, hname⟩ := listed_run (entries_of_slot hj hq) hrun hlocal
      refine ⟨j, r, hr, ?_⟩
      rw [hremove] at hmem
      rcases List.mem_append.mp hmem with hmem | hmem
      · exact (stopOps_local pos _ hmem).elim
      · cases List.mem_singleton.mp hmem
        exact hname
  | _ => trivial

/-! ### The monitor -/

/-- `pending` is of no use when no entry has it. -/
theorem Sound.forget {pid : ℤ} (h : Sound (some pid) s)
    (hnone : ∀ (k : ℕ) p, s.entries[k]? = some p → p.pid ≠ pid) : Sound none s := by
  refine ⟨h.tidy, h.stopped, h.nonneg, h.distinct, fun k p hp h0 => Or.inr ?_, h.children,
    h.positive, fun x hx => by cases hx⟩
  rcases h.known k p hp h0 with hpending | hchild
  · exact absurd (Option.some_inj.mp hpending).symm (hnone k p hp)
  · exact hchild

theorem exitPlanFrom_none {pid : ℤ} {i : ℕ} {processes : List Process} {times : List ℤ}
    (h : ∀ p ∈ processes, p.pid ≠ pid) : Server.exitPlanFrom pid i processes times = [] := by
  induction processes generalizing i with
  | nil => rfl
  | cons p processes ih =>
    rw [Server.exitPlanFrom, if_pos (h p List.mem_cons_self)]
    exact ih fun q hq => h q (List.mem_cons_of_mem _ hq)

/-- The monitor's work on a pid whose first entry counts as running. -/
theorem exitPlanFrom_first {pid : ℤ} {i k : ℕ} {processes : List Process} {times : List ℤ}
    (hp : processes[k]? = some p) (hpid : p.pid = pid) (hrun : p.isRunning ≠ 0)
    (hfirst : ∀ (j : ℕ) q, processes[j]? = some q → q.pid = pid → k ≤ j) :
    Server.exitPlanFrom pid i processes times =
      if p.startTime = times.headD 0 then [.tick, .quit (i + k)]
      else .tick :: .relaunch (i + k) :: .note (i + k) ::
        Server.exitPlanFrom pid (i + k + 1) (processes.drop (k + 1)) times.tail.tail := by
  induction processes generalizing i k with
  | nil => simp at hp
  | cons q processes ih =>
    rw [Server.exitPlanFrom]
    cases k with
    | zero =>
      obtain rfl : q = p := by simpa using hp
      rw [if_neg (not_not.mpr hpid), if_neg hrun]
      rfl
    | succ k =>
      have hq : q.pid ≠ pid := fun hqpid => absurd (hfirst 0 q rfl hqpid) (by omega)
      rw [if_pos hq, ih (i := i + 1) (k := k) (by simpa using hp) fun j r hj hrpid => ?_,
        show i + 1 + k = i + (k + 1) by omega, List.drop_succ_cons]
      have := hfirst (j + 1) r (by simpa using hj) hrpid
      omega

/-- And on a pid that one entry has. -/
theorem exitPlanFrom_one {pid : ℤ} {i k : ℕ} {processes : List Process} {times : List ℤ}
    (hp : processes[k]? = some p) (hpid : p.pid = pid) (hrun : p.isRunning ≠ 0)
    (hone : ∀ (j : ℕ) q, processes[j]? = some q → q.pid = pid → j = k) :
    Server.exitPlanFrom pid i processes times =
      if p.startTime = times.headD 0 then [.tick, .quit (i + k)]
      else [.tick, .relaunch (i + k), .note (i + k)] := by
  rw [exitPlanFrom_first hp hpid hrun fun j q hj hq => (hone j q hj hq).ge]
  -- no entry behind has the pid
  rw [exitPlanFrom_none fun r hr hrpid => ?_]
  obtain ⟨j, hj⟩ := List.mem_iff_getElem?.mp hr
  rw [List.getElem?_drop] at hj
  have := hone _ r hj hrpid
  omega

/-- What the monitor does with a pid: nothing, if no entry has it, and otherwise it
stops or starts the one entry that has it. -/
theorem Sound.exitPlan_cases {pid : ℤ} (h : Sound (some pid) s) :
    (s.exitPlan pid = [] ∧ ∀ (k : ℕ) p, s.entries[k]? = some p → p.pid ≠ pid) ∨
      ∃ (k : ℕ) (p : Process), s.entries[k]? = some p ∧ p.pid = pid ∧ p.isRunning ≠ 0 ∧
        (∀ (j : ℕ) q, s.entries[j]? = some q → q.pid = pid → j = k) ∧
        s.exitPlan pid = if p.startTime = s.kernel.now then [.tick, .quit k]
          else [.tick, .relaunch k, .note k] := by
  by_cases hcarrier : ∃ (k : ℕ) (p : Process), s.entries[k]? = some p ∧ p.pid = pid
  · obtain ⟨k, p, hp, hpid⟩ := hcarrier
    have h0 : p.pid ≠ 0 := by
      rw [hpid]
      exact (h.gone pid rfl).2
    have hrun : p.isRunning ≠ 0 := fun hrun => h0 (h.stopped k p hp hrun)
    have hone : ∀ (j : ℕ) q, s.entries[j]? = some q → q.pid = pid → j = k := fun j q hq hqpid =>
      (h.distinct k j p q hp hq h0 (hpid.trans hqpid.symm)).symm
    refine Or.inr ⟨k, p, hp, hpid, hrun, hone, ?_⟩
    rw [Server.exitPlan, exitPlanFrom_one hp hpid hrun hone, Nat.zero_add]
    rfl
  · have hnone : ∀ (k : ℕ) p, s.entries[k]? = some p → p.pid ≠ pid :=
      fun k p hp hpid => hcarrier ⟨k, p, hp, hpid⟩
    refine Or.inl ⟨exitPlanFrom_none fun p hp => ?_, hnone⟩
    obtain ⟨k, hk⟩ := List.mem_iff_getElem?.mp hp
    exact hnone k p hk

/-- The entry that the monitor has to do with: the one whose pid it is. -/
def Carries (s : Server) (pid : ℤ) (k : ℕ) (p : Process) : Prop :=
  s.entries[k]? = some p ∧ p.pid = pid ∧ p.isRunning ≠ 0 ∧
    ∀ (j : ℕ) q, s.entries[j]? = some q → q.pid = pid → j = k

theorem Puts.trans {u : Server} {r : Process} (h : Puts s u k q) (h' : Puts u t k r) :
    Puts s t k r := by
  intro j
  rw [h' j, h j]
  split <;> rfl

/-- What the monitor has done when it is through. -/
theorem Sound.handled_cases {pid : ℤ} (h : Sound (some pid) s)
    (hrun : Run Effect s (s.exitPlan pid) t) :
    (t = s ∧ ∀ (k : ℕ) p, s.entries[k]? = some p → p.pid ≠ pid) ∨
      ∃ (k : ℕ) (p : Process), Carries s pid k p ∧
        ((p.startTime = s.kernel.now ∧ Puts s t k p.quit ∧ t.kernel = s.kernel.tick) ∨
          ∃ (new now : ℤ) (forks : List ℤ) (q : Process), p.startTime ≠ s.kernel.now ∧
            s.kernel.answers.forks = new :: forks ∧ (p.started new now).Similar q ∧ Puts s t k q ∧
            t.kernel = s.kernel.tick.forked p new forks) := by
  rcases h.exitPlan_cases with ⟨hplan, hnone⟩ | ⟨k, p, hp, hpid, hrunning, hone, hplan⟩
  · rw [hplan] at hrun
    exact Or.inl ⟨run_nil.mp hrun, hnone⟩
  · refine Or.inr ⟨k, p, ⟨hp, hpid, hrunning, hone⟩, ?_⟩
    rw [hplan] at hrun
    -- restarted less than a second ago, or not
    split at hrun
    · rename_i hquick
      obtain ⟨u, htick, hu⟩ := run_cons.mp hrun
      obtain ⟨v, hquit, hv⟩ := run_cons.mp hu
      obtain rfl := run_nil.mp hv
      cases htick
      cases hquit with
      | @quit _ r hk hr hrrun =>
        have hr : (s.setKernel s.kernel.tick).entries[k]? = some r := entries_of_slot hk hr
        obtain rfl : p = r := Option.some_inj.mp (hp.symm.trans hr)
        exact Or.inl ⟨hquick, puts_setSlot hr _, rfl⟩
    · rename_i hquick
      obtain ⟨u, htick, hu⟩ := run_cons.mp hrun
      obtain ⟨v, hstart, hv⟩ := run_cons.mp hu
      obtain ⟨w, hnote, hw⟩ := run_cons.mp hv
      obtain rfl := run_nil.mp hw
      cases htick
      cases hstart with
      | @relaunch _ r new forks hk hr hrrun hf h0 =>
        have hr : (s.setKernel s.kernel.tick).entries[k]? = some r := entries_of_slot hk hr
        obtain rfl : p = r := Option.some_inj.mp (hp.symm.trans hr)
        have hput := puts_setSlot (s := (s.setKernel s.kernel.tick).setKernel
          (s.kernel.tick.forked p new forks)) hr (p.started new s.kernel.tick.now)
        cases hnote with
        | @note _ a q hk' ha hsim =>
          have ha := entries_of_slot hk' ha
          have hstarted : p.started new s.kernel.tick.now = a := by
            have hnow := hput k
            rw [if_pos rfl] at hnow
            exact Option.some_inj.mp (hnow.symm.trans ha)
          subst hstarted
          exact Or.inr ⟨new, s.kernel.tick.now, forks, q, hquick, hf, hsim,
            hput.trans (puts_setSlot ha q), rfl⟩

/-- The monitor asks for the time, stops entries as only it does, and restarts them; its loop
from `i` on has to do with entries from there on. -/
theorem exitPlanFrom_shape {pid : ℤ} {i : ℕ} {processes : List Process} {times : List ℤ} {op : Op}
    (h : op ∈ Server.exitPlanFrom pid i processes times) :
    op = .tick ∨ ∃ k, i ≤ k ∧ (op = .quit k ∨ op = .relaunch k ∨ op = .note k) := by
  induction processes generalizing i times with
  | nil => cases h
  | cons p processes ih =>
    have hrest : ∀ {times : List ℤ}, op ∈ Server.exitPlanFrom pid (i + 1) processes times →
        op = .tick ∨ ∃ k, i ≤ k ∧ (op = .quit k ∨ op = .relaunch k ∨ op = .note k) :=
      fun h => (ih h).imp_right fun ⟨k, hk, hop⟩ => ⟨k, (Nat.le_succ i).trans hk, hop⟩
    rw [Server.exitPlanFrom] at h
    split_ifs at h
    · exact hrest h
    · cases h
    · simp only [List.mem_cons, List.not_mem_nil, or_false] at h
      rcases h with rfl | rfl
      · exact Or.inl rfl
      · exact Or.inr ⟨i, le_rfl, Or.inl rfl⟩
    · simp only [List.mem_cons] at h
      rcases h with rfl | rfl | rfl | h
      · exact Or.inl rfl
      · exact Or.inr ⟨i, le_rfl, Or.inr (Or.inl rfl)⟩
      · exact Or.inr ⟨i, le_rfl, Or.inr (Or.inr rfl)⟩
      · exact hrest h

theorem exitPlan_shape (s : Server) (pid : ℤ) :
    ∀ op ∈ s.exitPlan pid, op = .tick ∨ ∃ k, op = .quit k ∨ op = .relaunch k ∨ op = .note k :=
  fun _ hop => (exitPlanFrom_shape hop).imp_right fun ⟨k, _, h⟩ => ⟨k, h⟩

theorem exitPlan_ops (s : Server) (pid : ℤ) :
    ∀ op ∈ s.exitPlan pid, op.Local ∧ ∀ k, op ≠ .stop k := by
  intro op hop
  rcases exitPlan_shape s pid op hop with rfl | ⟨k, rfl | rfl | rfl⟩ <;> exact ⟨trivial, by simp⟩

theorem Sound.handled {pid : ℤ} (h : Sound (some pid) s)
    (hfresh : s.kernel.Fresh s.kernel.answers.forks) (hrun : Run Effect s (s.exitPlan pid) t) :
    Sound none t := by
  have htidy := h.tidy.local hrun fun op hop => (exitPlan_ops s pid op hop).1
  rcases h.handled_cases hrun with ⟨rfl, hnone⟩ | ⟨k, p, ⟨hp, hpid, hrunning, hone⟩, hcase⟩
  · exact h.forget hnone
  · rcases hcase with ⟨-, hput, hkernel⟩ | ⟨new, now, forks, q, -, hf, hsim, hput, hkernel⟩
    · have hquit : Sound (some pid) t := by
        refine h.put hp hput htidy (by rw [hkernel]; rfl) (fun c hc => ⟨c, ?_, rfl, rfl⟩) rfl
          (fun _ => rfl) (Or.inl rfl)
        rw [hkernel]
        exact hc
      refine hquit.forget fun j r hr hrpid => ?_
      rcases hput.cases hr with ⟨-, rfl⟩ | ⟨hj, hr⟩
      · exact (h.gone pid rfl).2 hrpid.symm
      · exact hj (hone j r hr hrpid)
    · obtain ⟨hpos, hchild⟩ := hfresh.2 new (by rw [hf]; exact List.mem_cons_self)
      refine h.launch p hput htidy (by rw [hkernel]; rfl) ⟨hpos, hchild⟩ ?_
        (fun j r hj hr h0 => ?_) fun x hx => by cases hx
      · rw [hsim]
        exact ⟨rfl, p.started_isRunning new now, rfl⟩
      · rcases h.known j r hr h0 with hpending | hc
        · exact absurd (hone j r hr (Option.some_inj.mp hpending).symm) hj
        · exact Or.inr hc

/-! ### What happens to children -/

theorem Sound.reap {pid : ℤ} {kernel : Kernel} (h : Sound none s)
    (hreap : s.kernel.reap pid = some kernel) :
    Sound (some pid) { s with kernel := kernel } := by
  rw [Kernel.reap] at hreap
  -- there is no child to wait for, or a dead one goes
  split_ifs at hreap with hpid hnil hdead
  · obtain rfl := Option.some_inj.mp hreap
    have hnone : s.kernel.pids = [] := by rw [Kernel.pids, hnil]; rfl
    refine ⟨⟨h.tidy.inside, h.tidy.unnamed⟩, h.stopped, h.nonneg, h.distinct, fun k p hp h0 => ?_,
      h.children, h.positive, fun x hx => ?_⟩
    · exact Or.inr ((h.known k p hp h0).resolve_left (by simp))
    · obtain rfl := Option.some_inj.mp hx
      rw [hpid]
      change (-1 : ℤ) ∉ s.kernel.pids ∧ _
      rw [hnone]
      simp
  · obtain rfl := Option.some_inj.mp hreap
    obtain ⟨child, hchild, hcpid, -⟩ := hdead
    have hpids : (s.kernel.children.filter fun c => c.pid ≠ pid).map Child.pid =
        s.kernel.pids.filter (· ≠ pid) := by
      rw [Kernel.pids, List.filter_map]
      rfl
    have hsub : ∀ x ∈ (s.kernel.children.filter fun c => c.pid ≠ pid).map Child.pid,
        x ∈ s.kernel.pids ∧ x ≠ pid := by
      intro x hx
      rw [hpids] at hx
      simpa using List.mem_filter.mp hx
    refine ⟨⟨h.tidy.inside, h.tidy.unnamed⟩, h.stopped, h.nonneg, h.distinct, fun k p hp h0 => ?_,
      ?_, fun x hx => h.positive x (hsub x hx).1, fun x hx => ?_⟩
    · obtain ⟨c, hc, hcp, hprogram⟩ := (h.known k p hp h0).resolve_left (by simp)
      by_cases heq : c.pid = pid
      · exact Or.inl (by rw [← hcp, heq])
      · exact Or.inr ⟨c, List.mem_filter.mpr ⟨hc, by simpa using heq⟩, hcp, hprogram⟩
    · change ((s.kernel.children.filter fun c => c.pid ≠ pid).map Child.pid).Nodup
      rw [hpids]
      exact h.children.filter _
    · obtain rfl := Option.some_inj.mp hx
      refine ⟨fun hmem => (hsub _ hmem).2 rfl, ?_⟩
      have hpos := h.positive child.pid (List.mem_map_of_mem hchild)
      omega

theorem Sound.exit (pid : ℤ) (h : Sound pending s) :
    Sound pending { s with kernel := { s.kernel with children := die pid s.kernel.children } } := by
  have hpids : (die pid s.kernel.children).map Child.pid = s.kernel.pids := pids_die _ _
  refine ⟨⟨h.tidy.inside, h.tidy.unnamed⟩, h.stopped, h.nonneg, h.distinct, fun k p hp h0 =>
    ?_, ?_, ?_, ?_⟩
  · refine (h.known k p hp h0).imp_right fun ⟨c, hc, hcpid, hprogram⟩ => ?_
    obtain ⟨c', hc', hpid', happ'⟩ := mem_die pid hc
    exact ⟨c', hc', hpid'.trans hcpid, by rw [happ', hprogram]⟩
  · change ((die pid s.kernel.children).map Child.pid).Nodup
    rw [hpids]
    exact h.children
  · change ∀ x ∈ (die pid s.kernel.children).map Child.pid, 0 < x
    rw [hpids]
    exact h.positive
  · change ∀ x, pending = some x → x ∉ (die pid s.kernel.children).map Child.pid ∧ x ≠ 0
    rw [hpids]
    exact h.gone

end Sound

end KbPm
