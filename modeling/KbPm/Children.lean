/-
The children of the service against its entries.

* `Tracked pending bound s` — the list is sound, the children that are alive have
  entries, names are distinct, and what is to run before `bound` has been started;
* `Tracked.step`, `Tracked.guarded` — operations keep it, and those of a request do;
* `Tracked.handled`, `Tracked.iterated` — so do the monitor and the startup loop.
-/
import KbPm.Tracking

namespace KbPm

open Trace

/-- The pids of the children that are alive are pids of entries. -/
def Covered (s : Server) : Prop :=
  ∀ c ∈ s.kernel.children, c.alive = true → ∃ (k : ℕ) (p : Process),
    s.entries[k]? = some p ∧ p.pid = c.pid

/-- Entries before `bound` that count as running have been started. -/
def StartedBefore (bound : ℕ) (s : Server) : Prop :=
  ∀ (k : ℕ) p, s.entries[k]? = some p → p.isRunning ≠ 0 → p.pid = 0 → bound ≤ k

structure Tracked (pending : Option ℤ) (bound : ℕ) (s : Server) : Prop where
  sound : Sound pending s
  covered : Covered s
  names : (s.entries.map Process.appName).Nodup
  started : StartedBefore bound s

/-- No child of entry `k` is alive. -/
def Childless (s : Server) (k : ℕ) : Prop :=
  ∀ p, s.entries[k]? = some p → ∀ c ∈ s.kernel.children, c.alive = true → c.pid ≠ p.pid

/-- What an operation relies on: nothing is started twice, no name is taken twice, and
what is removed has been stopped; and when it is before `bound`, no entry that is still
to be started gets there. -/
def Keeps (bound : ℕ) (s : Server) : Op → Prop
  | .start k => Childless s k
  | .relaunch k => Childless s k
  | .append process => process.appName ∉ s.entries.map Process.appName
  | .remove name => Fits s ∧ ∃ (k : ℕ) (p : Process), s.entries[k]? = some p ∧ p.appName = name ∧
      p.pid = 0 ∧ (k < bound → ∀ q, s.entries[bound]? = some q → q.isRunning ≠ 0 → q.pid ≠ 0)
  | .quit _ => False
  | _ => True

section Operations

variable {pending : Option ℤ} {bound : ℕ} {s t : Server} {k : ℕ} {p q : Process}

theorem Keeps.permits {op : Op} (h : Keeps bound s op) : Permits s op := by
  cases op with
  | remove name =>
    obtain ⟨hfits, k, p, hp, hname, -⟩ := h
    exact ⟨hfits, k, p, hp, hname⟩
  | _ => trivial

/-- An entry is written; a child that is alive afterwards is that of this entry, or was
alive and is not the one the entry had. -/
theorem Covered.put (h : Covered s) (hput : Puts s t k q)
    (hchildren : ∀ c ∈ t.kernel.children, c.alive = true → c.pid = q.pid ∨
      ((∃ c' ∈ s.kernel.children, c'.alive = true ∧ c'.pid = c.pid) ∧
        ∀ p, s.entries[k]? = some p → p.pid = c.pid → q.pid = c.pid)) : Covered t := by
  intro c hc halive
  have hk : t.entries[k]? = some q := by rw [hput k, if_pos rfl]
  rcases hchildren c hc halive with heq | ⟨⟨c', hc', halive', hpid⟩, hold⟩
  · exact ⟨k, q, hk, heq.symm⟩
  · obtain ⟨j, r, hr, hrpid⟩ := h c' hc' halive'
    rw [hpid] at hrpid
    by_cases hj : j = k
    · subst hj
      exact ⟨j, q, hk, hold r hr hrpid⟩
    · exact ⟨j, r, by rw [hput j, if_neg hj]; exact hr, hrpid⟩

theorem StartedBefore.put (h : StartedBefore bound s) (hput : Puts s t k q)
    (hq : q.isRunning ≠ 0 → q.pid = 0 → bound ≤ k) : StartedBefore bound t := by
  intro j r hr hrun h0
  rcases hput.cases hr with ⟨rfl, rfl⟩ | ⟨-, hr⟩
  · exact hq hrun h0
  · exact h j r hr hrun h0

theorem Sound.child_pos (h : Sound pending s) {c : Child}
    (hc : c ∈ s.kernel.children) : 0 < c.pid :=
  h.positive _ (List.mem_map_of_mem hc)

theorem alive_of_die {pid : ℤ} {children : List Child} {c : Child} (hc : c ∈ die pid children)
    (halive : c.alive = true) : c ∈ children ∧ c.pid ≠ pid := by
  obtain ⟨c', hc', rfl⟩ := List.mem_map.mp hc
  split at halive
  · cases halive
  · rename_i hne
    rw [if_neg hne]
    exact ⟨hc', hne⟩

theorem Sound.childless (h : Sound pending s) (hidle : ∀ p, s.entries[k]? = some p → p.pid = 0) :
    Childless s k := by
  intro p hp c hc _ heq
  have hpos := h.child_pos hc
  have h0 := hidle p hp
  omega

/-- Starting an entry that has no living child. -/
theorem Covered.start {pid : ℤ} {forks : List ℤ} (h : Covered s) (hput : Puts s t k q)
    (hkernel : t.kernel = s.kernel.forked p pid forks) (hq : q.pid = pid)
    (hfree : Childless s k) : Covered t := by
  refine h.put hput fun c hc halive => ?_
  rw [hkernel] at hc
  rcases List.mem_cons.mp hc with rfl | hc
  · exact Or.inl hq.symm
  · exact Or.inr ⟨⟨c, hc, halive, rfl⟩, fun r hr hrpid =>
      absurd hrpid.symm (hfree r hr c hc halive)⟩

theorem Tracked.append (h : Tracked pending bound s) (hfresh : FreshFor pending s.kernel)
    (hnew : p.appName ∉ s.entries.map Process.appName) (hstep : Effect s (.append p) t) :
    Tracked pending bound t := by
  obtain ⟨hsound, -⟩ := h.sound.append hfresh hstep
  obtain ⟨pid, forks, hf, -, hentries, hkernel, -⟩ := hstep.append_entries
  obtain ⟨hpos, -, -, -⟩ := hfresh.forked p hf
  have hput := puts_append h.sound.tidy.inside hentries
  refine ⟨hsound, ?_, ?_, ?_⟩
  · refine h.covered.start hput hkernel rfl fun r hr => ?_
    have hlt := (entries_get hr).1
    omega
  · rw [hentries, List.map_append, List.nodup_append]
    refine ⟨h.names, by simp, fun a ha b hb => ?_⟩
    rw [List.map_singleton, List.mem_singleton] at hb
    rintro rfl
    exact hnew (hb ▸ ha)
  · exact h.started.put hput fun _ h0 => absurd h0 hpos.ne'

/-- A name is that of one entry. -/
theorem Tracked.index_eq (h : Tracked pending bound s) {i j : ℕ} (hp : s.entries[i]? = some p)
    (hq : s.entries[j]? = some q) (hname : p.appName = q.appName) : i = j :=
  index_of_nodup h.names hp hq hname

theorem Tracked.remove {name : StrBuf} (h : Tracked pending bound s)
    (hkeeps : Keeps bound s (.remove name)) (hstep : Effect s (.remove name) t) :
    Tracked pending bound t := by
  obtain ⟨hfits, k, p, hp, rfl, hpid, hbound⟩ := hkeeps
  have hsound := h.sound.remove hfits hp rfl hstep
  obtain ⟨j, q, hq, hname, -, -, hkernel, -, hget⟩ := entries_remove h.sound.tidy hfits hp hstep
  obtain rfl : j = k := h.index_eq hq hp hname
  refine ⟨hsound, fun c hc halive => ?_, ?_, fun i r hr hrun h0 => ?_⟩
  · -- the child is not that of the entry that is removed
    rw [hkernel] at hc
    obtain ⟨i, r, hr, hrpid⟩ := h.covered c hc halive
    have hpos := h.sound.child_pos hc
    have hij : i ≠ j := by
      rintro rfl
      obtain rfl := Option.some_inj.mp (hp.symm.trans hr)
      omega
    rcases Nat.lt_or_gt_of_ne hij with hlt | hgt
    · exact ⟨i, r, by rw [hget i, if_pos hlt]; exact hr, hrpid⟩
    · refine ⟨i - 1, r.shifted, ?_, hrpid⟩
      rw [hget (i - 1), if_neg (by omega), show i - 1 + 1 = i by omega, hr]
      rfl
  · rw [names_remove hget]
    exact h.names.sublist (List.eraseIdx_sublist _ _)
  · rw [hget i] at hr
    split at hr
    · exact h.started i r hr hrun h0
    · rename_i hge
      obtain ⟨r', hr', rfl⟩ := Option.map_eq_some_iff.mp hr
      have hle := h.started (i + 1) r' hr' hrun h0
      by_contra hlt
      obtain rfl : i + 1 = bound := by omega
      exact hbound (by omega) r' hr' hrun h0

/-- Operations that write an entry without a new pid. -/
theorem Tracked.put (h : Tracked pending bound s) (hp : s.entries[k]? = some p)
    (hput : Puts s t k q)
    (hsound : Sound pending t) (hchildren : t.kernel.children = s.kernel.children)
    (hname : t.entries.map Process.appName = s.entries.map Process.appName) (hpid : q.pid = p.pid)
    (hrun : q.isRunning = p.isRunning) : Tracked pending bound t := by
  refine ⟨hsound, ?_, hname ▸ h.names, h.started.put hput fun hq h0 => ?_⟩
  · refine h.covered.put hput fun c hc halive => Or.inr ⟨⟨c, hchildren ▸ hc, halive, rfl⟩, ?_⟩
    intro r hr hrpid
    obtain rfl := Option.some_inj.mp (hp.symm.trans hr)
    exact hpid.trans hrpid
  · exact h.started k p hp (hrun ▸ hq) (hpid ▸ h0)

theorem Tracked.start {pid now : ℤ} {forks : List ℤ} (h : Tracked pending bound s)
    (hfree : Childless s k) (hpos : 0 < pid) (hsound : Sound pending t)
    (hput : Puts s t k (p.started pid now)) (hkernel : t.kernel = s.kernel.forked p pid forks)
    (hname : t.entries.map Process.appName = s.entries.map Process.appName) :
    Tracked pending bound t := by
  exact ⟨hsound, h.covered.start hput hkernel rfl hfree, hname ▸ h.names,
    h.started.put hput fun _ h0 => absurd h0 hpos.ne'⟩

theorem Tracked.step {op : Op} (h : Tracked pending bound s) (hfresh : FreshFor pending s.kernel)
    (hkeeps : Keeps bound s op) (hstep : Effect s op t) :
    Tracked pending bound t ∧ FreshFor pending t.kernel := by
  obtain ⟨hsound, hfresh'⟩ := h.sound.step hfresh hstep hkeeps.permits
  refine ⟨?_, hfresh'⟩
  have hnames : op.Local → t.entries.map Process.appName = s.entries.map Process.appName :=
    fun hop => entries_names (.single hstep) (by simpa using hop)
  cases hstep with
  | tick => exact ⟨hsound, h.covered, h.names, h.started⟩
  | @note k p q hk hp hq =>
    have hp := entries_of_slot hk hp
    exact h.put hp (puts_setSlot hp q) hsound rfl (hnames trivial) (by rw [hq]) (by rw [hq])
  | number hk hp =>
    have hp := entries_of_slot hk hp
    exact h.put hp (puts_setSlot hp _) hsound rfl (hnames trivial) rfl rfl
  | @start k p pid forks hk hp hf h0 =>
    have hp := entries_of_slot hk hp
    exact h.start hkeeps (hfresh.forked p hf).1 hsound (puts_setSlot (s := s.setKernel _) hp _) rfl
      (hnames trivial)
  | @relaunch k p pid forks hk hp hrun hf h0 =>
    have hp := entries_of_slot hk hp
    exact h.start hkeeps (hfresh.forked p hf).1 hsound (puts_setSlot (s := s.setKernel _) hp _) rfl
      (hnames trivial)
  | @stop k p hk hp hrun hpid =>
    have hp := entries_of_slot hk hp
    have hput :=
      puts_setSlot (s := s.setKernel (s.kernel.killed { p with isRunning := 0 })) hp p.stopped
    refine ⟨hsound, ?_, hnames trivial ▸ h.names, h.started.put hput fun hq => absurd rfl hq⟩
    -- the stopped child is dead, and no other entry has its pid
    refine h.covered.put hput fun c hc halive => ?_
    obtain ⟨hc, hne⟩ := alive_of_die hc halive
    refine Or.inr ⟨⟨c, hc, halive, rfl⟩, fun r hr hrpid => ?_⟩
    obtain rfl := Option.some_inj.mp (hp.symm.trans hr)
    exact absurd hrpid.symm hne
  | append hn hf h0 => exact h.append hfresh hkeeps (.append hn hf h0)
  | remove hdel => exact h.remove hkeeps (.remove hdel)
  | quit => exact hkeeps.elim

/-! ### Requests -/

/-- No removal while a name other than the last is empty, and none that moves an entry
behind the startup loop before it is started. -/
def RemovesSafely (bound : ℕ) (s : Server) (plan : List Op) : Prop :=
  ∀ name, .remove name ∈ plan → Fits s ∧ ∀ (k : ℕ) p q, s.entries[k]? = some p → p.appName = name →
    k < bound → s.entries[bound]? = some q → q.isRunning ≠ 0 → q.pid ≠ 0

theorem Tracked.listed (h : Tracked pending bound s) {pos : ℕ} (hlisted : Listed s p pos) :
    s.entries[pos]? = some p := by
  obtain ⟨k, q, hk, hp, hle, hq, hname, -⟩ := hlisted
  have hp := entries_of_slot hk hp
  obtain rfl : pos = k := h.index_eq (entries_of_slot (by omega) hq) hp hname
  exact hp

/-- An entry has no pid when it has been stopped. -/
theorem Tracked.stopOps_pid (h : Tracked pending bound s) {pos : ℕ} (hp : s.entries[pos]? = some p)
    (hrun : Run Effect s (s.stopOps pos) t) : ∃ q, t.entries[pos]? = some q ∧
      q.appName = p.appName ∧ q.pid = 0 := by
  rcases stopOps_cases s pos with ⟨hops, hruns⟩ | ⟨hops, -⟩ <;> rw [hops] at hrun
  · obtain rfl := run_nil.mp hrun
    refine ⟨p, hp, rfl, h.sound.stopped pos p hp ?_⟩
    rw [runs_eq (entries_get hp).2] at hruns
    simpa using hruns
  · obtain ⟨q, hq, hacts⟩ := entry_run hrun (by simp [Op.Local]) hp
    rw [filter_slot_self (by simp [Op.slot])] at hacts
    obtain ⟨r, hact, hr⟩ := run_cons.mp hacts
    obtain rfl := run_nil.mp hr
    cases hact
    exact ⟨_, hq, rfl, rfl⟩

theorem Tracked.guarded {plan : List Op} (h : Tracked pending bound s)
    (hfresh : FreshFor pending s.kernel) (hplanned : Planned s plan)
    (hremoves : RemovesSafely bound s plan) (hrun : Run Effect s plan t) :
    Guarded Effect (Keeps bound) s plan t := by
  have hstops : ∀ {pos : ℕ} {u : Server}, Run Effect s (s.stopOps pos) u →
      Guarded Effect (Keeps bound) s (s.stopOps pos) u := by
    intro pos u hu
    refine hu.guarded fun as l bs v hops _ => ?_
    have hmem : l ∈ s.stopOps pos := hops ▸ List.mem_append_right _ List.mem_cons_self
    rcases stopOps_cases s pos with ⟨hops, -⟩ | ⟨hops, -⟩ <;> rw [hops] at hmem
    · cases hmem
    · rw [List.mem_singleton.mp hmem]
      trivial
  cases hplanned with
  | none =>
    obtain rfl := run_nil.mp hrun
    exact .nil _
  | startall =>
    refine hrun.guarded fun as l bs u hops has => ?_
    have hmem := hops ▸ List.mem_append_right as (List.mem_cons_self (a := l) (l := bs))
    obtain ⟨k, hk, rfl⟩ := List.mem_map.mp hmem
    obtain ⟨-, hstopped⟩ := List.mem_filter.mp hk
    have hslots := slots_before (fun _ => rfl) (List.nodup_range.filter _) hops
    have hlocal : ∀ op ∈ as, op.Local := by
      intro op hop
      obtain ⟨j, -, rfl⟩ := List.mem_map.mp (hops ▸ List.mem_append_left _ hop)
      trivial
    refine (h.sound.run hfresh has hlocal).1.childless fun p hp => ?_
    rw [entry_kept has hlocal hslots] at hp
    refine h.sound.stopped k p hp ?_
    rw [runs_eq (entries_get hp).2] at hstopped
    simpa using hstopped
  | stopall =>
    refine hrun.guarded fun as l bs u hops _ => ?_
    have hmem := hops ▸ List.mem_append_right as (List.mem_cons_self (a := l) (l := bs))
    obtain ⟨k, -, rfl⟩ := List.mem_map.mp hmem
    trivial
  | status =>
    refine hrun.guarded fun as l bs u hops _ => ?_
    have hmem := hops ▸ List.mem_append_right as (List.mem_cons_self (a := l) (l := bs))
    obtain ⟨k, -, rfl⟩ := List.mem_map.mp hmem
    trivial
  | @start p pos hlisted hstopped =>
    obtain ⟨u, hstep, hu⟩ := run_cons.mp hrun
    obtain rfl := run_nil.mp hu
    refine .cons (h.sound.childless fun q hq => ?_) hstep (.nil _)
    obtain rfl := Option.some_inj.mp ((h.listed hlisted).symm.trans hq)
    exact h.sound.stopped pos p hq hstopped
  | @append p buffer res hnew hdecode =>
    obtain ⟨u, hstep, hu⟩ := run_cons.mp hrun
    obtain rfl := run_nil.mp hu
    refine .cons (fun hmem => ?_) hstep (.nil _)
    rw [← named_iff] at hmem
    exact absurd (hnew.symm.trans hmem) (by decide)
  | stop hlisted hrunning => exact hstops hrun
  | @restart p pos hlisted hrunning =>
    obtain ⟨u, hstop, hr⟩ := run_append.mp hrun
    obtain ⟨v, hstart, hv⟩ := run_cons.mp hr
    obtain ⟨w, hnote, hw⟩ := run_cons.mp hv
    obtain rfl := run_nil.mp hw
    obtain ⟨r, hr, -, hrpid⟩ := h.stopOps_pid (h.listed hlisted) hstop
    have hu := (h.sound.run hfresh hstop (stopOps_local pos)).1
    refine (hstops hstop).append
      (.cons (hu.childless fun q hq => ?_) hstart (.cons trivial hnote (.nil _)))
    obtain rfl := Option.some_inj.mp (hr.symm.trans hq)
    exact hrpid
  | @remove p pos hlisted =>
    obtain ⟨u, hstop, hr⟩ := run_append.mp hrun
    obtain ⟨v, hstep, hv⟩ := run_cons.mp hr
    obtain rfl := run_nil.mp hv
    have hp := h.listed hlisted
    obtain ⟨r, hr, hname, hrpid⟩ := h.stopOps_pid hp hstop
    obtain ⟨hfits, hbound⟩ := hremoves p.appName (List.mem_append_right _ List.mem_cons_self)
    refine (hstops hstop).append (.cons ⟨(fits_run hstop (stopOps_local pos)).mpr hfits, pos, r, hr,
      hname, hrpid, fun hlt q hq => ?_⟩ hstep (.nil _))
    -- the entry at the startup loop is another one
    rw [entry_kept hstop (stopOps_local pos) fun op hop => ?_] at hq
    · exact hbound pos p q hp rfl hlt hq
    · rcases stopOps_cases s pos with ⟨hops, -⟩ | ⟨hops, -⟩ <;> rw [hops] at hop
      · cases hop
      · rw [List.mem_singleton.mp hop]
        simp only [Op.slot, ne_eq, Option.some.injEq]
        omega

/-! ### The monitor and the startup loop -/

/-- What the monitor does with a pid keeps the children tracked. -/
theorem Tracked.handled {pid : ℤ} (h : Tracked (some pid) bound s)
    (hfresh : s.kernel.Fresh s.kernel.answers.forks) (hrun : Run Effect s (s.exitPlan pid) t) :
    Tracked none bound t := by
  have hsound := h.sound.handled hfresh hrun
  have hnames := entries_names hrun fun op hop => (exitPlan_ops s pid op hop).1
  -- no child has the pid of the entry any more
  have hdead : ∀ {k : ℕ} {p : Process}, s.entries[k]? = some p → p.pid = pid →
      ∀ c ∈ s.kernel.children, ∀ r, s.entries[k]? = some r → r.pid ≠ c.pid := by
    intro k p hp hpid c hc r hr hrpid
    obtain rfl := Option.some_inj.mp (hp.symm.trans hr)
    exact (h.sound.gone pid rfl).1 (List.mem_map.mpr ⟨c, hc, hrpid.symm.trans hpid⟩)
  rcases h.sound.handled_cases hrun with ⟨rfl, -⟩ | ⟨k, p, ⟨hp, hpid, -, -⟩, hcase⟩
  · exact ⟨hsound, h.covered, h.names, h.started⟩
  · rcases hcase with ⟨-, hput, hkernel⟩ | ⟨new, now, forks, q, -, hf, hsim, hput, hkernel⟩
    · refine ⟨hsound, h.covered.put hput fun c hc halive => ?_, hnames ▸ h.names,
        h.started.put hput fun hq => absurd rfl hq⟩
      rw [hkernel] at hc
      exact Or.inr ⟨⟨c, hc, halive, rfl⟩, fun r hr hrpid => absurd hrpid (hdead hp hpid c hc r hr)⟩
    · have hqpid : q.pid = new := by rw [hsim]; rfl
      have hpos := (hfresh.2 new (by rw [hf]; exact List.mem_cons_self)).1
      refine ⟨hsound, h.covered.put hput fun c hc halive => ?_, hnames ▸ h.names,
        h.started.put hput fun _ h0 => by omega⟩
      rw [hkernel] at hc
      rcases List.mem_cons.mp hc with rfl | hc
      · exact Or.inl hqpid.symm
      · exact Or.inr ⟨⟨c, hc, halive, rfl⟩, fun r hr hrpid =>
          absurd hrpid (hdead hp hpid c hc r hr)⟩

theorem StartedBefore.succ (h : StartedBefore bound s)
    (hi : ∀ p, s.entries[bound]? = some p → p.isRunning ≠ 0 → p.pid ≠ 0) :
    StartedBefore (bound + 1) s := by
  intro k p hp hrun h0
  have hle := h k p hp hrun h0
  rcases Nat.eq_or_lt_of_le hle with rfl | hlt
  · exact absurd h0 (hi p hp hrun)
  · exact hlt

/-- An iteration of the startup loop on an entry that has no living child. -/
theorem Tracked.iterated (h : Tracked none bound s) (hfresh : FreshFor none s.kernel)
    (hidle : Childless s bound) (hrun : Run Effect s (s.startupPlan bound) t) :
    Tracked none (bound + 1) t := by
  have hops := startupPlan_ops s bound
  have hstarted : ∀ q, t.entries[bound]? = some q → q.isRunning ≠ 0 → q.pid ≠ 0 := by
    intro q hq hqrun
    obtain ⟨p, hp, hacts⟩ := entry_of_run hrun (fun op hop => (hops op hop).1) hq
    rw [filter_slot_self fun op hop => (hops op hop).2.1, Server.startupPlan,
      runs_eq (entries_get hp).2] at hacts
    split at hacts
    · obtain ⟨r, -, hr⟩ := run_cons.mp hacts
      obtain ⟨q', hlaunch, hq'⟩ := run_cons.mp hr
      obtain rfl := run_nil.mp hq'
      cases hlaunch with
      | relaunch h0 hf hrun => exact (hfresh.1.2 _ hf).1.ne'
    · rename_i hstopped
      obtain ⟨q', hnumber, hq'⟩ := run_cons.mp hacts
      obtain rfl := run_nil.mp hq'
      cases hnumber
      exact absurd (by simpa using hstopped) hqrun
  have hnumbers : Keeps bound s (.number bound) := trivial
  have hdone : Tracked none bound t → Tracked none (bound + 1) t := fun ht =>
    ⟨ht.sound, ht.covered, ht.names, ht.started.succ hstarted⟩
  rw [Server.startupPlan] at hrun
  split at hrun
  · obtain ⟨u, hnumber, hu⟩ := run_cons.mp hrun
    obtain ⟨v, hlaunch, hv⟩ := run_cons.mp hu
    obtain rfl := run_nil.mp hv
    obtain ⟨hu, hfreshu⟩ := h.step hfresh hnumbers hnumber
    -- a number is no pid: the entry has no living child yet
    refine hdone (hu.step hfreshu (fun q hq => ?_) hlaunch).1
    obtain ⟨p, hp, hacts⟩ := entry_of_run (.single hnumber) (by simp [Op.Local]) hq
    rw [filter_slot_self (by simp [Op.slot])] at hacts
    obtain ⟨r, hact, hr⟩ := run_cons.mp hacts
    obtain rfl := run_nil.mp hr
    cases hact
    cases hnumber
    exact hidle p hp
  · obtain ⟨u, hnumber, hu⟩ := run_cons.mp hrun
    obtain rfl := run_nil.mp hu
    exact hdone (h.step hfresh hnumbers hnumber).1

end Operations

end KbPm
