/-
What earlier lives of the service have left running.

* `Apart S s` — nothing that the service has listed or killed has a pid of `S`;
* `orphans_survive` — no later life ends an orphan, or lists its pid;
* `World.instances`, `restarts_add` — every restart starts the apps once more.
-/
import KbPm.Killing
import KbPm.Lives
import KbPm.Rounds

namespace KbPm

open Trace Scan Outcome

/-! ### Pids that the service does not know -/

structure Apart (S : List ℤ) (s : Server) : Prop where
  inside : s.processCount ≤ listSize
  slots : ∀ (k : ℕ) p, s.processList[k]? = some p → p.pid ∉ S
  kills : ∀ call ∈ s.kernel.kills, call.process.pid ∉ S
  forks : ∀ pid ∈ s.kernel.answers.forks, pid ∉ S

section Apart

variable {S : List ℤ} {s t : Server} {op : Op}

theorem Apart.setSlot (h : Apart S s) (kernel : Kernel) (k : ℕ) {q : Process} (hq : q.pid ∉ S)
    (hkills : ∀ call ∈ kernel.kills, call.process.pid ∉ S)
    (hforks : ∀ pid ∈ kernel.answers.forks, pid ∉ S) :
    Apart S ((s.setKernel kernel).setSlot k q) := by
  refine ⟨h.inside, fun j p hp => ?_, hkills, hforks⟩
  rw [getElem?_setSlot] at hp
  split_ifs at hp
  · obtain rfl := Option.some_inj.mp hp
    exact hq
  · exact h.slots j p hp

theorem Apart.step (h : Apart S s) (h0 : (0 : ℤ) ∉ S) (hstep : Effect s op t) : Apart S t := by
  have hforked : ∀ {pid : ℤ} {forks : List ℤ}, s.kernel.answers.forks = pid :: forks →
      pid ∉ S ∧ ∀ pid ∈ forks, pid ∉ S := by
    intro pid forks hf
    have hforks := h.forks
    rw [hf] at hforks
    exact List.forall_mem_cons.mp hforks
  cases hstep with
  | tick => exact ⟨h.inside, h.slots, h.kills, h.forks⟩
  | @note k p q hk hp hq =>
    refine h.setSlot s.kernel k ?_ h.kills h.forks
    rw [hq]
    exact h.slots k p hp
  | @number k p hk hp => exact h.setSlot s.kernel k (h.slots k p hp) h.kills h.forks
  | @start k p pid forks hk hp hf =>
    exact h.setSlot _ k (hforked hf).1 h.kills (hforked hf).2
  | @relaunch k p pid forks hk hp hrun hf =>
    exact h.setSlot _ k (hforked hf).1 h.kills (hforked hf).2
  | @stop k p hk hp =>
    refine h.setSlot _ k h0 (fun call hcall => ?_) h.forks
    rcases List.mem_append.mp hcall with hcall | hcall
    · exact h.kills call hcall
    · rw [List.mem_singleton.mp hcall]
      exact h.slots k p hp
  | @append p pid forks hn hf =>
    have hset : Apart S ((s.setKernel (s.kernel.forked p pid forks)).setSlot s.processCount
        { p.started pid s.kernel.now with id := s.processCount }) :=
      h.setSlot _ _ (hforked hf).1 h.kills (hforked hf).2
    exact ⟨hn, hset.slots, hset.kills, hset.forks⟩
  | @remove name processList res hdel =>
    refine ⟨le_trans (Nat.sub_le _ _) h.inside, ?_, h.kills, h.forks⟩
    exact delProcessByAppName_keeps (P := fun p => p.pid ∉ S) (fun _ hp => hp) h.slots hdel
  | @quit k p hk hp => exact h.setSlot s.kernel k h0 h.kills h.forks

theorem Apart.run {ops : List Op} (h : Apart S s) (h0 : (0 : ℤ) ∉ S) (hrun : Run Effect s ops t) :
    Apart S t :=
  hrun.invariant (I := Apart S) (fun _ _ _ hu hstep => hu.step h0 hstep) h

/-- Also where the service ends it has killed no such process. -/
theorem Apart.fails {f : Fault} (h : Apart S s) (hf : Fails s op f t) :
    ∀ call ∈ t.kernel.kills, call.process.pid ∉ S := by
  cases hf with
  | @stop k p f t hk hp hrun hkill ht =>
    rw [ht]
    intro call hcall
    rcases List.mem_append.mp hcall with hcall | hcall
    · exact h.kills call hcall
    · rw [List.mem_singleton.mp hcall]
      exact h.slots k p hp
  | start hf ht => exact ht ▸ h.kills
  | relaunch hf ht => exact ht ▸ h.kills
  | append hf ht => exact ht ▸ h.kills
  | full hn ht => exact ht ▸ h.kills
  | remove hdel => exact h.kills
  | note hp hs => exact h.kills

theorem Apart.performs {α : Type} {m : ServerM α} {plan : List Op} (h : Apart S s)
    (h0 : (0 : ℤ) ∉ S) (hm : Performs Effect m s (fun _ ops _ => ops = plan) (FailsIn plan)) :
    Ends m s (fun _ t => Apart S t) (fun _ t => ∀ call ∈ t.kernel.kills, call.process.pid ∉ S) := by
  cases hms : m s with
  | ok a t =>
    obtain ⟨ops, hrun, -⟩ := hm.ok hms
    exact ends_of_ok hms (h.run h0 hrun)
  | error f t =>
    obtain ⟨ops, u, hrun, o, rest, -, hfails⟩ := hm.error hms
    exact ends_of_error hms ((h.run h0 hrun).fails hfails)

theorem Apart.handleRequest (h : Apart S s) (h0 : (0 : ℤ) ∉ S) (request : Request) :
    Ends (handleRequest request) s (fun _ t => Apart S t)
      (fun _ t => ∀ call ∈ t.kernel.kills, call.process.pid ∉ S) := by
  have hperforms := handleRequest_performs h.inside request
  cases hhandle : KbPm.handleRequest request s with
  | ok response t =>
    obtain ⟨ops, hrun, -⟩ := hperforms.ok hhandle
    exact ends_of_ok hhandle (h.run h0 hrun)
  | error f t =>
    obtain ⟨ops, u, hrun, hbreaks⟩ := hperforms.error hhandle
    refine ends_of_error hhandle ?_
    cases hbreaks with
    | operand hplan => exact h.kills
    | op hplan hf => exact (h.run h0 hrun).fails hf
    | text hplan => exact (h.run h0 hrun).kills

theorem Apart.serve (h : Apart S s) (h0 : (0 : ℤ) ∉ S) (request : Request) :
    Ends (serve request) s (fun _ t => Apart S t)
      (fun _ t => ∀ call ∈ t.kernel.kills, call.process.pid ∉ S) := by
  have hhandle := h.handleRequest h0 request
  cases hserve : KbPm.serve request s with
  | ok response t =>
    obtain ⟨u, text, hu, -, rfl⟩ := serve_ok hserve
    have hapart := hhandle.ok hu
    exact ends_of_ok hserve ⟨hapart.inside, hapart.slots, hapart.kills, hapart.forks⟩
  | error f t =>
    refine ends_of_error hserve ?_
    rcases serve_error hserve with ht | ⟨response, u, hu, -, rfl⟩
    · exact hhandle.error ht
    · exact (hhandle.ok hu).kills

end Apart

/-! ### Orphans -/

/-- The service knows no orphan. -/
structure Wary (w : World) : Prop where
  pids : ∀ pid ∈ w.pids, 0 < pid
  positive : w.system.server.kernel.Positive
  kills : ∀ call ∈ w.system.server.kernel.kills, call.process.pid ∉ w.pids
  apart : (∀ fault, w.system.phase ≠ .ended fault) → Apart w.pids w.system.server

section Wary

variable {w w' : World}

theorem Wary.zero (h : Wary w) : (0 : ℤ) ∉ w.pids := fun h0 => lt_irrefl 0 (h.pids 0 h0)

theorem next_orphans {τ : System}
    (h : ∀ call ∈ τ.server.kernel.kills, call.process.pid ∉ w.pids) :
    (w.next τ).orphans = w.orphans := by
  refine List.filter_eq_self.mpr fun child hchild => ?_
  rw [decide_eq_true_iff]
  intro call hcall heq
  exact h call (List.mem_of_mem_drop hcall) (heq ▸ List.mem_map_of_mem hchild)

theorem Wary.next (h : Wary w) {τ : System} (hpositive : τ.server.kernel.Positive)
    (hkills : ∀ call ∈ τ.server.kernel.kills, call.process.pid ∉ w.pids)
    (hapart : (∀ fault, τ.phase ≠ .ended fault) → Apart w.pids τ.server) :
    Wary (w.next τ) ∧ (w.next τ).orphans = w.orphans := by
  have horphans := next_orphans hkills
  have hpids : (w.next τ).pids = w.pids := congrArg (List.map Child.pid) horphans
  refine ⟨⟨?_, hpositive, ?_, ?_⟩, horphans⟩ <;> rw [hpids]
  · exact h.pids
  · exact hkills
  · exact hapart

theorem Wary.asked (h : Wary w) (hphase : ∀ fault, w.system.phase ≠ .ended fault)
    {answers : Answers} (hforks : ∀ pid ∈ answers.forks, pid ∉ w.pids) :
    Apart w.pids (w.system.server.asked answers) := by
  obtain ⟨hinside, hslots, hkills, -⟩ := h.apart hphase
  exact ⟨hinside, hslots, hkills, hforks⟩

theorem Wary.positive_asked (h : Wary w) {answers : Answers}
    (hfresh : w.system.server.kernel.Fresh answers.forks) :
    (w.system.server.asked answers).kernel.Positive :=
  ⟨h.positive.1, fun pid hpid => (hfresh.2 pid hpid).1⟩

/-- Behind a program of the service. -/
theorem Wary.after (h : Wary w) {α : Type} {m : ServerM α} {answers : Answers} {next : Phase}
    (hfresh : w.system.server.kernel.Fresh answers.forks)
    (hm : Maintains (fun s => s.kernel.Positive) m)
    (hends : Ends m (w.system.server.asked answers) (fun _ t => Apart w.pids t)
      (fun _ t => ∀ call ∈ t.kernel.kills, call.process.pid ∉ w.pids)) :
    Wary (w.next (w.system.after m answers next)) ∧
      (w.next (w.system.after m answers next)).orphans = w.orphans := by
  have hpositive := hm _ (h.positive_asked hfresh)
  rcases w.system.after_cases m answers next with ⟨a, t, ht, heq⟩ | ⟨f, t, ht, heq⟩ <;> rw [heq]
  · have hapart := hends.ok ht
    exact h.next (hpositive.ok ht) hapart.kills fun _ => hapart
  · exact h.next (hpositive.error ht) (hends.error ht) fun hτ => absurd rfl (hτ f)

theorem handleRequest_positive (request : Request) :
    Maintains (fun s => s.kernel.Positive) (handleRequest request) := by
  intro s hs
  obtain ⟨m, hm, heq⟩ := compositional_positive.handleRequest request s
  rw [Ends, heq]
  exact hm s hs

theorem serve_positive (request : Request) :
    Maintains (fun s => s.kernel.Positive) (serve request) := by
  intro s hs
  refine (handleRequest_positive request s hs).bind fun response u hu => ?_
  have hsave := saveConfig_run u
  cases htext : saveProcessList u.processList with
  | ok text =>
    rw [htext] at hsave
    rw [Ends, bind_ok hsave]
    exact hu
  | error f =>
    rw [htext] at hsave
    rw [Ends, bind_error hsave]
    exact hu

theorem survivors_positive (h : w.system.server.kernel.Positive) :
    ∀ child ∈ w.system.survivors, 0 < child.pid := by
  intro child hchild
  rw [System.survivors] at hchild
  split at hchild
  · cases hchild
  · exact h.1 child (List.mem_of_mem_filter hchild)

theorem serviceLoad_inside {file : Option Text} {junk : Text} {l : ProcessList} {n : ℕ}
    (h : serviceLoad file junk = .ok (l, n)) : n ≤ listSize := by
  rcases serviceLoad_cases h with hloaded | rfl
  · exact hloaded.inside
  · exact Nat.zero_le _

/-- A service that starts knows nothing. -/
theorem apart_loaded {S : List ℤ} (h0 : (0 : ℤ) ∉ S) {file : Option Text}
    {junk configFile buffer : Text} {l : ProcessList} {n : ℕ}
    (h : serviceLoad file junk = .ok (l, n)) : Apart S (.loaded l n configFile buffer) := by
  refine ⟨serviceLoad_inside h, fun k p hp => ?_, by simp [Server.loaded], by simp [Server.loaded]⟩
  rw [serviceLoad_pids h k hp]
  exact h0

theorem Wary.reload (hpids : ∀ pid ∈ w.pids, 0 < pid) (hpositive : w.system.server.kernel.Positive)
    {junk buffer : Text} (hload : w.reload junk buffer = some w') :
    Wary w' ∧ w.orphans ⊆ w'.orphans := by
  rw [World.reload] at hload
  cases hfile : serviceLoad (some w.system.server.configFile) junk with
  | error f =>
    rw [hfile] at hload
    cases hload
  | ok loaded =>
    obtain ⟨l, n⟩ := loaded
    rw [hfile] at hload
    obtain rfl := Option.some_inj.mp hload
    have hpids' : ∀ pid ∈ (w.orphans ++ w.system.survivors).map Child.pid, 0 < pid := by
      intro pid hpid
      rw [List.map_append, List.mem_append] at hpid
      rcases hpid with hpid | hpid
      · exact hpids pid hpid
      · obtain ⟨child, hchild, rfl⟩ := List.mem_map.mp hpid
        exact survivors_positive hpositive child hchild
    refine ⟨⟨hpids', ?_, by simp [Server.loaded], fun _ => ?_⟩, List.subset_append_left _ _⟩
    · exact ⟨by simp [Server.loaded], by simp [Server.loaded]⟩
    · exact apart_loaded (fun h0 => lt_irrefl 0 (hpids' 0 h0)) hfile

theorem Apart.subset {S S' : List ℤ} {s : Server} (h : Apart S s) (hsubset : S' ⊆ S) : Apart S' s :=
  ⟨h.inside, fun k p hp hmem => h.slots k p hp (hsubset hmem),
    fun call hcall hmem => h.kills call hcall (hsubset hmem),
    fun pid hpid hmem => h.forks pid hpid (hsubset hmem)⟩

theorem reap_positive {kernel kernel' : Kernel} {pid : ℤ} (h : kernel.Positive)
    (hreap : kernel.reap pid = some kernel') :
    kernel'.Positive ∧ kernel'.answers = kernel.answers := by
  rw [Kernel.reap] at hreap
  split_ifs at hreap
  · cases hreap
    exact ⟨h, rfl⟩
  · cases hreap
    exact ⟨⟨fun child hchild => h.1 child (List.mem_of_mem_filter hchild), h.2⟩, rfl⟩

theorem interrupt_inv {server : Server} {written : Option ℕ} {v : World}
    (h : w.interrupt server written = some v) :
    ∃ file, v = w.next ⟨{ server with configFile := file }, w.system.phase⟩ := by
  cases written with
  | none => exact ⟨server.configFile, (Option.some_inj.mp h).symm⟩
  | some n =>
    rw [World.interrupt] at h
    cases htext : saveProcessList server.processList with
    | ok text =>
      rw [htext] at h
      exact ⟨_, (Option.some_inj.mp h).symm⟩
    | error f =>
      rw [htext] at h
      cases h

/-- What a step does to the orphans. -/
theorem Wary.step (h : Wary w) {life : Life} (hlived : Lived w life w') :
    Wary w' ∧ ∀ child ∈ w.orphans, life ≠ .orphanExit child.pid → child ∈ w'.orphans := by
  have hstays : ∀ {v : World}, Wary v ∧ v.orphans = w.orphans →
      Wary v ∧ ∀ child ∈ w.orphans, life ≠ .orphanExit child.pid → child ∈ v.orphans := by
    rintro v ⟨hv, horphans⟩
    exact ⟨hv, fun child hchild _ => horphans ▸ hchild⟩
  cases life with
  | step event =>
    obtain ⟨hforks, τ, hsteps, rfl⟩ := lived_step.mp hlived
    refine hstays ?_
    cases hsteps.cases with
    | iterate hphase hi hfresh =>
      have hapart := h.asked (by simp [hphase]) hforks
      exact h.after hfresh (compositional_positive.startupIteration _)
        (hapart.performs h.zero (startupIteration_performs hi hapart.inside))
    | finish hphase =>
      exact h.next h.positive h.kills fun _ => h.apart (by simp [hphase])
    | wait hphase hreap =>
      obtain ⟨hinside, hslots, -, hanswers⟩ := h.apart (by simp [hphase])
      obtain ⟨hpositive, heq⟩ := reap_positive h.positive hreap
      have hkills := reap_kills hreap ▸ h.kills
      exact h.next hpositive hkills fun _ => ⟨hinside, hslots, hkills, heq ▸ hanswers⟩
    | handle hphase hfresh =>
      have hapart := h.asked (by simp [hphase]) hforks
      exact h.after hfresh (compositional_positive.handleExit _)
        (hapart.performs h.zero (handleExit_performs _ hapart.inside))
    | request hphase hfresh =>
      exact h.after hfresh (serve_positive _) ((h.asked hphase hforks).serve h.zero _)
    | exit =>
      refine h.next (h.positive.die _) h.kills fun hphase => ?_
      obtain ⟨hinside, hslots, hkills, hanswers⟩ := h.apart hphase
      exact ⟨hinside, hslots, hkills, hanswers⟩
  | restart junk buffer =>
    obtain ⟨hw', hsubset⟩ := Wary.reload h.pids h.positive hlived
    exact ⟨hw', fun child hchild _ => hsubset hchild⟩
  | torn request answers written junk buffer =>
    obtain ⟨hphase, hfresh, hforks, response, server, v, hhandle, hinterrupt, hload⟩ :=
      torn_inv hlived
    have hapart := ((h.asked hphase hforks).handleRequest h.zero request).ok hhandle
    have hpositive := (handleRequest_positive request _ (h.positive_asked hfresh)).ok hhandle
    obtain ⟨file, rfl⟩ := interrupt_inv hinterrupt
    obtain ⟨hv, horphans⟩ := h.next (τ := ⟨{ server with configFile := file }, w.system.phase⟩)
      hpositive hapart.kills fun _ =>
        ⟨hapart.inside, hapart.slots, hapart.kills, hapart.forks⟩
    obtain ⟨hw', hsubset⟩ := Wary.reload hv.pids hv.positive hload
    exact ⟨hw', fun child hchild _ => hsubset (horphans ▸ hchild)⟩
  | orphanExit pid =>
    rw [Lived, World.step] at hlived
    split at hlived
    · obtain rfl := Option.some_inj.mp hlived
      have hsubset : (w.orphans.filter fun child => child.pid ≠ pid).map Child.pid ⊆ w.pids :=
        List.map_subset _ (List.filter_subset_self _)
      refine ⟨⟨fun pid hpid => h.pids pid (hsubset hpid), h.positive,
        fun call hcall hmem => h.kills call hcall (hsubset hmem),
        fun hphase => (h.apart hphase).subset hsubset⟩, fun child hchild hne => ?_⟩
      refine List.mem_filter.mpr ⟨hchild, ?_⟩
      rw [decide_eq_true_iff]
      rintro rfl
      exact hne rfl
    · cases hlived

theorem Wary.run (h : Wary w) {lives : List Life} (hrun : Run Lived w lives w') : Wary w' :=
  hrun.invariant (I := Wary) (fun _ _ _ hw hlived => (hw.step hlived).1) h

theorem Wary.stays (h : Wary w) {child : Child} (hchild : child ∈ w.orphans) {lives : List Life}
    (hrun : Run Lived w lives w') (hends : .orphanExit child.pid ∉ lives) :
    child ∈ w'.orphans := by
  induction hrun with
  | nil w => exact hchild
  | cons hlived _ ih =>
    rw [List.mem_cons, not_or] at hends
    obtain ⟨hne, hmore⟩ := hends
    obtain ⟨hw, hkeeps⟩ := h.step hlived
    exact ih hw (hkeeps child hchild (Ne.symm hne)) hmore

end Wary

/-- In every run over the lives of the service a child of an earlier life stays until it ends by
itself: nothing that is asked of a later service stops it, and no entry has its pid. -/
theorem orphans_survive {file : Option Text} {junk configFile buffer : Text} {l : ProcessList}
    {n : ℕ} {lives more : List Life} {w w' : World} {child : Child}
    (hload : serviceLoad file junk = .ok (l, n))
    (hrun : Run Lived ⟨⟨.loaded l n configFile buffer, .starting 0⟩, []⟩ lives w)
    (hchild : child ∈ w.orphans) (hmore : Run Lived w more w')
    (hends : .orphanExit child.pid ∉ more) :
    child ∈ w'.orphans ∧ (∀ call ∈ w'.system.server.kernel.kills, call.process.pid ≠ child.pid) ∧
      ((∀ fault, w'.system.phase ≠ .ended fault) →
        ∀ p ∈ w'.system.server.entries, p.pid ≠ child.pid) := by
  have hfirst : Wary ⟨⟨.loaded l n configFile buffer, .starting 0⟩, []⟩ := by
    refine ⟨by simp [World.pids], ⟨by simp [Server.loaded], by simp [Server.loaded]⟩,
      by simp [Server.loaded], fun _ => ?_⟩
    exact apart_loaded (by simp [World.pids]) hload
  have hw := hfirst.run hrun
  have hstays := hw.stays hchild hmore hends
  have hw' := hw.run hmore
  have hpid : child.pid ∈ w'.pids := List.mem_map_of_mem hstays
  refine ⟨hstays, fun call hcall heq => hw'.kills call hcall (heq ▸ hpid),
    fun hphase p hp heq => ?_⟩
  obtain ⟨k, hk⟩ := List.mem_iff_getElem?.mp hp
  exact (hw'.apart hphase).slots k p (entries_get hk).2 (heq ▸ hpid)

/-- The service is killed, and a later one stops everything: the app that the first has started goes
on. -/
def forgetLives : List Life :=
  [.step (.startup (onePid 7)), .step (.startup (onePid 8)), .restart [] []]

def stopLives : List Life :=
  [.step (.startup (onePid 9)), .step (.startup (onePid 10)),
    .step (.request (plainRequest "stopall") (onePid 11))]

theorem orphans_survive_web :
    ∃ w w' child, Run Lived ⟨webSystem, []⟩ forgetLives w ∧ Run Lived w stopLives w' ∧
      child ∈ w'.orphans ∧ w'.system.server.kernel.kills.map (·.process.pid) = [9] := by
  obtain ⟨w, hw, hpid⟩ : ∃ w, Run Lived ⟨webSystem, []⟩ forgetLives w ∧
      decide (w.pids = [7] ∧ (stopLives.foldlM World.step w).any fun w' =>
        w'.system.server.kernel.kills.map (·.process.pid) = [9]) = true :=
    Run.of_any (f := World.step) (by decide +kernel)
  obtain ⟨hpids, hstop⟩ := of_decide_eq_true hpid
  obtain ⟨w', hw', hkills⟩ := Run.of_any hstop
  obtain ⟨child, hchild, hseven⟩ : ∃ child ∈ w.orphans, child.pid = 7 := by
    have hseven : (7 : ℤ) ∈ w.pids := by simp [hpids]
    exact List.mem_map.mp hseven
  have hends : Life.orphanExit child.pid ∉ stopLives := by simp [stopLives]
  obtain ⟨hstays, -⟩ := orphans_survive (serviceLoad_of_parse webList_load) hw hchild hw' hends
  exact ⟨w, w', child, hw, hw', hstays, of_decide_eq_true hkills⟩

/-! ### Instances -/

/-- The processes that execute a program and that the service, or an earlier life of it, has
started. -/
def World.instances (w : World) (program : StrBuf × StrBuf × StrBuf) : ℕ :=
  (w.orphans ++ w.system.survivors).countP fun child => child.app.program = program

/-- The startup loop. -/
def startups (answers : List Answers) : List Life := answers.map fun a => .step (.startup a)

/-- The service is started again, and its startup loop comes to its end. -/
def Restarted (w : World) (restart : (Text × Text) × List Answers) (w' : World) : Prop :=
  Exhausted restart.1.1 ∧ w'.system.phase = .waiting ∧
    Run Lived w (.restart restart.1.1 restart.1.2 :: startups restart.2) w'

section Instances

variable {w w' : World} {l : AppList} (program : StrBuf × StrBuf × StrBuf)

/-- An iteration of the startup loop starts its entry, if that is to run. -/
theorem startup_children {s t : Server} {i : ℕ} {p : Process} (hp : s.entries[i]? = some p)
    (hrun : Run Effect s (s.startupPlan i) t) :
    (p.isRunning = 0 ∧ t.kernel.children = s.kernel.children) ∨
      p.isRunning ≠ 0 ∧ ∃ pid process, process.program = p.program ∧
        t.kernel.children = ⟨pid, process, true⟩ :: s.kernel.children := by
  have hslot := (entries_get hp).2
  rw [Server.startupPlan, entry_runs hp] at hrun
  by_cases hstopped : p.isRunning = 0
  · rw [if_neg (by simp [hstopped])] at hrun
    obtain ⟨u, hnumber, hu⟩ := run_cons.mp hrun
    obtain rfl := run_nil.mp hu
    cases hnumber
    exact Or.inl ⟨hstopped, rfl⟩
  · rw [if_pos (by simp [hstopped])] at hrun
    obtain ⟨u, hnumber, hu⟩ := run_cons.mp hrun
    obtain ⟨v, hstart, hv⟩ := run_cons.mp hu
    obtain rfl := run_nil.mp hv
    cases hnumber with
    | @number k q hk hq =>
      obtain rfl := Option.some_inj.mp (hslot.symm.trans hq)
      cases hstart with
      | @relaunch k r pid forks hk' hr hrunning hf h0 =>
        rw [getElem?_setSlot, if_pos rfl, if_pos (lt_of_slot hslot)] at hr
        obtain rfl := Option.some_inj.mp hr
        exact Or.inr ⟨hstopped, pid, { p with id := i }, rfl, rfl⟩

theorem survivors_running (h : ∀ fault, w.system.phase ≠ .ended fault) :
    w.system.survivors = w.system.server.kernel.children.filter Child.alive := if_neg (h _)

theorem next_still {τ : System}
    (h : τ.server.kernel.kills = w.system.server.kernel.kills) :
    (w.next τ).orphans = w.orphans := by
  rw [World.next, h, List.drop_length]
  exact List.filter_eq_self.mpr fun _ _ => by simp

theorem startup_add {i : ℕ} {answers : Answers} (h : Stores w.system.server l)
    (hphase : w.system.phase = .starting i) (hi : i < l.apps.length)
    (hlived : Lived w (.step (.startup answers)) w')
    (hw' : ∀ fault, w'.system.phase ≠ .ended fault) :
    w'.system.phase = .starting (i + 1) ∧ Stores w'.system.server l ∧
      w'.system.server.configFile = w.system.server.configFile ∧
      w'.instances program =
        w.instances program + if l.apps[i].saved = (program, false) then 1 else 0 := by
  have hrunning : ∀ fault, w.system.phase ≠ .ended fault := by simp [hphase]
  have hs : Stores (w.system.server.asked answers) l :=
    ⟨⟨h.tidy.inside, h.tidy.unnamed⟩, h.saved⟩
  obtain ⟨-, τ, hsteps, rfl⟩ := lived_step.mp hlived
  have hlength := h.titled.length
  cases hsteps.cases with
  | finish hphase' hle =>
    obtain rfl := Phase.starting.inj (hphase.symm.trans hphase')
    omega
  | @iterate j _ hphase' hj hfresh =>
    obtain rfl : i = j := Phase.starting.inj (hphase.symm.trans hphase')
    rcases w.system.after_cases (startupIteration i) answers (.starting (i + 1)) with
      ⟨a, t, hm, heq⟩ | ⟨f, t, hm, heq⟩ <;> rw [heq] at hw' ⊢
    · obtain ⟨ops, hrun, rfl⟩ := (startupIteration_performs (s := w.system.server.asked answers)
        hj hs.tidy.inside).ok hm
      refine ⟨rfl, startup_stores hs hrun, (files_run hrun).1, ?_⟩
      have hkills := kills_run hrun fun op hop => (startupPlan_ops _ i op hop).2.2
      rw [World.instances, World.instances, survivors_running hrunning, survivors_running hw',
        List.countP_append, List.countP_append, next_still hkills]
      -- the entry of the iteration
      obtain ⟨p, hslot⟩ := exists_slot (w.system.server.asked answers)
        (lt_of_lt_of_le hj hs.tidy.inside)
      have hp := entries_of_slot (s := w.system.server.asked answers) hj hslot
      obtain ⟨app, happ, hsaved⟩ := hs.app hp
      obtain ⟨_, rfl⟩ := List.getElem?_eq_some_iff.mp happ
      rw [← hsaved]
      rcases startup_children hp hrun with
        ⟨hstopped, hchildren⟩ | ⟨hstarted, pid, process, hprogram,
        hchildren⟩
      · change _ + (t.kernel.children.filter Child.alive).countP _ = _
        rw [hchildren, if_neg (by simp [Process.saved, hstopped])]
        rfl
      · change _ + (t.kernel.children.filter Child.alive).countP _ = _
        rw [hchildren, List.filter_cons_of_pos rfl, List.countP_cons, ← Nat.add_assoc]
        simp only [hprogram, Process.saved, hstarted, decide_false, Prod.mk.injEq, and_true,
          decide_eq_true_eq]
        rfl
    · exact absurd rfl (hw' f)

theorem startups_running {answers : List Answers} (hrun : Run Lived w (startups answers) w')
    (hw' : ∀ fault, w'.system.phase ≠ .ended fault) :
    ∀ fault, w.system.phase ≠ .ended fault := by
  induction answers generalizing w with
  | nil =>
    obtain rfl := run_nil.mp hrun
    exact hw'
  | cons a answers ih =>
    obtain ⟨v, hlived, hrest⟩ := run_cons.mp hrun
    obtain ⟨-, τ, hsteps, rfl⟩ := lived_step.mp hlived
    exact hsteps.running (ih hrest)

/-- Behind the last entry the loop ends. -/
theorem startups_end {answers : List Answers} {a : Answers} {i : ℕ}
    (hphase : w.system.phase = .starting i) (hi : w.system.server.processCount ≤ i)
    (hrun : Run Lived w (startups (a :: answers)) w') :
    w' = w.next ⟨w.system.server, .waiting⟩ := by
  obtain ⟨v, hlived, hrest⟩ := run_cons.mp hrun
  obtain ⟨-, τ, hsteps, rfl⟩ := lived_step.mp hlived
  cases hsteps.cases with
  | iterate hphase' hlt =>
    obtain rfl := Phase.starting.inj (hphase.symm.trans hphase')
    omega
  | finish hphase' =>
    cases answers with
    | nil => exact run_nil.mp hrest
    | cons b answers =>
      obtain ⟨u, hnext, -⟩ := run_cons.mp hrest
      obtain ⟨-, τ, hsteps', rfl⟩ := lived_step.mp hnext
      cases hsteps'.cases with
      | iterate hwaiting => cases hwaiting
      | finish hwaiting => cases hwaiting

theorem startups_add {answers : List Answers} {i : ℕ} (h : Stores w.system.server l)
    (hphase : w.system.phase = .starting i) (hi : i ≤ l.apps.length)
    (hrun : Run Lived w (startups answers) w') (hw' : w'.system.phase = .waiting) :
    w'.system.server.configFile = w.system.server.configFile ∧
      w'.instances program = w.instances program +
        (l.apps.drop i).countP fun app => app.saved = (program, false) := by
  induction answers generalizing w i with
  | nil =>
    obtain rfl := run_nil.mp hrun
    rw [hphase] at hw'
    cases hw'
  | cons a answers ih =>
    rcases hi.eq_or_lt with rfl | hlt
    · obtain rfl := startups_end hphase h.titled.length.le hrun
      have horphans := next_still (w := w) (τ := ⟨w.system.server, .waiting⟩) rfl
      rw [List.drop_length, World.instances, World.instances, horphans,
        survivors_running (by simp [hw']), survivors_running (by simp [hphase])]
      exact ⟨rfl, rfl⟩
    · obtain ⟨v, hlived, hrest⟩ := run_cons.mp hrun
      obtain ⟨hphasev, hv, hfile, hadd⟩ := startup_add program h hphase hlt hlived
        (startups_running hrest (by simp [hw']))
      obtain ⟨hfile', hadd'⟩ := ih hv hphasev hlt hrest
      refine ⟨hfile'.trans hfile, ?_⟩
      rw [hadd', hadd, List.drop_eq_getElem_cons hlt, List.countP_cons]
      simp only [decide_eq_true_eq]
      omega

theorem Restarted.add {restart : (Text × Text) × List Answers}
    (hfile : Reloads w.system.server.configFile l) (h : Restarted w restart w') :
    Reloads w'.system.server.configFile l ∧ w'.instances program = w.instances program +
      l.apps.countP fun app => app.saved = (program, false) := by
  obtain ⟨⟨junk, buffer⟩, answers⟩ := restart
  obtain ⟨hjunk, hw', hrun⟩ := h
  obtain ⟨v, hreload, hrest⟩ := run_cons.mp hrun
  obtain ⟨loaded, hload, hstores⟩ := hfile junk hjunk
  have hreload : w.reload junk buffer = some v := hreload
  rw [World.reload, hload] at hreload
  obtain rfl := Option.some_inj.mp hreload
  obtain ⟨hkeeps, hadd⟩ := startups_add program (hstores buffer) rfl (Nat.zero_le _)
    hrest hw'
  refine ⟨hkeeps ▸ hfile, ?_⟩
  rw [hadd, List.drop_zero]
  -- the new service has no child
  have hnone : World.instances ⟨⟨.loaded loaded l.apps.length w.system.server.configFile buffer,
      .starting 0⟩, w.orphans ++ w.system.survivors⟩ program = w.instances program :=
    congrArg (List.countP _) (List.append_nil _)
  rw [hnone]

/-- A service that is started again starts all apps that are to run, and what has been started
before goes on: every restart adds one instance of each. -/
theorem restarts_add {restarts : List ((Text × Text) × List Answers)}
    (hfile : Reloads w.system.server.configFile l) (hrun : Run Restarted w restarts w') :
    w'.instances program = w.instances program +
      restarts.length * l.apps.countP fun app => app.saved = (program, false) := by
  induction hrun with
  | nil w => simp
  | @cons w v w' restart restarts hrestart _ ih =>
    obtain ⟨hv, hadd⟩ := hrestart.add program hfile
    rw [ih hv, hadd, List.length_cons]
    ring

end Instances

/-- Two restarts of a service with one app. -/
def webRestarts : List ((Text × Text) × List Answers) :=
  [(([], []), [onePid 7, onePid 8]), (([], []), [onePid 9, onePid 10])]

theorem restarts_add_web :
    ∃ w', Run Restarted ⟨webSystem, []⟩ webRestarts w' ∧ w'.instances Process.web.program = 2 := by
  obtain ⟨w₁, hw₁, h₁⟩ : ∃ w₁, Run Lived ⟨webSystem, []⟩
      (.restart [] [] :: startups [onePid 7, onePid 8]) w₁ ∧
      decide (w₁.system.phase = .waiting ∧
        ((Life.restart [] [] :: startups [onePid 9, onePid 10]).foldlM World.step w₁).any fun w' =>
          w'.system.phase = .waiting) = true :=
    Run.of_any (f := World.step) (by decide +kernel)
  obtain ⟨hphase₁, hmore⟩ := of_decide_eq_true h₁
  obtain ⟨w', hw', hphase⟩ := Run.of_any hmore
  have hrun : Run Restarted ⟨webSystem, []⟩ webRestarts w' :=
    .cons ⟨exhausted_nil, hphase₁, hw₁⟩
      (.single ⟨exhausted_nil, of_decide_eq_true hphase, hw'⟩)
  have hadd := restarts_add Process.web.program held_web.saved hrun
  refine ⟨w', hrun, hadd.trans ?_⟩
  decide +kernel

end KbPm
