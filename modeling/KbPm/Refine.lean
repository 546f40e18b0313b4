/-
The service implements the list of apps.

* `Starting.run` — the startup loop makes a list of apps of what has been loaded;
* `serve_represents` — a request that is served has its effect on the apps;
* `serve_faults` — how a request can end the service;
* `requests_refine` — over runs of requests.
-/
import KbPm.Load
import KbPm.Represents

namespace KbPm

open Trace

/-! ### What a run begins from -/

theorem represents_of_settled {s : Server} (htidy : Tidy s)
    (hnamed : ∀ p ∈ s.entries, p.appName ≠ .empty)
    (hdistinct : (s.entries.map Process.appName).Nodup)
    (hsettled : ∀ (k : ℕ) p, s.entries[k]? = some p → Settled k p) : ∃ l, Represents s l := by
  refine ⟨⟨s.entries.map Process.app, fun app happ => ?_, ?_⟩, htidy, rfl, hsettled⟩
  · obtain ⟨p, hp, rfl⟩ := List.mem_map.mp happ
    exact hnamed p hp
  · rw [List.map_map]
    exact hdistinct

/-- The startup loop has done the iterations before `i`. -/
structure Starting (s : Server) (i : ℕ) (names : List StrBuf) : Prop where
  tidy : Tidy s
  names : s.entries.map Process.appName = names
  settled : ∀ (k : ℕ) p, s.entries[k]? = some p → k < i → Settled k p
  idle : ∀ (k : ℕ) p, s.entries[k]? = some p → i ≤ k → p.pid = 0 ∧ p.startTime = 0

theorem Starting.step {s t : Server} {i : ℕ} {names : List StrBuf} {answers : Answers}
    (h : Starting s i names) (hi : i < s.processCount) (hforks : ∀ pid ∈ answers.forks, 0 < pid)
    (hstep : Iterated s (i, answers) t) : Starting t (i + 1) names := by
  have hn : (s.asked answers).processCount ≤ listSize := h.tidy.inside
  obtain ⟨ops, hrun, rfl⟩ := (startupIteration_performs (s := s.asked answers) hi hn).ok hstep
  have hlocal := fun op hop => (startupPlan_ops (s.asked answers) i op hop).1
  have htidy : Tidy (s.asked answers) := ⟨h.tidy.inside, h.tidy.unnamed⟩
  have hslot := fun op hop => (startupPlan_ops (s.asked answers) i op hop).2.1
  -- the iteration acts on its own entry
  have hother : ∀ {k : ℕ} {q : Process}, k ≠ i → t.entries[k]? = some q →
      s.entries[k]? = some q := by
    intro k q hk hq
    obtain ⟨p, hp, hacts⟩ := entry_of_run hrun hlocal hq
    rw [filter_slot_other hslot hk] at hacts
    obtain rfl := run_nil.mp hacts
    exact hp
  refine ⟨htidy.local hrun hlocal, ?_, fun k q hq hk => ?_, fun k q hq hk => ?_⟩
  · rw [entries_names hrun hlocal]
    exact h.names
  · by_cases hki : k = i
    · subst hki
      obtain ⟨p, hp, hacts⟩ := entry_of_run hrun hlocal hq
      rw [filter_slot_self hslot, Server.startupPlan, entry_runs hp] at hacts
      have hidle := h.idle k p hp (le_refl k)
      by_cases hstopped : p.isRunning = 0
      · rw [if_neg (by simp [hstopped])] at hacts
        obtain ⟨r, hnumber, hr⟩ := run_cons.mp hacts
        obtain rfl := run_nil.mp hr
        cases hnumber
        exact ⟨rfl, fun _ => hidle, fun h => absurd hstopped h⟩
      · rw [if_pos (by simp [hstopped])] at hacts
        obtain ⟨r, hnumber, hr⟩ := run_cons.mp hacts
        obtain ⟨w, hstart, hw⟩ := run_cons.mp hr
        obtain rfl := run_nil.mp hw
        cases hnumber
        cases hstart with
        | relaunch h0 hf hrunning =>
          exact ⟨rfl, fun h => absurd h (Process.started_isRunning _ _ _),
            fun _ => ⟨rfl, hforks _ hf⟩⟩
    · exact h.settled k q (hother hki hq) (by omega)
  · exact h.idle k q (hother (by omega) hq) (by omega)

theorem Starting.length {s : Server} {i : ℕ} {names : List StrBuf} (h : Starting s i names) :
    s.processCount = names.length := by
  rw [← h.names, List.length_map, length_entries h.tidy.inside]

theorem Starting.run {s t : Server} {iterations : List (ℕ × Answers)} {i : ℕ} {names : List StrBuf}
    (h : Starting s i names) (hrun : Run Iterated s iterations t)
    (hindex : iterations.map Prod.fst = List.range' i (names.length - i))
    (hforks : ∀ iteration ∈ iterations, ∀ pid ∈ iteration.2.forks, 0 < pid) :
    ∃ j, names.length ≤ j ∧ Starting t j names := by
  induction hrun generalizing i with
  | nil s =>
    refine ⟨i, ?_, h⟩
    have hlength := congrArg List.length hindex
    rw [List.length_map, List.length_range'] at hlength
    rw [List.length_nil] at hlength
    omega
  | @cons s t u iteration iterations hstep _ ih =>
    have hlength := congrArg List.length hindex
    rw [List.length_map, List.length_range', List.length_cons] at hlength
    obtain ⟨d, hd⟩ : ∃ d, names.length - i = d + 1 := ⟨iterations.length, by omega⟩
    rw [hd, List.range'_succ, List.map_cons, List.cons.injEq] at hindex
    obtain ⟨hfst, hrest⟩ := hindex
    obtain ⟨k, answers⟩ := iteration
    obtain rfl : k = i := hfst
    have hnext := h.step (by rw [h.length]; omega) (hforks _ List.mem_cons_self) hstep
    refine ih hnext ?_ fun it hit => hforks it (List.mem_cons_of_mem _ hit)
    rw [hrest, show names.length - (k + 1) = d by omega]

/-! ### Requests -/

/-- The kernel gives pids to new processes, and the operand of the request, where it
decodes as a process, gives strings and a name. -/
structure Admissible (s : Server) (call : Request × Answers) : Prop where
  forks : ∀ pid ∈ call.2.forks, 0 < pid
  named : AppendsNamed s call.1
  strings : s.plan call.1 ≠ .error .nullString

theorem serve_represents {s t : Server} {l : AppList} {call : Request × Answers}
    (h : Represents s l) (hcall : Admissible s call) (hserved : Served s call t) :
    Represents t (l.act (l.launched call.2 (readCommand (s.commandBuffer call.1)))
        (readCommand (s.commandBuffer call.1)) (l.resolve (s.operandBuffer call.1))) ∧
      t.kernel.stopped = s.kernel.stopped ++
        l.stops (readCommand (s.commandBuffer call.1)) (l.resolve (s.operandBuffer call.1)) := by
  obtain ⟨ops, u, text, hplan, hrun, -, rfl⟩ := hserved.plan h.tidy.inside
  have hs : Represents (s.asked call.2) l := ⟨⟨h.tidy.inside, h.tidy.unnamed⟩, h.apps, h.settled⟩
  have hplan : (s.asked call.2).plan call.1 = .ok ops := hplan
  have hu := plan_represents hs hcall.forks hplan hcall.named hrun
  exact ⟨⟨⟨hu.tidy.inside, hu.tidy.unnamed⟩, hu.apps, hu.settled⟩,
    plan_stops (t := u) hs hplan hrun⟩

/-- Entries stay settled while a plan is done. -/
theorem settled_run {s t : Server} {ops : List Op}
    (hsettled : ∀ (k : ℕ) p, s.entries[k]? = some p → Settled k p)
    (hforks : ∀ pid ∈ s.kernel.answers.forks, 0 < pid) (hrun : Run Effect s ops t)
    (hlocal : ∀ op ∈ ops, op.Local) (hquit : ∀ k, .quit k ∉ ops) {k : ℕ} {q : Process}
    (hq : t.entries[k]? = some q) : Settled k q := by
  obtain ⟨p, hp, hacts⟩ := entry_of_run hrun hlocal hq
  refine hacts.invariant_of (P := fun op => op.slot = some k ∧ op ≠ .quit k)
    (fun _ _ _ hop hp hact => hact.settled hforks hop.1 hop.2 hp) (fun op hop => ?_)
      (hsettled k p hp)
  obtain ⟨hmem, hslot⟩ := List.mem_filter.mp hop
  exact ⟨by simpa using hslot, fun heq => hquit k (heq ▸ hmem)⟩

/-- With a free slot, it is the kernel or a text that ends the service. -/
theorem serve_faults {s u : Server} {l : AppList} {call : Request × Answers} {f : Fault}
    (h : Represents s l) (hcall : Admissible s call) (hfree : s.processCount < listSize)
    (hserve : serve call.1 (s.asked call.2) = .error f u) :
    f = .forkFailed ∨ f = .nullFile ∨ f = .overrun ∨ f = .overflow ∨ f = .stack ∨
      f = .heap ∧ s.plan call.1 = .error .heap := by
  have hn : (s.asked call.2).processCount ≤ listSize := h.tidy.inside
  rcases serve_error hserve with hhandle | ⟨response, w, -, hsave, -⟩
  · obtain ⟨ops, w, hrun, hbreaks⟩ := (handleRequest_performs hn call.1).error hhandle
    cases hbreaks with
    | operand hplan =>
      obtain ⟨buffer, hparse⟩ := plan_error hn hplan
      rcases parseProcess_error hparse with rfl | rfl | rfl
      · exact absurd hplan hcall.strings
      · exact Or.inr (Or.inr (Or.inr (Or.inl rfl)))
      · exact Or.inr (Or.inr (Or.inr (Or.inr (Or.inr ⟨rfl, hplan⟩))))
    | @op _ rest o _ _ _ hplan hf =>
      have hplanned := plan_cases hn hplan
      have hlocal := hplanned.before_local
      cases hf with
      | start => exact Or.inl rfl
      | relaunch => exact Or.inl rfl
      | append => exact Or.inl rfl
      | full hfull =>
        have hcount : w.processCount = s.processCount := (Effect.keeps_run hrun hlocal).1
        omega
      | stop hk hp hrunning hkill ht =>
        -- what runs has a pid
        have hsettled := settled_run (s := s.asked call.2) h.settled hcall.forks hrun hlocal
          (fun k hk => hplanned.not_quit k (List.mem_append_left _ hk)) (entries_of_slot hk hp)
        rcases Walk.kill_error hkill with rfl | rfl | rfl | ⟨rfl, hpid⟩
        · exact Or.inr (Or.inl rfl)
        · exact Or.inr (Or.inr (Or.inl rfl))
        · exact Or.inr (Or.inr (Or.inr (Or.inr (Or.inl rfl))))
        · exact absurd (hsettled.running hrunning).2 (not_lt.mpr hpid)
      | @remove name _ hdel =>
        have hfull := (delProcessByAppName_error hdel).1
        have hroom : HasRoom s (.remove name) := by
          have hagrees : s.processCount = getProcessListCount s.processList := h.agrees
          rw [HasRoom, ← hagrees]
          exact hfree
        have hroomu : getProcessListCount u.processList < listSize :=
          (hasRoom_run hrun hlocal (.remove name)).mpr hroom
        omega
      | note hp hs =>
        rcases createProcessCJsonWithStatus_error hs with rfl | rfl | rfl
        · exact Or.inr (Or.inl rfl)
        · exact Or.inr (Or.inr (Or.inl rfl))
        · exact Or.inr (Or.inr (Or.inr (Or.inl rfl)))
    | text hplan => exact Or.inr (Or.inr (Or.inr (Or.inl rfl)))
  · obtain rfl := saveProcessList_error hsave
    exact Or.inr (Or.inr (Or.inr (Or.inl rfl)))

/-- The states that runs of requests begin from: nothing is listed, or a config with
nonempty and distinct names has been loaded and the startup loop has ended, without
requests in between. -/
inductive Begun (s : Server) : Prop
  | empty (hlist : s.processList = .zero) (hcount : s.processCount = 0)
  | loaded {file : Option Text} {junk : Text} {l : ProcessList} {n : ℕ} {s₀ : Server}
    {iterations : List (ℕ × Answers)}
    (hload : parseProcessListFromPath file junk .zero = .ok (l, (n : ℤ)))
    (hlist : s₀.processList = l) (hcount : s₀.processCount = n)
    (hnamed : ∀ p ∈ s₀.entries, p.appName ≠ .empty)
    (hdistinct : (s₀.entries.map Process.appName).Nodup)
    (hrun : Run Iterated s₀ iterations s) (hindex : iterations.map Prod.fst = List.range n)
    (hforks : ∀ iteration ∈ iterations, ∀ pid ∈ iteration.2.forks, 0 < pid)

theorem Begun.represents {s : Server} (h : Begun s) : ∃ l, Represents s l := by
  cases h with
  | empty hlist hcount =>
    have hnil := entries_of_zero hcount
    exact ⟨.empty, tidy_of_zero hlist hcount, by rw [hnil]; rfl, fun k p hp => by simp [hnil] at hp⟩
  | @loaded file junk l n s₀ iterations hload hlist hcount hnamed hdistinct hrun hindex hforks =>
    subst hlist hcount
    have hloaded := loaded_of_path hload
    have hstart : Starting s₀ 0 (s₀.entries.map Process.appName) :=
      ⟨hloaded.tidy, rfl, fun _ _ _ hk => absurd hk (Nat.not_lt_zero _),
        fun k p hp _ => hloaded.idle k p (entries_get hp).2⟩
    obtain ⟨j, hj, hend⟩ := hstart.run hrun
      (by rw [hindex, hstart.length, List.range_eq_range', Nat.sub_zero]) hforks
    -- the names are those of the config, and every entry has had its iteration
    refine represents_of_settled hend.tidy (fun p hp => ?_) (hend.names ▸ hdistinct)
      fun k p hp => ?_
    · have hmem : p.appName ∈ s₀.entries.map Process.appName :=
        hend.names ▸ List.mem_map_of_mem hp
      obtain ⟨q, hq, hname⟩ := List.mem_map.mp hmem
      exact hname ▸ hnamed q hq
    · refine hend.settled k p hp ?_
      have hk := (entries_get hp).1
      rw [hend.length] at hk
      omega

/-- In every state of a run the list is one of apps, with the ids in order, distinct
names, and as long by its names as by its count; and every request has its effect on
the apps, with the instances that the kernel gives, or is ended by the kernel or by
a text that does not fit. -/
theorem requests_refine {s t : Server} {calls : List (Request × Answers)} (hs : Begun s)
    (hrun : Guarded Served Admissible s calls t) :
    ∃ l, Represents t l ∧ t.processCount = getProcessListCount t.processList ∧
      (∀ (k : ℕ) p, t.entries[k]? = some p →
        ∃ app, l.apps[k]? = some app ∧ (app.process k).Similar p) ∧
      ∀ call, Admissible t call →
        (∀ u, Served t call u →
          Represents u (l.act (l.launched call.2 (readCommand (t.commandBuffer call.1)))
              (readCommand (t.commandBuffer call.1)) (l.resolve (t.operandBuffer call.1))) ∧
            u.kernel.stopped = t.kernel.stopped ++ l.stops (readCommand (t.commandBuffer call.1))
              (l.resolve (t.operandBuffer call.1))) ∧
        (t.processCount < listSize → ∀ f u, serve call.1 (t.asked call.2) = .error f u →
          f = .forkFailed ∨ f = .nullFile ∨ f = .overrun ∨ f = .overflow ∨ f = .stack ∨
            f = .heap ∧ t.plan call.1 = .error .heap) := by
  obtain ⟨l, hl⟩ : ∃ l, Represents t l := by
    refine hrun.invariant (I := fun s => ∃ l, Represents s l)
      (fun u call v hu hcall hserved => ?_) hs.represents
    obtain ⟨l, hl⟩ := hu
    exact ⟨_, (serve_represents hl hcall hserved).1⟩
  refine ⟨l, hl, hl.agrees, fun k p hp => ?_, fun call hcall =>
    ⟨fun u hserved => ?_, fun hfree f u hserve => ?_⟩⟩
  · exact ⟨p.app, hl.app hp, (hl.settled k p hp).similar⟩
  · exact serve_represents hl hcall hserved
  · exact serve_faults hl hcall hfree hserve

theorem requests_refine_web :
    ∃ t, Served .empty (startCall .web 7) t ∧ ∃ l, Represents t l ∧
      t.entries.map Process.pid = [7] ∧ l.apps.map App.appName = [Process.web.appName] := by
  obtain ⟨t, hserved, ht⟩ := served_of .empty (startCall .web 7)
    (fun t => decide (t.entries.map Process.pid = [7] ∧
      t.entries.map Process.appName = [Process.web.appName])) (by decide +kernel)
  have hcall : Admissible .empty (startCall .web 7) :=
    ⟨by decide, by decide +kernel, by decide +kernel⟩
  obtain ⟨l, hl, -⟩ := requests_refine (.empty rfl rfl) (.cons hcall hserved (.nil t))
  obtain ⟨hpids, hnames⟩ : t.entries.map Process.pid = [7] ∧
      t.entries.map Process.appName = [Process.web.appName] := by simpa using ht
  exact ⟨t, hserved, l, hl, hpids, hl.names ▸ hnames⟩

end KbPm
