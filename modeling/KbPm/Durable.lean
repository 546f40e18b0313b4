/-
The apps and which of them are to run, in memory and in the config file.

* `Stores s l` — the list of the service is `l`, up to the instances;
* `plan_stores` — what a request does to it;
* `Reloads file l` — a service that starts with this file has the list `l`;
* `Served.reloads` — the file that a request leaves behind gives the list again.
-/
import KbPm.Persistence
import KbPm.Refine

namespace KbPm

open Trace Scan

/-- What the file keeps of an app. -/
def App.saved (app : App) : (StrBuf × StrBuf × StrBuf) × Bool :=
  ((app.appName, app.cmd, app.dir), app.running.isNone)

/-- The service has the apps, and those are to run that are running. -/
structure Stores (s : Server) (l : AppList) : Prop where
  tidy : Tidy s
  saved : s.entries.map Process.saved = l.apps.map App.saved

section Stores

variable {s t : Server} {l : AppList} {k : ℕ} {p : Process}

theorem Represents.stores (h : Represents s l) : Stores s l := by
  refine ⟨h.tidy, ?_⟩
  rw [← h.apps, List.map_map]
  refine List.map_congr_left fun p _ => ?_
  by_cases hrun : p.isRunning = 0
  · simp [Process.saved, App.saved, Process.app, Process.program, hrun]
  · simp [Process.saved, App.saved, Process.app, Process.program, hrun]

theorem Stores.titled (h : Stores s l) : Titled s l := by
  have hnames := congrArg (List.map fun saved => saved.1.1) h.saved
  rw [List.map_map, List.map_map] at hnames
  exact ⟨h.tidy, hnames⟩

theorem Stores.app (h : Stores s l) (hp : s.entries[k]? = some p) :
    ∃ app, l.apps[k]? = some app ∧ p.saved = app.saved := by
  have hget := congrArg (fun saved => saved[k]?) h.saved
  simp only [List.getElem?_map, hp, Option.map_some] at hget
  obtain ⟨app, happ, heq⟩ := Option.map_eq_some_iff.mp hget.symm
  exact ⟨app, happ, heq.symm⟩

theorem stopped_iff {app : App} (h : p.saved = app.saved) :
    p.isRunning = 0 ↔ app.running = none := by
  have hflag : decide (p.isRunning = 0) = app.running.isNone := congrArg Prod.snd h
  rw [← Option.isNone_iff_eq_none, ← hflag, decide_eq_true_iff]

/-! ### Operations on entries -/

/-- Whether an entry is stopped, behind an operation that decides it. -/
def Op.stopped : Op → Option Bool
  | .start _ => some false
  | .relaunch _ => some false
  | .stop _ => some true
  | .quit _ => some true
  | _ => none

/-- The same, behind operations on an entry. -/
def stoppedBehind (ops : List Op) (stopped : Bool) : Bool :=
  ops.foldl (fun stopped op => op.stopped.getD stopped) stopped

theorem Acts.saved {forks : List ℤ} {q : Process} {op : Op} (h : Acts forks p op q) :
    q.saved = (p.program, op.stopped.getD p.saved.2) := by
  have hstarted : ∀ pid now, (p.started pid now).saved = (p.program, false) := by
    intro pid now
    rw [Process.saved, decide_eq_false (p.started_isRunning pid now)]
    rfl
  cases h with
  | note hq =>
    rw [hq]
    rfl
  | number => rfl
  | start => exact hstarted _ _
  | relaunch => exact hstarted _ _
  | stop => rfl
  | quit => rfl

theorem acts_saved {forks : List ℤ} {ops : List Op} {q : Process} (h : Run (Acts forks) p ops q) :
    q.saved = (p.program, stoppedBehind ops p.saved.2) := by
  induction h with
  | nil p => rfl
  | cons hact _ ih =>
    rw [ih, hact.saved, stoppedBehind, stoppedBehind, List.foldl_cons]
    exact congrArg (·, _) (congrArg Prod.fst hact.saved)

/-- A run of operations on entries, where they decide for each entry what `f` does. -/
theorem Stores.update (h : Stores s l) {ops : List Op} (hrun : Run Effect s ops t)
    (hlocal : ∀ op ∈ ops, op.Local) {f : ℕ → Option Instance → Option Instance}
    (hf : ∀ (j : ℕ) p app, s.entries[j]? = some p → l.apps[j]? = some app → p.saved = app.saved →
      stoppedBehind (ops.filter fun op => op.slot = some j) app.running.isNone =
        (f j app.running).isNone) : Stores t (l.update f) := by
  refine ⟨h.tidy.local hrun hlocal, List.ext_getElem? fun j => ?_⟩
  rw [AppList.update, List.getElem?_map, List.getElem?_map, List.getElem?_mapIdx, Option.map_map]
  cases hq : t.entries[j]? with
  | none =>
    have hnone : l.apps[j]? = none := by
      rw [List.getElem?_eq_none_iff] at hq ⊢
      rw [length_run hrun hlocal, length_entries h.tidy.inside, h.titled.length] at hq
      exact hq
    rw [hnone]
    rfl
  | some q =>
    obtain ⟨p, hp, hacts⟩ := entry_of_run hrun hlocal hq
    obtain ⟨app, happ, hsaved⟩ := h.app hp
    have hflag : p.saved.2 = app.running.isNone := congrArg Prod.snd hsaved
    have hprogram : p.program = (app.appName, app.cmd, app.dir) := congrArg Prod.fst hsaved
    rw [happ, Option.map_some, Option.map_some, acts_saved hacts, hflag, hf j p app hp happ hsaved,
      hprogram]
    rfl

/-- Operations on the one entry `k`, and no change of the others. -/
theorem Stores.slot (h : Stores s l) {ops : List Op} (hrun : Run Effect s ops t)
    (hlocal : ∀ op ∈ ops, op.Local) (hslot : ∀ op ∈ ops, op.slot = some k)
    {f : ℕ → Option Instance → Option Instance}
    (hother : ∀ j running, j ≠ k → f j running = running)
    (hk : ∀ app, l.apps[k]? = some app →
      stoppedBehind ops app.running.isNone = (f k app.running).isNone) : Stores t (l.update f) := by
  refine h.update hrun hlocal fun j p app hp happ _ => ?_
  by_cases hj : j = k
  · subst hj
    rw [filter_slot_self hslot, hk app happ]
  · rw [filter_slot_other hslot hj, hother j _ hj]
    rfl

/-- The operations `f j` on the entries `j` that are picked. -/
theorem Stores.picked (h : Stores s l) {f : ℕ → Op} (hlocal : ∀ j, (f j).Local)
    (hslot : ∀ j, (f j).slot = some j) {picks : ℕ → Bool}
    (hrun : Run Effect s (((List.range s.processCount).filter picks).map f) t)
    {g : ℕ → Option Instance → Option Instance}
    (hg : ∀ (j : ℕ) p (app : App), s.entries[j]? = some p → p.saved = app.saved →
      (if picks j then (f j).stopped.getD app.running.isNone else app.running.isNone) =
        (g j app.running).isNone) : Stores t (l.update g) := by
  refine h.update hrun (fun op hop => ?_) fun j p app hp happ hsaved => ?_
  · obtain ⟨j, -, rfl⟩ := List.mem_map.mp hop
    exact hlocal j
  · rw [← hg j p app hp hsaved, filter_slot_map hslot (List.nodup_range.filter _)]
    have hj := (entries_get hp).1
    by_cases hpick : picks j = true
    · rw [if_pos (by simp [hj, hpick]), if_pos hpick]
      rfl
    · rw [if_neg (by simp [hpick]), if_neg hpick]
      rfl

theorem AppList.erase_update {f : ℕ → Option Instance → Option Instance}
    (hother : ∀ j running, j ≠ k → f j running = running) : (l.update f).erase k = l.erase k := by
  refine AppList.ext (List.ext_getElem? fun j => ?_)
  rw [AppList.erase, AppList.erase, List.getElem?_eraseIdx, List.getElem?_eraseIdx,
    AppList.update, List.getElem?_mapIdx, List.getElem?_mapIdx]
  have hkeep : ∀ i, i ≠ k → (l.apps[i]?.map fun app => { app with running := f i app.running }) =
      l.apps[i]? := by
    intro i hi
    cases l.apps[i]? with
    | none => rfl
    | some app => rw [Option.map_some, hother i _ hi]
  split
  · exact hkeep j (by omega)
  · exact hkeep (j + 1) (by omega)

theorem Stores.erase (h : Stores s l) (hp : s.entries[k]? = some p)
    (hstep : Effect s (.remove p.appName) t) : Stores t (l.erase k) := by
  obtain ⟨j, q, hq, hname, -, -, -, htidy, hget⟩ := entries_remove h.tidy h.titled.fits hp hstep
  obtain rfl : j = k := h.titled.index_eq hq hp hname
  refine ⟨htidy, List.ext_getElem? fun i => ?_⟩
  have hsaved := fun i : ℕ => congrArg (fun saved => saved[i]?) h.saved
  simp only [List.getElem?_map] at hsaved
  rw [AppList.erase, List.getElem?_map, List.getElem?_map, hget i, List.getElem?_eraseIdx]
  split
  · exact hsaved i
  · rw [Option.map_map, ← hsaved (i + 1)]
    rfl

theorem Stores.push (h : Stores s l) (hname : p.appName ≠ .empty)
    (hnew : s.named p.appName = false) (hstep : Effect s (.append p) t) (fresh : Instance) :
    Stores t (l.push ⟨p.appName, p.cmd, p.dir, some fresh⟩) := by
  obtain ⟨pid, forks, hf, h0, hentries, -, -⟩ := hstep.append_entries
  have hadmitted : p.appName ≠ .empty ∧ p.appName ∉ l.apps.map App.appName := by
    refine ⟨hname, fun hmem => ?_⟩
    rw [← h.titled.names, ← named_iff, hnew] at hmem
    cases hmem
  refine ⟨h.tidy.append hstep, ?_⟩
  rw [AppList.push, dif_pos hadmitted, hentries, List.map_append, List.map_append, h.saved]
  have hstarted : decide ((p.started pid s.kernel.now).isRunning = 0) = false :=
    decide_eq_false (p.started_isRunning _ _)
  simp only [List.map_singleton, Process.saved, App.saved, Process.program, hstarted]
  rfl

/-! ### Requests -/

variable (fresh : ℕ → Instance)

theorem startall_stores (h : Stores s l)
    (hrun : Run Effect s (((List.range s.processCount).filter fun k => !s.runs k).map .start) t) :
    Stores t (l.update fun j running => running.or (some (fresh j))) := by
  refine h.picked (f := .start) (fun _ => trivial) (fun _ => rfl) hrun fun j p app hp hsaved => ?_
  rw [entry_runs hp]
  by_cases hstopped : p.isRunning = 0
  · rw [(stopped_iff hsaved).mp hstopped]
    simp [hstopped, Op.stopped]
  · obtain ⟨inst, hinst⟩ := Option.ne_none_iff_exists'.mp (mt (stopped_iff hsaved).mpr hstopped)
    simp [hinst, hstopped]

theorem stopall_stores (h : Stores s l)
    (hrun : Run Effect s (((List.range s.processCount).filter s.runs).map .stop) t) :
    Stores t (l.update fun _ _ => none) := by
  refine h.picked (f := .stop) (fun _ => trivial) (fun _ => rfl) hrun fun j p app hp hsaved => ?_
  rw [entry_runs hp]
  by_cases hstopped : p.isRunning = 0
  · simp [hstopped, (stopped_iff hsaved).mp hstopped]
  · simp [hstopped, Op.stopped]

theorem status_stores (h : Stores s l)
    (hrun : Run Effect s ((List.range s.processCount).map .note) t) : Stores t l := by
  have hall : (List.range s.processCount).filter (fun _ => true) = List.range s.processCount :=
    List.filter_true _
  rw [← hall] at hrun
  rw [← AppList.update_id (l := l) (f := fun _ running => running) fun _ _ _ => rfl]
  exact h.picked (f := .note) (fun _ => trivial) (fun _ => rfl) hrun fun j p app hp hsaved => rfl

theorem remove_stores (h : Stores s l) (hp : s.entries[k]? = some p)
    (hrun : Run Effect s (s.stopOps k ++ [.remove p.appName]) t) : Stores t (l.erase k) := by
  obtain ⟨u, hstop, hr⟩ := run_append.mp hrun
  obtain ⟨v, hstep, hv⟩ := run_cons.mp hr
  obtain rfl := run_nil.mp hv
  -- the entry is stopped first, which is no matter
  have hother : ∀ j (running : Option Instance), j ≠ k →
      (fun j running => if j = k then none else running : ℕ → Option Instance → Option Instance)
        j running = running := fun j running hj => if_neg hj
  have hu : Stores u (l.update fun j running => if j = k then none else running) := by
    refine h.slot hstop (stopOps_local k) (fun op hop => ?_) hother fun app happ => ?_
    · rcases stopOps_cases s k with ⟨hops, -⟩ | ⟨hops, -⟩ <;> rw [hops] at hop
      · cases hop
      · rw [List.mem_singleton.mp hop]
        rfl
    · rw [if_pos rfl]
      obtain ⟨app', happ', hsaved⟩ := h.app hp
      obtain rfl := Option.some_inj.mp (happ.symm.trans happ')
      rw [Server.stopOps, entry_runs hp]
      by_cases hstopped : p.isRunning = 0
      · simp [hstopped, (stopped_iff hsaved).mp hstopped, stoppedBehind]
      · simp [hstopped, stoppedBehind, Op.stopped]
  have hnames := congrArg (fun names => names[k]?) (entries_names hstop (stopOps_local k))
  simp only [List.getElem?_map, hp, Option.map_some, Option.map_eq_some_iff] at hnames
  obtain ⟨r, hr, hname⟩ := hnames
  rw [← hname] at hstep
  rw [← AppList.erase_update hother]
  exact hu.erase hr hstep

theorem listed_stores (h : Stores s l) {command : Command} (hcommand : command.hasOperand)
    (hp : s.entries[k]? = some p) (hrun : Run Effect s (s.operandPlan command (.listed p k)) t) :
    Stores t (l.act fresh command (.app k)) := by
  obtain ⟨app, happ, hsaved⟩ := h.app hp
  have hiff := stopped_iff hsaved
  have hthis : ∀ app', l.apps[k]? = some app' → app' = app := fun app' happ' =>
    Option.some_inj.mp (happ'.symm.trans happ)
  have hstops : s.stopOps k = if p.isRunning = 0 then [] else [.stop k] := by
    rw [Server.stopOps, entry_runs hp]
    by_cases hstopped : p.isRunning = 0 <;> simp [hstopped]
  rcases hcommand with rfl | rfl | rfl | rfl
  · change Run Effect s (if p.isRunning = 0 then [.start k] else []) t at hrun
    change Stores t (l.update fun j running =>
      if j = k then running.or (some (fresh j)) else running)
    refine h.slot (k := k) hrun ?_ ?_ (fun j running hj => if_neg hj) fun app' happ' => ?_
    · split <;> simp [Op.Local]
    · split <;> simp [Op.slot]
    · obtain rfl := hthis app' happ'
      rw [if_pos rfl]
      split
      · rename_i hstopped
        simp [hiff.mp hstopped, stoppedBehind, Op.stopped]
      · rename_i hrunning
        obtain ⟨inst, hinst⟩ := Option.ne_none_iff_exists'.mp (mt hiff.mpr hrunning)
        simp [hinst, stoppedBehind]
  · change Run Effect s (if p.isRunning ≠ 0 then s.stopOps k else []) t at hrun
    rw [hstops] at hrun
    change Stores t (l.update fun j running => if j = k then none else running)
    refine h.slot (k := k) hrun ?_ ?_ (fun j running hj => if_neg hj) fun app' happ' => ?_
    · split_ifs <;> simp [Op.Local]
    · split_ifs <;> simp [Op.slot]
    · obtain rfl := hthis app' happ'
      rw [if_pos rfl]
      by_cases hstopped : p.isRunning = 0
      · simp [hstopped, hiff.mp hstopped, stoppedBehind]
      · simp [hstopped, stoppedBehind, Op.stopped]
  · change Run Effect s (if p.isRunning ≠ 0 then s.stopOps k ++
      [.start k, .note k] else []) t at hrun
    rw [hstops] at hrun
    change Stores t (l.update fun j running =>
      if j = k then running.map fun _ => fresh j else running)
    refine h.slot (k := k) hrun ?_ ?_ (fun j running hj => if_neg hj) fun app' happ' => ?_
    · split_ifs <;> simp [Op.Local]
    · split_ifs <;> simp [Op.slot]
    · obtain rfl := hthis app' happ'
      rw [if_pos rfl]
      by_cases hstopped : p.isRunning = 0
      · simp [hstopped, hiff.mp hstopped, stoppedBehind]
      · obtain ⟨inst, hinst⟩ := Option.ne_none_iff_exists'.mp (mt hiff.mpr hstopped)
        simp [hstopped, hinst, stoppedBehind, Op.stopped]
  · exact remove_stores h hp hrun

theorem append_stores (h : Stores s l) {ops : List Op}
    (hops : ops = s.operandPlan .start (.decoded p))
    (hname : ops = [.append p] → p.appName ≠ .empty)
    (hrun : Run Effect s ops t) :
    Stores t (l.act fresh .start (.program p.appName p.cmd p.dir)) := by
  by_cases hnamed : s.named p.appName = true
  · rw [hops, Server.operandPlan, if_pos hnamed] at hrun
    obtain rfl := run_nil.mp hrun
    rw [AppList.act, AppList.push, dif_neg]
    · exact h
    · rw [named_iff, h.titled.names] at hnamed
      exact fun hnew => hnew.2 hnamed
  · have hops' : ops = [.append p] := by rw [hops, Server.operandPlan, if_neg hnamed]
    rw [hops'] at hrun
    obtain ⟨u, hstep, hu⟩ := run_cons.mp hrun
    obtain rfl := run_nil.mp hu
    exact h.push (hname hops') (by simpa using hnamed) hstep _

theorem operand_stores (h : Stores s l) {command : Command} {buffer : Text} {ops : List Op}
    (hcommand : command.hasOperand) (hops : s.operandOps command buffer = .ok ops)
    (hname : ∀ p, ops = [.append p] → p.appName ≠ .empty) (hrun : Run Effect s ops t) :
    Stores t (l.act fresh command (l.resolve buffer)) := by
  have hoperand := h.titled.operand buffer
  cases ho : s.operand buffer with
  | error f =>
    rw [Server.operandOps, ho] at hops
    cases hops
  | ok o =>
    rw [Server.operandOps, ho] at hops
    obtain rfl : s.operandPlan command o = ops := Except.ok.inj hops
    cases htarget : l.resolve buffer with
    | app k =>
      rw [htarget] at hoperand
      obtain ⟨p, hp, ho'⟩ := hoperand
      obtain rfl : o = .listed p k := Except.ok.inj (ho.symm.trans ho')
      exact listed_stores fresh h hcommand hp hrun
    | program appName cmd dir =>
      rw [htarget] at hoperand
      obtain ⟨p, ho', rfl, rfl, rfl⟩ := hoperand
      obtain rfl : o = .decoded p := Except.ok.inj (ho.symm.trans ho')
      rcases hcommand with rfl | rfl | rfl | rfl
      · exact append_stores fresh h rfl (hname p) hrun
      all_goals
        obtain rfl := run_nil.mp hrun
        exact h
    | unknown =>
      rw [htarget] at hoperand
      obtain rfl : o = .unknown := hoperand o ho
      obtain rfl := run_nil.mp hrun
      rcases hcommand with rfl | rfl | rfl | rfl <;> exact h

/-- A request does to the apps what it is for, also between the other things that happen to them. -/
theorem plan_stores (h : Stores s l) {request : Request} {ops : List Op}
    (hplan : s.plan request = .ok ops) (hname : AppendsNamed s request)
    (hrun : Run Effect s ops t) :
    Stores t (l.act fresh (readCommand (s.commandBuffer request))
      (l.resolve (s.operandBuffer request))) := by
  have hname' : ∀ p, ops = [.append p] → p.appName ≠ .empty := fun p hp =>
    hname p (hplan.trans (congrArg _ hp))
  rw [Server.plan] at hplan
  cases hc : readCommand (s.commandBuffer request) <;> rw [hc] at hplan
  case startall =>
    cases hplan
    exact startall_stores fresh h hrun
  case stopall =>
    cases hplan
    exact stopall_stores h hrun
  case status =>
    cases hplan
    exact status_stores h hrun
  case ping | error =>
    cases hplan
    obtain rfl := run_nil.mp hrun
    exact h
  all_goals exact operand_stores fresh h (by simp [Command.hasOperand]) hplan hname' hrun

end Stores

/-! ### The file -/

/-- A service that starts with this file, and with nothing behind it in the memory, has the
apps. -/
def Reloads (file : Text) (l : AppList) : Prop :=
  ∀ junk, Exhausted junk → ∃ loaded, serviceLoad (some file) junk = .ok (loaded, l.apps.length) ∧
    ∀ buffer, Stores (.loaded loaded l.apps.length file buffer) l

/-- A list that has been saved is loaded again, whatever is behind it. -/
theorem Stores.loads {s : Server} {l : AppList} {text : Text} (h : Stores s l)
    (hsave : saveProcessList s.processList = .ok text) (junk : Text) :
    ∃ loaded, parseProcessListFromPath (some text) junk .zero = .ok (loaded, (l.apps.length : ℤ)) ∧
      ∀ file buffer, Stores (.loaded loaded l.apps.length file buffer) l := by
  obtain ⟨loaded, hload, hin, -⟩ := parseProcessListFromPath_save .zero s.processList hsave junk
  have hagrees : s.processCount = getProcessListCount s.processList := h.titled.agrees
  have hlength := h.titled.length
  rw [← hagrees, hlength] at hload hin
  refine ⟨loaded, hload, fun file buffer => ⟨(loaded_of_path hload).tidy, ?_⟩⟩
  rw [← h.saved]
  refine List.ext_getElem? fun k => ?_
  rw [Server.entries, Server.entries, List.getElem?_map, List.getElem?_map, Slots.getElem?_inUse,
    Slots.getElem?_inUse, hlength]
  by_cases hk : k < l.apps.length
  · have hlt : k < listSize := by
      have hinside := h.tidy.inside
      omega
    obtain ⟨p, hp⟩ := exists_slot s hlt
    change (if k < l.apps.length then loaded[k]? else none).map Process.saved = _
    rw [if_pos hk, if_pos hk, hin k hk p hp, zero_slot hlt, hp]
    rfl
  · change (if k < l.apps.length then loaded[k]? else none).map Process.saved = _
    rw [if_neg hk, if_neg hk]

/-- Also of a longer file the reader takes its buffer full. -/
theorem parseProcessListFromPath_append {text : Text} (hne : text ≠ [])
    (hfits : text.length ≤ bufferSize) (rest junk : Text) (processList : ProcessList) :
    parseProcessListFromPath (some (text ++ rest)) junk processList =
      parseProcessListFromPath (some text) (rest.take (bufferSize - text.length) ++ junk)
        processList := by
  have htake : (text ++ rest).take bufferSize = text ++ rest.take (bufferSize - text.length) := by
    rw [List.take_append, List.take_of_length_le hfits]
  have hlong : ¬((text ++ rest).take bufferSize).length ≤ 0 := by
    rw [htake, Nat.le_zero, List.length_eq_zero_iff]
    exact fun hnil => hne (List.append_eq_nil_iff.mp hnil).1
  rw [parseProcessListFromPath_fits hne hfits, parseProcessListFromPath, if_neg hlong, htake,
    List.append_assoc]

/-- A list that has been saved is found again, also if an older text was longer. -/
theorem Stores.reloads_append {s : Server} {l : AppList} {text : Text} (h : Stores s l)
    (hsave : saveProcessList s.processList = .ok text) (rest : Text) :
    Reloads (text ++ rest) l := by
  intro junk _
  have hsaved := hsave
  rw [saveProcessList_eq] at hsave
  split at hsave
  · rename_i hfits
    cases hsave
    obtain ⟨loaded, hload, hstores⟩ := h.loads hsaved (rest.take (bufferSize - _) ++ junk)
    rw [← parseProcessListFromPath_append (listText_ne_nil _) hfits.le] at hload
    exact ⟨loaded, serviceLoad_of_parse hload, hstores _⟩
  · cases hsave

theorem Stores.reloads {s : Server} {l : AppList} {text : Text} (h : Stores s l)
    (hsave : saveProcessList s.processList = .ok text) : Reloads text l := by
  have hreloads := h.reloads_append hsave []
  rwa [List.append_nil] at hreloads

theorem Reloads.of_zero {file : Text}
    (h : ∀ junk, Exhausted junk → serviceLoad (some file) junk = .ok (.zero, 0)) :
    Reloads file .empty :=
  fun junk hjunk => ⟨.zero, h junk hjunk, fun _ => ⟨tidy_of_zero rfl rfl, rfl⟩⟩

theorem reloads_nil : Reloads [] .empty := .of_zero fun _ _ => rfl

/-- A save that has been cut short has lost the list. -/
theorem reloads_cut {source : ProcessList} {text : Text} (hsave : saveProcessList source = .ok text)
    {n : ℕ} (hn : n < text.length) : Reloads (text.take n) .empty := by
  refine .of_zero fun junk hjunk => ?_
  rw [saveProcessList_eq] at hsave
  split at hsave
  · rename_i hfits
    cases hsave
    rw [serviceLoad, parseProcessListFromPath_cut .zero source hn hfits fun _ => hjunk]
    rfl
  · cases hsave

/-- A text that gives the apps back when it is there as a whole, and nothing before. -/
structure Writes (text : Text) (l : AppList) : Prop where
  whole : ∀ rest, Reloads (text ++ rest) l
  part : ∀ n, n < text.length → Reloads (text.take n) .empty

theorem Stores.writes {s : Server} {l : AppList} {text : Text} (h : Stores s l)
    (hsave : saveProcessList s.processList = .ok text) : Writes text l :=
  ⟨h.reloads_append hsave, fun _ => reloads_cut hsave⟩

end KbPm
