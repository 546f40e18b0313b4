/-
The config file: what a restarted service finds in it.

* `serviceLoad_interrupted` — after a save that was killed, the new list or none;
* `Persisted`, `config_follows` — the file decodes to the current list as long as
  the monitor has stopped no app automatically since the last request.
-/
import KbPm.Length
import KbPm.Load
import KbPm.Supervisor
import KbPm.Tracking

namespace KbPm

open Trace Scan

/-! ### A save that is interrupted -/

/-- Starting with what was saved. -/
theorem serviceLoad_saved {source : ProcessList} {text : Text}
    (hsave : saveProcessList source = .ok text)
    (junk : Text) :
    ∃ loaded, serviceLoad (some text) junk = .ok (loaded, getProcessListCount source) ∧
      ∀ k < getProcessListCount source, ∀ p, source[k]? = some p → ∃ q, loaded[k]? = some q ∧
        q.appName = p.appName ∧ q.cmd = p.cmd ∧ q.dir = p.dir ∧ q.isRunning = p.isRunning := by
  obtain ⟨loaded, hload, hin, -⟩ := parseProcessListFromPath_save .zero source hsave junk
  refine ⟨loaded, serviceLoad_of_parse hload, fun k hk p hp => ?_⟩
  have hlt : k < listSize := lt_of_lt_of_le hk (getProcessListCount_le source)
  exact ⟨Process.zero.load p, by rw [hin k hk p hp, zero_slot hlt]; rfl, rfl, rfl, rfl, rfl⟩

/-- A save that is killed leaves a file from which the service starts with the new list, if
all of the text has reached it, and otherwise with no entry; the old list is lost. -/
theorem serviceLoad_interrupted {source : ProcessList} {text content junk : Text}
    (hsave : saveProcessList source = .ok text) (hcontent : content ∈ savedPrefixes text)
    (hjunk : Exhausted junk) :
    (content = text ∧ ∃ loaded, serviceLoad (some content) junk =
      .ok (loaded, getProcessListCount source) ∧
      ∀ k < getProcessListCount source, ∀ p, source[k]? = some p → ∃ q, loaded[k]? = some q ∧
        q.appName = p.appName ∧ q.cmd = p.cmd ∧ q.dir = p.dir ∧ q.isRunning = p.isRunning) ∨
    (content ≠ text ∧ serviceLoad (some content) junk = .ok (.zero, 0)) := by
  by_cases hall : content = text
  · subst hall
    exact Or.inl ⟨rfl, serviceLoad_saved hsave junk⟩
  · obtain ⟨k, rfl⟩ := hcontent
    refine Or.inr ⟨hall, ?_⟩
    have hk : k < text.length := by
      by_contra hle
      exact hall (List.take_of_length_le (by omega))
    rw [saveProcessList_eq] at hsave
    split at hsave
    · rename_i hfits
      cases hsave
      rw [serviceLoad, parseProcessListFromPath_cut .zero source hk hfits fun _ => hjunk]
      rfl
    · cases hsave

theorem serviceLoad_interrupted_web :
    saveProcessList webList = .ok webConfig ∧ webConfig.take 9 ∈ savedPrefixes webConfig ∧
      webConfig.take 9 ≠ webConfig ∧ serviceLoad (some (webConfig.take 9)) [] = .ok (.zero, 0) := by
  have hcut : webConfig.take 9 ≠ webConfig := by decide +kernel
  refine ⟨webList_saved, ⟨9, rfl⟩, hcut, ?_⟩
  rcases serviceLoad_interrupted webList_saved ⟨9, rfl⟩ exhausted_nil with ⟨hall, -⟩ | ⟨-, hload⟩
  · exact absurd hall hcut
  · exact hload

/-! The list of `api` gives way to that of `web` and `api`. -/

def apiList : ProcessList := ProcessList.zero.setIfInBounds 0 .api

def bothList : ProcessList := webList.setIfInBounds 1 .api

def bothConfig : Text := cJsonPrint (.array [createProcessCJson .web, createProcessCJson .api])

/-- What is left of it behind the first entry. -/
def tornConfig : Text := bothConfig.take (webConfig.length - 1)

/-- The emptied file gives no list, and a torn one gives a part of the new list when the
memory behind it happens to go on with a bracket. -/
theorem torn_config_loads :
    saveProcessList apiList = .ok (cJsonPrint (.array [createProcessCJson .api])) ∧
      saveProcessList bothList = .ok bothConfig ∧
      [] ∈ savedPrefixes bothConfig ∧ serviceLoad (some []) [] = .ok (.zero, 0) ∧
      tornConfig ∈ savedPrefixes bothConfig ∧ serviceLoad (some tornConfig) (str "]") =
        .ok (webList, 1) := by
  have htorn : parseProcessListFromPath (some tornConfig) (str "]") .zero =
      parseProcessListFromPath (some webConfig) [] .zero := by
    have htext : tornConfig.take bufferSize ++ str "]" = webConfig.take bufferSize ++ [] := by
      decide +kernel
    rw [parseProcessListFromPath, parseProcessListFromPath, htext, if_neg (by decide +kernel),
      if_neg (by decide +kernel)]
  refine ⟨by decide +kernel, by decide +kernel, ⟨0, rfl⟩, rfl, ⟨_, rfl⟩, ?_⟩
  exact serviceLoad_of_parse (htorn.trans webList_load)

/-! ### The file while the service runs -/

/-- What the file keeps of an entry: what it executes, and whether it is to run. -/
def Process.saved (process : Process) : (StrBuf × StrBuf × StrBuf) × Bool :=
  (process.program, process.isRunning = 0)

/-- The file holds a list that agrees with the current one. -/
def Persisted (s : Server) : Prop :=
  ∃ source, saveProcessList source = .ok s.configFile ∧
    getProcessListCount source = s.processCount ∧
    ∀ k < s.processCount, (source[k]?).map Process.saved = (s.processList[k]?).map Process.saved

/-- Operations that neither start a stopped app nor stop one, and change no place in the list. -/
def Op.Steady : Op → Prop
  | .tick => True
  | .note _ => True
  | .number _ => True
  | .relaunch _ => True
  | _ => False

theorem Op.Steady.local {op : Op} (h : op.Steady) : op.Local := by
  cases op <;> trivial

theorem Effect.steady {s t : Server} {op : Op} (h : Effect s op t) (hop : op.Steady) :
    t.processCount = s.processCount ∧ t.configFile = s.configFile ∧
      ∀ k : ℕ, (t.processList[k]?).map Process.saved = (s.processList[k]?).map Process.saved := by
  cases h with
  | tick => exact ⟨rfl, rfl, fun _ => rfl⟩
  | note hk hp hq => exact ⟨rfl, rfl, setSlot_keeps hp (by rw [hq]; rfl)⟩
  | number hk hp => exact ⟨rfl, rfl, setSlot_keeps hp rfl⟩
  | @relaunch k p pid forks hk hp hrun hf h0 =>
    refine ⟨rfl, rfl, setSlot_keeps (s := s.setKernel _) hp ?_⟩
    rw [Process.saved, Process.saved, decide_eq_false (p.started_isRunning _ _),
      decide_eq_false hrun]
    rfl
  | start => exact hop.elim
  | stop => exact hop.elim
  | append => exact hop.elim
  | remove => exact hop.elim
  | quit => exact hop.elim

theorem Persisted.congr {s t : Server} (h : Persisted s) (hcount : t.processCount = s.processCount)
    (hfile : t.configFile = s.configFile)
    (hlist : ∀ k : ℕ, (t.processList[k]?).map Process.saved =
      (s.processList[k]?).map Process.saved) :
    Persisted t := by
  obtain ⟨source, hsave, hlength, hget⟩ := h
  refine ⟨source, by rw [hfile]; exact hsave, by rw [hcount]; exact hlength, fun k hk => ?_⟩
  rw [hlist k]
  exact hget k (hcount ▸ hk)

theorem Persisted.run {s t : Server} {ops : List Op} (h : Persisted s) (hrun : Run Effect s ops t)
    (hops : ∀ op ∈ ops, op.Steady) : Persisted t := by
  refine hrun.invariant_of (I := Persisted) (P := Op.Steady) (fun u op v hop hu hstep => ?_) hops h
  obtain ⟨hcount, hfile, hlist⟩ := hstep.steady hop
  exact hu.congr hcount hfile hlist

/-- A saved list is one that agrees with itself. -/
theorem Persisted.saved {s : Server} (hagrees : Agrees s)
    (hsave : saveProcessList s.processList = .ok s.configFile) :
    Persisted s := ⟨s.processList, hsave, hagrees.symm, fun _ _ => rfl⟩

/-- What a restarted service loads. -/
theorem Persisted.load {s : Server} (h : Persisted s) (junk : Text) :
    ∃ loaded, serviceLoad (some s.configFile) junk = .ok (loaded, s.processCount) ∧
      ∀ (k : ℕ) p, s.entries[k]? = some p → ∃ q, loaded[k]? = some q ∧ q.appName = p.appName ∧
        q.cmd = p.cmd ∧ q.dir = p.dir ∧ (q.isRunning = 0 ↔ p.isRunning = 0) := by
  obtain ⟨source, hsave, hlength, hget⟩ := h
  obtain ⟨loaded, hload, hin⟩ := serviceLoad_saved hsave junk
  rw [hlength] at hload hin
  refine ⟨loaded, hload, fun k p hp => ?_⟩
  obtain ⟨hk, hslot⟩ := entries_get hp
  have hsaved := hget k hk
  rw [hslot, Option.map_some, Option.map_eq_some_iff] at hsaved
  obtain ⟨r, hr, hrp⟩ := hsaved
  obtain ⟨hprogram, hflag⟩ := Prod.mk.inj hrp
  obtain ⟨q, hq, hname, hcmd, hdir, hrun⟩ := hin k hk r hr
  have hiff : r.isRunning = 0 ↔ p.isRunning = 0 := decide_eq_decide.mp hflag
  exact ⟨q, hq, hname.trans (congrArg Prod.fst hprogram), hcmd.trans (congrArg (·.2.1) hprogram),
    hdir.trans (congrArg (·.2.2) hprogram), hrun ▸ hiff⟩

/-- What a step does to the list and the file. -/
inductive Moved (σ : System) : Event → Server → Prop
  | kept {event : Event} {t : Server} (hevent : ∀ request answers, event ≠ .request request answers)
    (hlist : t.processList = σ.server.processList) (hcount : t.processCount = σ.server.processCount)
    (hfile : t.configFile = σ.server.configFile) :
    Moved σ event t
  | iterated {i : ℕ} {answers : Answers} {t : Server}
    (hrun : Run Effect (σ.server.asked answers) ((σ.server.asked answers).startupPlan i) t) :
    Moved σ (.startup answers) t
  | handled {pid : ℤ} {answers : Answers} {t : Server} (hphase : σ.phase = .reaped pid)
    (hrun : Run Effect (σ.server.asked answers) ((σ.server.asked answers).exitPlan pid) t) :
    Moved σ (.handle answers) t
  | served {request : Request} {answers : Answers} {t : Server}
    (h : Served σ.server (request, answers) t) : Moved σ (.request request answers) t

theorem Steps.running {σ τ : System} {event : Event} (h : Steps σ event τ)
    (hτ : ∀ fault, τ.phase ≠ .ended fault) : ∀ fault, σ.phase ≠ .ended fault := by
  cases h.cases with
  | iterate hphase => simp [hphase]
  | finish hphase => simp [hphase]
  | wait hphase => simp [hphase]
  | handle hphase => simp [hphase]
  | request hphase => exact hphase
  | exit => exact hτ

theorem running_before {σ τ : System} {events : List Event} (h : Run Steps σ events τ)
    (hτ : ∀ fault, τ.phase ≠ .ended fault) : ∀ fault, σ.phase ≠ .ended fault := by
  induction h with
  | nil σ => exact hτ
  | cons hstep _ ih => exact hstep.running (ih hτ)

theorem Steps.moved {σ τ : System} {event : Event} (h : Steps σ event τ)
    (hn : σ.server.processCount ≤ listSize) (hτ : ∀ fault, τ.phase ≠ .ended fault) :
    Moved σ event τ.server := by
  cases h.cases with
  | @iterate i answers hphase hi hfresh =>
    obtain ⟨a, hm⟩ := System.after_running hτ
    obtain ⟨ops, hrun, rfl⟩ := (startupIteration_performs (s := σ.server.asked answers) hi hn).ok hm
    exact .iterated hrun
  | @handle pid answers hphase hfresh =>
    obtain ⟨a, hm⟩ := System.after_running hτ
    obtain ⟨ops, hrun, rfl⟩ := (handleExit_performs pid (s := σ.server.asked answers) hn).ok hm
    exact .handled hphase hrun
  | request hphase hfresh => exact .served (System.after_running hτ)
  | finish => exact .kept (by simp) rfl rfl rfl
  | wait => exact .kept (by simp) rfl rfl rfl
  | exit => exact .kept (by simp) rfl rfl rfl

theorem Steps.ended {σ τ : System} {event : Event} (h : Steps σ event τ) {fault : Fault}
    (hσ : σ.phase = .ended fault) : τ.phase = .ended fault := by
  cases h.cases with
  | iterate hphase => simp [hσ] at hphase
  | finish hphase => simp [hσ] at hphase
  | wait hphase => simp [hσ] at hphase
  | handle hphase => simp [hσ] at hphase
  | request hphase => exact absurd hσ (hphase fault)
  | exit => exact hσ

theorem Steps.inside {σ τ : System} {event : Event} (h : Steps σ event τ)
    (hn : σ.server.processCount ≤ listSize) (hτ : ∀ fault, τ.phase ≠ .ended fault) :
    τ.server.processCount ≤ listSize := by
  have hrun : ∀ {answers : Answers} {ops : List Op} {t : Server},
      Run Effect (σ.server.asked answers) ops t → t.processCount ≤ listSize :=
    fun h => h.invariant (I := fun s => s.processCount ≤ listSize)
      (fun _ _ _ hs h => h.inside hs) hn
  cases h.moved hn hτ with
  | kept _ _ hcount _ => rwa [hcount]
  | iterated h => exact hrun h
  | handled _ h => exact hrun h
  | served h => exact h.inside hn

/-- As long as the service runs, every entry has a name, and no slot behind them has. -/
def AllNamed (σ : System) : Prop :=
  (∀ fault, σ.phase ≠ .ended fault) → Tidy σ.server ∧ Agrees σ.server

/-- No request appends a process without a name. -/
def NamesAll (σ : System) : Event → Prop
  | .request request _ => AppendsNamed σ.server request
  | _ => True

/-- And the monitor stops no app automatically. -/
def StopsNone (σ : System) : Event → Prop
  | .request request _ => AppendsNamed σ.server request
  | .handle answers =>
    ∀ pid, σ.phase = .reaped pid → ∀ k, .quit k ∉ (σ.server.asked answers).exitPlan pid
  | _ => True

theorem StopsNone.namesAll {σ : System} {event : Event} (h : StopsNone σ event) :
    NamesAll σ event := by
  cases event with
  | request request answers => exact h
  | _ => trivial

/-- What a request leaves behind. -/
theorem Served.persisted {s t : Server} {call : Request × Answers} (htidy : Tidy s)
    (hagrees : Agrees s)
    (hnamed : AppendsNamed s call.1) (h : Served s call t) : Tidy t ∧ Agrees t ∧ Persisted t := by
  obtain ⟨ops, u, text, hplan, hrun, hsave, rfl⟩ := h.plan htidy.inside
  have htidy' : Tidy (s.asked call.2) := ⟨htidy.inside, htidy.unnamed⟩
  obtain ⟨htidyu, hiff⟩ := plan_agrees htidy' hagrees hplan hrun
  have hu : Agrees u := hiff.mpr hnamed
  exact ⟨⟨htidyu.inside, htidyu.unnamed⟩, hu, Persisted.saved hu hsave⟩

theorem Tidy.agrees_local {s t : Server} {answers : Answers} {ops : List Op} (htidy : Tidy s)
    (hagrees : Agrees s) (hrun : Run Effect (s.asked answers) ops t) (hops : ∀ op ∈ ops, op.Local) :
    Tidy t ∧ Agrees t := by
  have htidy' : Tidy (s.asked answers) := ⟨htidy.inside, htidy.unnamed⟩
  have ht := htidy'.local hrun hops
  exact ⟨ht, htidy'.agrees_of_names ht hagrees (entries_names hrun hops)⟩

theorem AllNamed.step {σ τ : System} {event : Event} (h : AllNamed σ) (hok : NamesAll σ event)
    (hstep : Steps σ event τ) : AllNamed τ := by
  intro hτ
  obtain ⟨htidy, hagrees⟩ := h (hstep.running hτ)
  cases hstep.moved htidy.inside hτ with
  | kept _ hlist hcount hfile =>
    refine ⟨⟨hcount ▸ htidy.inside, ?_⟩, ?_⟩
    · rw [hlist, hcount]
      exact htidy.unnamed
    · rw [Agrees, hlist, hcount]
      exact hagrees
  | iterated hrun =>
    exact htidy.agrees_local hagrees hrun fun op hop => (startupPlan_ops _ _ op hop).1
  | handled hphase hrun =>
    exact htidy.agrees_local hagrees hrun fun op hop => (exitPlan_ops _ _ op hop).1
  | @served request answers _ hserved =>
    have hnamed : AppendsNamed σ.server request := hok
    obtain ⟨ht, hagrees', -⟩ := hserved.persisted htidy hagrees hnamed
    exact ⟨ht, hagrees'⟩

/-- As long as the service runs, its file agrees with its list. -/
def Follows (σ : System) : Prop :=
  AllNamed σ ∧ ((∀ fault, σ.phase ≠ .ended fault) → Persisted σ.server)

theorem Follows.step {σ τ : System} {event : Event} (h : Follows σ) (hok : StopsNone σ event)
    (hstep : Steps σ event τ) : Follows τ := by
  refine ⟨h.1.step hok.namesAll hstep, fun hτ => ?_⟩
  have hσ := hstep.running hτ
  obtain ⟨htidy, hagrees⟩ := h.1 hσ
  have hpersisted := h.2 hσ
  cases hstep.moved htidy.inside hτ with
  | kept _ hlist hcount hfile => exact hpersisted.congr hcount hfile fun k => by rw [hlist]
  | @iterated i answers _ hrun =>
    have hpersisted : Persisted (σ.server.asked answers) := hpersisted
    refine hpersisted.run hrun fun op hop => ?_
    rw [Server.startupPlan] at hop
    split at hop
    · simp only [List.mem_cons, List.not_mem_nil, or_false] at hop
      rcases hop with rfl | rfl <;> trivial
    · rw [List.mem_singleton.mp hop]
      trivial
  | @handled pid answers _ hphase hrun =>
    have hpersisted : Persisted (σ.server.asked answers) := hpersisted
    refine hpersisted.run hrun fun op hop => ?_
    -- of what the monitor does only an automatic stop changes what is saved
    rcases exitPlan_shape _ _ op hop with rfl | ⟨k, rfl | rfl | rfl⟩
    · trivial
    · exact absurd hop (hok pid hphase k)
    · trivial
    · trivial
  | @served request answers _ hserved =>
    have hnamed : AppendsNamed σ.server request := hok
    exact (hserved.persisted htidy hagrees hnamed).2.2

/-- When a request has been served and the monitor has stopped no app automatically since,
a service that is started again finds the entries in the file. -/
theorem config_follows {l : ProcessList} {n : ℕ} {configFile buffer : Text}
    {events later : List Event}
    {request : Request} {answers : Answers} {σ ρ τ : System}
    (htidy : Tidy (.loaded l n configFile buffer))
    (hnames : ∀ p ∈ (Server.loaded l n configFile buffer).entries, p.appName ≠ .empty)
    (hbefore : Guarded Steps NamesAll ⟨.loaded l n configFile buffer, .starting 0⟩ events σ)
    (hnamed : AppendsNamed σ.server request) (hrequest : Steps σ (.request request answers) ρ)
    (hafter : Guarded Steps StopsNone ρ later τ) (hτ : ∀ fault, τ.phase ≠ .ended fault)
    (junk : Text) :
    ∃ loaded, serviceLoad (some τ.server.configFile) junk = .ok (loaded, τ.server.processCount) ∧
      ∀ (k : ℕ) p, τ.server.entries[k]? = some p → ∃ q, loaded[k]? = some q ∧
        q.appName = p.appName ∧
        q.cmd = p.cmd ∧ q.dir = p.dir ∧ (q.isRunning = 0 ↔ p.isRunning = 0) := by
  have hinit : AllNamed ⟨.loaded l n configFile buffer, .starting 0⟩ := fun _ =>
    ⟨htidy, htidy.agrees_iff.mpr hnames⟩
  have hσ := hbefore.invariant (I := AllNamed) (fun _ _ _ h hok hs => h.step hok hs) hinit
  have hρ : Follows ρ := by
    have hok : NamesAll σ (.request request answers) := hnamed
    refine ⟨hσ.step hok hrequest, fun hrunning => ?_⟩
    obtain ⟨ht, hagrees⟩ := hσ (hrequest.running hrunning)
    cases hrequest.moved ht.inside hrunning with
    | served hserved => exact (hserved.persisted ht hagrees hnamed).2.2
    | kept hevent => exact absurd rfl (hevent request answers)
  exact ((hafter.invariant (I := Follows) (fun _ _ _ h hok hs => h.step hok hs) hρ).2 hτ).load junk

theorem config_follows_web :
    ∃ τ, Run Steps webSystem [.startup (onePid 7), .request (plainRequest "ping") (onePid 8)] τ ∧
      ∃ loaded, serviceLoad (some τ.server.configFile) [] = .ok (loaded, τ.server.processCount) ∧
        ∀ (k : ℕ) p, τ.server.entries[k]? = some p → ∃ q, loaded[k]? = some q ∧
          q.appName = p.appName ∧ q.cmd = p.cmd ∧ q.dir = p.dir ∧
            (q.isRunning = 0 ↔ p.isRunning = 0) := by
  set σ := (webSystem.step (.startup (onePid 7))).getD webSystem with hσ
  have hstart : Steps webSystem (.startup (onePid 7)) σ := steps_of_isSome (by decide +kernel)
  obtain ⟨τ, hrun, hτ⟩ := run_of_any σ [.request (plainRequest "ping") (onePid 8)]
    (fun τ => decide (τ.phase = .starting 1)) (by decide +kernel)
  have hphase : τ.phase = .starting 1 := of_decide_eq_true hτ
  obtain ⟨υ, hping, hυ⟩ := run_cons.mp hrun
  obtain rfl := run_nil.mp hυ
  have htidy : Tidy webSystem.server := (loaded_of_path webList_load).tidy (s := webSystem.server)
  have hnames : ∀ p ∈ webSystem.server.entries, p.appName ≠ .empty := by decide +kernel
  have hnamed : AppendsNamed σ.server (plainRequest "ping") := by decide +kernel
  have hbefore : Guarded Steps NamesAll webSystem [.startup (onePid 7)] σ := by
    refine .cons ?_ hstart (.nil σ)
    trivial
  exact ⟨τ, .cons hstart hrun,
    config_follows htidy hnames hbefore hnamed hping (.nil τ) (by simp [hphase]) []⟩

/-- The app exits in the second in which it was started, and the file still says that it is
to run. -/
theorem quit_not_saved :
    ∃ τ, Run Steps webSystem [.startup (onePid 7), .startup (onePid 8),
        .request (plainRequest "ping") (onePid 8), .exit 7, .wait 7, .handle (onePid 8)] τ ∧
      τ.phase = .waiting ∧ τ.server.entries.map Process.isRunning = [0] ∧
      serviceLoad (some τ.server.configFile) [] = .ok (webList, 1) ∧ Process.web.isRunning = 1 := by
  obtain ⟨τ, hrun, hτ⟩ := run_of_any webSystem
    [.startup (onePid 7), .startup (onePid 8), .request (plainRequest "ping") (onePid 8), .exit 7,
      .wait 7, .handle (onePid 8)]
    (fun τ => decide (τ.phase = .waiting ∧ τ.server.entries.map Process.isRunning = [0] ∧
      τ.server.configFile = webConfig)) (by decide +kernel)
  obtain ⟨hphase, hstopped, hfile⟩ := of_decide_eq_true hτ
  refine ⟨τ, hrun, hphase, hstopped, ?_, rfl⟩
  rw [hfile]
  exact serviceLoad_of_parse webList_load

end KbPm
