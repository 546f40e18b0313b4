/-
What several services do to each other.

* `Forgotten` — a service that does not have the name of the socket, and its apps;
* `overtaken_for_good` — no client gets to a service any more that has lost the name;
* `saving_cases` — where a save comes from that is under way;
* `deaf_overwrites` — a service that never had the name writes its own list again and again.
-/
import KbPm.Shelves

namespace KbPm

open Trace Scan Outcome

/-! ### Services that no client gets to -/

/-- Apps are given up, one after another. -/
def AppList.giveUps (l : AppList) (js : List ℕ) : AppList := js.foldl AppList.giveUp l

theorem AppList.giveUps_append (l : AppList) (is js : List ℕ) :
    l.giveUps (is ++ js) = (l.giveUps is).giveUps js := List.foldl_append

/-- The app that the monitor of the service `k` gives up. -/
def HostDeed.givesUp (k : ℕ) : HostDeed → Option ℕ
  | .giveUp i j => if i = k then some j else none
  | _ => none

def Service.quits (s : Service) : ServiceEvent → Option ℕ
  | .step event => s.system.quits event
  | _ => none

/-- Those that it gives up in a run. -/
def Host.givenUp (k : ℕ) (events : List HostEvent) (h : Host) : List ℕ :=
  (Host.history events h).filterMap (HostDeed.givesUp k)

/-- The socket thread has nobody to serve: its clients have been served, or it never had any. -/
def Service.Idle (s : Service) : Prop :=
  (s.stage = .listening ∧ s.queue = [] ∧ s.saving = none) ∨
    (s.stage = .deaf ∧ s.system.server.buffer = [])

/-- The service `k` does not have the name of the socket, and has the apps `l`. -/
structure Forgotten (k : ℕ) (stage : Stage) (l : AppList) (h : Host) (s : Service) : Prop where
  name : h.shared.name ≠ some k
  service : h.services[k]? = some s
  idle : s.live = true → s.stage = stage ∧ s.Idle
  stores : s.live = true → Stores s.system.server l
  writes : ∀ w, s.live = true → s.saving = some w → Writes w.text l

section Forgotten

variable {h h' : Host} {k : ℕ} {stage : Stage} {s : Service} {l : AppList}

/-- The name is given to a service by its own `bind` only. -/
theorem Service.Stepped.name {j : ℕ} {shared : Shared} {event : ServiceEvent}
    {next : Service × Shared} (hstep : Service.Stepped j s shared event next)
    (hname : shared.name ≠ some k) (hj : s.stage = .unlinked → j ≠ k) :
    next.2.name ≠ some k := by
  cases hstep with
  | unlink => simp
  | bind hstage => simpa using hj hstage
  | fail => exact hname
  | listen => exact hname
  | @accept answers request queue =>
    rw [(Service.round_keeps { s with queue := queue } shared request answers).2.2]
    exact hname
  | @spin answers =>
    rw [(Service.round_keeps s shared ⟨[], []⟩ answers).2.2]
    exact hname
  | flush => exact hname
  | step => exact hname
  | kill => exact hname

theorem Service.Idle.past (h : s.Idle) :
    s.stage ≠ .loaded ∧ s.stage ≠ .unlinked ∧ s.stage ≠ .bound := by
  rcases h with ⟨hstage, -⟩ | ⟨hstage, -⟩ <;> rw [hstage] <;> simp

theorem steps_buffer {σ τ : System} {event : Event} (hstep : Steps σ event τ)
    (hinside : σ.server.processCount ≤ listSize)
    (hmain : ∀ request answers, event ≠ .request request answers)
    (hτ : ∀ fault, τ.phase ≠ .ended fault) : τ.server.buffer = σ.server.buffer := by
  cases hstep.cases with
  | @iterate i answers hphase hi =>
    obtain ⟨a, hm⟩ := System.after_running hτ
    obtain ⟨ops, hrun, rfl⟩ := (startupIteration_performs (s := σ.server.asked answers) hi
      hinside).ok hm
    exact (files_run hrun).2
  | finish => rfl
  | wait => rfl
  | @handle pid answers =>
    obtain ⟨a, hm⟩ := System.after_running hτ
    obtain ⟨ops, hrun, rfl⟩ := (handleExit_performs pid (s := σ.server.asked answers)
      hinside).ok hm
    exact (files_run hrun).2
  | request => exact absurd rfl (hmain _ _)
  | exit => rfl

/-- A service without a client finds nothing to do in its buffer. -/
theorem handleRequest_nothing {s : Server} (h : s.buffer = []) (answers : Answers) :
    handleRequest ⟨[], []⟩ (s.asked answers) = .ok (str "error command") (s.asked answers) := by
  have hget : (get : ServerM Server) (s.asked answers) = .ok (s.asked answers) (s.asked answers) :=
    rfl
  have hcommand : readCommand ((s.asked answers).commandBuffer ⟨[], []⟩) = .error := by
    show readCommand (receive s.buffer []) = .error
    rw [h]
    rfl
  rw [handleRequest, bind_ok hget, hcommand]
  rfl

theorem Service.round_nothing (s : Service) (shared : Shared) (h : s.system.server.buffer = [])
    (answers : Answers) :
    (∃ text, saveProcessList (s.system.server.asked answers).processList = .ok text ∧
      s.round shared ⟨[], []⟩ answers =
        ({ s with
            system := ⟨s.system.server.asked answers, s.system.phase⟩
            saving := some (.first text) },
          { shared with configFile := [] })) ∨
      ∃ fault, s.round shared ⟨[], []⟩ answers =
        ({ s with system := ⟨s.system.server.asked answers, .ended fault⟩ },
          { shared with configFile := [] }) := by
  rw [Service.round, handleRequest_nothing h]
  dsimp only
  cases saveProcessList (s.system.server.asked answers).processList with
  | ok text => exact Or.inl ⟨text, rfl, rfl⟩
  | error fault => exact Or.inr ⟨fault, rfl⟩

/-- In a round no app is given up. -/
theorem roundDeeds_givesUp (i : ℕ) (s : Service) (request : Request) (answers : Answers) :
    (s.roundDeeds i request answers).filterMap (HostDeed.givesUp k) = [] := by
  unfold Service.roundDeeds
  cases handleRequest request (s.system.server.asked answers) with
  | error fault server => rfl
  | ok response server =>
    dsimp only
    cases saveProcessList server.processList <;> rfl

/-- A service gives up its own apps only, and only in its monitor. -/
theorem deeds_givesUp (i : ℕ) (s : Service) (event : ServiceEvent) :
    (s.deeds i event).filterMap (HostDeed.givesUp k) =
      if i = k then (s.quits event).toList else [] := by
  have hnone : ∀ deeds : List HostDeed, deeds.filterMap (HostDeed.givesUp k) = [] →
      s.quits event = none → deeds.filterMap (HostDeed.givesUp k) =
        if i = k then (s.quits event).toList else [] := by
    intro deeds hdeeds hquits
    rw [hdeeds, hquits]
    split <;> rfl
  cases event with
  | accept answers =>
    refine hnone _ ?_ rfl
    rw [Service.deeds]
    cases s.queue.head? with
    | none => rfl
    | some request => exact roundDeeds_givesUp i s request answers
  | spin answers => exact hnone _ (roundDeeds_givesUp i s ⟨[], []⟩ answers) rfl
  | flush blocks =>
    refine hnone _ ?_ rfl
    rw [Service.deeds]
    cases s.saving with
    | none => rfl
    | some w =>
      rw [Option.elim_some]
      split <;> rfl
  | step event =>
    rw [Service.deeds, Service.quits]
    cases s.system.quits event with
    | none => exact (ite_self []).symm
    | some j => by_cases hi : i = k <;> simp [HostDeed.givesUp, hi]
  | unlink => exact hnone [] rfl rfl
  | bind => exact hnone [] rfl rfl
  | listen => exact hnone [] rfl rfl
  | kill => exact hnone [] rfl rfl

/-- The monitor of the service `k` finds that the app `j` has ended in the second in which it was
started. -/
def EndsQuickly (k : ℕ) (h : Host) (event : HostEvent) (j : ℕ) : Prop :=
  ∃ s answers process n, event = .service k (.step (.handle answers)) ∧
    h.services[k]? = some s ∧ s.system.phase = .reaped process.pid ∧
    s.system.server.entries[j]? = some process ∧
    process.startTime = (answers.times.drop n).headD 0

theorem givesUp_quickly {event : HostEvent} {j : ℕ}
    (hj : j ∈ (h.deeds event).filterMap (HostDeed.givesUp k)) : EndsQuickly k h event j := by
  cases event with
  | service i event =>
    rw [Host.deeds] at hj
    cases hs : h.services[i]? with
    | none =>
      rw [hs] at hj
      cases hj
    | some s =>
      rw [hs, Option.elim_some, deeds_givesUp] at hj
      split_ifs at hj with hi
      · subst hi
        cases event with
        | step event =>
          obtain ⟨answers, pid, process, n, rfl, hphase, hprocess, rfl, hstart⟩ :=
            System.quits_quick (Option.mem_toList.mp hj)
          exact ⟨s, answers, process, n, rfl, hs, hphase, hprocess, hstart⟩
        | _ => cases hj
      · cases hj
  | _ => cases hj

theorem givenUp_quickly {events : List HostEvent} (hrun : Run Hosted h events h') {j : ℕ}
    (hj : j ∈ Host.givenUp k events h) :
    ∃ before event h₁, before ++ [event] <+: events ∧ Run Hosted h before h₁ ∧
      EndsQuickly k h₁ event j := by
  induction hrun with
  | nil h => cases hj
  | @cons h h₁ h' event events hstep _ ih =>
    have hnext : h.step event = some h₁ := hstep
    rw [Host.givenUp, Host.history, hnext, Option.elim_some, List.filterMap_append,
      List.mem_append] at hj
    rcases hj with hj | hj
    · exact ⟨[], event, h, List.prefix_append [event] events, .nil h, givesUp_quickly hj⟩
    · obtain ⟨before, event', h₂, hprefix, hrun, hquick⟩ := ih hj
      exact ⟨event :: before, event', h₂, List.cons_prefix_cons.mpr ⟨rfl, hprefix⟩,
        .cons hstep hrun, hquick⟩

/-- While a save is under way the monitor waits. -/
theorem quits_of_saving {event : Event} {w : Saving} (h : event.besides (some w) = true)
    (σ : System) : σ.quits event = none := by
  cases event with
  | handle answers => cases h
  | _ => rfl

/-- The service goes on. -/
theorem Forgotten.turn (hf : Forgotten k stage l h s) (hlive : s.live = true) {event : ServiceEvent}
    {next : Service × Shared} (hstep : Service.Stepped k s h.shared event next) :
    Forgotten k stage (l.giveUps ((s.deeds k event).filterMap (HostDeed.givesUp k))) (h.put k next)
      next.1 := by
  rw [deeds_givesUp, if_pos rfl]
  obtain ⟨hstill, hidle⟩ := hf.idle hlive
  obtain ⟨hloaded, hunlinked, hbound⟩ := hidle.past
  have hstores := hf.stores hlive
  have hwrites := fun w => hf.writes w hlive
  have hname : next.2.name ≠ some k := hstep.name hf.name fun hstage => absurd hstage hunlinked
  have hservice : (h.put k next).services[k]? = some next.1 :=
    (Host.get_put hf.service).mpr (Or.inl ⟨rfl, rfl⟩)
  cases hstep with
  | unlink hstage => exact absurd hstage hloaded
  | bind hstage => exact absurd hstage hunlinked
  | fail hstage => exact absurd hstage hunlinked
  | listen hstage => exact absurd hstage hbound
  | accept hstage _ hqueue =>
    rcases hidle with ⟨-, hnil, -⟩ | ⟨hdeaf, -⟩
    · rw [hnil] at hqueue
      cases hqueue
    · rw [hdeaf] at hstage
      cases hstage
  | @spin answers hstage hsaving =>
    rcases hidle with ⟨hlistening, -⟩ | ⟨-, hbuffer⟩
    · rw [hlistening] at hstage
      cases hstage
    -- the round does nothing but save the list
    have hasked : Stores (s.system.server.asked answers) l :=
      ⟨⟨hstores.tidy.inside, hstores.tidy.unnamed⟩, hstores.saved⟩
    rcases s.round_nothing h.shared hbuffer answers with ⟨text, hsave, heq⟩ | ⟨fault, heq⟩ <;>
      rw [heq] at hname hservice ⊢
    · refine ⟨hname, hservice, fun _ => ⟨hstill, Or.inr ⟨hstage, hbuffer⟩⟩, fun _ => hasked,
        fun w _ hw => ?_⟩
      obtain rfl := Option.some_inj.mp hw
      exact hasked.writes hsave
    · have hdead : ∀ {t : Service}, t.system.phase = .ended fault → t.live = true → False :=
        fun hphase hlive => dead_of_ended hphase hlive
      exact ⟨hname, hservice, fun hlive' => (hdead rfl hlive').elim,
        fun hlive' => (hdead rfl hlive').elim, fun _ hlive' => (hdead rfl hlive').elim⟩
  | @flush w blocks hsaving =>
    rcases hidle with ⟨-, -, hnone⟩ | ⟨hdeaf, hbuffer⟩
    · rw [hnone] at hsaving
      cases hsaving
    by_cases hpart : w.upTo blocks < w.text.length
    · rw [Service.wrote_part hpart] at hname hservice ⊢
      refine ⟨hname, hservice, fun _ => ⟨hstill, Or.inr ⟨hdeaf, hbuffer⟩⟩, fun _ => hstores,
        fun v _ hv => ?_⟩
      obtain rfl := Option.some_inj.mp hv
      exact hwrites w hsaving
    · rw [Service.wrote_last (Nat.not_lt.mp hpart)] at hname hservice ⊢
      refine ⟨hname, hservice, fun _ => ⟨hstill, Or.inr ⟨hdeaf, rfl⟩⟩, fun _ => ?_,
        fun _ _ hv => ?_⟩
      · exact ⟨⟨hstores.tidy.inside, hstores.tidy.unnamed⟩, hstores.saved⟩
      · cases hv
  | @step event σ hbesides hsteps =>
    have hmain := besides_main hbesides
    have hquits : l.giveUps (s.quits (.step event)).toList =
        (s.system.quits event).elim l l.giveUp := by
      rw [Service.quits]
      cases s.system.quits event <;> rfl
    rw [hquits]
    refine ⟨hname, hservice, fun hlive' => ?_, fun hlive' => ?_, fun w _ hw => ?_⟩
    · have hbuffer := steps_buffer hsteps hstores.tidy.inside hmain (live_running hlive')
      exact ⟨hstill, hidle.imp_right fun hdeaf => ⟨hdeaf.1, hbuffer.trans hdeaf.2⟩⟩
    · exact steps_stores hstores hsteps hmain (live_running hlive')
    · have hsaving : s.saving = some w := hw
      rw [hsaving] at hbesides
      rw [quits_of_saving hbesides]
      exact hwrites w hsaving
  | kill =>
    exact ⟨hname, hservice, fun _ => ⟨hstill, hidle⟩, fun _ => hstores, fun w _ => hwrites w⟩

theorem Forgotten.step (hf : Forgotten k stage l h s) {event : HostEvent}
    (hstep : Hosted h event h') :
    ∃ s', Forgotten k stage (l.giveUps ((h.deeds event).filterMap (HostDeed.givesUp k))) h' s' := by
  have hstays : ∀ {h' : Host}, h'.shared.name ≠ some k → h'.services[k]? = some s →
      ∃ s', Forgotten k stage l h' s' := fun hname hservice =>
    ⟨s, hname, hservice, hf.idle, hf.stores, hf.writes⟩
  cases Host.stepped hstep with
  | ping => exact hstays hf.name hf.service
  | load => exact hstays hf.name (Host.get_load.mpr (Or.inl hf.service))
  | refuse => exact hstays hf.name hf.service
  | @connect request j t hname ht =>
    refine hstays hf.name ((Host.get_put ht).mpr (Or.inr ⟨?_, hf.service⟩))
    rintro rfl
    exact hf.name hname
  | clean => exact hstays (by simp) hf.service
  | @service j event t next ht hlive _ hnext =>
    rw [Host.deeds, ht, Option.elim_some]
    by_cases hj : j = k
    · subst hj
      obtain rfl := Option.some_inj.mp (ht.symm.trans hf.service)
      exact ⟨next.1, hf.turn hlive hnext⟩
    · rw [deeds_givesUp, if_neg hj]
      refine hstays (hnext.name hf.name fun _ => hj)
        ((Host.get_put ht).mpr (Or.inr ⟨?_, hf.service⟩))
      exact Ne.symm hj

theorem Forgotten.run {events : List HostEvent} (hf : Forgotten k stage l h s)
    (hrun : Run Hosted h events h') :
    ∃ s', Forgotten k stage (l.giveUps (Host.givenUp k events h)) h' s' := by
  induction hrun generalizing l s with
  | nil h => exact ⟨s, hf⟩
  | @cons h h₁ h' event events hstep _ ih =>
    obtain ⟨s₁, hf₁⟩ := hf.step hstep
    obtain ⟨s', hf'⟩ := ih hf₁
    have hnext : h.step event = some h₁ := hstep
    refine ⟨s', ?_⟩
    rw [Host.givenUp, Host.history, hnext, Option.elim_some, List.filterMap_append,
      AppList.giveUps_append]
    exact hf'

end Forgotten

/-- A service that has lost the name and has served its clients gets no client any more, in any run:
of its apps it gives up those that its monitor finds to have ended too quickly, and no others. -/
theorem overtaken_for_good {h h' : Host} {k : ℕ} {s : Service} {l : AppList}
    {events : List HostEvent} (hs : h.services[k]? = some s) (hstage : s.stage = .listening)
    (hname : h.shared.name ≠ some k) (hqueue : s.queue = []) (hsaving : s.saving = none)
    (hl : Stores s.system.server l) (hrun : Run Hosted h events h') :
    h'.shared.name ≠ some k ∧
      (∃ s', h'.services[k]? = some s' ∧ (s'.live = true →
        s'.queue = [] ∧ s'.saving = none ∧
          Stores s'.system.server (l.giveUps (Host.givenUp k events h)))) ∧
      ∀ j ∈ Host.givenUp k events h, ∃ before event h₁, before ++ [event] <+: events ∧
        Run Hosted h before h₁ ∧ EndsQuickly k h₁ event j := by
  have hf : Forgotten k .listening l h s :=
    ⟨hname, hs, fun _ => ⟨hstage, Or.inl ⟨hstage, hqueue, hsaving⟩⟩, fun _ => hl,
      fun w _ hw => by simp [hsaving] at hw⟩
  obtain ⟨s', hf'⟩ := hf.run hrun
  refine ⟨hf'.name, ⟨s', hf'.service, fun hlive => ?_⟩, fun j hj => givenUp_quickly hrun hj⟩
  obtain ⟨hstage', ⟨-, hqueue', hsaving'⟩ | ⟨hdeaf, -⟩⟩ := hf'.idle hlive
  · exact ⟨hqueue', hsaving', hf'.stores hlive⟩
  · rw [hstage'] at hdeaf
    cases hdeaf

/-- A service that has loaded the config for examples. -/
def webService (stage : Stage) : Service :=
  ⟨⟨.loaded webList 1 [] [], .starting 0⟩, stage, [], none, false⟩

theorem webService_stores (stage : Stage) : Stores (webService stage).system.server webApps := by
  have hstores := held_web.current (by simp [webSystem])
  exact ⟨⟨hstores.tidy.inside, hstores.tidy.unnamed⟩, hstores.saved⟩

theorem load_web {h : Host} (hfile : h.shared.configFile = webConfig) (hstarting : h.starting ≠ 0) :
    Hosted h (.load [] []) { h with
      services := h.services ++ [webService .loaded]
      starting := h.starting - 1 } := by
  rw [Hosted, Host.step, if_neg hstarting, hfile, serviceLoad_of_parse webList_load]
  rfl

/-- Two services of which none has waited for the other. -/
def webPair (name : Option ℕ) (first second : Stage) : Host :=
  ⟨⟨webConfig, name⟩, [webService first, webService second], 0⟩

def twoStarts : List HostEvent := [.ping, .ping, .load [] [], .load [] []]

theorem webPair_run : Run Hosted (.fresh webConfig) twoStarts (webPair none .loaded .loaded) :=
  .cons rfl (.cons rfl (.cons (load_web rfl (by simp)) (.single (load_web rfl (by simp)))))

/-- The second service takes the name from the first, and stops all apps: those of the first go
on. -/
theorem overtaken_for_good_web :
    ∃ h', Run Hosted (.fresh webConfig)
      (twoStarts ++ (listens 0 ++ listens 1) ++ asksStopall 1) h' ∧
      ∃ s', h'.services[0]? = some s' ∧ s'.live = true ∧ Stores s'.system.server webApps := by
  have hpair : Run Hosted (webPair none .loaded .loaded) (listens 0 ++ listens 1)
      (webPair (some 1) .listening .listening) := Run.of_foldlM (f := Host.step) rfl
  obtain ⟨h', hrun, htest⟩ : ∃ h', Run Hosted (webPair (some 1) .listening .listening)
      (asksStopall 1) h' ∧ (h'.services[0]?.any fun s : Service => s.live) = true :=
    Run.of_any (f := Host.step) (by decide +kernel)
  obtain ⟨-, ⟨s', hs', hstays⟩, -⟩ := overtaken_for_good (k := 0) (s := webService .listening)
    rfl rfl (by simp [webPair]) rfl rfl (webService_stores .listening) hrun
  rw [hs', Option.any_some] at htest
  obtain ⟨-, -, hstores⟩ := hstays htest
  have hnone : Host.givenUp 0 (asksStopall 1) (webPair (some 1) .listening .listening) = [] := by
    decide +kernel
  rw [hnone] at hstores
  exact ⟨h', (webPair_run.append hpair).append hrun, s', hs', htest, hstores⟩

/-! ### A save among others -/

/-- The service comes to a save, or goes on with it. -/
def ServiceEvent.saves : ServiceEvent → Bool
  | .accept _ => true
  | .spin _ => true
  | .flush _ => true
  | _ => false

/-- No service but `k` does anything to the file. -/
def HostEvent.Spares (k : ℕ) : HostEvent → Prop
  | .service j event => event.saves = true → j = k
  | _ => True

section Saves

variable {h h' : Host} {k : ℕ} {s : Service}

theorem Service.Stepped.file {j : ℕ} {shared : Shared} {event : ServiceEvent}
    {next : Service × Shared} (hstep : Service.Stepped j s shared event next)
    (hevent : event.saves ≠ true) : next.2.configFile = shared.configFile := by
  cases hstep with
  | accept => exact absurd rfl hevent
  | spin => exact absurd rfl hevent
  | flush => exact absurd rfl hevent
  | _ => rfl

/-- A round leaves nothing of an older save. -/
theorem Service.round_saving {shared : Shared} {request : Request} {answers : Answers} {w : Saving}
    (hsaving : s.saving = none) (hw : (s.round shared request answers).1.saving = some w) :
    ∃ text, w = .first text ∧ (s.round shared request answers).2.configFile = [] := by
  unfold Service.round at hw ⊢
  cases hhandle : handleRequest request (s.system.server.asked answers) with
  | error fault server =>
    rw [hhandle] at hw
    cases hsaving.symm.trans hw
  | ok response server =>
    rw [hhandle] at hw
    cases hsave : saveProcessList server.processList with
    | error fault =>
      simp only [hsave] at hw
      cases hsaving.symm.trans hw
    | ok text =>
      simp only [hsave] at hw ⊢
      exact ⟨text, (Option.some_inj.mp hw).symm, trivial⟩

/-- Where a save of the service `k` comes from that is under way. -/
theorem saving_cases {event : HostEvent} {s' : Service} {w : Saving} (hstep : Hosted h event h')
    (hs' : h'.services[k]? = some s') (hw : s'.saving = some w) :
    (∃ text, w = .first text ∧ h'.shared.configFile = []) ∨
      (∃ s v blocks hpart, event = .service k (.flush blocks) ∧ h.services[k]? = some s ∧
        s.saving = some v ∧ w = v.next blocks hpart ∧ h'.shared = h.shared.write v blocks) ∨
      ∃ s, h.services[k]? = some s ∧ s.saving = some w ∧
        (event.Spares k → h'.shared.configFile = h.shared.configFile) := by
  cases Host.stepped hstep with
  | ping => exact Or.inr (Or.inr ⟨s', hs', hw, fun _ => rfl⟩)
  | load =>
    rcases Host.get_load.mp hs' with hs | ⟨-, rfl⟩
    · exact Or.inr (Or.inr ⟨s', hs, hw, fun _ => rfl⟩)
    · cases hw
  | refuse => exact Or.inr (Or.inr ⟨s', hs', hw, fun _ => rfl⟩)
  | @connect request j t _ ht =>
    rcases (Host.get_put ht).mp hs' with ⟨rfl, rfl⟩ | ⟨-, hs⟩
    · exact Or.inr (Or.inr ⟨t, ht, hw, fun _ => rfl⟩)
    · exact Or.inr (Or.inr ⟨s', hs, hw, fun _ => rfl⟩)
  | clean => exact Or.inr (Or.inr ⟨s', hs', hw, fun _ => rfl⟩)
  | @service j event t next ht _ _ hnext =>
    rcases (Host.get_put ht).mp hs' with ⟨rfl, rfl⟩ | ⟨hj, hs⟩
    · cases hnext with
      | accept _ hsaving =>
        exact Or.inl (Service.round_saving (s := { t with queue := _ }) hsaving hw)
      | spin _ hsaving => exact Or.inl (Service.round_saving hsaving hw)
      | @flush v blocks hsaving =>
        by_cases hpart : v.upTo blocks < v.text.length
        · rw [Service.wrote_part hpart] at hw
          exact Or.inr (Or.inl ⟨t, v, blocks, hpart, rfl, ht, hsaving,
            (Option.some_inj.mp hw).symm, rfl⟩)
        · rw [Service.wrote_last (Nat.not_lt.mp hpart)] at hw
          cases hw
      | _ => exact Or.inr (Or.inr ⟨t, ht, hw, fun _ => rfl⟩)
    · exact Or.inr (Or.inr ⟨s', hs, hw, fun hspares =>
        hnext.file fun hsaves => hj (hspares hsaves).symm⟩)

/-- A save that has not written anything yet. -/
def Unwritten (k : ℕ) (h : Host) : Prop :=
  ∀ s w, h.services[k]? = some s → s.saving = some w → w.written = 0

/-- A save whose text is in the file as far as it has been written. -/
def Unmixed (k : ℕ) (h : Host) : Prop :=
  ∀ s w, h.services[k]? = some s → s.saving = some w →
    h.shared.configFile = w.text.take w.written

theorem Unwritten.step (hk : Unwritten k h) {event : HostEvent} (hstep : Hosted h event h')
    (hevent : ∀ blocks, event ≠ .service k (.flush blocks)) : Unwritten k h' := by
  intro s' w hs' hw
  rcases saving_cases hstep hs' hw with ⟨text, rfl, -⟩ | ⟨_, _, blocks, _, heq, -⟩ | ⟨s, hs, hw, -⟩
  · rfl
  · exact absurd heq (hevent blocks)
  · exact hk s w hs hw

theorem Unmixed.step (hk : Unmixed k h) {event : HostEvent} (hstep : Hosted h event h')
    (hevent : event.Spares k) : Unmixed k h' := by
  intro s' w hs' hw
  rcases saving_cases hstep hs' hw with
    ⟨text, rfl, hfile⟩ | ⟨s, v, blocks, hpart, -, hs, hv, rfl, hshared⟩ | ⟨s, hs, hw, hfile⟩
  · exact hfile
  · rw [hshared]
    exact Shared.write_part (hk s v hs hv) blocks
  · rw [hfile hevent]
    exact hk s w hs hw

end Saves

/-- A service whose `bind` has failed writes its own apps into the file again and again, whatever
the others have been asked and have written, if a text takes one call, or no other service comes to
the file between the `fopen` and the last call. -/
theorem deaf_overwrites {h h' : Host} {k : ℕ} {s : Service} {l : AppList} {answers : Answers}
    {before during : List HostEvent} {blocks : ℕ} (hs : h.services[k]? = some s)
    (hstage : s.stage = .deaf) (hname : h.shared.name ≠ some k)
    (hbuffer : s.system.server.buffer = []) (hsaving : s.saving = none)
    (hl : Stores s.system.server l)
    (hwrites : (∀ n, .service k (.flush n) ∉ during) ∨ ∀ event ∈ during, event.Spares k)
    (hrun : Run Hosted h (before ++ .service k (.spin answers) :: during ++
      [.service k (.flush blocks)]) h')
    (hover : ∀ s' ∈ h'.services[k]?, s'.saving = none) :
    Reloads h'.shared.configFile
      (l.giveUps (Host.givenUp k (before ++ .service k (.spin answers) :: during) h)) := by
  have hf : Forgotten k .deaf l h s :=
    ⟨hname, hs, fun _ => ⟨hstage, Or.inr ⟨hstage, hbuffer⟩⟩, fun _ => hl,
      fun w _ hw => by simp [hsaving] at hw⟩
  obtain ⟨h₁, hround, hlast⟩ := run_append.mp hrun
  obtain ⟨s₁, hf₁⟩ := hf.run hround
  obtain ⟨h₂, hstep, hnil⟩ := run_cons.mp hlast
  obtain rfl := run_nil.mp hnil
  -- when the round begins there is no save under way
  obtain ⟨h₀, -, hspin⟩ := run_append.mp hround
  have hnone : ∀ s w, h₀.services[k]? = some s → s.saving ≠ some w := by
    obtain ⟨h₃, hfirst, -⟩ := run_cons.mp hspin
    intro u w hu hw
    cases Host.stepped hfirst with
    | @service _ _ t _ ht _ _ hnext =>
      obtain rfl := Option.some_inj.mp (ht.symm.trans hu)
      cases hnext with
      | spin _ hsaving => cases hsaving.symm.trans hw
  have hfile : ∀ s w, h₁.services[k]? = some s → s.saving = some w →
      w.written = 0 ∨ h₁.shared.configFile = w.text.take w.written := by
    rcases hwrites with hflush | hspares
    · have hunwritten := hspin.invariant_of (I := Unwritten k)
        (P := fun event => ∀ n, event ≠ .service k (.flush n))
        (fun _ _ _ hevent hk hstep => hk.step hstep hevent) ?_ ?_
      · exact fun s w hs hw => Or.inl (hunwritten s w hs hw)
      · intro event hmem n heq
        subst heq
        rcases List.mem_cons.mp hmem with hmem | hmem
        · cases hmem
        · exact hflush n hmem
      · exact fun s w hs hw => absurd hw (hnone s w hs)
    · have hunmixed := hspin.invariant_of (I := Unmixed k) (P := HostEvent.Spares k)
        (fun _ _ _ hevent hk hstep => hk.step hstep hevent) ?_ ?_
      · exact fun s w hs hw => Or.inr (hunmixed s w hs hw)
      · intro event hmem
        rcases List.mem_cons.mp hmem with rfl | hmem
        · exact fun _ => rfl
        · exact hspares event hmem
      · exact fun s w hs hw => absurd hw (hnone s w hs)
  cases Host.stepped hstep with
  | @service _ _ t _ ht hlive _ hnext =>
    obtain rfl := Option.some_inj.mp (ht.symm.trans hf₁.service)
    cases hnext with
    | @flush w _ hw =>
      have hend : (t.wrote w blocks).saving = none :=
        hover _ ((Host.get_put ht).mpr (Or.inl ⟨rfl, rfl⟩))
      have hlength : w.text.length ≤ w.upTo blocks := by
        by_contra hpart
        rw [Service.wrote_part (Nat.not_le.mp hpart)] at hend
        cases hend
      obtain ⟨rest, hrest⟩ := Shared.write_last hlength (hfile t w ht hw)
      show Reloads (h₁.shared.write w blocks).configFile _
      rw [hrest]
      exact (hf₁.writes w hlive hw).whole rest

/-- The second service gets the name between the `unlink` and the `bind` of the first. -/
def deafens : List HostEvent :=
  [.service 0 .unlink, .service 1 .unlink, .service 1 .bind, .service 0 .bind, .service 1 .listen]

/-- The second service is asked to stop everything, and then the first has a round. -/
def asksAndSpins : List HostEvent := asksStopall 1 ++ [.service 0 (.spin (onePid 9))]

theorem deaf_overwrites_web :
    ∃ h', Run Hosted (.fresh webConfig) (twoStarts ++ deafens ++
        (asksAndSpins ++ [.service 0 (.flush 0)])) h' ∧
      Reloads h'.shared.configFile webApps := by
  have hpair : Run Hosted (webPair none .loaded .loaded) deafens
      (webPair (some 1) .deaf .listening) := Run.of_foldlM (f := Host.step) rfl
  obtain ⟨h', hrun, htest⟩ : ∃ h', Run Hosted (webPair (some 1) .deaf .listening)
      (asksAndSpins ++ [HostEvent.service 0 (.flush 0)]) h' ∧
        (h'.services[0]?.all fun s : Service => s.saving.isNone) = true :=
    Run.of_any (f := Host.step) (by decide +kernel)
  have hnone : Host.givenUp 0 asksAndSpins
      (webPair (some 1) .deaf .listening) = [] := by decide +kernel
  have hround : Run Hosted (webPair (some 1) .deaf .listening)
      (asksStopall 1 ++ HostEvent.service 0 (.spin (onePid 9)) :: [] ++
        [HostEvent.service 0 (.flush 0)]) h' := hrun
  have hreloads := deaf_overwrites (s := webService .deaf) rfl rfl (by simp [webPair]) rfl rfl
    (webService_stores .deaf) (Or.inl fun _ => List.not_mem_nil) hround
    fun s hs => Option.isNone_iff_eq_none.mp ((Option.all_eq_true _ _).mp htest s hs)
  rw [← asksAndSpins, hnone] at hreloads
  exact ⟨h', (webPair_run.append hpair).append hrun, hreloads⟩

end KbPm
