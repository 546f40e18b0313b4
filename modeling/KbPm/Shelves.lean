/-
The lists of several services, and the file that they share.

* `Shelf`, `HostDeed` — a list for every service, one that it is about to write, and one in the
  file;
* `System.quits` — what the main threads do to the lists;
* `hosts_follow` — in every run in which long saves do not meet, the services and the file are such
  a shelf.
-/
import KbPm.Hosts

namespace KbPm

open Trace Scan Outcome

/-! ### The main thread -/

/-- An app is given up. -/
def AppList.giveUp (l : AppList) (j : ℕ) : AppList :=
  l.update fun i running => if i = j then none else running

/-- The app that the monitor gives up, if any. -/
def System.quits (σ : System) : Event → Option ℕ
  | .handle answers =>
    match σ.phase with
    | .reaped pid => ((σ.server.asked answers).exitPlan pid).findSome? Op.quits
    | _ => none
  | _ => none

theorem exitPlanFrom_quits {pid : ℤ} {processes : List Process} {i j : ℕ} {times : List ℤ}
    (h : (Server.exitPlanFrom pid i processes times).findSome? Op.quits = some j) :
    ∃ m process n, j = i + m ∧ processes[m]? = some process ∧ process.pid = pid ∧
      process.startTime = (times.drop n).headD 0 := by
  induction processes generalizing i times with
  | nil => cases h
  | cons process processes ih =>
    rw [Server.exitPlanFrom] at h
    split_ifs at h with hpid hrunning hquick
    · obtain ⟨m, p, n, rfl, hp, hrest⟩ := ih h
      exact ⟨m + 1, p, n, by omega, hp, hrest⟩
    · cases h
    · exact ⟨0, process, 0, (Option.some_inj.mp h).symm, rfl, not_not.mp hpid, hquick⟩
    · obtain ⟨m, p, n, rfl, hp, hppid, hn⟩ := ih h
      rw [List.drop_tail, List.drop_tail] at hn
      exact ⟨m + 1, p, n + 1 + 1, by omega, hp, hppid, hn⟩

/-- It has been started in the second in which its process has ended. -/
theorem System.quits_quick {σ : System} {event : Event} {j : ℕ} (h : σ.quits event = some j) :
    ∃ answers pid process n, event = .handle answers ∧ σ.phase = .reaped pid ∧
      σ.server.entries[j]? = some process ∧ process.pid = pid ∧
      process.startTime = (answers.times.drop n).headD 0 := by
  unfold System.quits at h
  split at h
  · rename_i answers
    split at h
    · rename_i pid hphase
      obtain ⟨m, process, n, hm, hprocess, hpid, hn⟩ := exitPlanFrom_quits h
      rw [Nat.zero_add] at hm
      exact ⟨answers, pid, process, n, rfl, hphase, hm ▸ hprocess, hpid, hn⟩
    · cases h
  · cases h

/-- What the main thread does to the apps, and what a child does that dies. -/
theorem steps_stores {σ τ : System} {event : Event} {l : AppList} (h : Stores σ.server l)
    (hstep : Steps σ event τ) (hmain : ∀ request answers, event ≠ .request request answers)
    (hτ : ∀ fault, τ.phase ≠ .ended fault) :
    Stores τ.server ((σ.quits event).elim l l.giveUp) := by
  have hasked : ∀ answers, Stores (σ.server.asked answers) l := fun answers =>
    ⟨⟨h.tidy.inside, h.tidy.unnamed⟩, h.saved⟩
  cases hstep.cases with
  | @iterate i answers hphase hi hfresh =>
    have hs := hasked answers
    obtain ⟨a, hm⟩ := System.after_running hτ
    obtain ⟨ops, hrun, rfl⟩ := (startupIteration_performs (s := σ.server.asked answers) hi
      hs.tidy.inside).ok hm
    exact startup_stores hs hrun
  | finish => exact h
  | wait => exact ⟨⟨h.tidy.inside, h.tidy.unnamed⟩, h.saved⟩
  | @handle pid answers hphase hfresh =>
    have hs := hasked answers
    obtain ⟨a, hm⟩ := System.after_running hτ
    obtain ⟨ops, hrun, rfl⟩ := (handleExit_performs pid (s := σ.server.asked answers)
      hs.tidy.inside).ok hm
    have ht := exit_stores hs hrun
    rw [System.quits, hphase]
    dsimp only
    cases hquit : ((σ.server.asked answers).exitPlan pid).findSome? Op.quits with
    | none =>
      rw [hquit, AppList.update_id fun _ _ _ => if_neg (by simp)] at ht
      exact ht
    | some k =>
      simp only [hquit, Option.some_inj, eq_comm (a := k)] at ht
      exact ht
  | request => exact absurd rfl (hmain _ _)
  | exit => exact ⟨⟨h.tidy.inside, h.tidy.unnamed⟩, h.saved⟩

theorem live_running {s : Service} (h : s.live = true) :
    ∀ fault, s.system.phase ≠ .ended fault := by
  rw [Service.live, Bool.and_eq_true, Bool.not_eq_true', Bool.not_eq_true'] at h
  exact Phase.over_eq_false.mp h.2

theorem dead_of_ended {s : Service} {fault : Fault} (h : s.system.phase = .ended fault) :
    s.live ≠ true := fun hlive => live_running hlive fault h

theorem besides_main {event : Event} {saving : Option Saving} (h : event.besides saving = true) :
    ∀ request answers, event ≠ .request request answers := by
  rintro request answers rfl
  cases h

/-! ### Lists and the file -/

/-- The list of each service, the one that it is about to write, and the one in the file. -/
structure Shelf where
  lists : ℕ → AppList
  texts : ℕ → AppList
  saved : AppList

inductive HostDeed
  /-- a service is started with what is in the file -/
  | load (k : ℕ)
  | obey (k : ℕ) (command : Command) (operand : Text)
  | giveUp (k j : ℕ)
  /-- the file is emptied for the list -/
  | empty (k : ℕ)
  | write (k : ℕ)
  /-- the file is emptied, and nothing is going to be written -/
  | lose
  deriving DecidableEq

inductive Shelf.Does : Shelf → HostDeed → Shelf → Prop
  | load (d : Shelf) (k : ℕ) :
    Does d (.load k) { d with lists := Function.update d.lists k d.saved }
  | obey (d : Shelf) (k : ℕ) (fresh : ℕ → Instance) (command : Command) (operand : Text) :
    Does d (.obey k command operand) { d with
      lists := Function.update d.lists k
        ((d.lists k).act fresh command ((d.lists k).resolve operand)) }
  | giveUp (d : Shelf) (k j : ℕ) : Does d (.giveUp k j) { d with
      lists := Function.update d.lists k ((d.lists k).giveUp j) }
  | empty (d : Shelf) (k : ℕ) : Does d (.empty k) { d with
      texts := Function.update d.texts k (d.lists k)
      saved := .empty }
  | write (d : Shelf) (k : ℕ) : Does d (.write k) { d with saved := d.texts k }
  | lose (d : Shelf) : Does d .lose { d with saved := .empty }

/-- What becomes of the list and the file in a round. -/
def Service.roundDeeds (k : ℕ) (s : Service) (request : Request) (answers : Answers) :
    List HostDeed :=
  match handleRequest request (s.system.server.asked answers) with
  | .ok _ server =>
    [.obey k (readCommand (s.system.server.commandBuffer request))
        (s.system.server.operandBuffer request),
      match saveProcessList server.processList with
      | .ok _ => .empty k
      | .error _ => .lose]
  | .error _ _ => []

def Service.deeds (k : ℕ) (s : Service) : ServiceEvent → List HostDeed
  | .accept answers => s.queue.head?.elim [] fun request => s.roundDeeds k request answers
  | .spin answers => s.roundDeeds k ⟨[], []⟩ answers
  | .flush blocks => s.saving.elim [] fun w =>
    if w.upTo blocks < w.text.length then [] else [.write k]
  | .step event => (s.system.quits event).elim [] fun j => [.giveUp k j]
  | _ => []

/-- No process without a name is appended. -/
def Service.Heeds (s : Service) : ServiceEvent → Prop
  | .accept _ => ∀ request ∈ s.queue.head?, AppendsNamed s.system.server request
  | .spin _ => AppendsNamed s.system.server ⟨[], []⟩
  | _ => True

def ServiceEvent.round : ServiceEvent → Bool
  | .accept _ => true
  | .spin _ => true
  | _ => false

/-- A round that comes to the `fopen` of its save. -/
def Service.Opens (k : ℕ) (s : Service) (event : ServiceEvent) : Prop :=
  event.round = true ∧ s.deeds k event ≠ []

namespace Host

def deeds (h : Host) : HostEvent → List HostDeed
  | .load _ _ => [.load h.services.length]
  | .service k event => h.services[k]?.elim [] fun s => s.deeds k event
  | _ => []

/-- What becomes of the lists and the file in a run. -/
def history : List HostEvent → Host → List HostDeed
  | [], _ => []
  | event :: events, h => h.deeds event ++ (h.step event).elim [] (history events)

/-- The saves of the other services that are under way are single calls, and so is this one if it
meets any. -/
def Apart (h : Host) (k : ℕ) (saving : Option Saving) : Prop :=
  ∀ t ∈ h.services.eraseIdx k, t.live = true → ∀ w ∈ t.saving, w.Brief ∧ ∀ v ∈ saving, v.Brief

/-- And saves that take several calls meet no other, and a service that starts has nothing behind
the file in its buffer. -/
def Heeds (h : Host) : HostEvent → Prop
  | .load junk _ => Exhausted junk
  | .service k event => ∀ s ∈ h.services[k]?, s.Heeds event ∧
    (s.Opens k event → ∀ next ∈ s.step k h.shared event, h.Apart k next.1.saving)
  | _ => True

end Host

/-- The service `k` is the only one with a save under way, and the file is what it has written. -/
structure Owns (h : Host) (d : Shelf) (k : ℕ) (w : Saving) : Prop where
  alone : ∀ (j : ℕ) t, j ≠ k → h.services[j]? = some t → t.live = true → t.saving = none
  file : h.shared.configFile = w.text.take w.written
  lost : d.saved = .empty

structure Shelved (h : Host) (d : Shelf) : Prop where
  lists : ∀ (k : ℕ) s, h.services[k]? = some s → s.live = true → Stores s.system.server (d.lists k)
  texts : ∀ (k : ℕ) s w, h.services[k]? = some s → s.live = true → s.saving = some w →
    Writes w.text (d.texts k)
  owns : ∀ (k : ℕ) s w, h.services[k]? = some s → s.live = true → s.saving = some w → ¬ w.Brief →
    Owns h d k w
  saved : Reloads h.shared.configFile d.saved

section Shelved

variable {h h' : Host} {d : Shelf} {k : ℕ} {s : Service}

theorem Host.Apart.brief {saving : Option Saving} (hapart : h.Apart k saving) {j : ℕ} {t : Service}
    {w : Saving} (hj : j ≠ k) (ht : h.services[j]? = some t) (hlive : t.live = true)
    (hw : t.saving = some w) : w.Brief ∧ ∀ v ∈ saving, v.Brief :=
  hapart t (List.mem_eraseIdx_iff_getElem?.mpr ⟨j, hj, ht⟩) hlive w hw

theorem Shelved.put (hd : Shelved h d) (hs : h.services[k]? = some s) {next : Service × Shared}
    {d' : Shelf} (hlists : ∀ j, j ≠ k → d'.lists j = d.lists j)
    (htexts : ∀ j, j ≠ k → d'.texts j = d.texts j)
    (hstores : next.1.live = true → Stores next.1.system.server (d'.lists k))
    (hwrites : ∀ w, next.1.live = true → next.1.saving = some w → Writes w.text (d'.texts k))
    (howns : ∀ w, next.1.live = true → next.1.saving = some w → ¬ w.Brief →
      Owns (h.put k next) d' k w)
    (hothers : ∀ (j : ℕ) t w, j ≠ k → h.services[j]? = some t → t.live = true →
      t.saving = some w → ¬ w.Brief → Owns (h.put k next) d' j w)
    (hsaved : Reloads next.2.configFile d'.saved) : Shelved (h.put k next) d' := by
  refine ⟨fun j t ht hlive => ?_, fun j t w ht hlive hsaving => ?_,
    fun j t w ht hlive hsaving hlong => ?_, hsaved⟩
  · rcases (Host.get_put hs).mp ht with ⟨rfl, rfl⟩ | ⟨hj, ht⟩
    · exact hstores hlive
    · rw [hlists j hj]
      exact hd.lists j t ht hlive
  · rcases (Host.get_put hs).mp ht with ⟨rfl, rfl⟩ | ⟨hj, ht⟩
    · exact hwrites w hlive hsaving
    · rw [htexts j hj]
      exact hd.texts j t w ht hlive hsaving
  · rcases (Host.get_put hs).mp ht with ⟨rfl, rfl⟩ | ⟨hj, ht⟩
    · exact howns w hlive hsaving hlong
    · exact hothers j t w hj ht hlive hsaving hlong

theorem Owns.put {j : ℕ} {w : Saving} (hw : Owns h d j w) (hs : h.services[k]? = some s)
    (hlive : s.live = true) {next : Service × Shared} {d' : Shelf}
    (hsaving : next.1.saving = s.saving) (hfile : next.2.configFile = h.shared.configFile)
    (hsaved : d'.saved = d.saved) : Owns (h.put k next) d' j w := by
  refine ⟨fun i t hi ht htlive => ?_, hfile.trans hw.file, hsaved.trans hw.lost⟩
  rcases (Host.get_put hs).mp ht with ⟨rfl, rfl⟩ | ⟨-, ht⟩
  · exact hsaving.trans (hw.alone i s hi hs hlive)
  · exact hw.alone i t hi ht htlive

/-- Nothing happens to the file. -/
theorem Shelved.keep (hd : Shelved h d) (hs : h.services[k]? = some s) (hlive : s.live = true)
    {next : Service × Shared} {d' : Shelf} (hlists : ∀ j, j ≠ k → d'.lists j = d.lists j)
    (htexts : d'.texts = d.texts) (hsaved : d'.saved = d.saved)
    (hstores : next.1.live = true → Stores next.1.system.server (d'.lists k))
    (hsaving : next.1.saving = s.saving) (hfile : next.2.configFile = h.shared.configFile) :
    Shelved (h.put k next) d' := by
  refine hd.put hs hlists (fun j _ => congrFun htexts j) hstores (fun w _ hw => ?_)
    (fun w _ hw hlong => ?_) (fun j t w _ ht htlive hw hlong => ?_) ?_
  · rw [htexts]
    exact hd.texts k s w hs hlive (hsaving ▸ hw)
  · exact (hd.owns k s w hs hlive (hsaving ▸ hw) hlong).put hs hlive hsaving hfile hsaved
  · exact (hd.owns j t w ht htlive hw hlong).put hs hlive hsaving hfile hsaved
  · rw [hfile, hsaved]
    exact hd.saved

/-- A round of the socket thread. -/
theorem Shelved.round (hd : Shelved h d) {t : Service} (ht : h.services[k]? = some t)
    (hlive : t.live = true) (hst : s.system = t.system) (hsaving : s.saving = t.saving)
    {request : Request} {answers : Answers}
    (hapart : s.roundDeeds k request answers ≠ [] →
      h.Apart k (s.round h.shared request answers).1.saving)
    (hnamed : AppendsNamed s.system.server request) :
    ∃ d', Run Shelf.Does d (s.roundDeeds k request answers) d' ∧
      Shelved (h.put k (s.round h.shared request answers)) d' := by
  rw [Service.roundDeeds] at hapart ⊢
  cases hhandle : handleRequest request (s.system.server.asked answers) with
  | error fault server =>
    have hround : s.round h.shared request answers =
        ({ s with system := ⟨server, .ended fault⟩ }, h.shared) := by
      rw [Service.round, hhandle]
    rw [hround]
    have hdead : ∀ {P : Prop},
        Service.live { s with system := ⟨server, .ended fault⟩ } = true → P :=
      fun hlive' => absurd hlive' (dead_of_ended rfl)
    exact ⟨d, .nil d, hd.put ht (fun _ _ => rfl) (fun _ _ => rfl) hdead (fun _ => hdead)
      (fun _ => hdead) (fun j u w _ hu hulive hw hlong =>
        (hd.owns j u w hu hulive hw hlong).put ht hlive hsaving rfl rfl) hd.saved⟩
  | ok response server =>
    rw [hhandle] at hapart
    replace hapart := hapart (List.cons_ne_nil _ _)
    have hothers : ∀ {d' : Shelf} (j : ℕ) u w, j ≠ k → h.services[j]? = some u → u.live = true →
        u.saving = some w → ¬ w.Brief → Owns (h.put k (s.round h.shared request answers)) d' j w :=
      fun j u w hj hu hulive hw hlong => absurd (hapart.brief hj hu hulive hw).1 hlong
    have hs : Stores s.system.server (d.lists k) := hst ▸ hd.lists k t ht hlive
    set command := readCommand (s.system.server.commandBuffer request)
    set fresh := (d.lists k).launched answers command
    have hserver := handled_stores hs hnamed hhandle fresh
    set operand := s.system.server.operandBuffer request
    have hobey := Shelf.Does.obey d k fresh command operand
    dsimp only
    cases hsave : saveProcessList server.processList with
    | error fault =>
      have hround : s.round h.shared request answers =
          ({ s with system := ⟨server, .ended fault⟩ }, { h.shared with configFile := [] }) := by
        rw [Service.round, hhandle]
        simp only [hsave]
      have hdead : (s.round h.shared request answers).1.live ≠ true := by
        rw [hround]
        exact dead_of_ended rfl
      refine ⟨_, .cons hobey (.single (.lose _)), hd.put ht (fun j hj => ?_) (fun _ _ => rfl)
        (fun hlive' => ?_) (fun _ hlive' => ?_) (fun _ hlive' => ?_) hothers ?_⟩
      · exact Function.update_of_ne hj _ _
      · exact absurd hlive' hdead
      · exact absurd hlive' hdead
      · exact absurd hlive' hdead
      · rw [hround]
        exact reloads_nil
    | ok text =>
      have hround : s.round h.shared request answers =
          ({ s with system := ⟨server, s.system.phase⟩, saving := some (.first text) },
            { h.shared with configFile := [] }) := by
        rw [Service.round, hhandle]
        simp only [hsave]
      rw [hround] at hapart hothers ⊢
      refine ⟨_, .cons hobey (.single (.empty _ k)), hd.put ht (fun j hj => ?_) (fun j hj => ?_)
        (fun _ => ?_) (fun w _ hw => ?_) (fun w _ hw hlong => ?_) hothers reloads_nil⟩
      · exact Function.update_of_ne hj _ _
      · exact Function.update_of_ne hj _ _
      · show Stores server (Function.update d.lists k _ k)
        rw [Function.update_self]
        exact hserver
      · obtain rfl := Option.some_inj.mp hw
        show Writes text (Function.update d.texts k _ k)
        rw [Function.update_self]
        show Writes text (Function.update d.lists k _ k)
        rw [Function.update_self]
        exact hserver.writes hsave
      · -- no other save is under way, since this one takes several calls
        obtain rfl := Option.some_inj.mp hw
        refine ⟨fun j u hj hu hulive => ?_, rfl, rfl⟩
        rcases (Host.get_put ht).mp hu with ⟨hjk, -⟩ | ⟨-, hu⟩
        · exact absurd hjk hj
        · by_contra hsaving
          obtain ⟨v, hv⟩ := Option.ne_none_iff_exists'.mp hsaving
          exact hlong ((hapart.brief hj hu hulive hv).2 _ rfl)

/-- A write of the text. -/
theorem Shelved.flush (hd : Shelved h d) (hs : h.services[k]? = some s) (hlive : s.live = true)
    {w : Saving} (hsaving : s.saving = some w) (blocks : ℕ) :
    ∃ d', Run Shelf.Does d (s.deeds k (.flush blocks)) d' ∧
      Shelved (h.put k (s.wrote w blocks, h.shared.write w blocks)) d' := by
  have hstores := hd.lists k s hs hlive
  have hwrites := hd.texts k s w hs hlive hsaving
  have howns := hd.owns k s w hs hlive hsaving
  have hothers : ∀ {d' : Shelf} (j : ℕ) t v, j ≠ k → h.services[j]? = some t → t.live = true →
      t.saving = some v → ¬ v.Brief →
      Owns (h.put k (s.wrote w blocks, h.shared.write w blocks)) d' j v := by
    intro d' j t v hj ht htlive hv hlong
    have hnone := (hd.owns j t v ht htlive hv hlong).alone k s (Ne.symm hj) hs hlive
    rw [hnone] at hsaving
    cases hsaving
  rw [Service.deeds, hsaving, Option.elim_some]
  by_cases hpart : w.upTo blocks < w.text.length
  · have hlong : ¬ w.Brief := fun hbrief => absurd (hbrief.upTo blocks) (Nat.not_le.mpr hpart)
    obtain ⟨halone, hfile, hlost⟩ := howns hlong
    have hfile' := Shared.write_part hfile blocks
    rw [if_pos hpart, Service.wrote_part hpart] at *
    refine ⟨d, .nil d, hd.put hs (fun _ _ => rfl) (fun _ _ => rfl) (fun _ => hstores)
      (fun v _ hv => ?_) (fun v _ hv _ => ?_) hothers ?_⟩
    · obtain rfl := Option.some_inj.mp hv
      exact hwrites
    · obtain rfl := Option.some_inj.mp hv
      refine ⟨fun j t hj ht htlive => ?_, hfile', hlost⟩
      rcases (Host.get_put hs).mp ht with ⟨hjk, -⟩ | ⟨-, ht⟩
      · exact absurd hjk hj
      · exact halone j t hj ht htlive
    · rw [hfile', hlost]
      exact hwrites.part _ hpart
  · have hlast := Nat.not_lt.mp hpart
    obtain ⟨rest, hrest⟩ : ∃ rest, (h.shared.write w blocks).configFile = w.text ++ rest := by
      refine Shared.write_last hlast ?_
      by_cases hbrief : w.Brief
      · exact Or.inl hbrief.written
      · exact Or.inr (howns hbrief).file
    rw [if_neg hpart, Service.wrote_last hlast] at *
    refine ⟨_, .single (.write d k), hd.put hs (fun _ _ => rfl) (fun _ _ => rfl) (fun _ => ?_)
      (fun _ _ hnone => ?_) (fun _ _ hnone => ?_) hothers ?_⟩
    · exact ⟨⟨hstores.tidy.inside, hstores.tidy.unnamed⟩, hstores.saved⟩
    · cases hnone
    · cases hnone
    · rw [hrest]
      exact hwrites.whole rest

theorem Shelved.service (hd : Shelved h d) (hs : h.services[k]? = some s) (hlive : s.live = true)
    {event : ServiceEvent} {next : Service × Shared} (hheeds : s.Heeds event)
    (hapart : s.Opens k event → h.Apart k next.1.saving)
    (hstep : Service.Stepped k s h.shared event next) :
    ∃ d', Run Shelf.Does d (s.deeds k event) d' ∧ Shelved (h.put k next) d' := by
  have hstores := hd.lists k s hs hlive
  have hsame : ∀ {t : Service} {shared : Shared}, t.system = s.system → t.saving = s.saving →
      shared.configFile = h.shared.configFile → Shelved (h.put k (t, shared)) d := by
    intro t shared hsystem hsaving hfile
    refine hd.keep hs hlive (fun _ _ => rfl) rfl rfl (fun _ => ?_) hsaving hfile
    show Stores t.system.server _
    rw [hsystem]
    exact hstores
  cases hstep with
  | unlink => exact ⟨d, .nil d, hsame rfl rfl rfl⟩
  | bind => exact ⟨d, .nil d, hsame rfl rfl rfl⟩
  | fail => exact ⟨d, .nil d, hsame rfl rfl rfl⟩
  | listen => exact ⟨d, .nil d, hsame rfl rfl rfl⟩
  | @accept answers request queue _ _ hqueue =>
    have hhead : s.queue.head? = some request := by rw [hqueue, List.head?_cons]
    have hdeeds : s.deeds k (.accept answers) =
        Service.roundDeeds k { s with queue := queue } request answers := by
      rw [Service.deeds, hhead]
      rfl
    rw [hdeeds]
    exact hd.round (s := { s with queue := queue }) hs hlive rfl rfl
      (fun hdeed => hapart ⟨rfl, hdeeds ▸ hdeed⟩) (hheeds request hhead)
  | spin => exact hd.round hs hlive rfl rfl (fun hdeed => hapart ⟨rfl, hdeed⟩) hheeds
  | flush hsaving => exact hd.flush hs hlive hsaving _
  | @step event σ hbesides hsteps =>
    have hmain := besides_main hbesides
    rw [Service.deeds]
    cases hquits : s.system.quits event with
    | none =>
      refine ⟨d, .nil d, hd.keep hs hlive (fun _ _ => rfl) rfl rfl (fun hlive' => ?_) rfl rfl⟩
      have hσ := steps_stores hstores hsteps hmain (live_running hlive')
      rw [hquits] at hσ
      exact hσ
    | some j =>
      refine ⟨_, .single (.giveUp d k j), hd.keep hs hlive (fun i hi => ?_) rfl rfl
        (fun hlive' => ?_) rfl rfl⟩
      · exact Function.update_of_ne hi _ _
      · have hσ := steps_stores hstores hsteps hmain (live_running hlive')
        rw [hquits] at hσ
        show Stores σ.server (Function.update d.lists k _ k)
        rw [Function.update_self]
        exact hσ
  | kill => exact ⟨d, .nil d, hsame rfl rfl rfl⟩

theorem Shelved.step (hd : Shelved h d) {event : HostEvent} (hheeds : h.Heeds event)
    (hstep : Hosted h event h') :
    ∃ d', Run Shelf.Does d (h.deeds event) d' ∧ Shelved h' d' := by
  have hsame : ∀ {h' : Host}, h'.services = h.services →
      h'.shared.configFile = h.shared.configFile → Shelved h' d := by
    intro h' hservices hfile
    refine ⟨fun k s hs => hd.lists k s (hservices ▸ hs),
      fun k s w hs => hd.texts k s w (hservices ▸ hs), fun k s w hs hlive hw hlong => ?_, ?_⟩
    · obtain ⟨halone, hpart, hlost⟩ := hd.owns k s w (hservices ▸ hs) hlive hw hlong
      exact ⟨fun j t hj ht => halone j t hj (hservices ▸ ht), hfile.trans hpart, hlost⟩
    · rw [hfile]
      exact hd.saved
  cases Host.stepped hstep with
  | ping => exact ⟨d, .nil d, hsame rfl rfl⟩
  | @load junk buffer l n _ hload =>
    obtain ⟨loaded, hloaded, hstores⟩ := hd.saved junk hheeds
    obtain ⟨rfl, rfl⟩ := Prod.mk.inj (Except.ok.inj (hload.symm.trans hloaded))
    refine ⟨_, .single (.load d h.services.length), fun k s hs hlive => ?_, fun k s w hs => ?_,
      fun k s w hs hlive hw hlong => ?_, hd.saved⟩
    · rcases Host.get_load.mp hs with hs | ⟨rfl, rfl⟩
      · have hk : k < h.services.length := (List.getElem?_eq_some_iff.mp hs).1
        show Stores s.system.server (Function.update d.lists _ _ k)
        rw [Function.update_of_ne (Nat.ne_of_lt hk)]
        exact hd.lists k s hs hlive
      · show Stores _ (Function.update d.lists _ _ _)
        rw [Function.update_self]
        have hnew := hstores buffer
        exact ⟨⟨hnew.tidy.inside, hnew.tidy.unnamed⟩, hnew.saved⟩
    · rcases Host.get_load.mp hs with hs | ⟨-, rfl⟩
      · exact hd.texts k s w hs
      · intro _ hnone
        cases hnone
    · rcases Host.get_load.mp hs with hs | ⟨-, rfl⟩
      · obtain ⟨halone, hfile, hlost⟩ := hd.owns k s w hs hlive hw hlong
        refine ⟨fun j t hj ht htlive => ?_, hfile, hlost⟩
        rcases Host.get_load.mp ht with ht | ⟨-, rfl⟩
        · exact halone j t hj ht htlive
        · rfl
      · cases hw
  | @refuse junk _ fault _ hload =>
    obtain ⟨loaded, hloaded, -⟩ := hd.saved junk hheeds
    cases hload.symm.trans hloaded
  | @connect request k s _ hs hlive =>
    exact ⟨d, .nil d, hd.keep hs hlive (fun _ _ => rfl) rfl rfl
      (fun _ => hd.lists k s hs hlive) rfl rfl⟩
  | clean => exact ⟨d, .nil d, hsame rfl rfl⟩
  | @service k event s next hs hlive hstepped hnext =>
    obtain ⟨hnamed, hapart⟩ := hheeds s hs
    rw [Host.deeds, hs]
    exact hd.service hs hlive hnamed (fun hopens => hapart hopens next hstepped) hnext

/-- In every run of any number of services, each has a list of its own, and what a start loads is
the list that has been written last, or nothing behind an `fopen` whose text is not written yet. -/
theorem hosts_follow {events : List HostEvent} (hd : Shelved h d)
    (hrun : Guarded Hosted Host.Heeds h events h') :
    ∃ d', Run Shelf.Does d (Host.history events h) d' ∧ Shelved h' d' := by
  induction hrun generalizing d with
  | nil h => exact ⟨d, .nil d, hd⟩
  | @cons h h₁ h' event events hheeds hstep _ ih =>
    obtain ⟨d₁, hdeeds, hd₁⟩ := hd.step hheeds hstep
    obtain ⟨d', hrest, hd'⟩ := ih hd₁
    have hnext : h.step event = some h₁ := hstep
    refine ⟨d', ?_, hd'⟩
    rw [Host.history, hnext]
    exact hdeeds.append hrest

end Shelved

instance (w : Saving) : Decidable w.Brief :=
  inferInstanceAs (Decidable (w.text.length ≤ blockSize))

instance (k : ℕ) (s : Service) (event : ServiceEvent) : Decidable (s.Opens k event) :=
  inferInstanceAs (Decidable (event.round = true ∧ s.deeds k event ≠ []))

instance (h : Host) (k : ℕ) (saving : Option Saving) : Decidable (h.Apart k saving) :=
  inferInstanceAs (Decidable (∀ t ∈ h.services.eraseIdx k, t.live = true →
    ∀ w ∈ t.saving, w.Brief ∧ ∀ v ∈ saving, v.Brief))

instance (s : Service) : DecidablePred s.Heeds := fun event =>
  match event with
  | .accept _ => inferInstanceAs (Decidable
      (∀ request ∈ s.queue.head?, AppendsNamed s.system.server request))
  | .spin _ => inferInstanceAs (Decidable (AppendsNamed s.system.server ⟨[], []⟩))
  | .unlink => .isTrue trivial
  | .bind => .isTrue trivial
  | .listen => .isTrue trivial
  | .flush _ => .isTrue trivial
  | .step _ => .isTrue trivial
  | .kill => .isTrue trivial

instance (h : Host) : DecidablePred h.Heeds := fun event =>
  match event with
  | .load junk _ => inferInstanceAs (Decidable (∀ b ∈ junk, b = 0))
  | .service k event => inferInstanceAs (Decidable (∀ s ∈ h.services[k]?, s.Heeds event ∧
      (s.Opens k event → ∀ next ∈ s.step k h.shared event, h.Apart k next.1.saving)))
  | .ping => .isTrue trivial
  | .connect _ => .isTrue trivial
  | .clean => .isTrue trivial

/-- What is asked of the service `k`, when it has started its apps. -/
def asksStopall (k : ℕ) : List HostEvent :=
  [.service k (.step (.startup (onePid 7))), .connect (plainRequest "stopall"),
    .service k (.accept (onePid 8)), .service k (.flush 0)]

def stopsOwn : List HostEvent := [.ping, .load [] []] ++ listens 0 ++ asksStopall 0

theorem hosts_follow_web :
    ∃ h' d', Run Hosted (.fresh webConfig) stopsOwn h' ∧
      Run Shelf.Does ⟨fun _ => .empty, fun _ => .empty, webApps⟩
        [.load 0, .obey 0 .stopall (List.replicate 8 0), .empty 0, .write 0] d' ∧
      Shelved h' d' := by
  have hfirst : Shelved (.fresh webConfig) ⟨fun _ => .empty, fun _ => .empty, webApps⟩ :=
    ⟨fun k s hs => (List.not_mem_nil (List.mem_of_getElem? hs)).elim,
      fun k s w hs => (List.not_mem_nil (List.mem_of_getElem? hs)).elim,
      fun k s w hs => (List.not_mem_nil (List.mem_of_getElem? hs)).elim, held_web.saved⟩
  obtain ⟨h', hrun, -⟩ : ∃ h', Guarded Hosted Host.Heeds (.fresh webConfig) stopsOwn h' ∧
      decide (h'.starting = 0) = true :=
    Guarded.of_any (f := Host.step) (by decide +kernel)
  obtain ⟨d', hdeeds, hshelved⟩ := hosts_follow hfirst hrun
  have hhistory : Host.history stopsOwn (.fresh webConfig) =
      [.load 0, .obey 0 .stopall (List.replicate 8 0), .empty 0, .write 0] := by decide +kernel
  exact ⟨h', d', hrun.run, hhistory ▸ hdeeds, hshelved⟩

end KbPm
