/-
What the service is for: an ordered list of apps.

* `AppList` — apps with nonempty and distinct names, each of them stopped or
  running as some instance;
* `AppList.update`, `AppList.push`, `AppList.erase` — the changes it admits;
* `AppList.resolve` — what an operand names: an app by its id or by its name, or
  a program;
* `AppList.act` — the effect of a request; the kernel chooses the instances;
* `AppList.launched`, `AppList.stops` — the instances that it starts and stops.
-/
import KbPm.Server

namespace KbPm

/-- A running instance of an app. -/
structure Instance where
  pid : ℤ
  startTime : ℤ

/-- The `i`th instance that the kernel gives. -/
def Answers.launch (answers : Answers) (i : ℕ) : Instance :=
  ⟨answers.forks.getD i 0, answers.times.getD i 0⟩

structure App where
  appName : StrBuf
  cmd : StrBuf
  dir : StrBuf
  /-- the instance, if the app is running -/
  running : Option Instance

@[ext]
structure AppList where
  apps : List App
  named : ∀ app ∈ apps, app.appName ≠ .empty
  distinct : (apps.map App.appName).Nodup

/-- What the operand of a request names. -/
inductive Target
  | app (k : ℕ)
  | program (appName cmd dir : StrBuf)
  | unknown

namespace AppList

def empty : AppList := ⟨[], by simp, by simp⟩

theorem map_appName_mapIdx (apps : List App) (f : ℕ → Option Instance → Option Instance) :
    (apps.mapIdx fun k app => { app with running := f k app.running }).map App.appName =
      apps.map App.appName := by
  apply List.ext_getElem?
  intro k
  rw [List.getElem?_map, List.getElem?_mapIdx, List.getElem?_map, Option.map_map]
  rfl

/-- Start and stop apps. -/
def update (l : AppList) (f : ℕ → Option Instance → Option Instance) : AppList where
  apps := l.apps.mapIdx fun k app => { app with running := f k app.running }
  named := by
    intro app happ
    obtain ⟨k, hk⟩ := List.mem_iff_getElem?.mp happ
    rw [List.getElem?_mapIdx] at hk
    obtain ⟨old, hold, rfl⟩ := Option.map_eq_some_iff.mp hk
    exact l.named old (List.mem_of_getElem? hold)
  distinct := by
    rw [map_appName_mapIdx]
    exact l.distinct

theorem update_id {l : AppList} {f : ℕ → Option Instance → Option Instance}
    (h : ∀ (k : ℕ) app, l.apps[k]? = some app → f k app.running = app.running) :
    l.update f = l := by
  apply AppList.ext
  apply List.ext_getElem?
  intro k
  rw [update, List.getElem?_mapIdx]
  cases hk : l.apps[k]? with
  | none => rfl
  | some app => rw [Option.map_some, h k app hk]

/-- Add an app, if its name is admitted. -/
def push (l : AppList) (app : App) : AppList :=
  if h : app.appName ≠ .empty ∧ app.appName ∉ l.apps.map App.appName then
    { apps := l.apps ++ [app]
      named := by
        intro a ha
        rcases List.mem_append.mp ha with ha | ha
        · exact l.named a ha
        · rw [List.mem_singleton.mp ha]
          exact h.1
      distinct := by
        rw [List.map_append, List.nodup_append]
        refine ⟨l.distinct, by simp, fun a ha b hb => ?_⟩
        rintro rfl
        rw [List.map_singleton, List.mem_singleton] at hb
        exact h.2 (hb ▸ ha) }
  else l

def erase (l : AppList) (k : ℕ) : AppList where
  apps := l.apps.eraseIdx k
  named := fun app happ => l.named app (List.mem_of_mem_eraseIdx happ)
  distinct := l.distinct.sublist ((List.eraseIdx_sublist _ _).map _)

/-- Ids come before names, and names before programs. -/
def resolve (l : AppList) (operand : Text) : Target :=
  if getProcessId l.apps.length operand ≠ -1 then
    .app (getProcessId l.apps.length operand).toNat
  else
    match l.apps.findIdx? fun app => app.appName.bytes == cstr operand with
    | some k => .app k
    | none =>
      match parseProcess .zero operand with
      | .ok (process, 0) => .program process.appName process.cmd process.dir
      | _ => .unknown

/-- The effect of a request; `fresh k` is the instance that is started for app `k`. -/
def act (l : AppList) (fresh : ℕ → Instance) : Command → Target → AppList
  | .startall, _ => l.update fun j running => running.or (some (fresh j))
  | .stopall, _ => l.update fun _ _ => none
  | .start, .app k =>
    l.update fun j running => if j = k then running.or (some (fresh j)) else running
  | .stop, .app k => l.update fun j running => if j = k then none else running
  | .restart, .app k =>
    l.update fun j running => if j = k then running.map fun _ => fresh j else running
  | .remove, .app k => l.erase k
  | .start, .program appName cmd dir => l.push ⟨appName, cmd, dir, some (fresh l.apps.length)⟩
  | _, _ => l

/-- The instance that a request starts for app `j`, from the answers of `fork` and
`time`: only `startall` starts several, those before `j` first. -/
def launched (l : AppList) (answers : Answers) (command : Command) (j : ℕ) : Instance :=
  match command with
  | .startall => answers.launch ((l.apps.take j).countP fun app => app.running.isNone)
  | _ => answers.launch 0

/-- The instances that a request stops, in this order. -/
def stops (l : AppList) : Command → Target → List Instance
  | .stopall, _ => l.apps.filterMap App.running
  | .stop, .app k | .restart, .app k | .remove, .app k => (l.apps[k]?.bind App.running).toList
  | _, _ => []

end AppList

end KbPm
