/-
The descriptors that the service holds open.

At most `limit` descriptors are open at a time.  The functions that open files and
directories are here with the number of those that are open.

* `getChildPidsHeld`, `killProcessByPidHeld` — the walk, which does not close `/proc`,
  and the kill; `kill_held` — what they cost; `killProcessByPidHeld_eq` — it is
  `kill_process_by_pid` on a `/proc` that opens as long as a descriptor is left;
* `statusHeld`, `saveHeld` — the files that are closed again;
* `Holder`, `Round` — the service, and a request from `accept` on;
* `held_iff` — a request leaves the number as it was exactly if it stops nothing, or
  could not open `/proc`.
-/
import KbPm.ProcStatus
import KbPm.Persistence

namespace KbPm

open Trace

/-! ### The code -/

/-- `parse_proc_status_val_by_tag`, with its `fopen` and `fclose` -/
def parseProcStatusHeld (limit : ℕ) (procStatus : ℤ → Option (List Text)) (pid : ℤ) (tag : Text)
    (held : ℕ) : Except Fault (Text × ℕ) :=
  if held < limit then do
    let held := held + 1
    let value ← parseProcStatusValByTag procStatus pid tag
    return (value, held - 1)
  else .error .nullFile

/-- The loop of `get_child_pids`. -/
def getChildPidsHeldFrom (limit : ℕ) (parentPid : ℤ) :
    List DirEntry → List ℤ → ℕ → Except Fault (List ℤ × ℕ)
  | [], pids, held => .ok (pids, held)
  | entry :: entries, pids, held =>
    if entry.counts then do
      let pid := (atoi entry.name).toInt
      let (buf, held) ← parseProcStatusHeld limit (fun _ => entry.status) pid (str "PPid") held
      if buf ≠ errResult ∧ decimal parentPid = buf then
        if pids.length < childProcessLen then
          getChildPidsHeldFrom limit parentPid entries (pids ++ [pid]) held
        else .error .overrun
      else
        getChildPidsHeldFrom limit parentPid entries pids held
    else
      getChildPidsHeldFrom limit parentPid entries pids held

/-- `get_child_pids`: `opendir` takes a descriptor, and there is no `closedir`. -/
def getChildPidsHeld (limit : ℕ) (parentPid : ℤ) (dir : Option (List DirEntry)) (held : ℕ) :
    Except Fault (List ℤ × ℕ) :=
  match dir with
  | none => .ok ([], held)
  | some proc =>
    if held < limit then getChildPidsHeldFrom limit parentPid proc [] (held + 1)
    else .ok ([], held)

/-- The loop of `kill_process_by_pid`; `none` is the lack of depth. -/
def eachHeld (kill : ℤ → List ℤ × ℕ → Except Fault (Option (List ℤ × ℕ))) :
    List ℤ → List ℤ × ℕ → Except Fault (Option (List ℤ × ℕ))
  | [], result => .ok (some result)
  | pid :: pids, result => do
    match ← kill pid result with
    | none => return none
    | some result => eachHeld kill pids result

/-- `kill_process_by_pid`, from the pids that have been sent `SIGKILL` and the descriptors
that are open. -/
def killProcessByPidHeld (limit : ℕ) (proc : List ℤ → Option (List DirEntry)) :
    ℕ → ℤ → List ℤ × ℕ → Except Fault (Option (List ℤ × ℕ))
  | 0, _, _ => .ok none
  | depth + 1, pid, (killed, held) => do
    let (childPids, held) ← getChildPidsHeld limit pid (proc killed) held
    eachHeld (killProcessByPidHeld limit proc depth) childPids (killed ++ [pid], held)

/-- The status files that `create_process_list_json_str_with_status` reads. -/
def statusHeld (limit : ℕ) (procStatus : ℤ → Option (List Text)) :
    List Process → ℕ → Except Fault ℕ
  | [], held => .ok held
  | process :: processes, held =>
    if process.isRunning ≠ 0 then do
      let (_, held) ← parseProcStatusHeld limit procStatus process.pid (str "VmHWM") held
      statusHeld limit procStatus processes held
    else statusHeld limit procStatus processes held

/-- `fopen` and `fclose` of `save_process_list` -/
def saveHeld (limit held : ℕ) : Except Fault ℕ :=
  if held < limit then .ok (held + 1 - 1) else .error .nullFile

/-! ### What they cost -/

section Costs

variable {limit : ℕ}

theorem parseProcStatusHeld_held {procStatus : ℤ → Option (List Text)} {pid : ℤ} {tag value : Text}
    {held held' : ℕ} (h : parseProcStatusHeld limit procStatus pid tag held = .ok (value, held')) :
    held' = held ∧ parseProcStatusValByTag procStatus pid tag = .ok value := by
  unfold parseProcStatusHeld at h
  split at h
  · obtain ⟨v, hv, h⟩ := Slots.bind_eq_ok h
    cases h
    exact ⟨rfl, hv⟩
  · cases h

/-- The status files are closed, and the children are those of the walk without descriptors. -/
theorem getChildPidsHeldFrom_held {parentPid : ℤ} {dir : List DirEntry} {pids pids' : List ℤ}
    {held held' : ℕ} (h : getChildPidsHeldFrom limit parentPid dir pids held = .ok (pids', held')) :
    held' = held ∧ getChildPidsFrom parentPid dir pids = .ok pids' := by
  induction dir generalizing pids with
  | nil =>
    cases h
    exact ⟨rfl, rfl⟩
  | cons entry dir ih =>
    rw [getChildPidsHeldFrom] at h
    rw [getChildPidsFrom]
    by_cases hcounts : entry.counts = true
    · rw [if_pos hcounts] at h ⊢
      obtain ⟨⟨buf, held₁⟩, hbuf, hrest⟩ := Slots.bind_eq_ok h
      obtain ⟨hheld, hvalue⟩ := parseProcStatusHeld_held hbuf
      subst hheld
      simp only at hrest
      simp only [hvalue, Slots.ok_bind]
      by_cases hchild : buf ≠ errResult ∧ decimal parentPid = buf
      · rw [if_pos hchild] at hrest ⊢
        by_cases hroom : pids.length < childProcessLen
        · rw [if_pos hroom] at hrest ⊢
          exact ih hrest
        · rw [if_neg hroom] at hrest
          cases hrest
      · rw [if_neg hchild] at hrest ⊢
        exact ih hrest
    · rw [if_neg hcounts] at h ⊢
      exact ih h

/-- `/proc` cannot be opened: it is not there, or no descriptor is left. -/
def Shut (limit : ℕ) (dir : Option (List DirEntry)) (held : ℕ) : Prop := dir = none ∨ limit ≤ held

theorem getChildPidsHeld_held {parentPid : ℤ} {dir : Option (List DirEntry)} {pids : List ℤ}
    {held held' : ℕ} (h : getChildPidsHeld limit parentPid dir held = .ok (pids, held')) :
    (Shut limit dir held ∧ pids = [] ∧ held' = held) ∨
      (¬Shut limit dir held ∧ getChildPids parentPid dir = .ok pids ∧ held' = held + 1) := by
  unfold getChildPidsHeld at h
  split at h
  · cases h
    exact Or.inl ⟨Or.inl rfl, rfl, rfl⟩
  · rename_i proc
    split at h
    · rename_i hlt
      obtain ⟨rfl, hpids⟩ := getChildPidsHeldFrom_held h
      refine Or.inr ⟨?_, hpids, rfl⟩
      rintro (hnone | hle)
      · cases hnone
      · omega
    · rename_i hge
      cases h
      exact Or.inl ⟨Or.inr (by omega), rfl, rfl⟩

/-- What a kill costs: nothing if `/proc` cannot be opened, and then it kills only the
process itself; otherwise at least a descriptor. -/
structure KillHeld (limit : ℕ) (proc : List ℤ → Option (List DirEntry)) (pid : ℤ)
    (before after : List ℤ × ℕ) : Prop where
  grows : before.2 ≤ after.2
  bounded : before.2 ≤ limit → after.2 ≤ limit
  shut : Shut limit (proc before.1) before.2 → after = (before.1 ++ [pid], before.2)
  opened : ¬Shut limit (proc before.1) before.2 → before.2 < after.2

theorem eachHeld_keeps {kill : ℤ → List ℤ × ℕ → Except Fault (Option (List ℤ × ℕ))}
    {R : ℕ → ℕ → Prop} (hrefl : ∀ held, R held held)
    (htrans : ∀ {a b c}, R a b → R b c → R a c)
    (hkill : ∀ pid before after, kill pid before = .ok (some after) → R before.2 after.2)
    {pids : List ℤ} {before after : List ℤ × ℕ}
    (h : eachHeld kill pids before = .ok (some after)) : R before.2 after.2 := by
  induction pids generalizing before with
  | nil =>
    cases h
    exact hrefl _
  | cons pid pids ih =>
    obtain ⟨result, hresult, h⟩ := Slots.bind_eq_ok h
    cases result with
    | none => cases h
    | some result => exact htrans (hkill pid before result hresult) (ih h)

theorem kill_held {proc : List ℤ → Option (List DirEntry)} {depth : ℕ} {pid : ℤ}
    {before after : List ℤ × ℕ}
    (h : killProcessByPidHeld limit proc depth pid before = .ok (some after)) :
    KillHeld limit proc pid before after := by
  induction depth generalizing pid before after with
  | zero => cases h
  | succ depth ih =>
    obtain ⟨killed, held⟩ := before
    obtain ⟨⟨childPids, held'⟩, hchildren, heach⟩ := Slots.bind_eq_ok h
    have hgrows := eachHeld_keeps (R := fun a b => a ≤ b) (fun _ => le_rfl) (fun h h' => h.trans h')
      (fun pid before after h => (ih h).grows) heach
    have hbounded := eachHeld_keeps (R := fun a b => a ≤ limit → b ≤ limit) (fun _ h => h)
      (fun h h' ha => h' (h ha)) (fun pid before after h => (ih h).bounded) heach
    rcases getChildPidsHeld_held hchildren with ⟨hshut, rfl, rfl⟩ | ⟨hopen, -, rfl⟩
    · cases heach
      exact ⟨le_rfl, id, fun _ => rfl, fun hopen => absurd hshut hopen⟩
    · refine ⟨(Nat.le_succ held).trans hgrows, fun _ => hbounded ?_, fun hshut =>
        absurd hshut hopen,
        fun _ => hgrows⟩
      -- the descriptor for `/proc` was left
      by_contra hfull
      exact hopen (Or.inr (by change ¬held + 1 ≤ limit at hfull; omega))

/-! The kill does what it does without descriptors on a `/proc` that they close. -/

/-- The status file cannot be opened. -/
def DirEntry.closed (entry : DirEntry) : DirEntry := { entry with status := none }

/-- What the walks of a kill find, if `held` descriptors are open before it: each walk leaves one
more open.  The last descriptor opens `/proc`, but no status file. -/
def procHeld (limit held : ℕ) (proc : List ℤ → Option (List DirEntry)) (killed : List ℤ) :
    Option (List DirEntry) :=
  if held + killed.length + 1 < limit then proc killed
  else if held + killed.length < limit then (proc killed).map (List.map DirEntry.closed)
  else none

/-- The descriptors that are open when the walk has looked for the children of `n` processes. -/
def heldBehind (limit held n : ℕ) : ℕ := max held (min limit (held + n))

theorem getChildPidsHeldFrom_eq {parentPid : ℤ} {dir : List DirEntry} {pids : List ℤ} {held : ℕ}
    (h : held < limit) :
    getChildPidsHeldFrom limit parentPid dir pids held =
      (getChildPidsFrom parentPid dir pids).map fun pids => (pids, held) := by
  induction dir generalizing pids with
  | nil => rfl
  | cons entry dir ih =>
    by_cases hcounts : entry.counts = true
    · rw [getChildPidsHeldFrom, getChildPidsFrom, if_pos hcounts, if_pos hcounts]
      simp only [parseProcStatusHeld, if_pos h]
      cases parseProcStatusValByTag (fun _ => entry.status) (atoi entry.name).toInt
        (str "PPid") with
      | error f => rfl
      | ok buf =>
        simp only [Slots.ok_bind, pure, Except.pure, Nat.add_sub_cancel]
        split_ifs
        · exact ih
        · rfl
        · exact ih
    · rw [getChildPidsHeldFrom, if_neg hcounts, getChildPidsFrom_skipped hcounts]
      exact ih

/-- Without a descriptor no status file can be opened. -/
theorem getChildPidsHeldFrom_full {parentPid : ℤ} {dir : List DirEntry} {pids : List ℤ} {held : ℕ}
    (h : limit ≤ held) :
    getChildPidsHeldFrom limit parentPid dir pids held =
      (getChildPidsFrom parentPid (dir.map DirEntry.closed) pids).map fun pids => (pids, held) := by
  induction dir with
  | nil => rfl
  | cons entry dir ih =>
    have hclosed : entry.closed.counts = entry.counts := rfl
    rw [getChildPidsHeldFrom, List.map_cons]
    by_cases hcounts : entry.counts = true
    · have hparse : parseProcStatusValByTag (fun _ => entry.closed.status)
          (atoi entry.closed.name).toInt (str "PPid") = .error .nullFile := rfl
      rw [if_pos hcounts, getChildPidsFrom_fails (hclosed ▸ hcounts) hparse]
      simp only [parseProcStatusHeld, if_neg (not_lt.mpr h)]
      rfl
    · rw [if_neg hcounts, getChildPidsFrom_skipped (hclosed ▸ hcounts)]
      exact ih

theorem getChildPidsHeld_eq {proc : List ℤ → Option (List DirEntry)} {parentPid : ℤ} {held : ℕ}
    {killed : List ℤ} (hproc : proc killed ≠ none) :
    getChildPidsHeld limit parentPid (proc killed) (heldBehind limit held killed.length) =
      (getChildPids parentPid (procHeld limit held proc killed)).map fun pids =>
        (pids, heldBehind limit held (killed.length + 1)) := by
  obtain ⟨dir, hdir⟩ := Option.ne_none_iff_exists'.mp hproc
  rw [procHeld, hdir, getChildPidsHeld]
  by_cases hopen : held + killed.length < limit
  · have hbefore : heldBehind limit held killed.length = held + killed.length := by
      rw [heldBehind]
      omega
    have hbehind : heldBehind limit held (killed.length + 1) = held + killed.length + 1 := by
      rw [heldBehind]
      omega
    rw [hbefore, hbehind, if_pos hopen]
    by_cases hlast : held + killed.length + 1 < limit
    · rw [if_pos hlast]
      exact getChildPidsHeldFrom_eq hlast
    · rw [if_neg hlast, if_pos hopen]
      exact getChildPidsHeldFrom_full (not_lt.mp hlast)
  · have hbehind : heldBehind limit held (killed.length + 1) =
        heldBehind limit held killed.length := by
      rw [heldBehind, heldBehind]
      omega
    have hfull : ¬heldBehind limit held killed.length < limit := by
      rw [heldBehind]
      omega
    rw [hbehind, if_neg hfull, if_neg (by omega), if_neg hopen]
    rfl

theorem eachHeld_eq {kill : ℤ → List ℤ × ℕ → Except Fault (Option (List ℤ × ℕ))}
    {kill' : ℤ → List ℤ → Except Fault (Option (List ℤ))} {held : ℕ → ℕ}
    (hkill : ∀ pid killed, kill pid (killed, held killed.length) =
      (kill' pid killed).map (Option.map fun killed => (killed, held killed.length)))
    {pids killed : List ℤ} :
    eachHeld kill pids (killed, held killed.length) =
      (Subtree.each kill' pids killed).map
        (Option.map fun killed => (killed, held killed.length)) := by
  induction pids generalizing killed with
  | nil => rfl
  | cons pid pids ih =>
    rw [eachHeld, Subtree.each, hkill]
    rcases kill' pid killed with f | _ | killed'
    · rfl
    · rfl
    · exact ih

theorem killProcessByPidHeld_eq {proc : List ℤ → Option (List DirEntry)}
    (hproc : ∀ killed, proc killed ≠ none) {held depth : ℕ} {pid : ℤ} {killed : List ℤ} :
    killProcessByPidHeld limit proc depth pid (killed, heldBehind limit held killed.length) =
      (killProcessByPid (procHeld limit held proc) depth pid killed).map
        (Option.map fun killed => (killed, heldBehind limit held killed.length)) := by
  induction depth generalizing pid killed with
  | zero => rfl
  | succ depth ih =>
    rw [killProcessByPidHeld, killProcessByPid, getChildPidsHeld_eq (hproc killed)]
    cases getChildPids pid (procHeld limit held proc killed) with
    | error f => rfl
    | ok childPids =>
      have hlength : killed.length + 1 = (killed ++ [pid]).length := by
        rw [List.length_append, List.length_singleton]
      simp only [Except.map, Slots.ok_bind]
      rw [hlength]
      exact eachHeld_eq fun pid killed => ih

/-- The files of the status text are closed. -/
theorem statusHeld_held {procStatus : ℤ → Option (List Text)} {processes : List Process}
    {held held' : ℕ} (h : statusHeld limit procStatus processes held = .ok held') :
    held' = held := by
  induction processes with
  | nil =>
    cases h
    rfl
  | cons process processes ih =>
    rw [statusHeld] at h
    by_cases hrun : process.isRunning ≠ 0
    · rw [if_pos hrun] at h
      obtain ⟨⟨value, held₁⟩, hvalue, hrest⟩ := Slots.bind_eq_ok h
      obtain ⟨hheld, -⟩ := parseProcStatusHeld_held hvalue
      subst hheld
      exact ih hrest
    · rw [if_neg hrun] at h
      exact ih h

theorem saveHeld_held {held held' : ℕ} (h : saveHeld limit held = .ok held') : held' = held := by
  unfold saveHeld at h
  split at h
  · cases h
    rfl
  · cases h

end Costs

/-! ### Requests -/

/-- The service, and the number of its descriptors. -/
structure Holder where
  server : Server
  held : ℕ

/-- A request, the answers of the kernel to it, and what `/proc` holds while entry `k` is being
stopped and some pids have been killed. -/
structure Call where
  request : Request
  answers : Answers
  proc : ℕ → List ℤ → Option (List DirEntry)

/-- The descriptors in an operation: only a stop calls `kill_process`. -/
inductive Holds (limit : ℕ) (proc : ℕ → List ℤ → Option (List DirEntry)) :
    Server → Op → ℕ → ℕ → Prop
  | stop {s : Server} {k : ℕ} {p : Process} {depth : ℕ} {killed : List ℤ} {held held' : ℕ}
    (hp : s.processList[k]? = some p)
    (hkill : killProcessByPidHeld limit (proc k) depth p.pid ([], held) =
      .ok (some (killed, held'))) : Holds limit proc s (.stop k) held held'
  | other {s : Server} {op : Op} {held : ℕ} (hop : ∀ k, op ≠ .stop k) :
    Holds limit proc s op held held

/-- A request that is handled: the socket that `accept` opens is closed behind the response. -/
structure Round (limit : ℕ) (x : Holder) (call : Call) (y : Holder) : Prop where
  served : Served x.server (call.request, call.answers) y.server
  accepted : x.held < limit
  handled : ∃ ops u held held',
    x.server.plan call.request = .ok ops ∧
    Run (Along Effect (Holds limit call.proc)) (x.server.asked call.answers, x.held + 1) ops
      (u, held) ∧
    u.processList = y.server.processList ∧ u.kernel = y.server.kernel ∧
    (if readCommand (x.server.commandBuffer call.request) = .status then
      statusHeld limit call.answers.procStatus x.server.entries held = .ok held'
    else held' = held) ∧
    saveHeld limit (held' - 1) = .ok y.held

/-- The request stops a running entry, and `/proc` can be opened for that. -/
def Leaks (limit : ℕ) (x : Holder) (call : Call) : Prop :=
  ∃ ops k, x.server.plan call.request = .ok ops ∧ .stop k ∈ ops ∧
    ¬Shut limit (call.proc k []) (x.held + 1)

theorem holds_run {limit : ℕ} {proc : ℕ → List ℤ → Option (List DirEntry)} {ops : List Op}
    {a b : Server × ℕ} (h : Run (Along Effect (Holds limit proc)) a ops b) :
    a.2 ≤ b.2 ∧ (b.2 = a.2 ↔ ∀ k, .stop k ∈ ops → Shut limit (proc k []) a.2) := by
  induction h with
  | nil a => simp
  | @cons a b c op ops hstep _ ih =>
    obtain ⟨s, held⟩ := a
    obtain ⟨t, held'⟩ := b
    obtain ⟨-, hholds⟩ := hstep
    change Holds limit proc s op held held' at hholds
    obtain ⟨hle, hiff⟩ := ih
    cases hholds with
    | @stop k p depth killed _ _ hp hkill =>
      have hcost := kill_held hkill
      by_cases hshut : Shut limit (proc k []) held
      · -- it kills the process alone
        obtain rfl : held' = held := congrArg Prod.snd (hcost.shut hshut)
        refine ⟨hle, hiff.trans ⟨fun h j hj => ?_, fun h j hj => h j (List.mem_cons_of_mem _ hj)⟩⟩
        rcases List.mem_cons.mp hj with heq | hj
        · cases heq
          exact hshut
        · exact h j hj
      · have hlt : held < held' := hcost.opened hshut
        refine ⟨hlt.le.trans hle, iff_of_false (hlt.trans_le hle).ne' fun h => ?_⟩
        exact hshut (h k List.mem_cons_self)
    | other hop =>
      refine ⟨hle, hiff.trans ⟨fun h j hj => ?_, fun h j hj => h j (List.mem_cons_of_mem _ hj)⟩⟩
      rcases List.mem_cons.mp hj with heq | hj
      · exact absurd heq.symm (hop j)
      · exact h j hj

/-- A request costs descriptors exactly if it leaks one. -/
theorem Round.held {limit : ℕ} {x y : Holder} {call : Call} (h : Round limit x call y) :
    x.held ≤ y.held ∧ (y.held = x.held ↔ ¬Leaks limit x call) := by
  obtain ⟨ops, u, held, held', hplan, hrun, -, -, hstatus, hsave⟩ := h.handled
  obtain ⟨hle, hiff⟩ := holds_run hrun
  have hheld : held' = held := by
    split at hstatus
    · exact statusHeld_held hstatus
    · exact hstatus
  obtain rfl := hheld
  have hend := saveHeld_held hsave
  change x.held + 1 ≤ held' at hle
  change held' = x.held + 1 ↔ ∀ k, .stop k ∈ ops → Shut limit (call.proc k []) (x.held + 1) at hiff
  refine ⟨by omega, ?_⟩
  have hequal : y.held = x.held ↔ held' = x.held + 1 := by omega
  rw [hequal, hiff]
  constructor
  · rintro hshut ⟨ops', k, hops', hk, hopen⟩
    obtain rfl := Except.ok.inj (hplan.symm.trans hops')
    exact hopen (hshut k hk)
  · intro hleaks k hk
    by_contra hopen
    exact hleaks ⟨ops, k, hplan, hk, hopen⟩

end KbPm
