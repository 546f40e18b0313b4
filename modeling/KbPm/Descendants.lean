/-
The descendants of an app that is stopped.

The walk over `/proc` does not recognise pids above 32767; each walk costs the service a descriptor;
and each level of the tree takes a part of the stack.

* `kill_iff` — a kill with a limited number of descriptors;
* `stop_kills_descendants` — a stop kills all the descendants exactly if none of the three is
  exceeded, or there are none;
* `child_survives` — each of the three.
-/
import KbPm.Descriptors
import KbPm.KillTree

namespace KbPm

open Subtree

section Kill

variable {table : List (ℤ × ℤ)} {stays : List ℤ → ℤ → Bool} {proc : List ℤ → List DirEntry}
variable {root : ℤ} {limit held depth : ℕ}

/-! ### What is recognised -/

/-- Descendants are recognised if all those between are. -/
theorem below_visible (hall : ∀ x, Relation.TransGen (IsChild table) x root → x ≤ 32767) {x : ℤ} :
    Below (visible table) x root ↔ Below table x root := by
  refine ⟨fun h => h.mono (visible_sublist table).subset, fun h => ?_⟩
  -- up the chain of parents, from the descendant to the root
  induction h using Relation.ReflTransGen.head_induction_on with
  | refl => exact .refl
  | @head c p hc hp ih =>
    have hle : c ≤ 32767 := hall c (Relation.TransGen.head' hc hp)
    exact ih.head (List.mem_filter.mpr ⟨hc, by simpa using hle⟩)

theorem shallow_visible (hall : ∀ x, Relation.TransGen (IsChild table) x root → x ≤ 32767) :
    Shallow (visible table) depth root ↔ Shallow table depth root := by
  induction depth generalizing root with
  | zero => exact Iff.rfl
  | succ depth ih =>
    have hchild : ∀ c, IsChild (visible table) c root ↔ IsChild table c root := by
      intro c
      refine ⟨fun h => (visible_sublist table).subset h, fun h => ?_⟩
      exact List.mem_filter.mpr ⟨h, by simpa using hall c (.single h)⟩
    refine forall_congr' fun c => ?_
    rw [hchild]
    exact imp_congr_right fun hc => ih fun x hx => hall x (hx.tail hc)

/-! ### Descriptors -/

/-- Without a descriptor for them, the first status file that is asked for ends the service. -/
theorem getChildPidsFrom_closed {parentPid : ℤ} {dir : List DirEntry}
    (h : ∃ entry ∈ dir, entry.counts = true) (pids : List ℤ) :
    getChildPidsFrom parentPid (dir.map DirEntry.closed) pids = .error .nullFile := by
  induction dir with
  | nil => simp at h
  | cons entry dir ih =>
    have hclosed : entry.closed.counts = entry.counts := rfl
    rw [List.map_cons]
    by_cases hcounts : entry.counts = true
    · have hparse : parseProcStatusValByTag (fun _ => entry.closed.status)
          (atoi entry.closed.name).toInt (str "PPid") = .error .nullFile := rfl
      exact getChildPidsFrom_fails (hclosed ▸ hcounts) hparse pids
    · rw [getChildPidsFrom_skipped (hclosed ▸ hcounts)]
      obtain ⟨e, he, hecounts⟩ := h
      rcases List.mem_cons.mp he with rfl | he
      · exact absurd hecounts hcounts
      · exact ih ⟨e, he, hecounts⟩

/-- The table after some kills shows process 1 still, if it is not one of them. -/
theorem init_counts (hinit : (1, 0) ∈ table)
    (hproc : ∀ killed, Shows (after 1 stays table killed) (proc killed)) {killed : List ℤ}
    (hkilled : (1 : ℤ) ∉ killed) : ∃ entry ∈ proc killed, entry.counts = true := by
  have hlink : (if (0 : ℤ) ∈ killed then ((1 : ℤ), (1 : ℤ)) else (1, 0)) ∈
      after 1 stays table killed :=
    List.mem_map.mpr ⟨(1, 0), List.mem_filter.mpr ⟨hinit, by simpa using Or.inl hkilled⟩, rfl⟩
  have hpid : (if (0 : ℤ) ∈ killed then ((1 : ℤ), (1 : ℤ)) else (1, 0)).1 = 1 := by split <;> rfl
  exact (hproc killed).counts hlink (by rw [hpid]; exact one_pos) (by rw [hpid]; norm_num)

/-- With a descriptor left, the kill goes to what is recognised, each process once, and comes to its
end exactly if there are descriptors and levels enough. -/
theorem kill_iff (htable : ProcTable table 4194304) (hinit : (1, 0) ∈ table) (hroot : 0 < root)
    (htop : ¬Below table 1 root)
    (hproc : ∀ killed, Shows (after 1 stays table killed) (proc killed)) (hheld : held < limit)
    {killed : List ℤ} :
    killProcessByPid (procHeld limit held fun killed => some (proc killed)) depth root [] =
        .ok (some killed) ↔
      Shallow (visible table) depth root ∧
        held + (preorder (visible table) depth root).length < limit ∧
        killed = preorder (visible table) depth root := by
  have hforest : IsForest (visible table) := htable.forest.sublist (visible_sublist table)
  -- one more walk can be made as long as a descriptor is left behind it
  have hfits : ∀ {l l' : List ℤ}, held + (l ++ l').length < limit ∧ (1 : ℤ) ∉ l ++ l' →
      held + l.length < limit ∧ (1 : ℤ) ∉ l := by
    intro l l' h
    rw [List.length_append, List.mem_append, not_or] at h
    exact ⟨by omega, h.2.1⟩
  have hkill := @traverse_iff ℤ _ (visible table) Fault hforest
    (fun killed pid => getChildPids pid (procHeld limit held (fun killed => some (proc killed))
      killed))
    (fun l => held + l.length < limit ∧ (1 : ℤ) ∉ l) hfits root ?_ ?_ depth [] killed
    (fun _ _ => List.not_mem_nil) ⟨hheld, List.not_mem_nil⟩
  · rw [killProcessByPid_eq]
    refine hkill.trans (and_congr_right fun _ => and_congr_left fun _ => ?_)
    rw [List.nil_append]
    exact and_iff_left fun h1 =>
      htop ((below_of_mem_preorder h1).mono (visible_sublist table).subset)
  · intro w hw killed hkilled hfit
    rw [List.length_append, List.length_singleton, ← Nat.add_assoc] at hfit
    rw [procHeld, if_pos hfit.1]
    exact getChildPids_visible htable hroot htop hproc hw hkilled
  · intro w hw killed hfit hfull vs hvs
    -- process 1 is asked for, and there is no descriptor for its status file
    have hne : (1 : ℤ) ≠ w := by
      rintro rfl
      exact htop (hw.mono (visible_sublist table).subset)
    have hlast : ¬held + killed.length + 1 < limit := by
      intro hlt
      refine hfull ⟨by rwa [List.length_append, List.length_singleton, ← Nat.add_assoc], ?_⟩
      rw [List.mem_append, List.mem_singleton, not_or]
      exact ⟨hfit.2, hne⟩
    rw [procHeld, if_neg hlast, if_pos hfit.1] at hvs
    have hnull := @getChildPidsFrom_closed w _ (init_counts hinit hproc hfit.2) []
    cases hnull.symm.trans hvs

/-- With none left, it goes to the process alone. -/
theorem kill_shut (hheld : limit ≤ held) (proc : List ℤ → Option (List DirEntry))
    {killed : List ℤ} :
    killProcessByPid (procHeld limit held proc) depth root [] = .ok (some killed) ↔
      0 < depth ∧ killed = [root] := by
  have hshut : procHeld limit held proc [] = none := by
    rw [procHeld, List.length_nil, if_neg (by omega), if_neg (by omega)]
  cases depth with
  | zero => exact iff_of_false (by simp [killProcessByPid]) (by simp)
  | succ depth =>
    have hkill : killProcessByPid (procHeld limit held proc) (depth + 1) root [] =
        .ok (some [root]) := by
      rw [killProcessByPid, hshut]
      rfl
    rw [hkill, Except.ok.injEq, Option.some.injEq]
    simpa using eq_comm

/-! ### A stop -/

/-- A kill that comes to its end. -/
theorem Walk.kill_ok {walk : Walk} {pid : ℤ} (hpid : 0 < pid) :
    walk.kill pid = .ok () ↔
      ∃ killed, killProcessByPid walk.proc walk.depth pid [] = .ok (some killed) := by
  rw [Walk.kill, if_neg (by omega)]
  rcases killProcessByPid walk.proc walk.depth pid [] with f | _ | killed
  · exact iff_of_false (fun h => by cases h) (by simp)
  · exact iff_of_false (fun h => by cases h) (by simp)
  · exact iff_of_true rfl ⟨killed, rfl⟩

/-- A stop comes to its end, and its kill has gone to the processes `killed`. -/
def StopKills (limit held : ℕ) (proc : List ℤ → Option (List DirEntry)) (depth : ℕ)
    (process : Process) (s : Server) (killed : List ℤ) : Prop :=
  ∃ held' t, serverStopProcess process s = .ok process.stopped t ∧
    t.kernel.kills = s.kernel.kills ++ [⟨{ process with isRunning := 0 }, s.kernel.children⟩] ∧
    killProcessByPidHeld limit proc depth process.pid ([], held) = .ok (some (killed, held'))

theorem stopKills_iff {proc : List ℤ → Option (List DirEntry)}
    (hproc : ∀ killed, proc killed ≠ none) {process : Process} (hrun : process.isRunning ≠ 0)
    (hpid : 0 < process.pid) {s : Server}
    (hwalk : s.kernel.walk = ⟨procHeld limit held proc, depth⟩) {killed : List ℤ} :
    StopKills limit held proc depth process s killed ↔
      killProcessByPid (procHeld limit held proc) depth process.pid [] = .ok (some killed) := by
  have hstart : heldBehind limit held ([] : List ℤ).length = held := by
    rw [heldBehind, List.length_nil, Nat.add_zero]
    exact max_eq_left (min_le_right _ _)
  have heq := @killProcessByPidHeld_eq limit proc hproc held depth process.pid []
  rw [hstart] at heq
  constructor
  · rintro ⟨held', t, -, -, hkill⟩
    rw [heq] at hkill
    rcases hresult : killProcessByPid (procHeld limit held proc) depth process.pid [] with
      f | _ | killed'
    · rw [hresult] at hkill
      cases hkill
    · rw [hresult] at hkill
      cases hkill
    · rw [hresult] at hkill
      cases hkill
      rfl
  · intro hkill
    have hend : s.kernel.walk.kill process.pid = .ok () := by
      rw [hwalk]
      exact (Walk.kill_ok hpid).mpr ⟨killed, hkill⟩
    refine ⟨heldBehind limit held killed.length, _, serverStopProcess_run hrun hend, rfl, ?_⟩
    rw [heq, hkill]
    rfl

/-- A stop comes to its end and has killed all the descendants exactly if there are descriptors for
all of them, levels of the stack, and no pid above 32767; or if there are no descendants, and no
descriptors either. -/
theorem stop_kills_descendants (htable : ProcTable table 4194304) (hinit : (1, 0) ∈ table)
    (hproc : ∀ killed, Shows (after 1 stays table killed) (proc killed)) {process : Process}
    (hrun : process.isRunning ≠ 0) (hpid : 0 < process.pid) (hne : process.pid ≠ 1) {s : Server}
    (hwalk : s.kernel.walk = ⟨procHeld limit held fun killed => some (proc killed), depth⟩) :
    (∃ killed, StopKills limit held (fun killed => some (proc killed)) depth process s killed ∧
        ∀ x, Relation.TransGen (IsChild table) x process.pid → x ∈ killed) ↔
      (limit ≤ held ∧ 0 < depth ∧ ∀ x, ¬Relation.TransGen (IsChild table) x process.pid) ∨
        (held + {x | Below table x process.pid}.ncard < limit ∧
          Shallow table depth process.pid ∧
          ∀ x, Relation.TransGen (IsChild table) x process.pid → x ≤ 32767) := by
  have htop : ¬Below table 1 process.pid := by
    refine init_not_below htable (fun link hlink h1 => ?_) hpid hne
    have hparent : IsChild table 1 link.2 := h1 ▸ hlink
    exact htable.forest.parent_unique hparent hinit
  have hforest : IsForest (visible table) := htable.forest.sublist (visible_sublist table)
  have hstops : ∀ killed, StopKills limit held (fun killed => some (proc killed)) depth process s
      killed ↔ killProcessByPid (procHeld limit held fun killed => some (proc killed)) depth
        process.pid [] = .ok (some killed) :=
    fun killed => stopKills_iff (fun _ => Option.some_ne_none _) hrun hpid hwalk
  simp only [hstops]
  by_cases hheld : limit ≤ held
  · simp only [kill_shut hheld]
    constructor
    · rintro ⟨killed, ⟨hdepth, rfl⟩, hall⟩
      refine Or.inl ⟨hheld, hdepth, fun x hx => ?_⟩
      obtain rfl := List.mem_singleton.mp (hall x hx)
      exact htable.forest.acyclic _ hx
    · rintro (⟨-, hdepth, hnone⟩ | ⟨hroom, -⟩)
      · exact ⟨_, ⟨hdepth, rfl⟩, fun x hx => absurd hx (hnone x)⟩
      · omega
  · simp only [kill_iff htable hinit hpid htop hproc (not_le.mp hheld)]
    -- with pids that are recognised, the tree is what is visible of it
    have hcount : (∀ x, Relation.TransGen (IsChild table) x process.pid → x ≤ 32767) →
        Shallow (visible table) depth process.pid →
        {x | Below table x process.pid}.ncard =
          (preorder (visible table) depth process.pid).length := by
      intro hle hshallow
      rw [← hshallow.ncard_below hforest]
      exact congrArg Set.ncard (Set.ext fun x => (below_visible hle).symm)
    constructor
    · rintro ⟨killed, ⟨hshallow, hroom, rfl⟩, hall⟩
      have hle : ∀ x, Relation.TransGen (IsChild table) x process.pid → x ≤ 32767 := by
        intro x hx
        -- what is killed is the root or recognised
        rcases Relation.ReflTransGen.cases_head (below_of_mem_preorder (hall x hx)) with
          rfl | ⟨p, hp, -⟩
        · exact absurd hx (htable.forest.acyclic _)
        · exact of_decide_eq_true (List.mem_filter.mp hp).2
      exact Or.inr ⟨by rwa [hcount hle hshallow], (shallow_visible hle).mp hshallow, hle⟩
    · rintro (⟨hfull, -⟩ | ⟨hroom, hdeep, hle⟩)
      · exact absurd hfull hheld
      · have hshallow := (shallow_visible hle).mpr hdeep
        rw [hcount hle hshallow] at hroom
        exact ⟨_, ⟨hshallow, hroom, rfl⟩, fun x hx =>
          hshallow.mem_preorder.mpr ((below_visible hle).mpr hx.to_reflTransGen)⟩

end Kill

/-! Three stops of an app with the pid 600, which has a child and a grandchild. -/

def appProcess : Process := { Process.web with pid := 600 }

/-- The service, when it is about to kill on a machine with these processes. -/
def aboutToStop (table : List (ℤ × ℤ)) (limit held depth : ℕ) : Server :=
  webSystem.server.asked ⟨[], [], fun _ => none,
    [⟨procHeld limit held fun killed => some (procDir (after 1 (fun _ _ => true) table killed)),
      depth⟩]⟩

theorem stop_kills_descendants_app :
    ∃ killed, StopKills 1024 9
        (fun killed => some (procDir (after 1 (fun _ _ => true) appTable killed))) 3 appProcess
        (aboutToStop appTable 1024 9 3) killed ∧
      ∀ x, Relation.TransGen (IsChild appTable) x 600 → x ∈ killed := by
  have htable : ProcTable appTable 4194304 :=
    procTable_of_lt (by decide) (by decide) (by decide) (by decide)
  have hle : ∀ x, Relation.TransGen (IsChild appTable) x 600 → x ≤ 32767 := by
    intro x hx
    obtain ⟨p, hp, -⟩ := Relation.TransGen.head'_iff.mp hx
    have hall : ∀ link ∈ appTable, link.1 ≤ 32767 := by decide
    exact hall _ hp
  have hshallow : Shallow appTable 3 600 := by decide
  refine (stop_kills_descendants htable (by decide) (shows_after (by decide)) (by decide)
    (by decide) (by decide) rfl).mpr (Or.inr ⟨?_, hshallow, hle⟩)
  have hsize : (preorder appTable 3 600).length = 3 := by decide
  change 9 + {x | Below appTable x 600}.ncard < 1024
  rw [hshallow.ncard_below htable.forest, hsize]
  norm_num

/-- The same app, with children whose pids the walk does not recognise. -/
def wideTable : List (ℤ × ℤ) := [(1, 0), (500, 1), (600, 500), (40000, 600), (40001, 40000)]

/-- Process 40000, a child of the app, survives a stop, as does its own child; without a descriptor
so does process 601; and with two of them the service does not survive the stop. -/
theorem child_survives :
    (ProcTable wideTable 4194304 ∧ Relation.TransGen (IsChild wideTable) 40000 600 ∧
      Relation.TransGen (IsChild wideTable) 40001 600 ∧
      StopKills 1024 9
        (fun killed => some (procDir (after 1 (fun _ _ => true) wideTable killed))) 3 appProcess
        (aboutToStop wideTable 1024 9 3) [600]) ∧
    (ProcTable appTable 4194304 ∧ Relation.TransGen (IsChild appTable) 601 600 ∧
      StopKills 1024 1024
        (fun killed => some (procDir (after 1 (fun _ _ => true) appTable killed))) 3 appProcess
        (aboutToStop appTable 1024 1024 3) [600]) ∧
    ∃ t, serverStopProcess appProcess (aboutToStop appTable 1024 1022 3) = .error .nullFile t := by
  have hrun : appProcess.isRunning ≠ 0 := by decide
  have hpid : 0 < appProcess.pid := by decide
  have hkilled : ∀ {table : List (ℤ × ℤ)} {held : ℕ},
      killProcessByPid (procHeld 1024 held
        fun killed => some (procDir (after 1 (fun _ _ => true) table killed))) 3 600 [] =
        .ok (some [600]) →
      StopKills 1024 held
        (fun killed => some (procDir (after 1 (fun _ _ => true) table killed))) 3 appProcess
        (aboutToStop table 1024 held 3) [600] :=
    (stopKills_iff (fun _ => Option.some_ne_none _) hrun hpid rfl).mpr
  refine ⟨⟨procTable_of_lt (by decide) (by decide) (by decide) (by decide), ?_, ?_,
    hkilled (by decide +kernel)⟩, ⟨procTable_of_lt (by decide) (by decide) (by decide) (by decide),
    ?_, hkilled (by decide +kernel)⟩, ?_⟩
  · exact .single (show (40000, 600) ∈ wideTable by decide)
  · exact .tail (.single (show (40001, 40000) ∈ wideTable by decide))
      (show (40000, 600) ∈ wideTable by decide)
  · exact .single (show (601, 600) ∈ appTable by decide)
  · have hkill : (aboutToStop appTable 1024 1022 3).kernel.walk.kill appProcess.pid =
        .error .nullFile := by
      decide +kernel
    obtain ⟨t, ht, -⟩ := serverStopProcess_fail hrun hkill
    exact ⟨t, ht⟩

end KbPm
