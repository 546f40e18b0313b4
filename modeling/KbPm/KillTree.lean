/-
The recursive kill, on a table of processes.

A process that is killed leaves its children to process 1, and may stay in the table
until it is reaped.

* `kill_visible` — the kill goes to the processes that the walk over `/proc`
  recognises, each of them once;
* `kill_tree` — with all pids at most 32767 this is the tree.
-/
import KbPm.Handling
import KbPm.ProcStatus
import KbPm.Supervisor

namespace KbPm

open Subtree

/-- A table of processes and their parents, with pids up to `maxPid`. -/
structure ProcTable (table : List (ℤ × ℤ)) (maxPid : ℤ) : Prop where
  pids : ∀ link ∈ table, 0 < link.1 ∧ link.1 ≤ maxPid
  forest : IsForest table
  children : ∀ pid ≠ 0, (Subtree.children table pid).length ≤ childProcessLen

theorem visible_sublist (table : List (ℤ × ℤ)) : (visible table).Sublist table :=
  List.filter_sublist

theorem visible_cons (link : ℤ × ℤ) (table : List (ℤ × ℤ)) :
    visible (link :: table) = if link.1 ≤ 32767 then link :: visible table else visible table := by
  rw [visible, List.filter_cons]
  by_cases h : link.1 ≤ 32767
  · rw [if_pos (by simpa using h), if_pos h]
    rfl
  · rw [if_neg (by simpa using h), if_neg h]
    rfl

/-- What is recognised does not depend on the parents. -/
theorem visible_after (stays : List ℤ → ℤ → Bool) (table : List (ℤ × ℤ)) (killed : List ℤ) :
    visible (after 1 stays table killed) = after 1 stays (visible table) killed := by
  induction table with
  | nil => rfl
  | cons link table ih =>
    have hpid : (if link.2 ∈ killed then (link.1, 1) else link).1 = link.1 := by split <;> rfl
    rw [after_cons, visible_cons]
    -- kept or gone, recognised or not: both filters look at the pid only
    by_cases hkept : link.1 ∉ killed ∨ stays killed link.1 <;> by_cases hle : link.1 ≤ 32767
    · rw [if_pos hkept, if_pos hle, visible_cons, hpid, if_pos hle, after_cons, if_pos hkept, ih]
    · rw [if_pos hkept, if_neg hle, visible_cons, hpid, if_neg hle, ih]
    · rw [if_neg hkept, if_pos hle, after_cons, if_neg hkept, ih]
    · rw [if_neg hkept, if_neg hle, ih]

/-- `/proc` on a machine with these processes, after some of them have been killed. -/
theorem shows_after {stays : List ℤ → ℤ → Bool} {table : List (ℤ × ℤ)}
    (h : ∀ link ∈ table, 0 ≤ link.1 ∧ 0 ≤ link.2) (killed : List ℤ) :
    Shows (after 1 stays table killed) (procDir (after 1 stays table killed)) := by
  refine shows_procDir fun link hlink => ?_
  obtain ⟨link', hlink', hpid, hppid⟩ := mem_after hlink
  obtain ⟨hpid', hppid'⟩ := h link' hlink'
  refine ⟨hpid ▸ hpid', ?_⟩
  rcases hppid with hppid | hppid
  · exact hppid ▸ hppid'
  · rw [hppid]
    exact one_pos.le

theorem procTable_of_lt {table : List (ℤ × ℤ)} {maxPid : ℤ}
    (hpids : ∀ link ∈ table, 0 < link.1 ∧ link.1 ≤ maxPid) (hunique : (table.map Prod.fst).Nodup)
    (hlt : ∀ link ∈ table, link.2 < link.1) (hlength : table.length ≤ childProcessLen) :
    ProcTable table maxPid :=
  ⟨hpids, isForest_of_lt hunique hlt, fun pid _ => (length_children_le table pid).trans hlength⟩

/-- The service 500, and an app with a child and a grandchild. -/
def appTable : List (ℤ × ℤ) := [(1, 0), (500, 1), (600, 500), (601, 600), (602, 601), (700, 500)]

section Kill

variable {table : List (ℤ × ℤ)} {stays : List ℤ → ℤ → Bool}
    {proc : List ℤ → List DirEntry} {root : ℤ}

/-- Process 1 is at the top. -/
theorem init_not_below {maxPid : ℤ} (htable : ProcTable table maxPid)
    (hinit : ∀ link ∈ table, link.1 = 1 → link.2 = 0)
    (hroot : 0 < root) (hne : root ≠ 1) : ¬Below table 1 root := by
  intro h
  rcases Relation.ReflTransGen.cases_head h with heq | ⟨p, hp, hbelow⟩
  · exact hne heq.symm
  · obtain rfl : p = 0 := hinit _ hp rfl
    rcases Relation.ReflTransGen.cases_head hbelow with heq | ⟨q, hq, -⟩
    · omega
    · exact absurd (htable.pids _ hq).1 (lt_irrefl 0)

/-- A process is visited while its subtree is alive, so the walk finds the children that the first
table has. -/
theorem getChildPids_visible (htable : ProcTable table 4194304) (hroot : 0 < root)
    (hinit : ¬Below table 1 root)
    (hproc : ∀ killed, Shows (after 1 stays table killed) (proc killed)) {w : ℤ}
    (hw : Below (visible table) w root) {killed : List ℤ}
    (hkilled : ∀ x, Below (visible table) x w → x ∉ killed) :
    getChildPids w (some (proc killed)) = .ok (children (visible table) w) := by
  have hsub := (visible_sublist table).subset
  have hne : w ≠ 1 := by
    rintro rfl
    exact hinit (hw.mono hsub)
  -- what is visited is the root or in the table
  have hpos : 0 < w := by
    rcases Relation.ReflTransGen.cases_head hw with rfl | ⟨p, hp, -⟩
    · exact hroot
    · exact (htable.pids _ (hsub hp)).1
  obtain ⟨pid, rfl⟩ := Int.eq_ofNat_of_zero_le hpos.le
  have hsame : children (visible (after 1 stays table killed)) pid =
      children (visible table) pid := by
    rw [visible_after]
    exact children_after hne hkilled
  rw [← hsame]
  refine getChildPids_shows (hproc killed) (fun link hlink => ?_) ?_
  · obtain ⟨link', hlink', hpid, -⟩ := mem_after hlink
    rw [hpid]
    exact htable.pids link' hlink'
  · rw [hsame]
    have hle : (children (visible table) (pid : ℤ)).length ≤ (children table pid).length :=
      (((visible_sublist table).filter _).map Prod.fst).length_le
    exact hle.trans (htable.children pid hpos.ne')

theorem kill_visible (htable : ProcTable table 4194304) (hroot : 0 < root)
    (hinit : ¬Below table 1 root)
    (hproc : ∀ killed, Shows (after 1 stays table killed) (proc killed)) :
    ∃ depth kills, kills.Nodup ∧ (∀ x, x ∈ kills ↔ Below (visible table) x root) ∧
      ∀ d ≥ depth, killProcessByPid (fun killed => some (proc killed)) d root [] =
        .ok (some kills) := by
  have hforest : IsForest (visible table) := htable.forest.sublist (visible_sublist table)
  obtain ⟨depth, hdepth⟩ := hforest.shallow root
  refine ⟨depth, preorder (visible table) depth root, hforest.preorder_nodup depth root,
    fun x => hdepth.mem_preorder, fun d hd => ?_⟩
  rw [killProcessByPid_eq, hdepth.preorder_eq hd]
  exact traverse_spec hforest (fun w hw killed => getChildPids_visible htable hroot hinit hproc hw)
    (hdepth.mono hd) (by simp)

/-- With pids up to 32767 the kill goes to the tree: to every process in it once, and to no other,
although each kill changes the parents of those that come next. -/
theorem kill_tree (htable : ProcTable table 32767) (hroot : 0 < root) (hinit : ¬Below table 1 root)
    (hproc : ∀ killed, Shows (after 1 stays table killed) (proc killed)) :
    ∃ depth kills, (∀ d ≥ depth, killProcessByPid (fun killed => some (proc killed)) d root [] =
      .ok (some kills)) ∧ kills.Nodup ∧
      ∀ x, x ∈ kills ↔ Below table x root := by
  have hall : visible table = table :=
    List.filter_eq_self.mpr fun link hlink => by simpa using (htable.pids link hlink).2
  have htable' : ProcTable table 4194304 :=
    ⟨fun link hlink => ⟨(htable.pids link hlink).1, (htable.pids link hlink).2.trans (by norm_num)⟩,
      htable.forest, htable.children⟩
  obtain ⟨depth, kills, hnodup, hmem, hrun⟩ := kill_visible htable' hroot hinit hproc
  rw [hall] at hmem
  exact ⟨depth, kills, hrun, hnodup, hmem⟩

theorem kill_tree_app :
    ∃ depth kills, (∀ d ≥ depth, killProcessByPid
        (fun killed => some (procDir (after 1 (fun _ _ => true) appTable killed))) d 600 [] =
        .ok (some kills)) ∧
      kills.Nodup ∧ ∀ x, x ∈ kills ↔ Below appTable x 600 := by
  have htable : ProcTable appTable 32767 :=
    procTable_of_lt (by decide) (by decide) (by decide) (by decide)
  have hinit : ¬Below appTable 1 600 := init_not_below htable (by decide) (by decide) (by decide)
  exact kill_tree htable (by decide) hinit (shows_after (by decide))

end Kill

end KbPm
