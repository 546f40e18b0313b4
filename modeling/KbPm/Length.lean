/-
The two notions of list length.

The handlers keep `process_count`, while saving and deleting take the place of
the first empty name for the length.

* `Tidy.agrees_iff` — the two agree if every entry has a name;
* `handle_agrees` — a request keeps them equal exactly if it does not append a
  process without a name;
* `count_eq_iff_appendsNamed` — so they agree in every run of such requests.
-/
import KbPm.Entries
import KbPm.ProcessText

namespace KbPm

open Trace

def Agrees (s : Server) : Prop := s.processCount = getProcessListCount s.processList

/-- The request does not append a process without a name. -/
def AppendsNamed (s : Server) (request : Request) : Prop :=
  ∀ p, s.plan request = .ok [.append p] → p.appName ≠ .empty

theorem Tidy.agrees_iff {s : Server} (h : Tidy s) :
    Agrees s ↔ ∀ p ∈ s.entries, p.appName ≠ .empty := by
  constructor
  · intro hagrees p hp
    obtain ⟨k, hk⟩ := List.mem_iff_getElem?.mp hp
    obtain ⟨hlt, hslot⟩ := entries_get hk
    rw [Agrees] at hagrees
    exact named_of_lt_count hslot (by omega)
  · intro hnamed
    refine (count_eq h.inside (fun k p hk hp => ?_) fun p hp => ?_).symm
    · exact hnamed p (List.mem_of_getElem? (entries_of_slot hk hp))
    · exact h.unnamed _ p (le_refl _) hp

instance (s : Server) (request : Request) : Decidable (AppendsNamed s request) :=
  decidable_of_iff ((match s.plan request with
    | .ok [.append p] => decide (p.appName ≠ .empty)
    | _ => true) = true) (by
      unfold AppendsNamed
      split
      · rename_i p h
        simp [h]
      · rename_i h
        exact iff_of_true rfl fun p hp => absurd hp (h p))

/-- Names are kept, so the lengths still agree. -/
theorem Tidy.agrees_of_names {s t : Server} (hs : Tidy s) (ht : Tidy t) (hagrees : Agrees s)
    (hnames : t.entries.map Process.appName = s.entries.map Process.appName) : Agrees t := by
  rw [ht.agrees_iff]
  rw [hs.agrees_iff] at hagrees
  intro p hp
  have hmem : p.appName ∈ s.entries.map Process.appName :=
    hnames ▸ List.mem_map_of_mem hp
  obtain ⟨q, hq, hname⟩ := List.mem_map.mp hmem
  exact hname ▸ hagrees q hq

theorem plan_agrees {s t : Server} {request : Request} {ops : List Op} (htidy : Tidy s)
    (hagrees : Agrees s) (hplan : s.plan request = .ok ops) (hrun : Run Effect s ops t) :
    Tidy t ∧ (Agrees t ↔ AppendsNamed s request) := by
  have hother : ops.length ≠ 1 ∨ (∀ p, ops ≠ [.append p]) → AppendsNamed s request := by
    intro hne p hp
    rw [hplan] at hp
    obtain rfl := Except.ok.inj hp
    rcases hne with hne | hne
    · exact absurd rfl hne
    · exact absurd rfl (hne p)
  rcases (plan_cases htidy.inside hplan).local with hlocal | happend | hremove
  · -- the names stay as they are
    have htidy' := htidy.local hrun hlocal
    refine ⟨htidy', iff_of_true ?_ (hother (Or.inr fun p hp => ?_))⟩
    · exact htidy.agrees_of_names htidy' hagrees (entries_names hrun hlocal)
    · subst hp
      exact hlocal _ List.mem_cons_self
  · obtain ⟨p, buffer, res, rfl, -, -⟩ := happend
    obtain ⟨u, hstep, hu⟩ := run_cons.mp hrun
    obtain rfl := run_nil.mp hu
    have htidy' := htidy.append hstep
    obtain ⟨pid, forks, -, -, hentries, -⟩ := hstep.append_entries
    refine ⟨htidy', ?_⟩
    rw [htidy'.agrees_iff, hentries]
    constructor
    · intro hnamed q hq
      rw [hplan] at hq
      cases hq
      exact hnamed { p.started pid s.kernel.now with id := s.processCount }
        (List.mem_append_right _ (List.mem_singleton_self _))
    · intro hnamed q hq
      rcases List.mem_append.mp hq with hq | hq
      · exact htidy.agrees_iff.mp hagrees q hq
      · rw [List.mem_singleton.mp hq]
        exact hnamed p hplan
  · obtain ⟨p, pos, hlisted, rfl⟩ := hremove
    obtain ⟨u, k, r, hstop, hr, -, hstep⟩ := run_remove hlisted hrun
    have htidyu := htidy.local hstop (stopOps_local pos)
    have hagreesu := htidy.agrees_of_names htidyu hagrees (entries_names hstop (stopOps_local pos))
    have hfits : Fits u := by
      rw [Agrees] at hagreesu
      rw [Fits]
      omega
    obtain ⟨j, w, hw, hwname, -, hcount, hkernel, htidyv, hget⟩ :=
      entries_remove htidyu hfits hr hstep
    refine ⟨htidyv, iff_of_true ?_ (hother (Or.inr fun x hx => ?_))⟩
    · rw [htidyv.agrees_iff]
      intro x hx
      obtain ⟨i, hi⟩ := List.mem_iff_getElem?.mp hx
      rw [hget i] at hi
      have hnamedu := htidyu.agrees_iff.mp hagreesu
      split at hi
      · exact hnamedu x (List.mem_of_getElem? hi)
      · obtain ⟨y, hy, rfl⟩ := Option.map_eq_some_iff.mp hi
        exact hnamedu y (List.mem_of_getElem? hy)
    · have hmem : Op.remove p.appName ∈ [Op.append x] := by
        rw [← hx]
        exact List.mem_append_right _ List.mem_cons_self
      cases List.mem_singleton.mp hmem

/-- What is removed is one entry with the name, and the count is lowered by one. -/
theorem plan_remove_names {s t : Server} {request : Request} {ops : List Op} {name : StrBuf}
    (htidy : Tidy s) (hagrees : Agrees s) (hplan : s.plan request = .ok ops)
    (hname : .remove name ∈ ops) (hrun : Run Effect s ops t) :
    ∃ j : ℕ, (s.entries.map Process.appName)[j]? = some name ∧
      t.entries.map Process.appName = (s.entries.map Process.appName).eraseIdx j := by
  rcases (plan_cases htidy.inside hplan).local with hlocal | happend | hremove
  · exact (hlocal _ hname).elim
  · obtain ⟨p, buffer, res, rfl, -, -⟩ := happend
    cases List.mem_singleton.mp hname
  · obtain ⟨p, pos, hlisted, rfl⟩ := hremove
    obtain rfl : name = p.appName := by
      rcases List.mem_append.mp hname with hmem | hmem
      · exact (stopOps_local pos _ hmem).elim
      · cases List.mem_singleton.mp hmem
        rfl
    obtain ⟨u, k, r, hstop, hr, hrname, hstep⟩ := run_remove hlisted hrun
    have hnames := entries_names hstop (stopOps_local pos)
    have htidyu := htidy.local hstop (stopOps_local pos)
    -- both lengths agree, and one more slot is left
    have hfits : Fits u := by
      have hagreesu := htidy.agrees_of_names htidyu hagrees hnames
      rw [Agrees] at hagreesu
      rw [Fits]
      omega
    obtain ⟨j, w, hw, hwname, -, -, -, -, hget⟩ := entries_remove htidyu hfits hr hstep
    refine ⟨j, ?_, ?_⟩
    · rw [← hnames, List.getElem?_map, hw, Option.map_some, hwname, hrname]
    · rw [names_remove hget, hnames]

/-- The lengths agree as long as no request appends a process without a name, and
not behind one that does. -/
theorem count_eq_iff_appendsNamed {s t : Server} {calls : List (Request × Answers)}
    (hlist : s.processList = .zero) (hcount : s.processCount = 0)
    (hrun : Guarded Served (fun s call => AppendsNamed s call.1) s calls t) :
    t.processCount = getProcessListCount t.processList ∧
      (calls ≠ [] → createProcessListJsonStr t.processList t.processCount = .ok t.configFile) ∧
      ∀ call u, Served t call u →
        (u.processCount = getProcessListCount u.processList ↔ AppendsNamed t call.1) ∧
        ∀ ops name, t.plan call.1 = .ok ops → .remove name ∈ ops →
          ∃ j : ℕ, (t.entries.map Process.appName)[j]? = some name ∧
            u.entries.map Process.appName = (t.entries.map Process.appName).eraseIdx j := by
  have hempty : Tidy s ∧ Agrees s := by
    have htidy := tidy_of_zero hlist hcount
    refine ⟨htidy, htidy.agrees_iff.mpr ?_⟩
    rw [entries_of_zero hcount]
    simp
  have hstep : ∀ (u : Server) (call : Request × Answers) (v : Server), Tidy u ∧ Agrees u →
      Served u call v → Tidy v ∧ (Agrees v ↔ AppendsNamed u call.1) ∧
        (Agrees v → createProcessListJsonStr v.processList v.processCount = .ok v.configFile) := by
    rintro u call v ⟨htidy, hagrees⟩ hserved
    obtain ⟨ops, w, text, hplan, hops, hsave, rfl⟩ := hserved.plan htidy.inside
    have htidy' : Tidy (u.asked call.2) := ⟨htidy.inside, htidy.unnamed⟩
    obtain ⟨htidyw, hiff⟩ := plan_agrees htidy' hagrees hplan hops
    refine ⟨⟨htidyw.inside, htidyw.unnamed⟩, hiff, fun hw => ?_⟩
    have hw : w.processCount = getProcessListCount w.processList := hw
    change createProcessListJsonStr w.processList w.processCount = .ok text
    rw [hw]
    exact createProcessListJsonStr_of_save hsave
  have hkeep : ∀ (u : Server) (call : Request × Answers) (v : Server), Tidy u ∧ Agrees u →
      AppendsNamed u call.1 → Served u call v → (Tidy v ∧ Agrees v) ∧
        createProcessListJsonStr v.processList v.processCount = .ok v.configFile := by
    intro u call v hu hnamed hv
    obtain ⟨htidy, hiff, hsaved⟩ := hstep u call v hu hv
    exact ⟨⟨htidy, hiff.mpr hnamed⟩, hsaved (hiff.mpr hnamed)⟩
  obtain ⟨htidy, hagrees⟩ := hrun.invariant
    (fun u call v hu hnamed hv => (hkeep u call v hu hnamed hv).1) hempty
  refine ⟨hagrees, fun hne => ?_, fun call u hu => ⟨?_, fun ops name hplan hname => ?_⟩⟩
  · -- the first request writes the file, and every later one does
    cases hrun with
    | nil => exact absurd rfl hne
    | cons hnamed hfirst hrest =>
      exact (hrest.invariant (fun u call v hu hnamed hv => hkeep u call v hu.1 hnamed hv)
        (hkeep _ _ _ hempty hnamed hfirst)).2
  · exact (hstep t call u ⟨htidy, hagrees⟩ hu).2.1
  · obtain ⟨ops', w, text, hplan', hops, hsave, rfl⟩ := hu.plan htidy.inside
    obtain rfl : ops = ops' := Except.ok.inj (hplan.symm.trans hplan')
    exact plan_remove_names (s := t.asked call.2) (t := w) ⟨htidy.inside, htidy.unnamed⟩ hagrees
      hplan hname hops

/-- A request that starts a process, with a pid for it. -/
def startCall (process : Process) (pid : ℤ) : Request × Answers :=
  (⟨str "start", createProcessJsonStr process⟩, ⟨[pid], [1], fun _ => none, []⟩)

theorem count_eq_iff_appendsNamed_web :
    ∃ t, Served .empty (startCall .web 7) t ∧ t.processCount = 1 ∧
      t.processCount = getProcessListCount t.processList := by
  obtain ⟨t, hserved, ht⟩ := served_of .empty (startCall .web 7)
    (fun t => decide (t.processCount = 1)) (by decide +kernel)
  have hnamed : AppendsNamed .empty (startCall .web 7).1 := by decide +kernel
  refine ⟨t, hserved, by simpa using ht, ?_⟩
  exact (count_eq_iff_appendsNamed rfl rfl (.cons hnamed hserved (.nil t))).1

/-- A process without a name is counted, but no longer found. -/
theorem count_differs_nameless :
    ∃ t, Run Served .empty [startCall .zero 7] t ∧
      t.processCount = 1 ∧ getProcessListCount t.processList = 0 ∧ t.configFile = str "[]" := by
  obtain ⟨t, hserved, ht⟩ := served_of .empty (startCall .zero 7)
    (fun t => decide (t.processCount = 1 ∧ getProcessListCount t.processList = 0 ∧
      t.configFile = str "[]")) (by decide +kernel)
  exact ⟨t, .single hserved, by simpa using ht⟩

end KbPm
