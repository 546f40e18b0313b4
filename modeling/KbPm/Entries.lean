/-
The entries of the list, and what operations make of them.

* `entries_setSlot`, `Effect.append_entries` — an entry is changed, or one is appended;
* `Acts`, `entry_run` — what operations on single entries do to one of them;
* `entries_program` — they keep what it executes;
* `Tidy`, `Fits` — the slots from `process_count` on have no name; at most the
  last entry has none;
* `entries_remove` — with these, a removal deletes the last entry with the name.
-/
import KbPm.Plan
import KbPm.ProcessList

namespace KbPm

open Trace

/-! ### Changes of one entry, and at the end -/

theorem entries_setSlot (s : Server) (k : ℕ) (p : Process) :
    (s.setSlot k p).entries = s.entries.set k p := Slots.inUse_write _ _ _

theorem Effect.append_entries {s t : Server} {p : Process} (h : Effect s (.append p) t) :
    ∃ pid forks, s.kernel.answers.forks = pid :: forks ∧ 0 ≤ pid ∧
      t.entries = s.entries ++ [{ p.started pid s.kernel.now with id := s.processCount }] ∧
      t.kernel = s.kernel.forked p pid forks ∧ s.processCount < listSize := by
  cases h with
  | append hn hf h0 => exact ⟨_, _, hf, h0, Slots.inUse_push _ _ hn, rfl, hn⟩

/-- What an operation does to its entry, when `forks` are the answers of `fork`. -/
inductive Acts (forks : List ℤ) : Process → Op → Process → Prop
  | note {k : ℕ} {p q : Process} (h : p.Similar q) : Acts forks p (.note k) q
  | number {k : ℕ} {p : Process} : Acts forks p (.number k) { p with id := k }
  | start {k : ℕ} {p : Process} {pid now : ℤ} (h0 : 0 ≤ pid) (hf : pid ∈ forks) :
    Acts forks p (.start k) (p.started pid now)
  | relaunch {k : ℕ} {p : Process} {pid now : ℤ} (h0 : 0 ≤ pid) (hf : pid ∈ forks)
    (hrun : p.isRunning ≠ 0) : Acts forks p (.relaunch k) (p.started pid now)
  | stop {k : ℕ} {p : Process} (hrun : p.isRunning ≠ 0) (hpid : 0 < p.pid) :
    Acts forks p (.stop k) p.stopped
  | quit {k : ℕ} {p : Process} (hrun : p.isRunning ≠ 0) : Acts forks p (.quit k) p.quit

theorem Effect.forks {s t : Server} {op : Op} (h : Effect s op t) :
    t.kernel.answers.forks ⊆ s.kernel.answers.forks := by
  cases h with
  | start hk hp hf h0 => exact hf ▸ List.subset_cons_self _ _
  | relaunch hk hp hrun hf h0 => exact hf ▸ List.subset_cons_self _ _
  | append hn hf h0 => exact hf ▸ List.subset_cons_self _ _
  | _ => exact List.Subset.refl _

theorem set_entry {s : Server} {k j : ℕ} {p q r : Process} (hk : k < s.processCount)
    (hp : s.processList[k]? = some p) (hr : s.entries[j]? = some r) :
    (k = j ∧ r = p ∧ (s.setSlot k q).entries[j]? = some q) ∨
      (k ≠ j ∧ (s.setSlot k q).entries[j]? = some r) := by
  rw [entries_setSlot, List.getElem?_set]
  have hlt : k < s.entries.length := (List.getElem?_eq_some_iff.mp (entries_of_slot hk hp)).1
  by_cases hkj : k = j
  · subst hkj
    rw [entries_of_slot hk hp, Option.some_inj] at hr
    rw [if_pos rfl, if_pos hlt]
    exact Or.inl ⟨rfl, hr.symm, rfl⟩
  · rw [if_neg hkj]
    exact Or.inr ⟨hkj, hr⟩

/-- An operation on one entry acts on it and leaves the others as they are. -/
theorem Effect.entry {s t : Server} {op : Op} (h : Effect s op t) (hop : op.Local) {j : ℕ}
    {p : Process} (hp : s.entries[j]? = some p) :
    (op.slot = some j ∧ ∃ q, t.entries[j]? = some q ∧ Acts s.kernel.answers.forks p op q) ∨
      (op.slot ≠ some j ∧ t.entries[j]? = some p) := by
  -- a write to one slot, read back at this entry or at another one
  have hset : ∀ {u : Server} {k : ℕ} {q : Process}, u.entries = s.entries →
      k < u.processCount → (∃ r, u.processList[k]? = some r ∧
        (r = p → Acts s.kernel.answers.forks p op q)) → op.slot = some k →
      (op.slot = some j ∧ ∃ q', (u.setSlot k q).entries[j]? = some q' ∧
        Acts s.kernel.answers.forks p op q') ∨
      (op.slot ≠ some j ∧ (u.setSlot k q).entries[j]? = some p) := by
    rintro u k q hu hk ⟨r, hr, hacts⟩ hslot
    rw [← hu] at hp
    rcases set_entry (q := q) hk hr hp with ⟨rfl, rfl, hq⟩ | ⟨hne, hq⟩
    · exact Or.inl ⟨hslot, q, hq, hacts rfl⟩
    · exact Or.inr ⟨by rw [hslot]; simpa using hne, hq⟩
  cases h with
  | tick => exact Or.inr ⟨by simp [Op.slot], hp⟩
  | note hk hr hq => exact hset rfl hk ⟨_, hr, fun h => h ▸ .note hq⟩ rfl
  | number hk hr => exact hset rfl hk ⟨_, hr, fun h => h ▸ .number⟩ rfl
  | start hk hr hf h0 =>
    exact hset (u := s.setKernel _) rfl hk ⟨_, hr,
      fun h => h ▸ .start h0 (hf ▸ List.mem_cons_self)⟩ rfl
  | relaunch hk hr hrun hf h0 =>
    exact hset (u := s.setKernel _) rfl hk
      ⟨_, hr, fun h => h ▸ .relaunch h0 (hf ▸ List.mem_cons_self) hrun⟩ rfl
  | stop hk hr hrun hpid =>
    exact hset (u := s.setKernel _) rfl hk ⟨_, hr, fun h => h ▸ .stop hrun hpid⟩ rfl
  | quit hk hr hrun => exact hset rfl hk ⟨_, hr, fun h => h ▸ .quit hrun⟩ rfl
  | append => exact hop.elim
  | remove => exact hop.elim

theorem Acts.mono {forks forks' : List ℤ} {p q : Process} {op : Op} (h : Acts forks p op q)
    (hsub : forks ⊆ forks') : Acts forks' p op q := by
  cases h with
  | note h => exact .note h
  | number => exact .number
  | start h0 hf => exact .start h0 (hsub hf)
  | relaunch h0 hf hrun => exact .relaunch h0 (hsub hf) hrun
  | stop hrun hpid => exact .stop hrun hpid
  | quit hrun => exact .quit hrun

/-- An entry sees of a run the operations on it. -/
theorem entry_run {s t : Server} {ops : List Op} (h : Run Effect s ops t)
    (hops : ∀ op ∈ ops, op.Local) {j : ℕ} {p : Process} (hp : s.entries[j]? = some p) :
    ∃ q, t.entries[j]? = some q ∧
      Run (Acts s.kernel.answers.forks) p (ops.filter fun op => op.slot = some j) q := by
  induction h generalizing p with
  | nil s => exact ⟨p, hp, .nil p⟩
  | @cons s u t op ops hstep _ ih =>
    have hrest := fun {r} (hr : u.entries[j]? = some r) =>
      ih (fun op hop => hops op (List.mem_cons_of_mem _ hop)) hr
    have hmono : ∀ {a b : Process} {ls : List Op}, Run (Acts u.kernel.answers.forks) a ls b →
        Run (Acts s.kernel.answers.forks) a ls b := fun h => h.mono fun _ _ _ ha =>
      ha.mono hstep.forks
    rcases hstep.entry (hops _ List.mem_cons_self) hp with ⟨hslot, r, hr, hacts⟩ | ⟨hslot, hr⟩
    · obtain ⟨q, hq, hrun⟩ := hrest hr
      refine ⟨q, hq, ?_⟩
      rw [List.filter_cons, if_pos (by simpa using hslot)]
      exact .cons hacts (hmono hrun)
    · obtain ⟨q, hq, hrun⟩ := hrest hr
      refine ⟨q, hq, ?_⟩
      rw [List.filter_cons, if_neg (by simpa using hslot)]
      exact hmono hrun

theorem length_run {s t : Server} {ops : List Op} (h : Run Effect s ops t)
    (hops : ∀ op ∈ ops, op.Local) : t.entries.length = s.entries.length := by
  induction h with
  | nil s => rfl
  | @cons s u t op ops hstep _ ih =>
    rw [ih fun op hop => hops op (List.mem_cons_of_mem _ hop)]
    cases hstep with
    | tick => rfl
    | append => exact (hops _ List.mem_cons_self).elim
    | remove => exact (hops _ List.mem_cons_self).elim
    | _ => exact (congrArg List.length (entries_setSlot _ _ _)).trans List.length_set

/-- And there are no others. -/
theorem entry_of_run {s t : Server} {ops : List Op} (h : Run Effect s ops t)
    (hops : ∀ op ∈ ops, op.Local) {j : ℕ} {q : Process} (hq : t.entries[j]? = some q) :
    ∃ p, s.entries[j]? = some p ∧
      Run (Acts s.kernel.answers.forks) p (ops.filter fun op => op.slot = some j) q := by
  have hlt := (List.getElem?_eq_some_iff.mp hq).1
  rw [length_run h hops] at hlt
  obtain ⟨q', hq', hacts⟩ := entry_run h hops (List.getElem?_eq_getElem hlt)
  obtain rfl : q = q' := Option.some_inj.mp (hq.symm.trans hq')
  exact ⟨_, List.getElem?_eq_getElem hlt, hacts⟩

/-- An entry keeps its pid, has none, or has one that `fork` has returned. -/
theorem acts_pid {forks : List ℤ} {p q : Process} {ops : List Op} (h : Run (Acts forks) p ops q) :
    q.pid = p.pid ∨ q.pid = 0 ∨ q.pid ∈ forks := by
  induction h with
  | nil p => exact Or.inl rfl
  | cons hact _ ih =>
    cases hact with
    | note hsim => exact ih.imp_left fun h => h.trans (by rw [hsim])
    | number => exact ih
    | start h0 hf => exact Or.inr (ih.elim (fun h => Or.inr (h ▸ hf)) id)
    | relaunch h0 hf hrun => exact Or.inr (ih.elim (fun h => Or.inr (h ▸ hf)) id)
    | stop hrun hpid => exact Or.inr (ih.elim Or.inl id)
    | quit hrun => exact Or.inr (ih.elim Or.inl id)

/-- When it has been stopped, it does not keep it. -/
theorem acts_stopped {forks : List ℤ} {p q : Process} {ops : List Op} {k : ℕ}
    (h : Run (Acts forks) p ops q) (hstop : .stop k ∈ ops) : q.pid = 0 ∨ q.pid ∈ forks := by
  induction h with
  | nil p => cases hstop
  | cons hact hrun ih =>
    rcases List.mem_cons.mp hstop with rfl | hstop
    · cases hact
      exact (acts_pid hrun).elim Or.inl id
    · exact ih hstop

/-! The operations on slot `j`, among operations on one slot and on different ones. -/

theorem filter_slot_self {k : ℕ} {ops : List Op} (h : ∀ op ∈ ops, op.slot = some k) :
    ops.filter (fun op => op.slot = some k) = ops :=
  List.filter_eq_self.mpr fun op hop => by simpa using h op hop

theorem filter_slot_other {j k : ℕ} {ops : List Op} (h : ∀ op ∈ ops, op.slot = some k)
    (hj : j ≠ k) : ops.filter (fun op => op.slot = some j) = [] :=
  List.filter_eq_nil_iff.mpr fun op hop => by simpa [h op hop] using Ne.symm hj

/-- An entry is kept by operations on the others. -/
theorem entry_kept {s t : Server} {ops : List Op} (h : Run Effect s ops t)
    (hops : ∀ op ∈ ops, op.Local) {j : ℕ} (hj : ∀ op ∈ ops, op.slot ≠ some j) :
    t.entries[j]? = s.entries[j]? := by
  have hnil : ops.filter (fun op => op.slot = some j) = [] :=
    List.filter_eq_nil_iff.mpr fun op hop => by simpa using hj op hop
  cases hp : s.entries[j]? with
  | none =>
    rw [List.getElem?_eq_none_iff] at hp ⊢
    rw [length_run h hops]
    exact hp
  | some p =>
    obtain ⟨q, hq, hacts⟩ := entry_run h hops hp
    rw [hnil] at hacts
    obtain rfl := run_nil.mp hacts
    exact hq

theorem filter_slot_map {f : ℕ → Op} (hf : ∀ k, (f k).slot = some k) {ks : List ℕ} (hks : ks.Nodup)
    (j : ℕ) : (ks.map f).filter (fun op => op.slot = some j) = if j ∈ ks then [f j] else [] := by
  induction ks with
  | nil => rfl
  | cons k ks ih =>
    obtain ⟨hk, hks⟩ := List.nodup_cons.mp hks
    rw [List.map_cons, List.filter_cons, ih hks]
    by_cases hkj : k = j
    · subst hkj
      rw [if_pos (by simp [hf]), if_neg hk, if_pos List.mem_cons_self]
    · have hmem : j ∈ k :: ks ↔ j ∈ ks := by
        rw [List.mem_cons, or_iff_right (Ne.symm hkj)]
      rw [if_neg (by simpa [hf] using hkj)]
      simp only [hmem]

/-- Entries keep what they execute. -/
theorem entries_program {s t : Server} {ops : List Op} (h : Run Effect s ops t)
    (hops : ∀ op ∈ ops, op.Local) :
    t.entries.map Process.program = s.entries.map Process.program := by
  obtain ⟨hcount, hget⟩ := Effect.keeps_run h hops
  apply List.ext_getElem?
  intro k
  rw [List.getElem?_map, List.getElem?_map, Server.entries, Server.entries, Slots.getElem?_inUse,
    Slots.getElem?_inUse, hcount]
  split
  · exact hget k
  · rfl

theorem entries_names {s t : Server} {ops : List Op} (h : Run Effect s ops t)
    (hops : ∀ op ∈ ops, op.Local) :
    t.entries.map Process.appName = s.entries.map Process.appName := by
  have hmap := congrArg (List.map Prod.fst) (entries_program h hops)
  rw [List.map_map, List.map_map] at hmap
  exact hmap

/-- With distinct names, a name is that of one entry. -/
theorem index_of_nodup {s : Server} (h : (s.entries.map Process.appName).Nodup) {i j : ℕ}
    {p q : Process} (hp : s.entries[i]? = some p) (hq : s.entries[j]? = some q)
    (hname : p.appName = q.appName) : i = j := by
  have hi : (s.entries.map Process.appName)[i]? = some q.appName := by
    rw [List.getElem?_map, hp, Option.map_some, hname]
  have hj : (s.entries.map Process.appName)[j]? = some q.appName := by
    rw [List.getElem?_map, hq, Option.map_some]
  exact (List.getElem?_inj (List.getElem?_eq_some_iff.mp hi).1 h).mp (hi.trans hj.symm)

theorem named_iff (s : Server) (name : StrBuf) :
    s.named name = true ↔ name ∈ s.entries.map Process.appName := by
  rw [Server.named, List.any_eq_true, List.mem_map]
  constructor
  · rintro ⟨p, hp, hname⟩
    exact ⟨p, hp, by simpa using (of_decide_eq_true hname).symm⟩
  · rintro ⟨p, hp, rfl⟩
    exact ⟨p, hp, by simp⟩

/-! ### Removal -/

/-- The slots that are not in use have no name. -/
structure Tidy (s : Server) : Prop where
  inside : s.processCount ≤ listSize
  unnamed : ∀ (k : ℕ) p, s.processCount ≤ k → s.processList[k]? = some p → p.appName = .empty

theorem entries_of_zero {s : Server} (hcount : s.processCount = 0) : s.entries = [] := by
  rw [Server.entries, hcount]
  rfl

theorem tidy_of_zero {s : Server} (hlist : s.processList = .zero) (hcount : s.processCount = 0) :
    Tidy s := by
  refine ⟨hcount.le.trans (Nat.zero_le _), fun k p _ hp => ?_⟩
  rw [hlist] at hp
  rw [zero_get hp]
  rfl

/-- At most the last entry has no name. -/
def Fits (s : Server) : Prop := s.processCount ≤ getProcessListCount s.processList + 1

theorem Tidy.count_le {s : Server} (h : Tidy s) :
    getProcessListCount s.processList ≤ s.processCount := by
  rcases Nat.eq_or_lt_of_le h.inside with heq | hlt
  · rw [heq]
    exact getProcessListCount_le _
  · obtain ⟨p, hp⟩ := exists_slot s hlt
    exact KbPm.count_le hp (h.unnamed _ p (le_refl _) hp)

/-- From the first empty name on, no slot has a name. -/
theorem Tidy.unnamed_from {s : Server} (h : Tidy s) (hfits : Fits s) {k : ℕ} {p : Process}
    (hk : getProcessListCount s.processList ≤ k) (hp : s.processList[k]? = some p) :
    p.appName = .empty := by
  rw [Fits] at hfits
  rcases Nat.lt_or_ge k s.processCount with hlt | hge
  · obtain rfl : k = getProcessListCount s.processList := by omega
    exact unnamed_count hp
  · exact h.unnamed k p hge hp

/-- The removal of a listed name deletes the last entry with this name and moves
the entries behind it down. -/
theorem remove_slots {s t : Server} {k : ℕ} {p : Process} (htidy : Tidy s) (hfits : Fits s)
    (hk : k < s.processCount) (hp : s.processList[k]? = some p)
    (h : Effect s (.remove p.appName) t) :
    ∃ (j : ℕ) (q : Process), j < s.processCount ∧ s.processList[j]? = some q ∧
      q.appName = p.appName ∧
      (∀ (i : ℕ) r, j < i → i < s.processCount → s.processList[i]? = some r →
        r.appName ≠ p.appName) ∧
      t.processCount = s.processCount - 1 ∧ t.kernel = s.kernel ∧ Tidy t ∧
      ∀ i < s.processCount - 1, t.processList[i]? =
        if i < j then s.processList[i]? else (s.processList[i + 1]?).map Process.shifted := by
  have hcount := htidy.count_le
  have hin := htidy.inside
  have hm := getProcessListCount_le s.processList
  have hn : s.processCount ≤ getProcessListCount s.processList + 1 := hfits
  cases h with
  | remove hdel =>
    rename_i l res
    by_cases hkm : k < getProcessListCount s.processList
    · -- the name is one of those that deletion looks at
      obtain ⟨j, q, hkj, hj, hq, hname, hlast, hfree, hfull⟩ := delProcessByAppName_found hkm hp rfl
      rcases Nat.eq_or_lt_of_le hm with heq | hlt
      · rw [hfull heq] at hdel
        cases hdel
      · obtain ⟨l', hl', hget⟩ := hfree hlt
        rw [hl'] at hdel
        cases hdel
        refine ⟨j, q, by omega, hq, hname, fun i r hi hi' hr hrname => ?_, rfl, rfl, ⟨?_, ?_⟩, ?_⟩
        · rcases Nat.lt_or_ge i (getProcessListCount s.processList) with him | him
          · exact hlast i r hi him hr hrname
          · exact named_of_lt_count hp hkm (hrname ▸ htidy.unnamed_from hfits him hr)
        · exact le_trans (Nat.sub_le _ _) hin
        · intro i r hi hr
          change s.processCount - 1 ≤ i at hi
          change l[i]? = some r at hr
          have hempty : ∀ {a : ℕ} {x}, getProcessListCount s.processList ≤ a →
              (s.processList[a]?).map Process.shifted = some x → x.appName = .empty := by
            intro a x ha hx
            obtain ⟨y, hy, rfl⟩ := Option.map_eq_some_iff.mp hx
            have hy' : y.appName = .empty := htidy.unnamed_from hfits ha hy
            exact hy'
          rw [hget i, if_neg (by omega)] at hr
          split_ifs at hr with h1 h2
          · exact hempty (by omega) hr
          · exact hempty (by omega) hr
          · exact htidy.unnamed_from hfits (by omega) hr
        · intro i hi
          change l[i]? = _
          rw [hget i]
          by_cases hij : i < j
          · rw [if_pos hij, if_pos hij]
          · rw [if_neg hij, if_neg hij, if_pos (by omega)]
    · -- it is the empty name of the last entry, which deletion does not find
      have hempty : p.appName = .empty := htidy.unnamed_from hfits (by omega) hp
      have habsent : delProcessByAppName s.processList p.appName = .ok (s.processList, -1) :=
        delProcessByAppName_absent fun i r hi hr hname =>
          named_of_lt_count hr hi (hname.trans hempty)
      rw [habsent] at hdel
      cases hdel
      refine ⟨k, p, hk, hp, rfl, fun i r hi hi' => by omega, rfl, rfl, ⟨?_, ?_⟩, ?_⟩
      · exact le_trans (Nat.sub_le _ _) hin
      · intro i r hi hr
        change s.processCount - 1 ≤ i at hi
        exact htidy.unnamed_from hfits (by omega) hr
      · intro i hi
        change s.processList[i]? = _
        rw [if_pos (by omega)]

/-- The entries without the last one that has the name; those behind it move
down. -/
theorem entries_remove {s t : Server} {k : ℕ} {p : Process} (htidy : Tidy s) (hfits : Fits s)
    (hp : s.entries[k]? = some p) (h : Effect s (.remove p.appName) t) :
    ∃ (j : ℕ) (q : Process), s.entries[j]? = some q ∧ q.appName = p.appName ∧
      (∀ (i : ℕ) r, j < i → s.entries[i]? = some r → r.appName ≠ p.appName) ∧
      t.processCount = s.processCount - 1 ∧ t.kernel = s.kernel ∧ Tidy t ∧
      ∀ i : ℕ, t.entries[i]? =
        if i < j then s.entries[i]? else (s.entries[i + 1]?).map Process.shifted := by
  obtain ⟨hk, hslot⟩ := entries_get hp
  obtain ⟨j, q, hj, hq, hname, hlast, hcount, hkernel, htidy', hget⟩ :=
    remove_slots htidy hfits hk hslot h
  refine ⟨j, q, entries_of_slot hj hq, hname, fun i r hi hr => ?_, hcount, hkernel, htidy',
    fun i => ?_⟩
  · obtain ⟨hlt, hr⟩ := entries_get hr
    exact hlast i r hi hlt hr
  · rw [Server.entries, Server.entries, Slots.getElem?_inUse, Slots.getElem?_inUse,
      Slots.getElem?_inUse, hcount]
    by_cases hi : i < s.processCount - 1
    · rw [if_pos hi, hget i hi, if_pos (show i < s.processCount by omega),
        if_pos (show i + 1 < s.processCount by omega)]
    · rw [if_neg hi, if_neg (show ¬i < j by omega), if_neg (show ¬i + 1 < s.processCount by omega)]
      rfl

theorem names_remove {s t : Server} {j : ℕ}
    (h : ∀ i : ℕ, t.entries[i]? =
      if i < j then s.entries[i]? else (s.entries[i + 1]?).map Process.shifted) :
    t.entries.map Process.appName = (s.entries.map Process.appName).eraseIdx j := by
  apply List.ext_getElem?
  intro i
  rw [List.getElem?_map, h i, List.getElem?_eraseIdx, List.getElem?_map, List.getElem?_map]
  split
  · rfl
  · rw [Option.map_map]
    rfl

/-! ### What requests do to the names -/

theorem Tidy.local {s t : Server} {ops : List Op} (h : Tidy s) (hrun : Run Effect s ops t)
    (hops : ∀ op ∈ ops, op.Local) : Tidy t := by
  obtain ⟨hcount, hget⟩ := Effect.keeps_run hrun hops
  refine ⟨hcount ▸ h.inside, fun k p hk hp => ?_⟩
  obtain ⟨q, hq⟩ := exists_slot s (lt_of_slot hp)
  have hprogram := hget k
  rw [hp, hq, Option.map_some, Option.map_some, Option.some_inj] at hprogram
  exact (congrArg Prod.fst hprogram).trans (h.unnamed k q (hcount ▸ hk) hq)

theorem Tidy.append {s t : Server} {p : Process} (h : Tidy s) (hstep : Effect s (.append p) t) :
    Tidy t := by
  cases hstep with
  | append hn hf h0 =>
    refine ⟨hn, fun k q hk hq => ?_⟩
    change s.processCount + 1 ≤ k at hk
    refine h.unnamed k q (by omega) ?_
    rw [← hq]
    exact (slot_setSlot_ne (s := s.setKernel _) _ (by omega)).symm

/-- The two lengths stay as they are. -/
theorem counts_run {s t : Server} {ops : List Op} (h : Run Effect s ops t)
    (hops : ∀ op ∈ ops, op.Local) : t.processCount = s.processCount ∧
      getProcessListCount t.processList = getProcessListCount s.processList := by
  obtain ⟨hcount, hget⟩ := Effect.keeps_run h hops
  refine ⟨hcount, getProcessListCount_congr fun k => ?_⟩
  have hname := congrArg (Option.map Prod.fst) (hget k)
  rw [Option.map_map, Option.map_map] at hname
  exact hname

theorem fits_run {s t : Server} {ops : List Op} (h : Run Effect s ops t)
    (hops : ∀ op ∈ ops, op.Local) : Fits t ↔ Fits s := by
  obtain ⟨hcount, hlist⟩ := counts_run h hops
  rw [Fits, Fits, hcount, hlist]

/-- An entry is stopped before it is removed; its name is still listed then. -/
theorem run_remove {s t : Server} {p : Process} {pos : ℕ} (hlisted : Listed s p pos)
    (hrun : Run Effect s (s.stopOps pos ++ [.remove p.appName]) t) :
    ∃ (u : Server) (k : ℕ) (r : Process), Run Effect s (s.stopOps pos) u ∧ u.entries[k]? = some r ∧
      r.appName = p.appName ∧
      Effect u (.remove r.appName) t := by
  obtain ⟨u, hstop, hr⟩ := run_append.mp hrun
  obtain ⟨v, hstep, hv⟩ := run_cons.mp hr
  obtain rfl := run_nil.mp hv
  obtain ⟨k, q, hk, hp, -⟩ := hlisted
  have hname := congrArg (fun l => l[k]?) (entries_names hstop (stopOps_local pos))
  simp only [List.getElem?_map, entries_of_slot hk hp, Option.map_some,
    Option.map_eq_some_iff] at hname
  obtain ⟨r, hr, hrname⟩ := hname
  exact ⟨u, k, r, hstop, hr, hrname, hrname.symm ▸ hstep⟩

end KbPm
