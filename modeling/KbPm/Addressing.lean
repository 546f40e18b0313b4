/-
What ids and names refer to.

An operand is resolved to a copy of an entry, the copy is mapped to a place by the
first match of its name, and deletion goes to the last match.

* `getProcessId_decimal`, `readsExactly_iff` — a listed id is read as itself, and when
  nothing else is read as an id;
* `operand_of_lookup` — an entry is acted on at the first place of its name;
* `ActsOnly`, `acts_only` — what a request does when this is the only one;
* `by_id_iff` — a request by id acts on the entry with the id exactly if no other
  entry has its name;
* `by_name_iff` — in runs of requests a name resolves to its entry exactly if it is
  not the id of another one, digits that wrap around apart.
-/
import KbPm.Decoding
import KbPm.Killing
import KbPm.Supervision
import KbPm.ProcStatus

namespace KbPm

open Trace

/-! ### Ids -/

/-- A listed id is read as itself. -/
theorem getProcessId_decimal {n k : ℕ} {buffer : Text} (hn : n ≤ listSize) (hk : k < n)
    (h : cstr buffer = decimal k) : getProcessId n buffer = k := by
  have hlt : (k : ℤ) < 256 := by exact_mod_cast lt_of_lt_of_le hk hn
  have hnumber : isNumber buffer = true := isNumber_decimal h
  have hid : (atoi buffer).toInt = k := atoi_decimal h (by omega)
  unfold getProcessId
  simp only [hid, hnumber]
  rw [if_pos ⟨trivial, by omega, by exact_mod_cast hk⟩]

/-- The string in the buffer is a decimal numeral for `v`; it may have leading zeros. -/
def Numeral (buffer : Text) (v : ℕ) : Prop :=
  cstr buffer ≠ [] ∧ isNumber buffer = true ∧
    Nat.ofDigits 10 ((cstr buffer).reverse.map fun c => c.toNat - 48) = v

theorem foldl_digits (t : Text) :
    t.foldl (fun n c => n * 10 + (c.toNat - 48)) 0 =
      Nat.ofDigits 10 (t.reverse.map fun c => c.toNat - 48) := by
  induction t using List.reverseRecOn with
  | nil => rfl
  | append_singleton t c ih =>
    rw [List.foldl_append, ih, List.reverse_append, List.reverse_singleton, List.singleton_append,
      List.map_cons, Nat.ofDigits_cons, List.foldl_cons, List.foldl_nil]
    rw [Nat.add_comm, Nat.mul_comm]

/-- Digits are read as a `long` first and then as an `int`. -/
theorem getProcessId_digits {n : ℕ} {buffer : Text} (hn : n < 2 ^ 31)
    (h : isNumber buffer = true) {v : ℕ}
    (hv : Nat.ofDigits 10 ((cstr buffer).reverse.map fun c => c.toNat - 48) = v) :
    getProcessId n buffer =
      if min v (2 ^ 63 - 1) % 2 ^ 32 < n then ((min v (2 ^ 63 - 1) % 2 ^ 32 : ℕ) : ℤ) else -1 := by
  have hid : (atoi buffer).toInt = ((min v (2 ^ 63 - 1) : ℕ) : ℤ).bmod (2 ^ 32) := by
    have hmin : min (v : ℤ) (2 ^ 63 - 1) = ((min v (2 ^ 63 - 1) : ℕ) : ℤ) := by omega
    rw [atoi, foldl_digits, hv, hmin, Int32.toInt_ofInt]
    rfl
  generalize hw : min v (2 ^ 63 - 1) = w at hid ⊢
  have hmod : ((w : ℤ).bmod (2 ^ 32) = (w % 2 ^ 32 : ℕ) ∧ w % 2 ^ 32 < 2 ^ 31) ∨
      ((w : ℤ).bmod (2 ^ 32) < 0 ∧ 2 ^ 31 ≤ w % 2 ^ 32) := by
    rw [Int.bmod_def]
    omega
  unfold getProcessId
  simp only [hid, h, true_and]
  split_ifs <;> omega

/-- `get_process_id` answers the value of a numeral below the number of entries, and -1 to
everything else. -/
def ReadsExactly (n : ℕ) (buffer : Text) : Prop :=
  (∀ k : ℕ, getProcessId n buffer = k ↔ Numeral buffer k ∧ k < n) ∧
    ((∀ k, Numeral buffer k → n ≤ k) → getProcessId n buffer = -1)

/-- Digits that do not wrap around to a listed id are read exactly. -/
theorem readsExactly_of_digits {n : ℕ} {buffer : Text} (hn : n < 2 ^ 31) (hne : cstr buffer ≠ [])
    (hwrap : ∀ v, Numeral buffer v → 2 ^ 32 ≤ v → v < 2 ^ 63 → n ≤ v % 2 ^ 32) :
    ReadsExactly n buffer := by
  by_cases hnumber : isNumber buffer = true
  · obtain ⟨v, hv⟩ : ∃ v, Nat.ofDigits 10 ((cstr buffer).reverse.map fun c => c.toNat - 48) = v :=
      ⟨_, rfl⟩
    have hnumeral : ∀ k, Numeral buffer k ↔ v = k := fun k => by
      rw [Numeral, hv]
      exact ⟨fun h => h.2.2, fun h => ⟨hne, hnumber, h⟩⟩
    simp only [hnumeral, forall_eq'] at hwrap
    simp only [ReadsExactly, hnumeral, forall_eq', getProcessId_digits hn hnumber hv]
    -- from 2 ^ 63 on it is -1, as 2 ^ 63 - 1 is
    obtain ⟨w, hw, hcase⟩ : ∃ w, min v (2 ^ 63 - 1) = w ∧ (w = v ∨ w = 2 ^ 63 - 1 ∧ w < v) :=
      ⟨_, rfl, by omega⟩
    rw [hw]
    by_cases hlt : w % 2 ^ 32 < n
    · rw [if_pos hlt]
      exact ⟨fun k => by omega, fun hle => by omega⟩
    · rw [if_neg hlt]
      exact ⟨fun k => by omega, fun _ => rfl⟩
  · have hnone : ∀ k, ¬Numeral buffer k := fun k h => hnumber h.2.1
    have hid : getProcessId n buffer = -1 := by
      unfold getProcessId
      rw [if_neg fun h => hnumber h.1]
    simp only [ReadsExactly, hnone, hid, false_and, iff_false, implies_true, and_true]
    exact fun k => by omega

theorem readsExactly_iff {n : ℕ} {buffer : Text} (hn : n < 2 ^ 31) :
    ReadsExactly n buffer ↔ (cstr buffer = [] → n = 0) ∧
      ∀ v, Numeral buffer v → 2 ^ 32 ≤ v → v < 2 ^ 63 → n ≤ v % 2 ^ 32 := by
  by_cases hempty : cstr buffer = []
  · -- the value of no digits is 0
    have hnumber : isNumber buffer = true := by
      rw [isNumber, hempty]
      rfl
    have hid := getProcessId_digits (v := 0) hn hnumber (by simp [hempty])
    have hnone : ∀ k, ¬Numeral buffer k := fun k h => h.1 hempty
    simp only [ReadsExactly, hnone, false_and, iff_false, false_implies, implies_true,
      forall_const, hempty, and_true]
    constructor
    · rintro ⟨-, hfail⟩
      by_contra hne
      rw [hid, if_pos (by omega)] at hfail
      omega
    · rintro rfl
      rw [if_neg (by omega)] at hid
      exact ⟨fun k hk => by omega, hid⟩
  · refine ⟨fun hexact => ⟨fun h => absurd h hempty, fun v hv hlow hhigh => ?_⟩,
      fun h => readsExactly_of_digits hn hempty h.2⟩
    -- a value that wraps around to a listed id is read as this id
    obtain ⟨-, hnumber, hvalue⟩ := id hv
    by_contra hlt
    have hid := getProcessId_digits hn hnumber hvalue
    have hmin : min v (2 ^ 63 - 1) = v := by omega
    rw [hmin, if_pos (by omega)] at hid
    obtain ⟨⟨-, -, hw⟩, -⟩ := (hexact.1 _).mp hid
    rw [hvalue] at hw
    omega

theorem readsExactly_iff_seven : ReadsExactly 10 (str "007") := by
  refine (readsExactly_iff (by norm_num)).mpr ⟨by decide, fun v hv hlow => ?_⟩
  obtain ⟨-, -, rfl⟩ := hv
  exact absurd hlow (by decide)

/-- No operand at all is read as the id 0, and so is 2 ^ 32. -/
theorem getProcessId_misreads : ¬ReadsExactly 1 [] ∧ ¬ReadsExactly 1 (str "4294967296") := by
  constructor
  · intro h
    exact ((h.1 0).mp (by decide)).1.1 rfl
  · intro h
    exact absurd ((h.1 0).mp (by decide)).1.2.2 (by decide)

/-! ### Places -/

section Places

variable {s : Server} {k : ℕ} {p : Process} {buffer : Text}

/-- An entry that the operand names is acted on at the first place of its name. -/
theorem operand_of_lookup (hn : s.processCount ≤ listSize) (hk : s.lookup buffer = some k)
    (hp : s.entries[k]? = some p) :
    ∃ type pos q, (type = ProcessType.id ∨ type = ProcessType.appName) ∧
      parseProcessAndProcessType s.processList s.processCount buffer = .ok (type, p) ∧
      getPosInProcessList s.processList s.processCount p = .ok pos ∧
      s.operand buffer = .ok (.listed p pos) ∧
      s.entries[pos]? = some q ∧ q.appName = p.appName ∧
      ∀ (j : ℕ) r, j < pos → s.entries[j]? = some r → r.appName ≠ p.appName := by
  obtain ⟨hlt, hslot⟩ := entries_get hp
  obtain ⟨type, p', htype, -, hp', hparse⟩ := parse_listed hn hk
  obtain rfl := Option.some_inj.mp (hslot.symm.trans hp')
  obtain ⟨pos, q, hpos, hle, hq, hname, hfirst⟩ := getPos_listed hn hlt hslot
  exact ⟨type, pos, q, htype, hparse, hpos, operand_listed htype hparse hpos,
    entries_of_slot (by omega) hq, hname, fun j r hj hr => hfirst j r hj (entries_get hr).2⟩

/-- No other entry has the name. -/
def Unshared (s : Server) (k : ℕ) (p : Process) : Prop :=
  ∀ (j : ℕ) q, s.entries[j]? = some q → q.appName = p.appName → j = k

theorem Unshared.operand (h : Unshared s k p) (hn : s.processCount ≤ listSize)
    (hk : s.lookup buffer = some k) (hp : s.entries[k]? = some p) :
    s.operand buffer = .ok (.listed p k) := by
  obtain ⟨type, pos, q, -, -, -, hoperand, hq, hname, -⟩ := operand_of_lookup hn hk hp
  rw [hoperand, h pos q hq hname]

/-- The index that `del_process_by_app_name` finds. -/
def deletedIndex (processList : ProcessList) (appName : StrBuf) : Except Fault (Option ℕ) :=
  slot (Slots.findLast (fun process => process.appName = appName) processList
    (getProcessListCount processList) 0 none)

theorem delProcessByAppName_eq (processList : ProcessList) (appName : StrBuf) :
    delProcessByAppName processList appName =
      (deletedIndex processList appName >>= fun index =>
        match index with
        | none => return (processList, -1)
        | some index => do
          let processList ← slot
            (Slots.shiftDown (fun process => { process with id := process.id - 1 })
            (getProcessListCount processList - index) index processList)
          return (processList, 0)) := rfl

/-- It is the last one with the name. -/
theorem deletedIndex_entry (htidy : Tidy s) (hagrees : Agrees s) (hp : s.entries[k]? = some p) :
    ∃ j q, deletedIndex s.processList p.appName = .ok (some j) ∧ s.entries[j]? = some q ∧
      q.appName = p.appName ∧
      ∀ (i : ℕ) r, j < i → s.entries[i]? = some r → r.appName ≠ p.appName := by
  have hcount : s.processCount = getProcessListCount s.processList := hagrees
  obtain ⟨hk, hslot⟩ := entries_get hp
  -- the search goes over the same entries, since the counts agree
  obtain ⟨r, hr, hcase⟩ := Slots.findLast_spec (fun q : Process => decide (q.appName = p.appName))
    s.processList none (show 0 + s.processCount ≤ listSize by have := htidy.inside; omega)
  rcases hcase with ⟨-, hnone⟩ | ⟨j, q, rfl, -, hj, hq, hname, hlast⟩
  · exact absurd (hnone k p (Nat.zero_le _) (by omega) hslot) (by simp)
  · refine ⟨j, q, ?_, entries_of_slot (by omega) hq, by simpa using hname, fun i r hi hr => ?_⟩
    · rw [deletedIndex, ← hcount, hr]
      rfl
    · obtain ⟨hlt, hr⟩ := entries_get hr
      simpa using hlast i r hi (by omega) hr

end Places

/-! ### Requests for one entry -/

/-- What a request does that acts on the entry `p` with index `k` only. -/
structure ActsOnly (s t : Server) (k : ℕ) (p : Process) (command : Command) : Prop where
  kills : t.kernel.kills = s.kernel.kills ∨
    ∃ children, t.kernel.kills = s.kernel.kills ++ [⟨{ p with isRunning := 0 }, children⟩]
  children : ∀ child ∈ t.kernel.children,
    (∃ c ∈ s.kernel.children, c.pid = child.pid ∧ c.app = child.app) ∨ child.app.program = p.program
  others : command ≠ .remove →
    t.processCount = s.processCount ∧ ∀ j ≠ k, t.entries[j]? = s.entries[j]?
  removed : command = .remove → ∀ i : ℕ, t.entries[i]? =
    if i < k then s.entries[i]? else (s.entries[i + 1]?).map Process.shifted

section Only

variable {s t : Server} {k : ℕ} {p : Process}

/-- A child that an operation on the entry adds executes it. -/
theorem Effect.children {op : Op} (h : Effect s op t) (hslot : op.slot = some k)
    (hp : s.entries[k]? = some p) :
    ∀ child ∈ t.kernel.children,
      (∃ c ∈ s.kernel.children, c.pid = child.pid ∧ c.app = child.app) ∨ child.app = p := by
  have hold : ∀ child ∈ s.kernel.children,
      (∃ c ∈ s.kernel.children, c.pid = child.pid ∧ c.app = child.app) ∨ child.app = p :=
    fun child hchild => Or.inl ⟨child, hchild, rfl, rfl⟩
  have hentry : ∀ {q : Process} {j : ℕ}, s.processList[j]? = some q → some j = some k → q = p := by
    intro q j hq hj
    rw [Option.some_inj.mp hj, (entries_get hp).2] at hq
    exact (Option.some_inj.mp hq).symm
  intro child hchild
  cases h with
  | start hk hq hf h0 =>
    rcases List.mem_cons.mp hchild with rfl | hchild
    · exact Or.inr (hentry hq hslot)
    · exact hold child hchild
  | relaunch hk hq hrun hf h0 =>
    rcases List.mem_cons.mp hchild with rfl | hchild
    · exact Or.inr (hentry hq hslot)
    · exact hold child hchild
  | stop hk hq hrun hpid =>
    -- a child that dies is still the same child
    obtain ⟨c, hc, rfl⟩ := List.mem_map.mp hchild
    refine Or.inl ⟨c, hc, ?_⟩
    split <;> exact ⟨rfl, rfl⟩
  | append => cases hslot
  | _ => exact hold child hchild

/-- Children that a run adds execute the entry. -/
theorem children_run {ops : List Op} (h : Run Effect s ops t)
    (hops : ∀ op ∈ ops, op.Local ∧ op.slot = some k) (hp : s.entries[k]? = some p) :
    ∀ child ∈ t.kernel.children,
      (∃ c ∈ s.kernel.children, c.pid = child.pid ∧ c.app = child.app) ∨
        child.app.program = p.program := by
  induction h generalizing p with
  | nil s => exact fun child hchild => Or.inl ⟨child, hchild, rfl, rfl⟩
  | @cons s u t op ops hstep _ ih =>
    obtain ⟨hlocal, hslot⟩ := hops op List.mem_cons_self
    -- the entry is the same program after the step
    obtain ⟨q, hq, hprogram⟩ : ∃ q, u.entries[k]? = some q ∧ q.program = p.program := by
      have hkeep := entries_program (Run.single hstep) (by simpa using hlocal)
      have hget := congrArg (fun l => l[k]?) hkeep
      simp only [List.getElem?_map, hp, Option.map_some, Option.map_eq_some_iff] at hget
      exact hget
    intro child hchild
    rcases ih (fun o ho => hops o (List.mem_cons_of_mem _ ho)) hq child hchild with
      ⟨c, hc, hpid, happ⟩ | hchild
    · rcases hstep.children hslot hp c hc with ⟨d, hd, hpid', happ'⟩ | hc
      · exact Or.inl ⟨d, hd, hpid'.trans hpid, happ'.trans happ⟩
      · exact Or.inr (by rw [← happ, hc])
    · exact Or.inr (hchild.trans hprogram)

/-- Stopping an entry kills its child. -/
theorem kills_stop (hp : s.entries[k]? = some p) (h : Run Effect s (s.stopOps k) t) :
    t.kernel.kills = s.kernel.kills ∨
      ∃ children, t.kernel.kills = s.kernel.kills ++ [⟨{ p with isRunning := 0 }, children⟩] := by
  rcases stopOps_cases s k with ⟨hops, -⟩ | ⟨hops, -⟩ <;> rw [hops] at h
  · obtain rfl := run_nil.mp h
    exact Or.inl rfl
  · obtain ⟨u, hstep, hu⟩ := run_cons.mp h
    obtain rfl := run_nil.mp hu
    cases hstep with
    | stop hk hp' hrun hpid =>
      obtain rfl := Option.some_inj.mp ((entries_get hp).2.symm.trans hp')
      exact Or.inr ⟨_, rfl⟩

theorem stopOps_slot (s : Server) (k : ℕ) : ∀ op ∈ s.stopOps k, op.Local ∧ op.slot = some k := by
  intro op hop
  rcases stopOps_cases s k with ⟨hops, -⟩ | ⟨hops, -⟩ <;> rw [hops] at hop
  · cases hop
  · rw [List.mem_singleton.mp hop]
    exact ⟨trivial, rfl⟩

/-- Operations on the entry: it may be stopped first, and is not stopped again. -/
theorem acts_only_slot {first rest : List Op} {command : Command} (hp : s.entries[k]? = some p)
    (hfirst : first = [] ∨ first = s.stopOps k)
    (hrest : ∀ op ∈ rest, op.Local ∧ op.slot = some k ∧ ∀ j, op ≠ .stop j)
    (hrun : Run Effect s (first ++ rest) t) (hcommand : command ≠ .remove) :
    ActsOnly s t k p command := by
  have hops : ∀ op ∈ first ++ rest, op.Local ∧ op.slot = some k := by
    intro op hop
    rcases List.mem_append.mp hop with hop | hop
    · rcases hfirst with rfl | rfl
      · cases hop
      · exact stopOps_slot s k op hop
    · exact ⟨(hrest op hop).1, (hrest op hop).2.1⟩
  have hlocal : ∀ op ∈ first ++ rest, op.Local := fun op hop => (hops op hop).1
  refine ⟨?_, children_run hrun hops hp, fun _ => ⟨(counts_run hrun hlocal).1, fun j hj => ?_⟩,
    fun h => absurd h hcommand⟩
  · obtain ⟨u, hu, ht⟩ := run_append.mp hrun
    -- behind the stop nothing is killed
    rw [kills_run ht fun op hop => (hrest op hop).2.2]
    rcases hfirst with rfl | rfl
    · obtain rfl := run_nil.mp hu
      exact Or.inl rfl
    · exact kills_stop hp hu
  · refine entry_kept hrun hlocal fun op hop hslot => hj ?_
    rw [(hops op hop).2] at hslot
    exact (Option.some_inj.mp hslot).symm

/-- Stopping the entry and deleting it, when no other one has its name. -/
theorem acts_only_remove (htidy : Tidy s) (hagrees : Agrees s) (hunshared : Unshared s k p)
    (hp : s.entries[k]? = some p) (hrun : Run Effect s (s.stopOps k ++ [.remove p.appName]) t) :
    ActsOnly s t k p .remove := by
  obtain ⟨u, hstop, hr⟩ := run_append.mp hrun
  obtain ⟨v, hremove, hv⟩ := run_cons.mp hr
  obtain rfl := run_nil.mp hv
  have hlocal := stopOps_local (s := s) k
  have hnames := entries_names hstop hlocal
  have htidyu := htidy.local hstop hlocal
  have hfits : Fits u := by
    have hagreesu : u.processCount = _ := htidy.agrees_of_names htidyu hagrees hnames
    rw [Fits]
    omega
  -- the stopped entry
  obtain ⟨r, hr, hname⟩ : ∃ r, u.entries[k]? = some r ∧ r.appName = p.appName := by
    have hget := congrArg (fun l => l[k]?) hnames
    simp only [List.getElem?_map, hp, Option.map_some, Option.map_eq_some_iff] at hget
    exact hget
  rw [← hname] at hremove
  obtain ⟨j, w, hw, hwname, -, -, hkernel, -, hget⟩ := entries_remove htidyu hfits hr hremove
  -- the one that is deleted is the one with the name
  obtain rfl : j = k := by
    have hgetj := congrArg (fun l => l[j]?) hnames
    simp only [List.getElem?_map, hw, Option.map_some] at hgetj
    obtain ⟨q, hq, hqname⟩ := Option.map_eq_some_iff.mp hgetj.symm
    exact hunshared j q hq (hqname.trans (hwname.trans hname))
  have hkept : ∀ i ≠ j, u.entries[i]? = s.entries[i]? := fun i hi =>
    entry_kept hstop hlocal fun op hop hslot => by
      rw [(stopOps_slot s j op hop).2] at hslot
      exact hi (Option.some_inj.mp hslot).symm
  refine ⟨?_, ?_, fun h => absurd rfl h, fun _ i => ?_⟩
  · rw [hkernel]
    exact kills_stop hp hstop
  · rw [hkernel]
    exact children_run hstop (stopOps_slot s j) hp
  · rw [hget i]
    split
    · exact hkept i (by omega)
    · rw [hkept (i + 1) (by omega)]

theorem acts_only {command : Command} (htidy : Tidy s) (hagrees : Agrees s)
    (hunshared : Unshared s k p) (hp : s.entries[k]? = some p) (hcommand : command.HasOperand)
    (hrun : Run Effect s (s.operandPlan command (.listed p k)) t) : ActsOnly s t k p command := by
  have hnil : ∀ {command : Command}, command ≠ .remove → Run Effect s [] t →
      ActsOnly s t k p command :=
    fun hne h => by
      have hrun : Run Effect s ([] ++ []) t := h
      exact acts_only_slot hp (Or.inl rfl) (by simp) hrun hne
  have hstart : ∀ op ∈ [Op.start k], op.Local ∧ op.slot = some k ∧ ∀ j, op ≠ .stop j := by
    intro op hop
    rw [List.mem_singleton.mp hop]
    exact ⟨trivial, rfl, by simp⟩
  unfold Server.operandPlan at hrun
  cases command with
  | start =>
    -- an entry that is running is not started again
    change Run Effect s (if p.isRunning = 0 then [.start k] else []) t at hrun
    split at hrun
    · have hrun' : Run Effect s ([] ++ [.start k]) t := hrun
      exact acts_only_slot hp (Or.inl rfl) hstart hrun' (by simp)
    · exact hnil (by simp) hrun
  | stop =>
    change Run Effect s (if p.isRunning ≠ 0 then s.stopOps k else []) t at hrun
    split at hrun
    · rw [← List.append_nil (s.stopOps k)] at hrun
      exact acts_only_slot hp (Or.inr rfl) (by simp) hrun (by simp)
    · exact hnil (by simp) hrun
  | restart =>
    change Run Effect s (if p.isRunning ≠ 0 then s.stopOps k ++
      [.start k, .note k] else []) t at hrun
    split at hrun
    · refine acts_only_slot hp (Or.inr rfl) (fun op hop => ?_) hrun (by simp)
      simp only [List.mem_cons, List.not_mem_nil, or_false] at hop
      rcases hop with rfl | rfl <;> exact ⟨trivial, rfl, by simp⟩
    · exact hnil (by simp) hrun
  | remove => exact acts_only_remove htidy hagrees hunshared hp hrun
  | _ => exact hcommand.elim

/-- And so for a request whose operand is resolved to the entry. -/
theorem Served.acts_only {request : Request} {answers : Answers} (htidy : Tidy s)
    (hagrees : Agrees s)
    (hunshared : Unshared s k p) (hp : s.entries[k]? = some p)
    (hcommand : (readCommand (s.commandBuffer request)).HasOperand)
    (hoperand : s.operand (s.operandBuffer request) = .ok (.listed p k))
    (h : Served s (request, answers) t) :
    ActsOnly s t k p (readCommand (s.commandBuffer request)) := by
  obtain ⟨ops, u, text, hplan, hrun, -, rfl⟩ := h.plan htidy.inside
  have hops : s.plan request =
      .ok (s.operandPlan (readCommand (s.commandBuffer request)) (.listed p k)) := by
    unfold Server.plan
    revert hcommand
    cases readCommand (s.commandBuffer request) with
    | start | stop | restart | remove =>
      intro _
      change (s.operand (s.operandBuffer request) >>= fun o => pure (s.operandPlan _ o)) = _
      rw [hoperand]
      rfl
    | _ => exact fun h => h.elim
  obtain rfl := Except.ok.inj (hplan.symm.trans hops)
  have hasked := acts_only (s := s.asked answers) ⟨htidy.inside, htidy.unnamed⟩ hagrees hunshared hp
    hcommand hrun
  exact ⟨hasked.kills, hasked.children, hasked.others, hasked.removed⟩

end Only

/-! ### Requests by id -/

theorem lookup_id {s : Server} {k : ℕ} {buffer : Text}
    (h : getProcessId s.processCount buffer = k) :
    s.lookup buffer = some k := by
  rw [Server.lookup, h, if_pos (by omega), Int.toNat_natCast]

/-- Requests by id stand for operations on the entry with the id, and it is this entry that
deletion finds. -/
def ActsOnId (s : Server) (k : ℕ) (p : Process) : Prop :=
  (∀ command buffer, command.HasOperand → cstr buffer = decimal k →
    s.operandOps command buffer = .ok (s.operandPlan command (.listed p k))) ∧
  deletedIndex s.processList p.appName = .ok (some k)

theorem operandOps_listed {s : Server} {p : Process} {pos : ℕ} {buffer : Text} (command : Command)
    (h : s.operand buffer = .ok (.listed p pos)) :
    s.operandOps command buffer = .ok (s.operandPlan command (.listed p pos)) := by
  rw [Server.operandOps, h]
  rfl

/-- The place shows in what is started. -/
theorem place_of_plan {s : Server} {p : Process} {i j : ℕ}
    (hstart : s.operandPlan .start (.listed p i) = s.operandPlan .start (.listed p j))
    (hrestart : s.operandPlan .restart (.listed p i) = s.operandPlan .restart (.listed p j)) :
    i = j := by
  unfold Server.operandPlan at hstart hrestart
  -- a stopped entry shows its place when started, a running one when restarted
  by_cases hrun : p.isRunning = 0
  · change (if p.isRunning = 0 then _ else _) = (if p.isRunning = 0 then _ else _) at hstart
    rw [if_pos hrun, if_pos hrun] at hstart
    simpa using hstart
  · change (if p.isRunning ≠ 0 then _ else _) = (if p.isRunning ≠ 0 then _ else _) at hrestart
    rw [if_pos hrun, if_pos hrun] at hrestart
    have hlast := congrArg List.getLast? hrestart
    simpa using hlast

/-- Requests by the id of an entry act on this entry exactly if no other one has its name; and then
they act on no other. -/
theorem by_id_iff {s : Server} (htidy : Tidy s)
    (hnames : ∀ p ∈ s.entries, p.appName ≠ .empty) {k : ℕ}
    {p : Process} (hp : s.entries[k]? = some p) :
    (ActsOnId s k p ↔ ∀ (j : ℕ) q, s.entries[j]? = some q → q.appName = p.appName → j = k) ∧
    ((∀ (j : ℕ) q, s.entries[j]? = some q → q.appName = p.appName → j = k) →
      ∀ request answers t, (readCommand (s.commandBuffer request)).HasOperand →
        cstr (s.operandBuffer request) = decimal k → Served s (request, answers) t →
        ActsOnly s t k p (readCommand (s.commandBuffer request))) := by
  have hagrees : Agrees s := htidy.agrees_iff.mpr hnames
  have hlookup : ∀ {buffer : Text}, cstr buffer = decimal k → s.lookup buffer = some k :=
    fun hid => lookup_id (getProcessId_decimal htidy.inside (entries_get hp).1 hid)
  obtain ⟨last, w, hlast, hw, hwname, hnone⟩ := deletedIndex_entry htidy hagrees hp
  refine ⟨⟨?_, fun hunshared => ⟨fun command buffer hcommand hid => ?_, ?_⟩⟩,
    fun hunshared request answers t hcommand hid hserved => ?_⟩
  · rintro ⟨hops, hdeleted⟩ j q hq hname
    -- the first entry with the name is `k`, and so is the last one
    obtain ⟨type, pos, r, -, -, -, hoperand, -, -, hfirst⟩ :=
      operand_of_lookup htidy.inside (hlookup (cstr_decimal k)) hp
    have hplan : ∀ command : Command, command.HasOperand →
        s.operandPlan command (.listed p pos) = s.operandPlan command (.listed p k) := by
      intro command hcommand
      have h := hops command (decimal k) hcommand (cstr_decimal k)
      rw [operandOps_listed command hoperand] at h
      exact Except.ok.inj h
    obtain rfl := place_of_plan (hplan .start trivial) (hplan .restart trivial)
    obtain rfl : last = pos := Option.some_inj.mp (Except.ok.inj (hlast.symm.trans hdeleted))
    rcases Nat.lt_trichotomy j last with hlt | heq | hgt
    · exact absurd hname (hfirst j q hlt hq)
    · exact heq
    · exact absurd hname (hnone j q hgt hq)
  · exact operandOps_listed command (Unshared.operand hunshared htidy.inside (hlookup hid) hp)
  · rw [hlast, hunshared last w hw hwname]
  · exact hserved.acts_only htidy hagrees hunshared hp hcommand
      (Unshared.operand hunshared htidy.inside (hlookup hid) hp)

/-! Configs with two apps. -/

def pairConfig (process : Process) : Text :=
  cJsonPrint (.array [createProcessCJson .web, createProcessCJson process])

def pairList (process : Process) : ProcessList :=
  webList.setIfInBounds 1 (Process.zero.load process)

theorem pairList_load {process : Process} (hne : pairConfig process ≠ [])
    (hfits : (pairConfig process).length ≤ bufferSize) :
    parseProcessListFromPath (some (pairConfig process)) [] .zero =
      .ok (pairList process, (2 : ℕ)) := by
  obtain ⟨hweb, hnext⟩ := webList_slots
  have hsecond : parseSlot webList 1 (createProcessCJson process) = .ok (pairList process, 0) :=
    parseSlot_create hnext process
  have hprint : Printable (.array [createProcessCJson .web, createProcessCJson process]) :=
    printable_map_create [.web, process]
  rw [parseProcessListFromPath_fits hne hfits, pairConfig, parseProcessList_array hprint,
    parseSlots_cons hweb, parseSlots_cons hsecond]
  rfl

/-- An app in a file `1`. -/
def Process.one : Process := { Process.web with appName := ⟨str "1", by decide, by decide⟩ }

def Process.twin : Process :=
  { Process.web with cmd := ⟨str "/opt/twin", by decide, by decide⟩ }

def twinConfig : Text := cJsonPrint (.array [createProcessCJson .web, createProcessCJson .twin])

def twinList : ProcessList := webList.setIfInBounds 1 .twin

theorem twinList_path : parseProcessListFromPath (some twinConfig) [] .zero =
    .ok (twinList, (2 : ℕ)) :=
  pairList_load (by decide +kernel) (by decide +kernel)

theorem twinList_load : serviceLoad (some twinConfig) [] = .ok (twinList, 2) :=
  serviceLoad_of_parse twinList_path

/-- With two names the second app is found by its id, with one name the first one is not. -/
theorem by_id_iff_web :
    ActsOnId (.loaded (pairList .one) 2 (pairConfig .one) []) 1 .one ∧
      ¬ActsOnId (.loaded twinList 2 twinConfig []) 0 .web := by
  constructor
  · set s : Server := .loaded (pairList .one) 2 (pairConfig .one) []
    have hload : parseProcessListFromPath (some (pairConfig .one)) [] .zero =
        .ok (pairList .one, (2 : ℕ)) := pairList_load (by decide +kernel) (by decide +kernel)
    have htidy : Tidy s := (loaded_of_path hload).tidy (s := s)
    have hentries : s.entries = [.web, .one] := by decide +kernel
    have hnames : ∀ p ∈ s.entries, p.appName ≠ .empty := by
      rw [hentries]
      decide
    refine (by_id_iff htidy hnames (by rw [hentries]; rfl)).1.mpr fun j q hq hname => ?_
    rw [hentries] at hq
    cases j with
    | zero =>
      obtain rfl : Process.web = q := Option.some_inj.mp hq
      exact absurd hname (by decide)
    | succ j =>
      cases j with
      | zero => rfl
      | succ j => cases hq
  · set s : Server := .loaded twinList 2 twinConfig []
    have htidy : Tidy s := (loaded_of_path twinList_path).tidy (s := s)
    have hentries : s.entries = [.web, .twin] := by decide +kernel
    have hnames : ∀ p ∈ s.entries, p.appName ≠ .empty := by
      rw [hentries]
      decide
    intro hacts
    have hunshared := (by_id_iff htidy hnames (by rw [hentries]; rfl)).1.mp hacts
    have hone : 1 = 0 := hunshared 1 .twin (by rw [hentries]; rfl) rfl
    cases hone

/-- Both have been started; the first one is to be removed and is killed, but the second one is
deleted. -/
theorem twin_removed :
    serviceLoad (some twinConfig) [] = .ok (twinList, 2) ∧
      ∃ τ, Run Steps ⟨.loaded twinList 2 twinConfig [], .starting 0⟩
          [.startup (onePid 7), .startup (onePid 8),
            .request ⟨str "remove", str "0"⟩ (onePid 9)] τ ∧
        τ.server.kernel.kills.map (fun call => call.process.pid) = [7] ∧
        τ.server.entries.map Process.cmd = [Process.web.cmd] ∧
          τ.server.entries.map Process.pid = [0] ∧
        τ.server.kernel.children.map (fun child => (child.pid, child.alive)) =
          [(8, true), (7, false)] := by
  obtain ⟨τ, hrun, hτ⟩ := run_of_any ⟨.loaded twinList 2 twinConfig [], .starting 0⟩
    [.startup (onePid 7), .startup (onePid 8), .request ⟨str "remove", str "0"⟩ (onePid 9)]
    (fun τ => decide (τ.server.kernel.kills.map (fun call => call.process.pid) = [7] ∧
      τ.server.entries.map Process.cmd = [Process.web.cmd] ∧
        τ.server.entries.map Process.pid = [0] ∧
      τ.server.kernel.children.map (fun child => (child.pid, child.alive)) =
        [(8, true), (7, false)]))
    (by decide +kernel)
  exact ⟨twinList_load, τ, hrun, of_decide_eq_true hτ⟩

/-! ### Requests by name -/

/-- The names are distinct, and none is empty. -/
structure Distinct (s : Server) : Prop where
  tidy : Tidy s
  agrees : Agrees s
  names : (s.entries.map Process.appName).Nodup

theorem distinct_of_zero {s : Server} (hlist : s.processList = .zero)
    (hcount : s.processCount = 0) :
    Distinct s := by
  have htidy := tidy_of_zero hlist hcount
  have hnil := entries_of_zero hcount
  refine ⟨htidy, htidy.agrees_iff.mpr ?_, ?_⟩
  · rw [hnil]
    simp
  · rw [hnil]
    exact List.nodup_nil

theorem Distinct.unshared {s : Server} (h : Distinct s) {k : ℕ} {p : Process}
    (hp : s.entries[k]? = some p) : Unshared s k p :=
  fun _ _ hq hname => index_of_nodup h.names hq hp hname

theorem Distinct.served {s t : Server} {call : Request × Answers} (h : Distinct s)
    (hnamed : AppendsNamed s call.1) (hserved : Served s call t) : Distinct t := by
  obtain ⟨ops, u, text, hplan, hrun, -, rfl⟩ := hserved.plan h.tidy.inside
  have htidy : Tidy (s.asked call.2) := ⟨h.tidy.inside, h.tidy.unnamed⟩
  obtain ⟨htidyu, hiff⟩ := plan_agrees htidy h.agrees hplan hrun
  refine ⟨⟨htidyu.inside, htidyu.unnamed⟩, hiff.mpr hnamed, ?_⟩
  change (u.entries.map Process.appName).Nodup
  rcases (plan_cases h.tidy.inside hplan).local with
    hlocal | ⟨p, buffer, res, rfl, hnew, -⟩ | ⟨p, pos, -, hops⟩
  · rw [entries_names hrun hlocal]
    exact h.names
  · -- the appended name is not listed
    obtain ⟨v, hstep, hv⟩ := run_cons.mp hrun
    obtain rfl := run_nil.mp hv
    obtain ⟨pid, forks, -, -, hentries, -⟩ := hstep.append_entries
    rw [hentries, List.map_append, List.nodup_append]
    refine ⟨h.names, List.nodup_singleton _, fun name hname other hother => ?_⟩
    rw [List.map_singleton, List.mem_singleton] at hother
    rw [hother]
    rintro rfl
    have hlisted : s.named p.appName = true := (named_iff s p.appName).mpr hname
    rw [hnew] at hlisted
    cases hlisted
  · obtain ⟨j, -, hnames⟩ := plan_remove_names htidy h.agrees hplan
      (hops ▸ List.mem_append_right _ List.mem_cons_self) hrun
    rw [hnames]
    exact h.names.sublist (List.eraseIdx_sublist _ _)

/-- A name that is no id is found where it is listed. -/
theorem Distinct.lookup {s : Server} (h : Distinct s) {k : ℕ} {p : Process}
    (hp : s.entries[k]? = some p) {buffer : Text} (hbuffer : cstr buffer = p.appName.bytes)
    (hid : getProcessId s.processCount buffer = -1) : s.lookup buffer = some k := by
  rw [Server.lookup, hid, if_neg (by simp), List.findIdx?_eq_some_iff_getElem]
  obtain ⟨hlt, rfl⟩ := List.getElem?_eq_some_iff.mp hp
  refine ⟨hlt, by simp [hbuffer], fun j hj hname => ?_⟩
  have hjk := h.unshared hp j s.entries[j] (List.getElem?_eq_getElem (by omega)) (by
    rw [← StrBuf.bytes_inj, ← hbuffer]
    simpa using hname)
  omega

theorem getProcessId_congr {a b : Text} (h : cstr a = cstr b) (n : ℕ) :
    getProcessId n a = getProcessId n b := by
  unfold getProcessId isNumber atoi
  rw [h]

theorem Distinct.lookup_iff {s : Server} (h : Distinct s) {k : ℕ} {p : Process}
    (hp : s.entries[k]? = some p) {buffer : Text} (hbuffer : cstr buffer = p.appName.bytes) :
    s.lookup buffer = some k ↔
      getProcessId s.processCount buffer = -1 ∨ getProcessId s.processCount buffer = k := by
  constructor
  · intro hlookup
    by_cases hid : getProcessId s.processCount buffer = -1
    · exact Or.inl hid
    · rw [Server.lookup, if_pos hid, Option.some_inj] at hlookup
      have hrange := getProcessId_range hid
      omega
  · rintro (hid | hid)
    · exact h.lookup hp hbuffer hid
    · exact lookup_id hid

/-- The string is resolved to entry `k`. -/
def ResolvesTo (s : Server) (buffer : Text) (k : ℕ) (p : Process) : Prop :=
  ∃ type, (type = ProcessType.id ∨ type = ProcessType.appName) ∧
    parseProcessAndProcessType s.processList s.processCount buffer = .ok (type, p) ∧
    getPosInProcessList s.processList s.processCount p = .ok k

theorem Distinct.resolvesTo_iff {s : Server} (h : Distinct s) {k : ℕ} {p : Process}
    (hp : s.entries[k]? = some p) {buffer : Text} (hbuffer : cstr buffer = p.appName.bytes) :
    ResolvesTo s buffer k p ↔
      getProcessId s.processCount buffer = -1 ∨ getProcessId s.processCount buffer = k := by
  rw [← h.lookup_iff hp hbuffer]
  have hn := h.tidy.inside
  have hfound : ∀ {j : ℕ} {q : Process}, s.entries[j]? = some q → s.lookup buffer = some j →
      ResolvesTo s buffer j q := by
    intro j q hq hj
    obtain ⟨type, pos, r, htype, hparse, hpos, -, hr, hname, -⟩ := operand_of_lookup hn hj hq
    obtain rfl := h.unshared hq pos r hr hname
    exact ⟨type, htype, hparse, hpos⟩
  constructor
  · rintro ⟨type, htype, hparse, hpos⟩
    cases hlookup : s.lookup buffer with
    | none =>
      -- no id, and yet the name is listed
      by_cases hid : getProcessId s.processCount buffer = -1
      · rw [h.lookup hp hbuffer hid] at hlookup
        cases hlookup
      · rw [Server.lookup, if_pos hid] at hlookup
        cases hlookup
    | some j =>
      obtain ⟨type', q, -, hlt, hq, hparse'⟩ := parse_listed hn hlookup
      rw [hparse'] at hparse
      obtain ⟨-, rfl⟩ := Prod.mk.inj (Except.ok.inj hparse)
      rw [h.unshared hp j q (entries_of_slot hlt hq) rfl]
  · exact hfound hp

/-- The only listed id that the name of entry `k` may be is `k`. -/
def Unshadowed (s : Server) (k : ℕ) (name : StrBuf) : Prop :=
  ∀ v, Numeral name.bytes v → v < s.processCount → v = k

theorem Distinct.unshadowed_iff {s : Server} (h : Distinct s) {k : ℕ} {p : Process}
    (hp : s.entries[k]? = some p)
    (hwrap : ∀ v, Numeral p.appName.bytes v → 2 ^ 32 ≤ v → v < 2 ^ 63 →
      s.processCount ≤ v % 2 ^ 32) :
    getProcessId s.processCount p.appName.bytes = -1 ∨
        getProcessId s.processCount p.appName.bytes = k ↔ Unshadowed s k p.appName := by
  have hn : s.processCount < 2 ^ 31 := lt_of_le_of_lt h.tidy.inside (by decide)
  have hne : cstr p.appName.bytes ≠ [] := by
    rw [cstr_of_notMem p.appName.nulFree]
    intro hnil
    exact h.tidy.agrees_iff.mp h.agrees p (List.mem_of_getElem? hp) (StrBuf.ext hnil)
  obtain ⟨hexact, hfail⟩ := readsExactly_of_digits hn hne hwrap
  constructor
  · intro hid v hv hlt
    have hread := (hexact v).mpr ⟨hv, hlt⟩
    omega
  · intro hown
    by_cases hlisted : ∃ v, Numeral p.appName.bytes v ∧ v < s.processCount
    · obtain ⟨v, hv, hlt⟩ := hlisted
      obtain rfl := hown v hv hlt
      exact Or.inr ((hexact v).mpr ⟨hv, hlt⟩)
    · refine Or.inl (hfail fun v hv => ?_)
      by_contra hle
      exact hlisted ⟨v, hv, by omega⟩

/-- In a run of requests from the empty list the name of an entry, unless it is a number that
wraps around to a listed id, is resolved to the entry exactly if it is not the id of another one;
and then a request by this name acts on no other. -/
theorem by_name_iff {s t : Server} {calls : List (Request × Answers)}
    (hlist : s.processList = .zero)
    (hcount : s.processCount = 0)
    (hrun : Guarded Served (fun s call => AppendsNamed s call.1) s calls t) {k : ℕ} {p : Process}
    (hp : t.entries[k]? = some p)
    (hwrap : ∀ v, Numeral p.appName.bytes v → 2 ^ 32 ≤ v → v < 2 ^ 63 →
      t.processCount ≤ v % 2 ^ 32) :
    (ResolvesTo t p.appName.bytes k p ↔ Unshadowed t k p.appName) ∧
    (Unshadowed t k p.appName →
      ∀ request answers u, (readCommand (t.commandBuffer request)).HasOperand →
        cstr (t.operandBuffer request) = p.appName.bytes → Served t (request, answers) u →
        ActsOnly t u k p (readCommand (t.commandBuffer request))) := by
  have hempty := distinct_of_zero hlist hcount
  -- requests append under new names only, so the names stay distinct
  have ht : Distinct t :=
    hrun.invariant (fun _ _ _ h hnamed hserved => h.served hnamed hserved) hempty
  have hiff := ht.unshadowed_iff hp hwrap
  refine ⟨(ht.resolvesTo_iff hp (cstr_of_notMem p.appName.nulFree)).trans hiff,
    fun hown request answers u hcommand hname hserved => ?_⟩
  have hsame : cstr (t.operandBuffer request) = cstr p.appName.bytes :=
    hname.trans (cstr_of_notMem p.appName.nulFree).symm
  have hid := hiff.mpr hown
  rw [← getProcessId_congr hsame] at hid
  have hlookup := (ht.lookup_iff hp hname).mpr hid
  exact hserved.acts_only ht.tidy ht.agrees (ht.unshared hp) hp hcommand
    ((ht.unshared hp).operand ht.tidy.inside hlookup hp)

/-- Two apps are started, and the second one has its own id as its name. -/
theorem by_name_iff_one :
    ∃ t, Guarded Served (fun s call => AppendsNamed s call.1) .empty
        [startCall .web 7, startCall .one 8] t ∧
      ResolvesTo t (str "1") 1 (t.entries.getD 1 .zero) := by
  have hnames : (servedAll (fun s call => decide (AppendsNamed s call.1)) .empty
      [startCall .web 7, startCall .one 8]).map (fun t => t.entries.map Process.appName) =
      some [Process.web.appName, Process.one.appName] := by decide +kernel
  obtain ⟨t, hserved, hnames⟩ := Option.map_eq_some_iff.mp hnames
  have hrun := guarded_of_servedAll hserved
  simp only [decide_eq_true_eq] at hrun
  have hone := congrArg (fun names => names[1]?) hnames
  simp only [List.getElem?_map] at hone
  obtain ⟨p, hp, hname⟩ := Option.map_eq_some_iff.mp hone
  refine ⟨t, hrun, ?_⟩
  rw [List.getD_eq_getElem?_getD, hp, Option.getD_some]
  -- the name is a numeral for 1
  have hvalue : ∀ v, Numeral p.appName.bytes v → v = 1 := by
    rw [hname]
    rintro v ⟨-, -, rfl⟩
    decide
  have hiff := (by_name_iff rfl rfl hrun hp
    fun v hv hlow => absurd (hvalue v hv) (by omega)).1
  have hown : Unshadowed t 1 p.appName := fun v hv _ => hvalue v hv
  rw [hname] at hiff hown
  exact hiff.mpr hown

/-- Two apps are started, and the first one is to be stopped by its name; the second one is. -/
theorem one_shadowed :
    ∃ τ, Run Steps ⟨.empty, .starting 0⟩ [.request (startCall .one 7).1 (onePid 7),
        .request (startCall .web 8).1 (onePid 8), .request ⟨str "stop", str "1"⟩ (onePid 9)] τ ∧
      τ.server.entries.map Process.appName = [Process.one.appName, Process.web.appName] ∧
      τ.server.entries.map Process.isRunning = [1, 0] ∧
      τ.server.kernel.kills.map (fun call => call.process.pid) = [8] ∧
      ∀ p, ¬ResolvesTo τ.server Process.one.appName.bytes 0 p := by
  obtain ⟨τ, hrun, hτ⟩ := run_of_any ⟨.empty, .starting 0⟩
    [.request (startCall .one 7).1 (onePid 7), .request (startCall .web 8).1 (onePid 8),
      .request ⟨str "stop", str "1"⟩ (onePid 9)]
    (fun τ => decide (τ.server.entries.map Process.appName =
      [Process.one.appName, Process.web.appName] ∧
      τ.server.entries.map Process.isRunning = [1, 0] ∧
      τ.server.kernel.kills.map (fun call => call.process.pid) = [8] ∧
      (match parseProcessAndProcessType τ.server.processList τ.server.processCount
          Process.one.appName.bytes with
        | .ok r =>
          decide (getPosInProcessList τ.server.processList τ.server.processCount r.2 = .ok 1)
        | .error _ => false) = true)) (by decide +kernel)
  obtain ⟨hnames, hrunning, hkills, hplace⟩ := of_decide_eq_true hτ
  refine ⟨τ, hrun, hnames, hrunning, hkills, ?_⟩
  rintro p ⟨type, -, hparse, hpos⟩
  rw [hparse] at hplace
  have hone := of_decide_eq_true hplace
  rw [hpos] at hone
  cases hone

end KbPm
