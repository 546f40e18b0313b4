/-
The status text, read back by a client (`parse_process_list_with_status`).

* `parseProcessCJsonWithStatus`, `parseProcessListWithStatus` — the decoder;
* `parseProcessCJsonWithStatus_statusItem` — an item is decoded field by field, and
  `start_time` goes through an `int`;
* `snapshot_iff` — so the entries are recovered exactly if their start times fit into one.
-/
import KbPm.ProcessText
import KbPm.StatusText

namespace KbPm

/-! ### The decoder -/

/-- Look an item up, or give up and leave the process as it is. -/
def withItem (json : CJson) (name : String) (process : Process)
    (next : CJson → Except Fault (Process × ℤ)) : Except Fault (Process × ℤ) :=
  match getObjectItem json (str name) with
  | none => .ok (process, -1)
  | some item => next item

/-- `parse_process_cJSON_with_status`.  The function falls off its end, which is taken for 0. -/
def parseProcessCJsonWithStatus (process : Process) (json : CJson) : Except Fault (Process × ℤ) :=
  withItem json "app_name" process fun item => do
  let process := { process with appName := ← copyValuestring item }
  withItem json "id" process fun item => do
  let process := { process with id := item.valueint.toInt }
  withItem json "pid" process fun item => do
  let process := { process with pid := item.valueint.toInt }
  withItem json "is_running" process fun item => do
  let process := { process with isRunning := item.valueint }
  withItem json "restart_times" process fun item => do
  let process := { process with restartTimes := item.valueint }
  withItem json "start_time" process fun item => do
  let process := { process with startTime := item.valueint.toInt }
  withItem json "memory" process fun item => do
  return ({ process with memory := ← copyValuestring item }, 0)

/-- `parse_process_cJSON_with_status(&process_list[i], p_json)`.  Behind the caller's array it is
the first `strcpy` that touches the slot. -/
def parseSlotWithStatus (processes : List Process) (i : ℕ) (json : CJson) :
    Except Fault (List Process × ℤ) :=
  match processes[i]? with
  | some process => do
    let (process, res) ← parseProcessCJsonWithStatus process json
    return (processes.set i process, res)
  | none =>
    match getObjectItem json (str "app_name") with
    | none => .ok (processes, -1)
    | some item =>
      match item.valuestring with
      | none => .error .nullString
      | some _ => .error (.index i)

/-- The loop of `parse_process_list_with_status`, from slot `i` on. -/
def parseSlotsWithStatus (processes : List Process) (i : ℕ) :
    List CJson → Except Fault (List Process × ℤ)
  | [] => .ok (processes, i)
  | json :: jsons => do
    let (processes, res) ← parseSlotWithStatus processes i json
    if res = -1 then return (processes, -1)
    parseSlotsWithStatus processes (i + 1) jsons

/-- `parse_process_list_with_status`, into the caller's array. -/
def parseProcessListWithStatus (processes : List Process) (jsonStr : Text) :
    Except Fault (List Process × ℤ) :=
  match cJsonParse jsonStr with
  | .error fault => .error fault
  | .ok none => .ok (processes, -1)
  | .ok (some json) => parseSlotsWithStatus processes 0 (json.children.map Prod.snd)

/-! ### An item -/

/-- `"0 B"` -/
def noMemory : StrBuf := ⟨str "0 B", by decide, by decide⟩

/-- `process` after the fields that a status item carries are copied into it. -/
def Process.refresh (process source : Process) : Process :=
  { process with
    appName := source.appName
    id := source.id
    pid := source.pid
    isRunning := source.isRunning
    restartTimes := source.restartTimes
    startTime := (intOfDouble (double source.startTime)).toInt
    memory := if source.isRunning ≠ 0 then source.memory else noMemory }

/-- The fields of a `process_s` are in the range of their types; the start time is not negative. -/
structure Process.InRange (process : Process) : Prop where
  id : -2 ^ 31 ≤ process.id ∧ process.id < 2 ^ 31
  pid : -2 ^ 31 ≤ process.pid ∧ process.pid < 2 ^ 31
  startTime : 0 ≤ process.startTime ∧ process.startTime < 2 ^ 63

theorem valueint_intCast {n : ℤ} (h : -2 ^ 31 ≤ n ∧ n < 2 ^ 31) :
    (CJson.valueint (.number (n : ℚ))).toInt = n := by
  rw [CJson.valueint, intOfDouble_intCast h.1 h.2, Int32.toInt_ofInt_of_le h.1 h.2]

theorem withItem_some {json item : CJson} {name : String} {process : Process}
    {next : CJson → Except Fault (Process × ℤ)} (h : getObjectItem json (str name) = some item) :
    withItem json name process next = next item := by
  simp only [withItem, h]

/-- Every field is read from the member that was written for it. -/
theorem parseProcessCJsonWithStatus_statusItem (process : Process) {source : Process}
    (hid : -2 ^ 31 ≤ source.id ∧ source.id < 2 ^ 31)
    (hpid : -2 ^ 31 ≤ source.pid ∧ source.pid < 2 ^ 31) :
    parseProcessCJsonWithStatus process (statusItem source) = .ok (process.refresh source, 0) := by
  have hmemory :
    (.string (if source.isRunning ≠ 0 then source.memory.bytes else str "0 B") : CJson) =
      .string (if source.isRunning ≠ 0 then source.memory else noMemory).bytes := by
    split <;> rfl
  have happ : getObjectItem (statusItem source) (str "app_name") =
      some (.string source.appName.bytes) := rfl
  have hid' : getObjectItem (statusItem source) (str "id") = some (.number source.id) := rfl
  have hpid' : getObjectItem (statusItem source) (str "pid") = some (.number source.pid) := rfl
  have hrun' : getObjectItem (statusItem source) (str "is_running") =
      some (.number (source.isRunning.toInt : ℤ)) := rfl
  have hrestart' : getObjectItem (statusItem source) (str "restart_times") =
      some (.number (source.restartTimes.toInt : ℤ)) := rfl
  have hstart' : getObjectItem (statusItem source) (str "start_time") =
      some (.number (double source.startTime)) := rfl
  have hmem' : getObjectItem (statusItem source) (str "memory") =
      some (.string (if source.isRunning ≠ 0 then source.memory else noMemory).bytes) := by
    rw [← hmemory]
    rfl
  have hrun : CJson.valueint (.number (source.isRunning.toInt : ℤ)) = source.isRunning :=
    intOfDouble_toInt source.isRunning
  have hrestart : CJson.valueint (.number (source.restartTimes.toInt : ℤ)) = source.restartTimes :=
    intOfDouble_toInt source.restartTimes
  -- the fields in the order in which they are read
  refine (withItem_some happ).trans ?_
  rw [copyValuestring_bytes, Slots.ok_bind]
  refine (withItem_some hid').trans <| (withItem_some hpid').trans <| (withItem_some hrun').trans <|
    (withItem_some hrestart').trans <| (withItem_some hstart').trans <|
      (withItem_some hmem').trans ?_
  rw [copyValuestring_bytes, Slots.ok_bind]
  simp only [valueint_intCast hid, valueint_intCast hpid, hrestart, hrun]
  rfl

theorem withItem_ok {json : CJson} {name : String} {process q : Process} {res : ℤ}
    {next : CJson → Except Fault (Process × ℤ)} (h : withItem json name process next = .ok (q, res))
    (hres : res ≠ -1) : ∃ item, next item = .ok (q, res) := by
  rw [withItem] at h
  split at h
  · cases h
    exact absurd rfl hres
  · exact ⟨_, h⟩

/-- Whatever the item is, a start time that is decoded is an `int`. -/
theorem parseProcessCJsonWithStatus_startTime {process q : Process} {json : CJson} {res : ℤ}
    (h : parseProcessCJsonWithStatus process json = .ok (q, res)) (hres : res ≠ -1) :
    q.startTime < 2 ^ 31 := by
  obtain ⟨item, h⟩ := withItem_ok h hres
  obtain ⟨appName, -, h⟩ := Slots.bind_eq_ok h
  obtain ⟨item, h⟩ := withItem_ok h hres
  obtain ⟨item, h⟩ := withItem_ok h hres
  obtain ⟨item, h⟩ := withItem_ok h hres
  obtain ⟨item, h⟩ := withItem_ok h hres
  obtain ⟨startTime, h⟩ := withItem_ok h hres
  obtain ⟨item, h⟩ := withItem_ok h hres
  obtain ⟨memory, -, h⟩ := Slots.bind_eq_ok h
  cases h
  -- whatever number the item has, its `valueint` is an `int`
  exact Int32.toInt_lt startTime.valueint

/-! ### The list -/

theorem parseSlotWithStatus_ok {processes loaded : List Process} {i : ℕ} {json : CJson} {res : ℤ}
    (h : parseSlotWithStatus processes i json = .ok (loaded, res)) (hres : res ≠ -1) :
    i < processes.length ∧ ∃ q, loaded = processes.set i q ∧ q.startTime < 2 ^ 31 := by
  rw [parseSlotWithStatus] at h
  split at h
  · rename_i process hprocess
    obtain ⟨⟨q, res'⟩, hq, h⟩ := Slots.bind_eq_ok h
    cases h
    exact ⟨(List.getElem?_eq_some_iff.mp hprocess).1, q, rfl,
      parseProcessCJsonWithStatus_startTime hq hres⟩
  · split at h
    · cases h
      exact absurd rfl hres
    · split at h <;> cases h

/-- The start times of a list that is decoded. -/
theorem parseSlotsWithStatus_startTime {processes loaded : List Process} {i : ℕ}
    {jsons : List CJson} {n : ℤ}
    (h : parseSlotsWithStatus processes i jsons = .ok (loaded, n)) (hn : n ≠ -1) :
    n = (i + jsons.length : ℕ) ∧ (∀ k < i, loaded[k]? = processes[k]?) ∧
      ∀ k, i ≤ k → k < i + jsons.length → ∃ p, loaded[k]? = some p ∧ p.startTime < 2 ^ 31 := by
  induction jsons generalizing processes i with
  | nil =>
    cases h
    exact ⟨rfl, fun _ _ => rfl, fun k hik hk => absurd hk (Nat.not_lt.mpr hik)⟩
  | cons json jsons ih =>
    rw [parseSlotsWithStatus] at h
    obtain ⟨⟨written, res⟩, hslot, h⟩ := Slots.bind_eq_ok h
    simp only at h
    split at h
    · cases h
      exact absurd rfl hn
    · rename_i hres
      obtain ⟨hi, q, rfl, hq⟩ := parseSlotWithStatus_ok hslot hres
      obtain ⟨hlength, hbefore, hin⟩ := ih h
      -- later items leave the slots before them alone
      refine ⟨by rw [hlength, List.length_cons]; congr 1; omega, fun k hk => ?_, fun k hik hk => ?_⟩
      · rw [hbefore k (by omega), List.getElem?_set_ne (by omega)]
      · rw [List.length_cons] at hk
        rcases Nat.eq_or_lt_of_le hik with rfl | hlt
        · refine ⟨q, ?_, hq⟩
          rw [hbefore i (by omega), List.getElem?_set_self hi]
        · exact hin k hlt (by omega)

/-- The loop over items that were made from processes. -/
theorem parseSlotsWithStatus_statusItems {sources : List Process}
    (hrange : ∀ source ∈ sources, source.InRange)
    {processes : List Process} {i : ℕ} (h : i + sources.length ≤ processes.length) :
    ∃ loaded, parseSlotsWithStatus processes i (sources.map statusItem) =
        .ok (loaded, (i + sources.length : ℕ)) ∧ (∀ k < i, loaded[k]? = processes[k]?) ∧
      ∀ (k : ℕ) source, sources[k]? = some source →
        loaded[i + k]? = (processes[i + k]?).map fun process => process.refresh source := by
  induction sources generalizing processes i with
  | nil => exact ⟨processes, rfl, fun _ _ => rfl, by simp⟩
  | cons source sources ih =>
    rw [List.length_cons] at h
    have hi : i < processes.length := by omega
    have hget : processes[i]? = some processes[i] := List.getElem?_eq_getElem hi
    obtain ⟨hid, hpid, -⟩ := hrange source List.mem_cons_self
    have hslot : parseSlotWithStatus processes i (statusItem source) =
        .ok (processes.set i (processes[i].refresh source), 0) := by
      simp only [parseSlotWithStatus, hget,
        parseProcessCJsonWithStatus_statusItem processes[i] hid hpid]
      rfl
    obtain ⟨loaded, hloaded, hbefore, hin⟩ :=
      ih (fun source hsource => hrange source (List.mem_cons_of_mem _ hsource))
        (show i + 1 + sources.length ≤ (processes.set i (processes[i].refresh source)).length by
          rw [List.length_set]; omega)
    refine ⟨loaded, ?_, fun k hk => ?_, fun k s hk => ?_⟩
    · rw [List.map_cons, parseSlotsWithStatus, hslot, List.length_cons,
        show i + (sources.length + 1) = i + 1 + sources.length by omega]
      exact hloaded
    · rw [hbefore k (by omega), List.getElem?_set_ne (by omega)]
    · -- the first item went to slot `i`, and the others behind it
      cases k with
      | zero =>
        obtain rfl : source = s := by simpa using hk
        rw [Nat.add_zero, hbefore i (by omega), List.getElem?_set_self hi, hget, Option.map_some]
      | succ k =>
        rw [show i + (k + 1) = i + 1 + k by omega, hin k s (by simpa using hk),
          List.getElem?_set_ne (by omega)]

theorem printable_intCast {n : ℤ} (h : |n| < 2 ^ 53) : Printable (.number (n : ℚ)) := ⟨n, rfl, h⟩

theorem printable_statusItem {source : Process} (h : source.InRange)
    (hstart : source.startTime < 2 ^ 53) :
    Printable (statusItem source) := by
  obtain ⟨hid, hpid, h0, -⟩ := h
  have hdouble : double (source.startTime : ℚ) = source.startTime :=
    double_intCast (abs_lt.mpr (by omega))
  have hrun1 := Int32.le_toInt source.isRunning
  have hrun2 := Int32.toInt_lt source.isRunning
  have hrestart1 := Int32.le_toInt source.restartTimes
  have hrestart2 := Int32.toInt_lt source.restartTimes
  -- member by member: a key, and a string without a NUL or an integer below `2 ^ 53`
  refine ⟨by decide, source.appName.nulFree, by decide,
    printable_intCast (abs_lt.mpr (by omega)), by decide,
    printable_intCast (abs_lt.mpr (by omega)), by decide,
      printable_intCast (abs_lt.mpr (by omega)), by decide,
    ?_, by decide, printable_intCast (abs_lt.mpr (by omega)), by decide, ?_, trivial⟩
  · rw [hdouble]
    exact printable_intCast (abs_lt.mpr (by omega))
  · split
    · exact source.memory.nulFree
    · exact noMemory.nulFree

theorem printable_statusItems {sources : List Process} (hrange : ∀ source ∈ sources, source.InRange)
    (hstart : ∀ source ∈ sources, source.startTime < 2 ^ 53) :
    Printable (.array (sources.map statusItem)) := by
  induction sources with
  | nil => exact trivial
  | cons source sources ih =>
    exact ⟨printable_statusItem (hrange source List.mem_cons_self)
      (hstart source List.mem_cons_self),
      ih (fun source hsource => hrange source (List.mem_cons_of_mem _ hsource))
        fun source hsource => hstart source (List.mem_cons_of_mem _ hsource)⟩

/-! ### What the client shows -/

section Queried

variable {procStatus : ℤ → Option (List Text)}

/-- `source` with the memory that is queried for the status text. -/
inductive Queried (procStatus : ℤ → Option (List Text)) (source : Process) : Process → Prop
  | stopped (hrun : source.isRunning = 0) : Queried procStatus source source
  | running {memory : StrBuf} (hrun : source.isRunning ≠ 0)
    (hmemory : getMemByPid procStatus source.pid = .ok memory) :
    Queried procStatus source { source with memory := memory }

theorem queried_of_create {source q : Process} {json : CJson}
    (h : createProcessCJsonWithStatus procStatus source = .ok (q, json)) :
    Queried procStatus source q ∧ json = statusItem q := by
  by_cases hrun : source.isRunning = 0
  · rw [createProcessCJsonWithStatus_stopped hrun] at h
    cases h
    exact ⟨.stopped hrun, rfl⟩
  · rw [createProcessCJsonWithStatus_running hrun] at h
    cases hmemory : getMemByPid procStatus source.pid with
    | error f =>
      rw [hmemory] at h
      cases h
    | ok memory =>
      rw [hmemory] at h
      cases h
      exact ⟨.running hrun hmemory, rfl⟩

theorem queried_of_mapM {sources : List Process} {pairs : List (Process × CJson)}
    (h : sources.mapM (createProcessCJsonWithStatus procStatus) = .ok pairs) :
    List.Forall₂ (Queried procStatus) sources (pairs.map Prod.fst) ∧
      pairs.map Prod.snd = (pairs.map Prod.fst).map statusItem := by
  induction sources generalizing pairs with
  | nil =>
    cases h
    exact ⟨.nil, rfl⟩
  | cons source sources ih =>
    rw [List.mapM_cons] at h
    obtain ⟨⟨q, json⟩, hsource, h⟩ := Slots.bind_eq_ok h
    obtain ⟨rest, hrest, h⟩ := Slots.bind_eq_ok h
    cases h
    obtain ⟨hq, rfl⟩ := queried_of_create hsource
    obtain ⟨hshown, hjsons⟩ := ih hrest
    exact ⟨.cons hq hshown, congrArg (statusItem q :: ·) hjsons⟩

theorem queried_of_text {sources : List Process} {text : Text}
    (h : createProcessListJsonStrWithStatus procStatus sources = .ok text) :
    ∃ shown, List.Forall₂ (Queried procStatus) sources shown ∧
      text = cJsonPrint (.array (shown.map statusItem)) := by
  rw [createProcessListJsonStrWithStatus] at h
  obtain ⟨pairs, hpairs, h⟩ := Slots.bind_eq_ok h
  cases h
  obtain ⟨hshown, hjsons⟩ := queried_of_mapM hpairs
  exact ⟨pairs.map Prod.fst, hshown, by rw [hjsons]⟩

/-- The query changes the memory only. -/
theorem Queried.inRange {source q : Process} (h : Queried procStatus source q)
    (hsource : source.InRange) :
    q.InRange ∧ q.startTime = source.startTime := by
  cases h with
  | stopped => exact ⟨hsource, rfl⟩
  | running => exact ⟨⟨hsource.id, hsource.pid, hsource.startTime⟩, rfl⟩

end Queried

/-- What the client shows of an entry is what the service has: `p` is the entry `source` and the
memory that was queried for it. -/
structure Recovers (procStatus : ℤ → Option (List Text)) (source p : Process) : Prop where
  appName : p.appName = source.appName
  id : p.id = source.id
  pid : p.pid = source.pid
  restartTimes : p.restartTimes = source.restartTimes
  startTime : p.startTime = source.startTime
  isRunning : p.isRunning = source.isRunning
  running : source.isRunning ≠ 0 → getMemByPid procStatus source.pid = .ok p.memory
  stopped : source.isRunning = 0 → p.memory.bytes = str "0 B"

theorem Queried.recovers {procStatus : ℤ → Option (List Text)} {source q process : Process}
    (h : Queried procStatus source q) (h0 : 0 ≤ source.startTime)
    (hstart : source.startTime < 2 ^ 31) :
    Recovers procStatus source (process.refresh q) := by
  have hint : (intOfDouble (double (source.startTime : ℚ))).toInt = source.startTime := by
    have hdouble : double (source.startTime : ℚ) = source.startTime :=
      double_intCast (abs_lt.mpr (by omega))
    rw [hdouble]
    exact valueint_intCast ⟨by omega, hstart⟩
  cases h with
  | stopped hrun =>
    refine ⟨rfl, rfl, rfl, rfl, hint, rfl, fun h => absurd hrun h, fun _ => ?_⟩
    simp [Process.refresh, hrun, noMemory]
  | running hrun hmemory =>
    refine ⟨rfl, rfl, rfl, rfl, hint, rfl, fun _ => ?_, fun h => absurd h hrun⟩
    simpa [Process.refresh, hrun] using hmemory

/-- A client decodes the list of the service from its status text, whatever follows it in the
buffer, exactly if no start time is beyond the range of an `int`. -/
theorem snapshot_iff {procStatus : ℤ → Option (List Text)}
    {sources processes : List Process} {text : Text}
    (hrange : ∀ source ∈ sources, source.InRange)
    (htext : createProcessListJsonStrWithStatus procStatus sources = .ok text)
    (hroom : sources.length ≤ processes.length) (x : Text) :
    (∃ loaded, parseProcessListWithStatus processes (text ++ x) = .ok (loaded, sources.length) ∧
      ∀ (k : ℕ) source, sources[k]? = some source → ∃ p, loaded[k]? = some p ∧
        Recovers procStatus source p) ↔
      ∀ source ∈ sources, source.startTime < 2 ^ 31 := by
  obtain ⟨shown, hshown, rfl⟩ := queried_of_text htext
  constructor
  · rintro ⟨loaded, hparse, hin⟩ source hsource
    -- a start time that is recovered has been an `int`
    obtain ⟨k, hk⟩ := List.mem_iff_getElem?.mp hsource
    obtain ⟨p, hp, hrecovers⟩ := hin k source hk
    have hlt : k < sources.length := (List.getElem?_eq_some_iff.mp hk).1
    rw [parseProcessListWithStatus] at hparse
    split at hparse
    · cases hparse
    · cases hparse
    · obtain ⟨hlength, -, hsmall⟩ := parseSlotsWithStatus_startTime hparse (by omega)
      obtain ⟨p', hp', hstart⟩ := hsmall k (Nat.zero_le k) (by omega)
      obtain rfl : p = p' := Option.some_inj.mp (hp.symm.trans hp')
      rw [← hrecovers.startTime]
      exact hstart
  · intro hstart
    -- the text is that of the entries with their memory, and is parsed back whatever follows
    have hlength := hshown.length_eq
    have hsource : ∀ (k : ℕ) q, shown[k]? = some q →
        ∃ source, sources[k]? = some source ∧ source ∈ sources ∧ Queried procStatus source q := by
      intro k q hq
      obtain ⟨hk, rfl⟩ := List.getElem?_eq_some_iff.mp hq
      have hk' : k < sources.length := by omega
      exact ⟨sources[k], List.getElem?_eq_getElem hk', List.getElem_mem hk', hshown.get hk' hk⟩
    have hshownRange : ∀ q ∈ shown, q.InRange ∧ q.startTime < 2 ^ 31 := by
      intro q hq
      obtain ⟨k, hk⟩ := List.mem_iff_getElem?.mp hq
      obtain ⟨source, -, hmem, hqueried⟩ := hsource k q hk
      obtain ⟨hq, heq⟩ := hqueried.inRange (hrange source hmem)
      exact ⟨hq, heq ▸ hstart source hmem⟩
    have hprint := printable_statusItems (fun q hq => (hshownRange q hq).1) fun q hq =>
      (hshownRange q hq).2.trans (by norm_num)
    obtain ⟨loaded, hloaded, -, hin⟩ := parseSlotsWithStatus_statusItems
      (fun q hq => (hshownRange q hq).1) (show 0 + shown.length ≤ processes.length by omega)
    refine ⟨loaded, ?_, fun k source hk => ?_⟩
    · have hchildren : (CJson.children (.array (shown.map statusItem))).map Prod.snd =
          shown.map statusItem := by
        simp [CJson.children]
      simp only [parseProcessListWithStatus, cJsonParse_print hprint (Or.inl ⟨_, rfl⟩) x,
        hchildren, hloaded,
        hlength, Nat.zero_add]
    · obtain ⟨hlt, hget⟩ := List.getElem?_eq_some_iff.mp hk
      have hq : shown[k]? = some shown[k] := List.getElem?_eq_getElem (by omega)
      have hslot : k < processes.length := by omega
      obtain ⟨source', hsource', hmem, hqueried⟩ := hsource k _ hq
      obtain rfl : source = source' := Option.some_inj.mp (hk.symm.trans hsource')
      have hloadedk := hin k _ hq
      rw [Nat.zero_add, List.getElem?_eq_getElem hslot, Option.map_some] at hloadedk
      exact ⟨_, hloadedk, hqueried.recovers (hrange source hmem).startTime.1 (hstart source hmem)⟩

/-- A process that has been running since `2038-01-19 03:14:08 UTC`, and its status file. -/
def lateWeb : Process := { Process.web with pid := 7, startTime := 2 ^ 31 }

def webFiles (_ : ℤ) : Option (List Text) := some [str "VmHWM:\t    1200 kB\n"]

def webMemory : StrBuf := ⟨str "1200 kB", by decide, by decide⟩

theorem createProcessListJsonStrWithStatus_web {p : Process} (hrun : p.isRunning ≠ 0) :
    createProcessListJsonStrWithStatus webFiles [p] =
      .ok (cJsonPrint (.array [statusItem { p with memory := webMemory }])) := by
  have hmemory : getMemByPid webFiles p.pid = .ok webMemory := by
    change getMemByPid webFiles 0 = .ok webMemory
    decide +kernel
  rw [createProcessListJsonStrWithStatus, List.mapM_cons,
    createProcessCJsonWithStatus_running hrun, hmemory]
  rfl

theorem snapshot_iff_web :
    ∃ text, createProcessListJsonStrWithStatus webFiles [Process.web] = .ok text ∧
      ((∃ loaded, parseProcessListWithStatus [Process.zero] (text ++ [0, 1]) =
        .ok (loaded, (1 : ℕ)) ∧
        ∀ (k : ℕ) source, [Process.web][k]? = some source →
          ∃ p, loaded[k]? = some p ∧ Recovers webFiles source p) ↔
        ∀ source ∈ [Process.web], source.startTime < 2 ^ 31) := by
  have hrange : Process.web.InRange := ⟨by decide, by decide, by decide⟩
  have htext := createProcessListJsonStrWithStatus_web (p := .web) (by decide)
  exact ⟨_, htext, snapshot_iff (by simpa using hrange) htext (by simp) [0, 1]⟩

/-- The client shows the process as one that was started in 1901. -/
theorem late_start_lost :
    lateWeb.InRange ∧ ∃ text loaded, createProcessListJsonStrWithStatus webFiles
      [lateWeb] = .ok text ∧
      parseProcessListWithStatus [Process.zero] text = .ok (loaded, 1) ∧
      loaded.map Process.startTime = [-2 ^ 31] := by
  have hrange : lateWeb.InRange := ⟨by decide, by decide, by decide⟩
  have hshown : ({ lateWeb with memory := webMemory } : Process).InRange :=
    ⟨hrange.id, hrange.pid, hrange.startTime⟩
  have hprint : Printable (.array [statusItem { lateWeb with memory := webMemory }]) :=
    ⟨printable_statusItem hshown (by decide), trivial⟩
  have hparse := parseProcessCJsonWithStatus_statusItem .zero hshown.id hshown.pid
  have hstart : (intOfDouble (double (lateWeb.startTime : ℚ))).toInt = -2 ^ 31 := by
    have hdouble : double (lateWeb.startTime : ℚ) = lateWeb.startTime := double_intCast (by decide)
    rw [hdouble]
    decide +kernel
  have hload : parseProcessListWithStatus [Process.zero]
      (cJsonPrint (.array [statusItem { lateWeb with memory := webMemory }])) =
      .ok ([Process.zero.refresh { lateWeb with memory := webMemory }], 1) := by
    have hjson := cJsonParse_print hprint (Or.inl ⟨_, rfl⟩) []
    rw [List.append_nil] at hjson
    simp only [parseProcessListWithStatus, hjson, CJson.children, List.map_cons, List.map_nil,
      parseSlotsWithStatus, parseSlotWithStatus, List.getElem?_cons_zero, hparse]
    rfl
  exact ⟨hrange, _, _, createProcessListJsonStrWithStatus_web (by decide),
    hload, by rw [← hstart]; rfl⟩

end KbPm
