/-
How long the texts of a list are (`create_process_list_json_str` and its sibling with the
status).

* `saveSize`, `statusSize` — the sums of what the entries take: constants for names,
  indentation and separators, and the escaped fields;
* `length_saveText`, `length_statusText` — these are the lengths;
* `texts_fit_iff` — so a text is inside its buffer exactly if its sum is.
-/
import KbPm.Bounds
import KbPm.Length
import KbPm.Load
import KbPm.Snapshot
import KbPm.Supervisor

namespace KbPm

open Trace

/-! ### The text that is saved -/

/-- What an entry takes in the config file. -/
def Process.saveSize (process : Process) : ℕ :=
  65 + textSize process.appName.bytes + textSize process.cmd.bytes + textSize process.dir.bytes +
    numberSize process.isRunning.toInt

/-- The brackets, the entries, and the separators between them. -/
def saveSize (processes : List Process) : ℕ :=
  2 + (processes.map Process.saveSize).sum + 2 * (processes.length - 1)

theorem length_createProcessCJson (depth : ℕ) (p : Process) :
    (printValue depth (createProcessCJson p)).length + 5 = p.saveSize + 5 * depth := by
  have happ : (printStringPtr (str "app_name")).length = 10 := by decide +kernel
  have hcmd : (printStringPtr (str "cmd")).length = 5 := by decide +kernel
  have hdir : (printStringPtr (str "dir")).length = 5 := by decide +kernel
  have hrun : (printStringPtr (str "is_running")).length = 12 := by decide +kernel
  -- keys, quotes, colons, commas and tabs are counted, the fields are left over
  simp only [createProcessCJson, printValue, printMembers, tabs, List.length_append,
    List.length_cons,
    List.length_nil, List.length_replicate, List.isEmpty_cons, List.isEmpty_nil, Bool.false_eq_true,
    if_false, if_true, happ, hcmd, hdir, hrun, length_printStringPtr p.appName.nulFree,
    length_printStringPtr p.cmd.nulFree, length_printStringPtr p.dir.nulFree]
  rw [Process.saveSize, length_printNumber]
  omega

theorem length_saveText (processes : List Process) :
    (cJsonPrint (.array (processes.map createProcessCJson))).length = saveSize processes := by
  have hitems : (fun v => (printValue 1 v).length) ∘ createProcessCJson = Process.saveSize :=
    funext fun p => Nat.add_right_cancel (length_createProcessCJson 1 p)
  rw [length_cJsonPrint_array, List.map_map, hitems, List.length_map, saveSize]

/-! ### The status text -/

/-- What an entry takes in the status text. -/
def Process.statusSize (process : Process) : ℕ :=
  115 + textSize process.appName.bytes + numberSize process.id + numberSize process.pid +
    numberSize process.restartTimes.toInt + numberSize (double process.startTime) +
    numberSize process.isRunning.toInt +
    if process.isRunning ≠ 0 then textSize process.memory.bytes else 3

def statusSize (processes : List Process) : ℕ :=
  2 + (processes.map Process.statusSize).sum + 2 * (processes.length - 1)

theorem length_statusItem (p : Process) : (printValue 1 (statusItem p)).length = p.statusSize := by
  have happ : (printStringPtr (str "app_name")).length = 10 := by decide +kernel
  have hid : (printStringPtr (str "id")).length = 4 := by decide +kernel
  have hpid : (printStringPtr (str "pid")).length = 5 := by decide +kernel
  have hrestart : (printStringPtr (str "restart_times")).length = 15 := by decide +kernel
  have hstart : (printStringPtr (str "start_time")).length = 12 := by decide +kernel
  have hrun : (printStringPtr (str "is_running")).length = 12 := by decide +kernel
  have hmemory : (printStringPtr (str "memory")).length = 8 := by decide +kernel
  have hvalue : (printStringPtr (if p.isRunning ≠ 0 then p.memory.bytes else str "0 B")).length =
      2 + if p.isRunning ≠ 0 then textSize p.memory.bytes else 3 := by
    split
    · exact length_printStringPtr p.memory.nulFree
    · decide +kernel
  simp only [statusItem, printValue, printMembers, tabs, List.length_append, List.length_cons,
    List.length_nil, List.length_replicate, List.isEmpty_cons, List.isEmpty_nil, Bool.false_eq_true,
    if_false, if_true, happ, hid, hpid, hrestart, hstart, hrun, hmemory, hvalue,
    length_printStringPtr p.appName.nulFree]
  simp only [length_printNumber]
  rw [Process.statusSize]
  omega

theorem length_statusText (processes : List Process) :
    (cJsonPrint (.array (processes.map statusItem))).length = statusSize processes := by
  have hitems : (fun v => (printValue 1 v).length) ∘ statusItem = Process.statusSize :=
    funext length_statusItem
  rw [length_cJsonPrint_array, List.map_map, hitems, List.length_map, statusSize]

/-! ### The buffers -/

/-- The entries that are saved. -/
def Server.saved (s : Server) : List Process :=
  Slots.inUse s.processList (getProcessListCount s.processList)

theorem saved_text (s : Server) :
    createProcessListJsonStr s.processList (getProcessListCount s.processList) =
      .ok (cJsonPrint (.array (s.saved.map createProcessCJson))) :=
  createProcessListJsonStr_eq _ (getProcessListCount_le s.processList)

theorem saveProcessList_fits (s : Server) :
    (∃ text, saveProcessList s.processList = .ok text) ↔ saveSize s.saved < bufferSize := by
  have hlength : (listText s.processList).length = saveSize s.saved := length_saveText s.saved
  rw [saveProcessList_eq, ← hlength]
  split
  · rename_i hfits
    exact iff_of_true ⟨_, rfl⟩ hfits
  · rename_i hfits
    exact iff_of_false (by simp) hfits

theorem create_of_queried {procStatus : ℤ → Option (List Text)} {source q : Process}
    (h : Queried procStatus source q) :
    createProcessCJsonWithStatus procStatus source = .ok (q, statusItem q) := by
  cases h with
  | stopped hrun => exact createProcessCJsonWithStatus_stopped hrun
  | running hrun hmemory =>
    rw [createProcessCJsonWithStatus_running hrun, hmemory]
    rfl

theorem text_of_queried {procStatus : ℤ → Option (List Text)} {sources shown : List Process}
    (h : List.Forall₂ (Queried procStatus) sources shown) :
    createProcessListJsonStrWithStatus procStatus sources =
      .ok (cJsonPrint (.array (shown.map statusItem))) := by
  have hpairs : sources.mapM (createProcessCJsonWithStatus procStatus) =
      .ok (shown.map fun q => (q, statusItem q)) := by
    induction h with
    | nil => rfl
    | cons hq _ ih =>
      rw [List.mapM_cons, create_of_queried hq, Slots.ok_bind, ih]
      rfl
  have hsnd : (shown.map fun q => (q, statusItem q)).map Prod.snd = shown.map statusItem := by
    rw [List.map_map]
    rfl
  rw [createProcessListJsonStrWithStatus, hpairs, Slots.ok_bind, hsnd]
  rfl

theorem getProcessListStatus_fits {s : Server} (hn : s.processCount ≤ listSize)
    {shown : List Process}
    (h : List.Forall₂ (Queried s.kernel.answers.procStatus) s.entries shown) :
    (∃ response t, getProcessListStatus s = .ok response t) ↔ statusSize shown < bufferSize := by
  obtain ⟨t, ht⟩ := getProcessListStatus_eq hn
  rw [text_of_queried h] at ht
  rw [ht, ← length_statusText]
  simp only
  split
  · rename_i hfits
    exact iff_of_true ⟨_, _, rfl⟩ hfits
  · rename_i hfits
    exact iff_of_false (by simp) hfits

/-- In every state that requests lead to: the text that is saved when the next request has been
handled, and the status text, have the lengths that the sums give; and the service goes on exactly
if they are less than the size of the buffers. -/
theorem texts_fit_iff {s t : Server} {calls : List (Request × Answers)}
    (hn : s.processCount ≤ listSize)
    (hrun : Run Served s calls t) (call : Request × Answers) :
    (∀ response u, handleRequest call.1 (t.asked call.2) = .ok response u →
      ∃ text, createProcessListJsonStr u.processList
        (getProcessListCount u.processList) = .ok text ∧
        text.length = saveSize u.saved ∧
        ((∃ v, serve call.1 (t.asked call.2) = .ok response v) ↔ saveSize u.saved < bufferSize)) ∧
    ∀ shown, List.Forall₂ (Queried call.2.procStatus) t.entries shown →
      ∃ text, createProcessListJsonStrWithStatus call.2.procStatus t.entries = .ok text ∧
        text.length = statusSize shown ∧
        ((∃ response u, getProcessListStatus (t.asked call.2) = .ok response u) ↔
          statusSize shown < bufferSize) := by
  have hnt : t.processCount ≤ listSize :=
    hrun.invariant (I := fun s => s.processCount ≤ listSize) (fun _ _ _ hs h => h.inside hs) hn
  refine ⟨fun response u hhandle => ⟨_, saved_text u, length_saveText u.saved, ?_⟩,
    fun shown hshown =>
    ⟨_, text_of_queried hshown, length_statusText shown, ?_⟩⟩
  · -- the request has been handled, so only the save can fail
    rw [← saveProcessList_fits u]
    constructor
    · rintro ⟨v, hserve⟩
      obtain ⟨u', text, hhandle', hsave, -⟩ := serve_ok hserve
      obtain rfl : u' = u := by
        rw [hhandle] at hhandle'
        cases hhandle'
        rfl
      exact ⟨text, hsave⟩
    · rintro ⟨text, hsave⟩
      have hrun := saveConfig_run u
      rw [hsave] at hrun
      refine ⟨{ u with configFile := text, buffer := [] }, ?_⟩
      rw [serve, bind_ok hhandle, bind_ok hrun]
      rfl
  · have hnt' : (t.asked call.2).processCount ≤ listSize := hnt
    exact getProcessListStatus_fits hnt' hshown

theorem texts_fit_iff_web :
    ∃ t, Run Served .empty [startCall .web 7] t ∧
      ∀ response u, handleRequest (startCall .api 8).1 (t.asked (startCall .api 8).2) =
        .ok response u →
        ∃ text, createProcessListJsonStr u.processList
          (getProcessListCount u.processList) = .ok text ∧
          text.length = saveSize u.saved ∧
          ((∃ v, serve (startCall .api 8).1 (t.asked (startCall .api 8).2) = .ok response v) ↔
            saveSize u.saved < bufferSize) := by
  obtain ⟨t, hserved, -⟩ := served_of .empty (startCall .web 7) (fun _ => true) (by decide +kernel)
  exact ⟨t, .single hserved, (texts_fit_iff (by decide) (.single hserved) (startCall .api 8)).1⟩

/-! ### Long commands -/

/-- `n` times the same byte. -/
def fill (n : ℕ) (c : UInt8) : StrBuf :=
  if h : n < strBufferSize ∧ c ≠ 0 then
    ⟨List.replicate n c, fun h0 => h.2 (List.eq_of_mem_replicate h0).symm, by simpa using h.1⟩
  else .empty

/-- Apps with long command lines; the text of each is as long as what the service reads at once. -/
def crowd (i : ℕ) : Process :=
  { Process.zero with appName := fill (i + 1) 97, cmd := fill (449 - i) 120, dir := fill 1 47 }

theorem fill_bytes {n : ℕ} {c : UInt8} (hn : n < strBufferSize) (hc : c ≠ 0) :
    (fill n c).bytes = List.replicate n c := by
  rw [fill, dif_pos ⟨hn, hc⟩]

theorem textSize_fill {n : ℕ} {c : UInt8} (hn : n < strBufferSize) (hc : c ≠ 0)
    (hplain : byteSize c = 1) :
    textSize (fill n c).bytes = n := by
  rw [fill_bytes hn hc, textSize, List.map_replicate, hplain, List.sum_replicate,
    smul_eq_mul, mul_one]

/-- What an app of the crowd takes in the config file, started or not. -/
theorem saveSize_crowd {i : ℕ} (hi : i < 449) {p : Process}
    (hprogram : p.program = (crowd i).program)
    (hrun : p.isRunning = 0 ∨ p.isRunning = 1) : p.saveSize = 517 := by
  have hname : p.appName = fill (i + 1) 97 := congrArg Prod.fst hprogram
  have hcmd : p.cmd = fill (449 - i) 120 := congrArg (·.2.1) hprogram
  have hdir : p.dir = fill 1 47 := congrArg (·.2.2) hprogram
  have hflag : numberSize p.isRunning.toInt = 1 := by
    rcases hrun with h | h <;> rw [h]
    · exact (numberSize_intCast (n := 0) (by decide)).trans (by decide)
    · exact (numberSize_intCast (n := 1) (by decide)).trans (by decide +kernel)
  rw [Process.saveSize, hname, hcmd, hdir, hflag,
    textSize_fill (show i + 1 < 512 by omega) (by decide) (by decide),
    textSize_fill (show 449 - i < 512 by omega) (by decide) (by decide),
      textSize_fill (by decide) (by decide) (by decide)]
  omega

/-- The JSON text of a process is neither an id nor the name of an entry. -/
theorem parse_json {s : Server} (hn : s.processCount ≤ listSize)
    (hnames : ∀ q ∈ s.entries, q.appName.bytes.head? ≠ some lbrace) (p : Process) (x : Text) :
    parseProcessAndProcessType s.processList s.processCount (createProcessJsonStr p ++ x) =
      .ok (.cmd, Process.zero.load p) := by
  -- the text starts with a brace, which is no digit and starts no name
  obtain ⟨rest, hrest⟩ : ∃ rest, cstr (createProcessJsonStr p ++ x) = lbrace :: rest := by
    refine ⟨cstr ((createProcessJsonStr p ++ x).drop 1), ?_⟩
    rw [createProcessJsonStr, cJsonPrint, createProcessCJson, printValue, cstr, cstr]
    simp only [List.cons_append, List.drop_succ_cons, List.drop_zero]
    rw [List.takeWhile_cons_of_pos (by decide)]
  have hid : getProcessId s.processCount (createProcessJsonStr p ++ x) = -1 := by
    have hnumber : isNumber (createProcessJsonStr p ++ x) = false := by
      rw [isNumber, hrest, List.all_cons]
      rfl
    rw [getProcessId, hnumber]
    simp
  have hlookup : s.lookup (createProcessJsonStr p ++ x) = none := by
    rw [Server.lookup, hid, if_neg (by simp), List.findIdx?_eq_none_iff, hrest]
    intro q hq
    refine beq_eq_false_iff_ne.mpr fun heq => hnames q hq ?_
    rw [heq, List.head?_cons]
  rw [parse_unlisted hn hlookup, parseProcess_createProcessJsonStr]
  rfl

/-- A start request for a new app appends it. -/
theorem start_handled {s : Server} {request : Request} {p : Process} {pid : ℤ} {forks : List ℤ}
    (hn : s.processCount < listSize) (hcommand : readCommand (s.commandBuffer request) = .start)
    (hparse : parseProcessAndProcessType s.processList s.processCount (s.operandBuffer request) =
      .ok (.cmd, p))
    (hnew : s.named p.appName = false) (hf : s.kernel.answers.forks = pid :: forks) (h0 : 0 ≤ pid) :
    ∃ response u, handleRequest request s = .ok response u ∧ Effect s (.append p) u := by
  have hread : (get : ServerM Server) s = .ok s s := rfl
  obtain ⟨hfind, hnamed⟩ := named_eq hn.le p.appName
  have hidx : (s.entries.findIdx? fun q => decide (p.appName = q.appName)) = none := by
    rw [hnamed] at hnew
    simpa using hnew
  rw [hidx] at hfind
  have hhandle : handleRequest request s = serverStartProcessWithCmd p s := by
    rw [handleRequest, bind_ok hread, hcommand]
    simp only
    rw [serverStartProcessAndGetResponse, bind_ok hread, hparse, bind_ok (attempt_ok _ s)]
    simp only
    rw [hfind, bind_ok (attempt_ok _ s)]
  have hperforms := serverStartProcessWithCmd_performs (s := s) p
  rw [hhandle]
  -- it is one operation, and neither of the two reasons for it to fail applies
  cases hstart : serverStartProcessWithCmd p s with
  | ok response u =>
    obtain ⟨ops, hrun, rfl⟩ := hperforms.ok hstart
    obtain ⟨v, hstep, hv⟩ := run_cons.mp hrun
    obtain rfl := run_nil.mp hv
    exact ⟨response, u, rfl, hstep⟩
  | error f u =>
    obtain ⟨ops, v, hrun, o, rest, hops, hfails⟩ := hperforms.error hstart
    obtain ⟨rfl, hrest⟩ : ops = [] ∧ o :: rest = [.append p] := by
      cases ops with
      | nil => exact ⟨rfl, hops.symm⟩
      | cons op ops => simp at hops
    obtain ⟨rfl, -⟩ := List.cons_eq_cons.mp hrest
    obtain rfl := run_nil.mp hrun
    cases hfails with
    | append hfork => exact absurd h0 (by have := hfork pid forks hf; omega)
    | full hfull => omega

/-- The first `n` apps of the crowd have been started. -/
structure Crowded (n : ℕ) (s : Server) : Prop where
  tidy : Tidy s
  buffer : s.buffer = []
  entries : s.entries.map (fun p => (p.program, p.isRunning)) =
    (List.range n).map fun i => ((crowd i).program, 1)

section Crowd

variable {n : ℕ} {s : Server}

theorem Crowded.length (h : Crowded n s) : s.processCount = n := by
  have hlength := congrArg List.length h.entries
  rw [List.length_map, List.length_map, List.length_range, length_entries h.tidy.inside] at hlength
  exact hlength

theorem Crowded.mem (h : Crowded n s) {p : Process} (hp : p ∈ s.entries) :
    ∃ i < n, p.program = (crowd i).program ∧ p.isRunning = 1 := by
  have hmem : (p.program, p.isRunning) ∈ s.entries.map fun p => (p.program, p.isRunning) :=
    List.mem_map_of_mem hp
  rw [h.entries] at hmem
  obtain ⟨i, hi, heq⟩ := List.mem_map.mp hmem
  obtain ⟨hprogram, hrun⟩ := Prod.mk.inj heq
  exact ⟨i, List.mem_range.mp hi, hprogram.symm, hrun.symm⟩

theorem Crowded.name (h : Crowded n s) (hn : n < 256) {p : Process} (hp : p ∈ s.entries) :
    ∃ i < n, p.appName.bytes = List.replicate (i + 1) 97 := by
  obtain ⟨i, hi, hprogram, -⟩ := h.mem hp
  have hname : p.appName = fill (i + 1) 97 := congrArg Prod.fst hprogram
  exact ⟨i, hi, by rw [hname, fill_bytes (show i + 1 < 512 by omega) (by decide)]⟩

/-- The next app is appended. -/
theorem Crowded.handled (h : Crowded n s) (hn : n < 256) :
    ∃ response u, handleRequest (startCall (crowd n) (n + 1)).1
      (s.asked (startCall (crowd n) (n + 1)).2) =
        .ok response u ∧
      Crowded (n + 1) { u with buffer := [] } ∧ u.saved = u.entries := by
  set call := startCall (crowd n) (n + 1) with hcall
  have hinside : (s.asked call.2).processCount < listSize := h.length.trans_lt hn
  have hcommand : readCommand ((s.asked call.2).commandBuffer call.1) = .start := by
    change readCommand (receive s.buffer (str "start")) = _
    rw [h.buffer]
    decide +kernel
  -- the operand is read whole, since it is not longer than a message
  have hsize : (createProcessJsonStr (crowd n)).length = 512 := by
    have hlength := length_createProcessCJson 0 (crowd n)
    rw [saveSize_crowd (show n < 449 by omega) rfl (Or.inl rfl)] at hlength
    exact Nat.add_right_cancel (m := 5) hlength
  obtain ⟨x, hoperand⟩ : ∃ x, (s.asked call.2).operandBuffer call.1 =
      createProcessJsonStr (crowd n) ++ x := by
    refine ⟨_, congrArg (· ++ _) (List.take_of_length_le ?_)⟩
    exact hsize.le
  -- the names are runs of the letter a, and the new one is longer than the others
  have hnames : ∀ q ∈ s.entries, q.appName.bytes.head? ≠ some lbrace := by
    intro q hq
    obtain ⟨i, -, hname⟩ := h.name hn hq
    rw [hname, List.replicate_succ, List.head?_cons]
    decide
  have hparse := parse_json hinside.le hnames (crowd n) x
  rw [← hoperand] at hparse
  have hnew : (s.asked call.2).named (Process.zero.load (crowd n)).appName = false := by
    refine List.any_eq_false.mpr fun q hq => ?_
    obtain ⟨i, hi, hname⟩ := h.name hn hq
    intro heq
    have hbytes : (crowd n).appName.bytes = q.appName.bytes :=
      congrArg StrBuf.bytes (of_decide_eq_true heq)
    have hlength := congrArg List.length hbytes
    rw [hname, crowd, fill_bytes (show n + 1 < 512 by omega) (by decide), List.length_replicate,
      List.length_replicate] at hlength
    omega
  obtain ⟨response, u, hhandle, hstep⟩ := start_handled hinside hcommand hparse hnew rfl (by omega)
  obtain ⟨pid, forks, -, -, hentries, -⟩ := hstep.append_entries
  have htidy : Tidy (s.asked call.2) := ⟨h.tidy.inside, h.tidy.unnamed⟩
  have htidyu := htidy.append hstep
  have hall : u.entries.map (fun p => (p.program, p.isRunning)) =
      (List.range (n + 1)).map fun i => ((crowd i).program, 1) := by
    rw [hentries, List.map_append, List.range_succ, List.map_append]
    exact congrArg (· ++ [((crowd n).program, 1)]) h.entries
  have hcrowded : Crowded (n + 1) { u with buffer := [] } :=
    ⟨⟨htidyu.inside, htidyu.unnamed⟩, rfl, hall⟩
  refine ⟨response, u, hhandle, hcrowded, ?_⟩
  have hagrees : Agrees u := by
    refine htidyu.agrees_iff.mpr fun p hp hempty => ?_
    obtain ⟨i, hi, hprogram, -⟩ := hcrowded.mem hp
    have hname : p.appName = fill (i + 1) 97 := congrArg Prod.fst hprogram
    have hbytes := congrArg StrBuf.bytes (hname.symm.trans hempty)
    rw [fill_bytes (show i + 1 < 512 by omega) (by decide)] at hbytes
    cases hbytes
  rw [Server.saved, ← hagrees, Server.entries]

theorem Crowded.size (h : Crowded n s) (hn : n ≤ 256) :
    saveSize s.entries = 2 + 517 * n + 2 * (n - 1) := by
  have hsizes : s.entries.map Process.saveSize = List.replicate n 517 := by
    refine List.eq_replicate_iff.mpr ⟨?_, fun size hsize => ?_⟩
    · rw [List.length_map, length_entries h.tidy.inside, h.length]
    · obtain ⟨p, hp, rfl⟩ := List.mem_map.mp hsize
      obtain ⟨i, hi, hprogram, hrun⟩ := h.mem hp
      exact saveSize_crowd (show i < 449 by omega) hprogram (Or.inr hrun)
  rw [saveSize, hsizes, List.sum_replicate, length_entries h.tidy.inside, h.length,
    smul_eq_mul, Nat.mul_comm]

theorem crowd_served (hn : n ≤ 78) :
    ∃ t, Run Served .empty ((List.range n).map fun i => startCall (crowd i) (i + 1)) t ∧
      Crowded n t := by
  induction n with
  | zero => exact ⟨.empty, .nil _, ⟨loaded_zero.tidy, rfl, rfl⟩⟩
  | succ n ih =>
    obtain ⟨t, hrun, ht⟩ := ih (by omega)
    obtain ⟨response, u, hhandle, hu, hsaved⟩ := ht.handled (by omega)
    have hfits : saveSize u.saved < bufferSize := by
      have hsize : saveSize u.entries = 2 + 517 * (n + 1) + 2 * (n + 1 - 1) := hu.size (by omega)
      rw [hsaved, hsize]
      change _ < 40960
      omega
    obtain ⟨text, hsave⟩ := (saveProcessList_fits u).mpr hfits
    have hconfig := saveConfig_run u
    rw [hsave] at hconfig
    have hserve : serve (startCall (crowd n) (n + 1)).1 (t.asked (startCall (crowd n) (n + 1)).2) =
        .ok response { u with configFile := text, buffer := [] } := by
      rw [serve, bind_ok hhandle, bind_ok hconfig]
      rfl
    refine ⟨{ u with configFile := text, buffer := [] }, ?_,
      ⟨⟨hu.tidy.inside, hu.tidy.unnamed⟩, rfl, hu.entries⟩⟩
    rw [List.range_succ, List.map_append]
    exact hrun.append (.single ⟨response, hserve⟩)

/-- With the 79th app the text that is saved is longer than the buffer it is copied to, although
every request is as short as it has to be and there are slots for more. -/
theorem crowd_overflows :
    ∃ t response u text, Run Served .empty
      ((List.range 78).map fun i => startCall (crowd i) (i + 1)) t ∧
      (startCall (crowd 78) 79).1.operand.length = strBufferSize ∧
      handleRequest (startCall (crowd 78) 79).1 (t.asked (startCall (crowd 78) 79).2) =
        .ok response u ∧
      u.processCount = 79 ∧
      createProcessListJsonStr u.processList (getProcessListCount u.processList) = .ok text ∧
      text.length = 41001 ∧ bufferSize = 40960 ∧ saveProcessList u.processList =
        .error .overflow := by
  obtain ⟨t, hrun, ht⟩ := crowd_served (n := 78) le_rfl
  obtain ⟨response, u, hhandle, hu, hsaved⟩ := ht.handled (by omega)
  have hsize : saveSize u.saved = 41001 := by
    rw [hsaved]
    exact hu.size (by omega)
  have hlength : (createProcessJsonStr (crowd 78)).length = 512 := by
    have hlength := length_createProcessCJson 0 (crowd 78)
    rw [saveSize_crowd (by decide) rfl (Or.inl rfl)] at hlength
    exact Nat.add_right_cancel (m := 5) hlength
  refine ⟨t, response, u, _, hrun, hlength, hhandle, hu.length, saved_text u,
    (length_saveText u.saved).trans hsize, rfl, ?_⟩
  rw [saveProcessList_eq, if_neg]
  have htext : (listText u.processList).length = 41001 := (length_saveText u.saved).trans hsize
  rw [htext]
  decide

end Crowd

end KbPm
