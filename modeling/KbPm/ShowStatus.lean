/-
The client's table of the list (`show_status` of `client.c`, `print_process_list_box` of
`box_drawing.c`).

* `showStatus` — the code;
* `Describes` — what processes a status text describes;
* `parse_described` — they are decoded into the client's array;
* `showStatus_iff` — and when they are shown.
-/
import KbPm.Box
import KbPm.TextSize

namespace KbPm

/-! ### The code -/

/-- `sprintf(cell, " %s ", text)` -/
def sprintfCell (text : Text) : Except Fault StrBuf := strcpy (space :: (text ++ [space]))

/-- `turn_second` -/
def turnSecond (sec : ℤ) : Except Fault StrBuf :=
  if sec < 60 then sprintfCell (decimal sec ++ str "s")
  else if sec < 60 * 60 then sprintfCell (decimal (sec / 60) ++ str "m")
  else if sec < 60 * 60 * 24 then sprintfCell (decimal (sec / 60 / 60) ++ str "h")
  else sprintfCell (decimal (sec / 60 / 60 / 24) ++ str "d")

/-- The cells of the state, of the uptime and of the memory, when `time` answers `now`; the
difference of the times is a `long`. -/
def stateCells (now : ℤ) (p : Process) : Except Fault (StrBuf × StrBuf × StrBuf) :=
  if p.isRunning ≠ 0 then do
    let status ← sprintfCell (str "online")
    let uptime ← turnSecond (Int64.ofInt (now - p.startTime)).toInt
    let memory ← sprintfCell p.memory.bytes
    return (status, uptime, memory)
  else do
    let status ← sprintfCell (str "stopped")
    let uptime ← strcpy (str " 0s ")
    let memory ← strcpy (str " 0 B ")
    return (status, uptime, memory)

/-- The row of a process. -/
def processLine (now : ℤ) (p : Process) : Except Fault BoxLine := do
  let appName ← sprintfCell p.appName.bytes
  let id ← sprintfCell (decimal p.id)
  let pid ← sprintfCell (decimal p.pid)
  let (status, uptime, memory) ← stateCells now p
  let restart ← sprintfCell (decimal p.restartTimes.toInt)
  return #v[appName, id, pid, status, restart, uptime, memory]

/-- The names of the columns. -/
def headerLine : BoxLine :=
  #v[⟨str " App name ", by decide, by decide⟩, ⟨str " id ", by decide, by decide⟩,
    ⟨str " pid ", by decide, by decide⟩, ⟨str " status ", by decide, by decide⟩,
    ⟨str " restart ", by decide, by decide⟩, ⟨str " uptime ", by decide, by decide⟩,
    ⟨str " memory ", by decide, by decide⟩]

/-- The loop of `print_process_list_box`, from process `i` on; row `i + 1` of an array of
`LIST_SIZE` rows is written, and `times i` is what `time` answers for it. -/
def fillLines (times : ℕ → ℤ) (i : ℕ) (boxLineList : List BoxLine) :
    List Process → Except Fault (List BoxLine)
  | [] => .ok boxLineList
  | p :: processes =>
    if i + 1 < listSize then do
      let boxLine ← processLine (times i) p
      fillLines times (i + 1) (boxLineList ++ [boxLine]) processes
    else .error .overrun

/-- `print_process_list_box`; the count is -1 if the text has not been parsed. -/
def printProcessListBox (times : ℕ → ℤ) (processList : List Process) (listCount : ℤ) :
    Except Fault (List Output) := do
  let boxLineList ← fillLines times 0 [headerLine] (processList.take listCount.toNat)
  return printBox (boxLineList.take (listCount + 1).toNat)

/-- `show_status`, when the service has answered with what is in the buffer. -/
def showStatus (times : ℕ → ℤ) (buffer : Text) : Except Fault (List Output) := do
  let (processList, count) ←
    parseProcessListWithStatus (List.replicate listSize .zero) buffer
  printProcessListBox times processList count

/-! ### Decoding -/

/-- The text has an item for each of these processes and nothing else. -/
def Describes (text : Text) (processes : List Process) : Prop :=
  ∃ json, cJsonParse text = .ok (some json) ∧
    List.Forall₂ (fun item p => parseProcessCJsonWithStatus .zero item = .ok (p, 0))
      (json.children.map Prod.snd) processes

theorem parseSlotsWithStatus_described {items : List CJson} {processes : List Process}
    (h : List.Forall₂ (fun item p => parseProcessCJsonWithStatus .zero item = .ok (p, 0))
      items processes) {before : List Process} {free : ℕ} (hfree : items.length ≤ free) :
    parseSlotsWithStatus (before ++ List.replicate free .zero) before.length items =
      .ok (before ++ processes ++ List.replicate (free - items.length) .zero,
        (before.length + items.length : ℕ)) := by
  induction h generalizing before free with
  | nil => simp [parseSlotsWithStatus]
  | @cons item p items processes hitem _ ih =>
    obtain ⟨free, rfl⟩ : ∃ k, free = k + 1 := ⟨free - 1, by
      rw [List.length_cons] at hfree
      omega⟩
    have hget : (before ++ List.replicate (free + 1) Process.zero)[before.length]? =
        some .zero := by
      rw [List.getElem?_append_right (le_refl _)]
      simp
    have hslot : parseSlotWithStatus (before ++ List.replicate (free + 1) .zero) before.length
        item = .ok ((before ++ [p]) ++ List.replicate free .zero, 0) := by
      simp only [parseSlotWithStatus, hget, hitem, Slots.ok_bind]
      simp [List.replicate_succ]
      rfl
    have hrest := @ih (before ++ [p]) free (Nat.le_of_succ_le_succ hfree)
    rw [List.length_append, List.length_singleton] at hrest
    rw [parseSlotsWithStatus, hslot, Slots.ok_bind]
    refine hrest.trans ?_
    simp
    omega

/-- What a text of at most `LIST_SIZE` processes describes is decoded into the client's array. -/
theorem parse_described {text : Text} {processes : List Process} (h : Describes text processes)
    (hn : processes.length ≤ listSize) :
    parseProcessListWithStatus (List.replicate listSize .zero) text =
      .ok (processes ++ List.replicate (listSize - processes.length) .zero, processes.length) := by
  obtain ⟨json, hjson, hitems⟩ := h
  have hlength := hitems.length_eq
  have hparse := @parseSlotsWithStatus_described _ _ hitems [] listSize (by omega)
  simp only [parseProcessListWithStatus, hjson]
  simpa [hlength] using hparse

/-- The numbers of a process that is decoded are those of `int` members. -/
theorem parseProcessCJsonWithStatus_ints {process q : Process} {json : CJson} {res : ℤ}
    (h : parseProcessCJsonWithStatus process json = .ok (q, res)) (hres : res ≠ -1) :
    ∃ id pid : Int32, q.id = id.toInt ∧ q.pid = pid.toInt := by
  obtain ⟨item, h⟩ := withItem_ok h hres
  obtain ⟨appName, -, h⟩ := Slots.bind_eq_ok h
  obtain ⟨id, h⟩ := withItem_ok h hres
  obtain ⟨pid, h⟩ := withItem_ok h hres
  obtain ⟨item, h⟩ := withItem_ok h hres
  obtain ⟨item, h⟩ := withItem_ok h hres
  obtain ⟨item, h⟩ := withItem_ok h hres
  obtain ⟨item, h⟩ := withItem_ok h hres
  obtain ⟨memory, -, h⟩ := Slots.bind_eq_ok h
  cases h
  exact ⟨id.valueint, pid.valueint, rfl, rfl⟩

/-! ### Cells -/

theorem strcpy_iff {src : Text} :
    (∃ b, strcpy src = .ok b) ↔ (cstr src).length < strBufferSize := by
  rw [strcpy]
  split_ifs with hfits
  · simp [hfits]
  · simp [hfits]

theorem sprintfCell_iff {text : Text} (h0 : 0 ∉ text) :
    (∃ b, sprintfCell text = .ok b) ↔ text.length + 2 < strBufferSize := by
  have hfree : 0 ∉ space :: (text ++ [space]) := by
    simp [h0]
    decide
  have hlen : (space :: (text ++ [space])).length = text.length + 2 := by simp
  rw [sprintfCell, strcpy_iff, cstr_of_notMem hfree, hlen]

/-- A number of 64 bits. -/
theorem length_decimal_le {n : ℤ} (h : |n| ≤ 2 ^ 63) : (decimal n).length ≤ 20 := by
  have hdigits : (digitsOf n.natAbs).length ≤ 19 := by
    rw [digitsOf, List.length_map, List.length_reverse, Nat.digits_length_le_iff (by norm_num)]
    rw [Int.abs_eq_natAbs] at h
    omega
  rw [decimal]
  split_ifs
  · simp
  · rw [List.length_cons]
    omega
  · omega

theorem nulFree_decimal (n : ℤ) : 0 ∉ decimal n := by
  have hdigits : 0 ∉ digitsOf n.natAbs := fun h0 =>
    absurd (isDigit_digitsOf n.natAbs 0 h0) (by decide)
  rw [decimal]
  split_ifs
  · decide
  · simp [hdigits]
  · exact hdigits

/-- A number and at most one letter. -/
theorem sprintfCell_decimal {n : ℤ} (h : |n| ≤ 2 ^ 63) {unit : Text} (h0 : 0 ∉ unit)
    (hunit : unit.length ≤ 1) : ∃ b, sprintfCell (decimal n ++ unit) = .ok b := by
  have hlen := length_decimal_le h
  have hsize : strBufferSize = 512 := rfl
  rw [sprintfCell_iff (by simp [nulFree_decimal, h0]), List.length_append]
  omega

theorem sprintfCell_int (n : Int32) : ∃ b, sprintfCell (decimal n.toInt) = .ok b := by
  have h1 := Int32.le_toInt n
  have h2 := Int32.toInt_lt n
  have hn : |n.toInt| ≤ 2 ^ 63 := abs_le.mpr (by omega)
  simpa using @sprintfCell_decimal _ hn [] (by simp) (by simp)

theorem turnSecond_fits (sec : Int64) : ∃ b, turnSecond sec.toInt = .ok b := by
  have h1 := Int64.le_toInt sec
  have h2 := Int64.toInt_lt sec
  rw [turnSecond]
  split_ifs
  · exact sprintfCell_decimal (abs_le.mpr (by omega)) (by decide) (by decide)
  · exact sprintfCell_decimal (abs_le.mpr (by omega)) (by decide) (by decide)
  · exact sprintfCell_decimal (abs_le.mpr (by omega)) (by decide) (by decide)
  · exact sprintfCell_decimal (abs_le.mpr (by omega)) (by decide) (by decide)

/-! ### Rows -/

/-- The texts of the process fit into cells, with a space on either side. -/
def Process.Displayable (p : Process) : Prop :=
  p.appName.bytes.length + 2 < strBufferSize ∧
    (p.isRunning ≠ 0 → p.memory.bytes.length + 2 < strBufferSize)

theorem stateCells_iff (now : ℤ) (p : Process) :
    (∃ cells, stateCells now p = .ok cells) ↔
      (p.isRunning ≠ 0 → p.memory.bytes.length + 2 < strBufferSize) := by
  rw [stateCells, ← sprintfCell_iff p.memory.nulFree]
  by_cases hrun : p.isRunning ≠ 0
  · rw [if_pos hrun]
    constructor
    · rintro ⟨cells, h⟩ -
      obtain ⟨status, -, h⟩ := Slots.bind_eq_ok h
      obtain ⟨uptime, -, h⟩ := Slots.bind_eq_ok h
      obtain ⟨memory, hmemory, -⟩ := Slots.bind_eq_ok h
      exact ⟨memory, hmemory⟩
    · intro h
      obtain ⟨memory, hmemory⟩ := h hrun
      obtain ⟨uptime, huptime⟩ := turnSecond_fits (Int64.ofInt (now - p.startTime))
      rw [huptime, hmemory]
      exact ⟨_, rfl⟩
  · rw [if_neg hrun]
    exact iff_of_true ⟨_, rfl⟩ fun h => absurd h hrun

theorem processLine_iff (now : ℤ) {p : Process}
    (hints : ∃ id pid : Int32, p.id = id.toInt ∧ p.pid = pid.toInt) :
    (∃ boxLine, processLine now p = .ok boxLine) ↔ p.Displayable := by
  obtain ⟨id, pid, hid, hpid⟩ := hints
  obtain ⟨idCell, hidCell⟩ := sprintfCell_int id
  obtain ⟨pidCell, hpidCell⟩ := sprintfCell_int pid
  obtain ⟨restartCell, hrestartCell⟩ := sprintfCell_int p.restartTimes
  rw [Process.Displayable, ← sprintfCell_iff p.appName.nulFree, ← stateCells_iff now p]
  unfold processLine
  rw [hid, hpid, hidCell, hpidCell, hrestartCell]
  constructor
  · rintro ⟨boxLine, h⟩
    obtain ⟨appName, happ, h⟩ := Slots.bind_eq_ok h
    obtain ⟨_, -, h⟩ := Slots.bind_eq_ok h
    obtain ⟨p_, -, h⟩ := Slots.bind_eq_ok h
    obtain ⟨cells, hcells, -⟩ := Slots.bind_eq_ok h
    exact ⟨⟨appName, happ⟩, cells, hcells⟩
  · rintro ⟨⟨appName, happ⟩, cells, hcells⟩
    rw [happ, hcells]
    exact ⟨_, rfl⟩

/-- Row `i + 1` and those behind it, for processes whose numbers are `int`. -/
theorem fillLines_iff {times : ℕ → ℤ} {i : ℕ} {boxLineList : List BoxLine}
    {processes : List Process}
    (hints : ∀ p ∈ processes, ∃ id pid : Int32, p.id = id.toInt ∧ p.pid = pid.toInt)
    (hi : i < listSize) :
    (∃ filled, fillLines times i boxLineList processes = .ok filled) ↔
      i + processes.length < listSize ∧ ∀ p ∈ processes, p.Displayable := by
  induction processes generalizing i boxLineList with
  | nil => exact iff_of_true ⟨_, rfl⟩ ⟨hi, by simp⟩
  | cons p processes ih =>
    obtain ⟨hp, hints⟩ := List.forall_mem_cons.mp hints
    rw [fillLines, List.length_cons, List.forall_mem_cons, ← processLine_iff (times i) hp]
    split_ifs with hnext
    · constructor
      · rintro ⟨filled, h⟩
        obtain ⟨boxLine, hline, h⟩ := Slots.bind_eq_ok h
        obtain ⟨hlt, hall⟩ := (ih hints hnext).mp ⟨filled, h⟩
        exact ⟨by omega, ⟨boxLine, hline⟩, hall⟩
      · rintro ⟨hlt, ⟨boxLine, hline⟩, hall⟩
        rw [hline]
        exact (ih hints hnext).mpr ⟨by omega, hall⟩
    · refine iff_of_false (by simp) fun h => ?_
      omega

/-- Each process has its row. -/
theorem fillLines_rows {times : ℕ → ℤ} {i : ℕ} {boxLineList filled : List BoxLine}
    {processes : List Process} (h : fillLines times i boxLineList processes = .ok filled) :
    ∃ rows, filled = boxLineList ++ rows ∧ rows.length = processes.length ∧
      ∀ (k : ℕ) p, processes[k]? = some p →
        ∃ row, rows[k]? = some row ∧ processLine (times (i + k)) p = .ok row := by
  induction processes generalizing i boxLineList with
  | nil =>
    cases h
    exact ⟨[], by simp, rfl, by simp⟩
  | cons p processes ih =>
    rw [fillLines] at h
    split at h
    · obtain ⟨row, hrow, h⟩ := Slots.bind_eq_ok h
      obtain ⟨rows, rfl, hlength, hrows⟩ := ih h
      refine ⟨row :: rows, by simp, by simp [hlength], fun k q hq => ?_⟩
      cases k with
      | zero =>
        obtain rfl : p = q := by simpa using hq
        exact ⟨row, rfl, hrow⟩
      | succ k =>
        obtain ⟨row', hget, hrow'⟩ := hrows k q hq
        exact ⟨row', hget, by rw [← hrow', Nat.add_right_comm, Nat.add_assoc]⟩
    · cases h

/-! ### The table -/

theorem showStatus_eq {text : Text} {processes : List Process} (h : Describes text processes)
    (hn : processes.length ≤ listSize) (times : ℕ → ℤ) :
    showStatus times text = (fillLines times 0 [headerLine] processes).map
      fun boxLineList => printBox (boxLineList.take (processes.length + 1)) := by
  rw [showStatus, parse_described h hn]
  change (fillLines times 0 [headerLine] (List.take _ _) >>= _) = _
  rw [Int.toNat_natCast, List.take_left]
  rfl

theorem Describes.ints {text : Text} {processes : List Process} (h : Describes text processes) :
    ∀ p ∈ processes, ∃ id pid : Int32, p.id = id.toInt ∧ p.pid = pid.toInt := by
  obtain ⟨json, -, hitems⟩ := h
  intro p hp
  obtain ⟨k, hk, rfl⟩ := List.getElem_of_mem hp
  exact parseProcessCJsonWithStatus_ints (hitems.get (hitems.length_eq ▸ hk) hk) (by decide)

theorem showStatus_ok_iff {text : Text} {processes : List Process} (h : Describes text processes)
    (hn : processes.length ≤ listSize) (times : ℕ → ℤ) :
    (∃ out, showStatus times text = .ok out) ↔
      processes.length < listSize ∧ ∀ p ∈ processes, p.Displayable := by
  have hfill := @fillLines_iff times 0 [headerLine] processes h.ints (by norm_num)
  rw [Nat.zero_add] at hfill
  rw [← hfill, showStatus_eq h hn times]
  cases fillLines times 0 [headerLine] processes with
  | error f => simp [Except.map]
  | ok filled => simp [Except.map]

/-- What the client shows is the table with a row for each process. -/
def Displays (times : ℕ → ℤ) (text : Text) (processes : List Process) : Prop :=
  ∃ rows, showStatus times text = .ok (printBox (headerLine :: rows)) ∧
    rows.length = processes.length ∧
    ∀ (k : ℕ) p, processes[k]? = some p →
      ∃ row, rows[k]? = some row ∧ processLine (times k) p = .ok row

theorem displays_of_ok {text : Text} {processes : List Process} (h : Describes text processes)
    (hn : processes.length ≤ listSize) {times : ℕ → ℤ} {out : List Output}
    (hout : showStatus times text = .ok out) : Displays times text processes := by
  have hshow := showStatus_eq h hn times
  rw [hout] at hshow
  cases hfilled : fillLines times 0 [headerLine] processes with
  | error f =>
    rw [hfilled] at hshow
    cases hshow
  | ok filled =>
    obtain ⟨rows, rfl, hlength, hrows⟩ := fillLines_rows hfilled
    refine ⟨rows, ?_, hlength, by simpa using hrows⟩
    rw [hout, hshow, hfilled, ← hlength]
    simp [Except.map]

/-- Every list of at most `LIST_SIZE` processes is decoded into the client's array; it is shown
exactly if there is room for the header too, and for a space on either side of each text. -/
theorem showStatus_iff {text : Text} {processes : List Process} (h : Describes text processes)
    (hn : processes.length ≤ listSize) (times : ℕ → ℤ) :
    (∃ loaded, parseProcessListWithStatus (List.replicate listSize .zero) text =
        .ok (loaded, processes.length) ∧ loaded.take processes.length = processes) ∧
      ((∃ out, showStatus times text = .ok out) ↔
        processes.length < listSize ∧ ∀ p ∈ processes, p.Displayable) ∧
      ((∃ out, showStatus times text = .ok out) → Displays times text processes) :=
  ⟨⟨_, parse_described h hn, List.take_left⟩, showStatus_ok_iff h hn times,
    fun ⟨_, hout⟩ => displays_of_ok h hn hout⟩

/-- The status text of the service describes its entries, whatever follows it in the buffer. -/
theorem describes_statusItems {sources : List Process} (hrange : ∀ source ∈ sources, source.InRange)
    (hstart : ∀ source ∈ sources, source.startTime < 2 ^ 53) (x : Text) :
    Describes (cJsonPrint (.array (sources.map statusItem)) ++ x)
      (sources.map Process.zero.refresh) := by
  refine ⟨_, cJsonParse_print (printable_statusItems hrange hstart) (Or.inl ⟨_, rfl⟩) x, ?_⟩
  have hchildren : (CJson.children (.array (sources.map statusItem))).map Prod.snd =
      sources.map statusItem := by
    simp [CJson.children]
  rw [hchildren, List.forall₂_map_left_iff, List.forall₂_map_right_iff, List.forall₂_same]
  intro source hsource
  obtain ⟨hid, hpid, -⟩ := hrange source hsource
  exact parseProcessCJsonWithStatus_statusItem .zero hid hpid

theorem inRange_stopped {p : Process} (hid : p.id = 0) (hpid : p.pid = 0)
    (hstart : p.startTime = 0) : p.InRange := by
  refine ⟨?_, ?_, ?_⟩ <;> simp [hid, hpid, hstart]

theorem showStatus_iff_web :
    ∃ out, showStatus (fun _ => 0) (cJsonPrint (.array [statusItem .web])) = .ok out := by
  have hrange : ∀ p ∈ [Process.web], p.InRange := by
    simpa using inRange_stopped (p := .web) rfl rfl rfl
  have hdescribes := describes_statusItems hrange (by simp; decide) []
  rw [List.append_nil] at hdescribes
  refine (showStatus_iff hdescribes (by simp) fun _ => 0).2.1.mpr ⟨by simp, ?_⟩
  simp only [List.map_cons, List.map_nil, List.forall_mem_singleton]
  exact ⟨by decide, fun _ => by decide⟩

/-- A stopped app whose name is a number. -/
def numbered (i : Fin listSize) : Process :=
  { Process.web with
    appName := ⟨decimal (i : ℕ), nulFree_decimal _, by
      have hi : (i : ℕ) < 256 := i.isLt
      have hlen := @length_decimal_le (i : ℕ) (by rw [abs_le]; omega)
      exact lt_of_le_of_lt hlen (by norm_num)⟩
    isRunning := 0 }

def fullList : List Process := (List.finRange listSize).map numbered

/-- An app with a name of 510 bytes. -/
def longNamed : Process := { Process.web with appName := fill 510 97, isRunning := 0 }

/-- A list of 256 apps leaves no room for the header, and a name of 510 bytes none for the
spaces. -/
theorem full_list_overruns :
    (Describes (cJsonPrint (.array (fullList.map statusItem)))
        (fullList.map Process.zero.refresh) ∧ fullList.length = listSize ∧
      ¬∃ out, showStatus (fun _ => 0) (cJsonPrint (.array (fullList.map statusItem))) = .ok out) ∧
    (Describes (cJsonPrint (.array ([longNamed].map statusItem)))
        ([longNamed].map Process.zero.refresh) ∧
      ¬∃ out, showStatus (fun _ => 0) (cJsonPrint (.array ([longNamed].map statusItem))) =
        .ok out) := by
  have hdescribes : ∀ sources : List Process, (∀ p ∈ sources, p.InRange ∧ p.startTime = 0) →
      Describes (cJsonPrint (.array (sources.map statusItem)))
        (sources.map Process.zero.refresh) := by
    intro sources hsources
    have h := describes_statusItems (fun p hp => (hsources p hp).1)
      (fun p hp => by rw [(hsources p hp).2]; norm_num) []
    rwa [List.append_nil] at h
  have hfull := hdescribes fullList fun p hp => by
    obtain ⟨i, -, rfl⟩ := List.mem_map.mp hp
    exact ⟨inRange_stopped rfl rfl rfl, rfl⟩
  have hlong := hdescribes [longNamed] fun p hp => by
    rw [List.mem_singleton.mp hp]
    exact ⟨inRange_stopped rfl rfl rfl, rfl⟩
  have hlength : fullList.length = listSize := by rw [fullList, List.length_map,
    List.length_finRange]
  refine ⟨⟨hfull, hlength, fun h => ?_⟩, hlong, fun h => ?_⟩
  · have hroom := ((showStatus_ok_iff hfull (by simp [hlength]) _).mp h).1
    rw [List.length_map, hlength] at hroom
    exact lt_irrefl _ hroom
  · have hfits := ((showStatus_ok_iff hlong (by simp) _).mp h).2 _ List.mem_cons_self
    exact absurd hfits.1 (by decide +kernel)

end KbPm
