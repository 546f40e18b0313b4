/-
The process list of the service and its texts (`process.h`, `process.c`).

* `Process`, `ProcessList` — `process_s` and the array of `LIST_SIZE` of them;
* `createProcessJsonStr`, `createProcessListJsonStr` — the texts written;
* `parseProcess`, `parseProcessList`, `parseProcessListFromPath` — the texts read;
* `getProcessListCount`, `delProcessByAppName`, `saveProcessList`.

What an `int` result says is an integer here too: `-1` is failure.
-/
import KbPm.CJson
import KbPm.Lib.Slots

namespace KbPm

/-- `process_s` -/
structure Process where
  appName : StrBuf
  cmd : StrBuf
  dir : StrBuf
  pid : ℤ
  /-- 0 for false, 1 for true -/
  isRunning : Int32
  id : ℤ
  memory : StrBuf
  restartTimes : Int32
  startTime : ℤ
  deriving DecidableEq

/-- A `process_s` whose bytes are zero, as the array is when the service starts. -/
def Process.zero : Process :=
  ⟨.empty, .empty, .empty, 0, 0, 0, .empty, 0, 0⟩

/-! Processes for examples. -/

def Process.web : Process :=
  { Process.zero with
    appName := ⟨str "web", by decide, by decide⟩
    cmd := ⟨str "/opt/web", by decide, by decide⟩
    dir := ⟨str "/opt", by decide, by decide⟩
    isRunning := 1 }

def Process.api : Process := { Process.web with appName := ⟨str "api", by decide, by decide⟩ }

/-- `process_s process_list[LIST_SIZE]` -/
abbrev ProcessList := Vector Process listSize

/-- The list of a service that has just started. -/
def ProcessList.zero : ProcessList := Vector.replicate listSize .zero

theorem zero_slot {k : ℕ} (hk : k < listSize) : ProcessList.zero[k]? = some .zero := by
  rw [ProcessList.zero, Vector.getElem?_replicate, if_pos hk]

theorem zero_get {k : ℕ} {p : Process} (h : ProcessList.zero[k]? = some p) : p = .zero := by
  have hk : k < listSize := (Vector.getElem?_eq_some_iff.mp h).1
  rw [zero_slot hk] at h
  exact (Option.some_inj.mp h).symm

/-- An access to the list that names its index. -/
def slot {α : Type} (x : Except ℕ α) : Except Fault α := x.mapError .index

/-! ### Printing -/

/-- `create_process_cJSON` -/
def createProcessCJson (process : Process) : CJson :=
  .object
    [(str "app_name", .string process.appName.bytes),
      (str "cmd", .string process.cmd.bytes),
      (str "dir", .string process.dir.bytes),
      (str "is_running", .number process.isRunning.toInt)]

/-- `create_process_json_str` -/
def createProcessJsonStr (process : Process) : Text := cJsonPrint (createProcessCJson process)

/-- `create_process_list_json_str`, up to its `strcpy` to the caller's buffer -/
def createProcessListJsonStr (processList : ProcessList) (listCount : ℕ) : Except Fault Text := do
  let processes ← slot (Slots.readAll processList listCount 0)
  return cJsonPrint (.array (processes.map createProcessCJson))

/-! ### Parsing -/

/-- `strcpy(dst, item->valuestring)` -/
def copyValuestring (item : CJson) : Except Fault StrBuf :=
  match item.valuestring with
  | none => .error .nullString
  | some s => strcpy s

/-- `parse_process_cJSON`: the process as it is left behind, and the result.
The function falls off its end, which is taken for 0; the fields that are copied
before one is found missing stay. -/
def parseProcessCJson (process : Process) (json : CJson) : Except Fault (Process × ℤ) :=
  match getObjectItem json (str "app_name") with
  | none => .ok (process, -1)
  | some item => do
    let process := { process with appName := ← copyValuestring item }
    match getObjectItem json (str "cmd") with
    | none => return (process, -1)
    | some item =>
      let process := { process with cmd := ← copyValuestring item }
      match getObjectItem json (str "dir") with
      | none => return (process, -1)
      | some item =>
        let process := { process with dir := ← copyValuestring item }
        match getObjectItem json (str "is_running") with
        | none => return (process, -1)
        | some item => return ({ process with isRunning := item.valueint }, 0)

/-- `parse_process` -/
def parseProcess (process : Process) (jsonStr : Text) : Except Fault (Process × ℤ) :=
  match cJsonParse jsonStr with
  | .error fault => .error fault
  | .ok none => .ok (process, -1)
  | .ok (some json) => parseProcessCJson process json

/-- `parse_process_cJSON(&process_list[i], p_json)`.  Behind the array it is the
first `strcpy` that touches the slot. -/
def parseSlot (processList : ProcessList) (i : ℕ) (json : CJson) :
    Except Fault (ProcessList × ℤ) :=
  match processList[i]? with
  | some process => do
    let (process, res) ← parseProcessCJson process json
    return (processList.setIfInBounds i process, res)
  | none =>
    match getObjectItem json (str "app_name") with
    | none => .ok (processList, -1)
    | some item =>
      match item.valuestring with
      | none => .error .nullString
      | some _ => .error (.index i)

/-- The loop of `parse_process_list`, from slot `i` on. -/
def parseSlots (processList : ProcessList) (i : ℕ) : List CJson → Except Fault (ProcessList × ℤ)
  | [] => .ok (processList, i)
  | json :: jsons => do
    let (processList, res) ← parseSlot processList i json
    if res = -1 then return (processList, -1)
    parseSlots processList (i + 1) jsons

/-- `parse_process_list` -/
def parseProcessList (processList : ProcessList) (jsonStr : Text) :
    Except Fault (ProcessList × ℤ) :=
  match cJsonParse jsonStr with
  | .error fault => .error fault
  | .ok none => .ok (processList, -1)
  | .ok (some json) => parseSlots processList 0 (json.children.map Prod.snd)

/-- Nothing is copied of a text that is refused. -/
theorem parseProcessList_ok {processList l : ProcessList} {jsonStr : Text} {res : ℤ}
    (h : parseProcessList processList jsonStr = .ok (l, res)) :
    (cJsonParse jsonStr = .ok none ∧ l = processList ∧ res = -1) ∨
      ∃ json, cJsonParse jsonStr = .ok (some json) ∧
        parseSlots processList 0 (json.children.map Prod.snd) = .ok (l, res) := by
  unfold parseProcessList at h
  split at h
  · cases h
  · rename_i hjson
    cases h
    exact Or.inl ⟨hjson, rfl, rfl⟩
  · rename_i json hjson
    exact Or.inr ⟨json, hjson, h⟩

/-- `parse_process_list_from_path`: `read` fills the buffer with what the file
holds, if there is a file, and `junk` is what the memory behind holds. -/
def parseProcessListFromPath (file : Option Text) (junk : Text) (processList : ProcessList) :
    Except Fault (ProcessList × ℤ) :=
  match file with
  | none => .ok (processList, -1)
  | some content =>
    if (content.take bufferSize).length ≤ 0 then .ok (processList, -1)
    else parseProcessList processList (content.take bufferSize ++ junk)

/-! ### The list -/

/-- `get_process_list_count` -/
def getProcessListCount (processList : ProcessList) : ℕ :=
  processList.toList.findIdx fun process => process.appName.isEmpty

/-- `del_process_by_app_name` -/
def delProcessByAppName (processList : ProcessList) (appName : StrBuf) :
    Except Fault (ProcessList × ℤ) := do
  let count := getProcessListCount processList
  match ← slot (Slots.findLast (fun process => process.appName = appName) processList count 0 none)
  with
  | none => return (processList, -1)
  | some index =>
    let processList ← slot (Slots.shiftDown (fun process => { process with id := process.id - 1 })
      (count - index) index processList)
    return (processList, 0)

/-- `save_process_list`: the text that is written to the file. -/
def saveProcessList (processList : ProcessList) : Except Fault Text := do
  let buffer ← createProcessListJsonStr processList (getProcessListCount processList)
  if buffer.length < bufferSize then return buffer
  else .error .overflow

/-- What the file can hold when `save_process_list` is killed: `fopen` has
emptied it, and then some of the text has reached it. -/
def savedPrefixes (text : Text) : Set Text := { content | ∃ k, content = text.take k }

end KbPm
