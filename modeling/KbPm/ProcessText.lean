/-
Texts of processes: what is written is read back, and nothing else is.

* `parseProcess_createProcessJsonStr` — a start request is decoded exactly;
* `parseProcess_cut` — a start request that is cut anywhere is refused;
* `parseProcessListFromPath_save` — loading undoes saving, whatever is behind
  the text in the reader's buffer;
* `parseProcessListFromPath_cut` — a file that was cut while it was being
  written is refused, and the list stays as it was.
-/
import KbPm.CJsonText
import KbPm.ProcessList

namespace KbPm

open Scan

/-- `process` after the four fields that a text carries are copied into it. -/
def Process.load (process source : Process) : Process :=
  { process with
    appName := source.appName
    cmd := source.cmd
    dir := source.dir
    isRunning := source.isRunning }

theorem printable_createProcessCJson (process : Process) :
    Printable (createProcessCJson process) := by
  have hint : Printable (.number (process.isRunning.toInt : ℤ)) := by
    refine ⟨process.isRunning.toInt, rfl, ?_⟩
    have h1 := Int32.le_toInt process.isRunning
    have h2 := Int32.toInt_lt process.isRunning
    rw [abs_lt]
    omega
  exact ⟨by decide, process.appName.nulFree, by decide, process.cmd.nulFree, by decide,
    process.dir.nulFree, by decide, hint, trivial⟩

theorem copyValuestring_bytes (b : StrBuf) : copyValuestring (.string b.bytes) = .ok b :=
  strcpy_bytes b

theorem parseProcessCJson_create (process source : Process) :
    parseProcessCJson process (createProcessCJson source) = .ok (process.load source, 0) := by
  have happ : getObjectItem (createProcessCJson source) (str "app_name") =
      some (.string source.appName.bytes) := rfl
  have hcmd : getObjectItem (createProcessCJson source) (str "cmd") =
      some (.string source.cmd.bytes) := rfl
  have hdir : getObjectItem (createProcessCJson source) (str "dir") =
      some (.string source.dir.bytes) := rfl
  have hrun : getObjectItem (createProcessCJson source) (str "is_running") =
      some (.number (source.isRunning.toInt : ℤ)) := rfl
  have hint : CJson.valueint (.number (source.isRunning.toInt : ℤ)) = source.isRunning :=
    intOfDouble_toInt source.isRunning
  simp only [parseProcessCJson, happ, hcmd, hdir, hrun, copyValuestring_bytes, hint]
  rfl

/-! ### One process -/

theorem parseProcess_createProcessJsonStr (process source : Process) (x : Text) :
    parseProcess process (createProcessJsonStr source ++ x) = .ok (process.load source, 0) := by
  have hparse : cJsonParse (createProcessJsonStr source ++ x) =
      .ok (some (createProcessCJson source)) :=
    cJsonParse_print (printable_createProcessCJson source) (Or.inr ⟨_, rfl⟩) x
  simp only [parseProcess, hparse, parseProcessCJson_create]

theorem parseProcess_cut (process source : Process) {k : ℕ}
    (hk : k < (createProcessJsonStr source).length) {zs : Text} (hz : Exhausted zs) :
    parseProcess process ((createProcessJsonStr source).take k ++ zs) = .ok (process, -1) := by
  have hparse : cJsonParse ((createProcessJsonStr source).take k ++ zs) = .ok none :=
    cJsonParse_cut (printable_createProcessCJson source) (Or.inr ⟨_, rfl⟩) hk hz
  simp only [parseProcess, hparse]

/-- What the service makes of the first `n` bytes of a start request, in a buffer
that is zero behind them: the request as it was sent, or nothing. -/
theorem parseProcess_received (process source : Process) (n zeros : ℕ) :
    parseProcess process ((createProcessJsonStr source).take n ++ List.replicate zeros 0) =
      if n < (createProcessJsonStr source).length then .ok (process, -1)
      else .ok ({ process with
        appName := source.appName
        cmd := source.cmd
        dir := source.dir
        isRunning := source.isRunning }, 0) := by
  split
  · rename_i hn
    exact parseProcess_cut process source hn (exhausted_replicate zeros)
  · rename_i hn
    rw [List.take_of_length_le (by omega)]
    exact parseProcess_createProcessJsonStr process source _

/-! ### The list -/

theorem printable_map_create (processes : List Process) :
    Printable (.array (processes.map createProcessCJson)) := by
  induction processes with
  | nil => exact trivial
  | cons process processes ih => exact ⟨printable_createProcessCJson process, ih⟩

theorem parseSlot_create {processList : ProcessList} {i : ℕ} {process : Process}
    (hi : processList[i]? = some process) (source : Process) :
    parseSlot processList i (createProcessCJson source) =
      .ok (processList.setIfInBounds i (process.load source), 0) := by
  simp only [parseSlot, hi, parseProcessCJson_create]
  rfl

/-- The items of a printed array. -/
theorem parseProcessList_array {items : List CJson} (h : Printable (.array items))
    (processList : ProcessList) (x : Text) :
    parseProcessList processList (cJsonPrint (.array items) ++ x) =
      parseSlots processList 0 items := by
  have hchildren : (CJson.array items).children.map Prod.snd = items := by simp [CJson.children]
  rw [parseProcessList, cJsonParse_print h (Or.inl ⟨_, rfl⟩) x]
  change parseSlots processList 0 ((CJson.array items).children.map Prod.snd) = _
  rw [hchildren]

/-- The loop of `parse_process_list` over items that were made from processes
copies each of them into its slot. -/
theorem parseSlots_map_create (sources : List Process) (processList : ProcessList) (i : ℕ)
    (h : i + sources.length ≤ listSize) :
    ∃ loaded : ProcessList,
      parseSlots processList i (sources.map createProcessCJson) =
        .ok (loaded, (i + sources.length : ℕ)) ∧
      (∀ k source, sources[k]? = some source →
        loaded[i + k]? = (processList[i + k]?).map fun process => process.load source) ∧
      ∀ k, k < i ∨ i + sources.length ≤ k → loaded[k]? = processList[k]? := by
  induction sources generalizing processList i with
  | nil => exact ⟨processList, rfl, by simp, fun _ _ => rfl⟩
  | cons source sources ih =>
    rw [List.length_cons] at h
    have hi : processList[i]? = some processList[i] := by simp
    set written := processList.setIfInBounds i (processList[i].load source) with hwritten
    obtain ⟨loaded, hloaded, hin, hout⟩ := ih written (i + 1) (by omega)
    -- the first item has filled slot `i`, the others go behind it
    have hget : ∀ k, written[k]? =
        if i = k then some (processList[i].load source) else processList[k]? := by
      intro k
      rw [hwritten, Vector.getElem?_setIfInBounds]
      split
      · rw [if_pos (by omega)]
      · rfl
    refine ⟨loaded, ?_, fun k s hk => ?_, fun k hk => ?_⟩
    · have hslot : parseSlot processList i (createProcessCJson source) = .ok (written, 0) :=
        parseSlot_create hi source
      rw [List.map_cons, parseSlots, hslot, List.length_cons,
        show i + (sources.length + 1) = i + 1 + sources.length by omega]
      exact hloaded
    · cases k with
      | zero =>
        obtain rfl : source = s := by simpa using hk
        rw [hout (i + 0) (by omega), hget, if_pos (by omega), Nat.add_zero, hi]
        rfl
      | succ k =>
        rw [show i + (k + 1) = i + 1 + k by omega, hin k s (by simpa using hk), hget,
          if_neg (by omega)]
    · rw [List.length_cons] at hk
      rw [hout k (by omega), hget, if_neg (by omega)]

/-- `createProcessListJsonStr` on a count that is inside the array. -/
theorem createProcessListJsonStr_eq (processList : ProcessList) {n : ℕ} (h : n ≤ listSize) :
    createProcessListJsonStr processList n =
      .ok (cJsonPrint (.array ((Slots.inUse processList n).map createProcessCJson))) := by
  rw [createProcessListJsonStr, Slots.readAll_eq processList h]
  rfl

theorem parseProcessList_print (processList source : ProcessList) {n : ℕ} (h : n ≤ listSize)
    (x : Text) :
    ∃ loaded : ProcessList,
      parseProcessList processList
        (cJsonPrint (.array ((Slots.inUse source n).map createProcessCJson)) ++ x) =
        .ok (loaded, n) ∧
      (∀ k < n, ∀ p, source[k]? = some p →
        loaded[k]? = (processList[k]?).map fun process => process.load p) ∧
      ∀ k, n ≤ k → loaded[k]? = processList[k]? := by
  have hlen := Slots.length_inUse (a := source) h
  obtain ⟨loaded, hloaded, hin, hout⟩ :=
    parseSlots_map_create (Slots.inUse source n) processList 0 (by omega)
  refine ⟨loaded, ?_, fun k hk p hp => ?_, fun k hk => hout k (by omega)⟩
  · rw [parseProcessList_array (printable_map_create _), hloaded, hlen, Nat.zero_add]
  · have hget : (Slots.inUse source n)[k]? = some p := by
      rw [Slots.getElem?_inUse, if_pos hk, hp]
    simpa using hin k p hget

/-- What `saveProcessList` writes. -/
def listText (processList : ProcessList) : Text :=
  cJsonPrint (.array
    ((Slots.inUse processList (getProcessListCount processList)).map createProcessCJson))

theorem saveProcessList_eq (processList : ProcessList) :
    saveProcessList processList =
      if (listText processList).length < bufferSize then .ok (listText processList)
      else .error .overflow := by
  rw [saveProcessList, createProcessListJsonStr_eq _ (getProcessListCount_le processList)]
  rfl

theorem saveProcessList_error {processList : ProcessList} {f : Fault}
    (h : saveProcessList processList = .error f) : f = .overflow := by
  rw [saveProcessList_eq] at h
  split at h <;> cases h
  rfl

theorem createProcessListJsonStr_of_save {processList : ProcessList} {text : Text}
    (h : saveProcessList processList = .ok text) :
    createProcessListJsonStr processList (getProcessListCount processList) = .ok text := by
  rw [saveProcessList_eq] at h
  rw [createProcessListJsonStr_eq _ (getProcessListCount_le processList)]
  split at h
  · exact h
  · cases h

theorem listText_ne_nil (processList : ProcessList) : listText processList ≠ [] := by
  rw [listText, cJsonPrint, printValue]
  simp

/-- A file that fits the buffer is read as a whole. -/
theorem parseProcessListFromPath_fits {text : Text} (hne : text ≠ [])
    (hfits : text.length ≤ bufferSize) (junk : Text) (processList : ProcessList) :
    parseProcessListFromPath (some text) junk processList =
      parseProcessList processList (text ++ junk) := by
  have hlong : ¬text.length ≤ 0 := by simpa using hne
  rw [parseProcessListFromPath, List.take_of_length_le hfits, if_neg hlong]

/-- Loading what was saved. -/
theorem parseProcessListFromPath_save (processList source : ProcessList) {text : Text}
    (hsave : saveProcessList source = .ok text) (junk : Text) :
    ∃ loaded : ProcessList,
      parseProcessListFromPath (some text) junk processList =
        .ok (loaded, getProcessListCount source) ∧
      (∀ k < getProcessListCount source, ∀ p, source[k]? = some p →
        loaded[k]? = (processList[k]?).map fun process => process.load p) ∧
      ∀ k, getProcessListCount source ≤ k → loaded[k]? = processList[k]? := by
  rw [saveProcessList_eq] at hsave
  split at hsave
  · rename_i hfits
    cases hsave
    obtain ⟨loaded, hloaded, hin, hout⟩ :=
      parseProcessList_print processList source (getProcessListCount_le source) junk
    refine ⟨loaded, ?_, hin, hout⟩
    rw [parseProcessListFromPath_fits (listText_ne_nil source) hfits.le]
    exact hloaded
  · cases hsave

/-- Loading what is left of a text when the writer is killed. -/
theorem parseProcessListFromPath_cut (processList source : ProcessList) {k : ℕ}
    (hk : k < (listText source).length) (hfits : (listText source).length < bufferSize)
    {junk : Text} (hz : k ≠ 0 → Exhausted junk) :
    parseProcessListFromPath (some ((listText source).take k)) junk processList =
      .ok (processList, -1) := by
  have htake : ((listText source).take k).take bufferSize = (listText source).take k :=
    List.take_of_length_le (by rw [List.length_take]; omega)
  rw [parseProcessListFromPath, htake]
  rcases Nat.eq_zero_or_pos k with rfl | hpos
  · rfl
  · rw [if_neg (by rw [List.length_take]; omega)]
    have hparse : cJsonParse ((listText source).take k ++ junk) = .ok none :=
      cJsonParse_cut (printable_map_create _) (Or.inl ⟨_, rfl⟩) hk (hz (by omega))
    simp only [parseProcessList, hparse]

/-- Loading undoes saving, for a list whose first `n` names are its nonempty ones. -/
theorem parseProcessListFromPath_saveProcessList (processList : ProcessList) (n : Fin listSize)
    (hnames : ∀ k < n, processList[k].appName ≠ StrBuf.empty)
    (hend : processList[n].appName = StrBuf.empty) {text : Text}
    (htext : createProcessListJsonStr processList n = .ok text) (hfits : text.length < bufferSize)
    (junk : Text) :
    saveProcessList processList = .ok text ∧
      ∃ loaded : ProcessList,
        parseProcessListFromPath (some text) junk .zero = .ok (loaded, (n : ℕ)) ∧
        (∀ k < n, loaded[k].appName = processList[k].appName ∧
          loaded[k].cmd = processList[k].cmd ∧ loaded[k].dir = processList[k].dir ∧
          loaded[k].isRunning = processList[k].isRunning) ∧
        ∀ k ≥ n, loaded[k] = Process.zero := by
  have hcount : getProcessListCount processList = n := by
    refine count_eq n.isLt.le (fun k q hk hq => ?_) fun q hq => ?_
    · obtain ⟨hlt, rfl⟩ := Vector.getElem?_eq_some_iff.mp hq
      exact hnames ⟨k, hlt⟩ hk
    · obtain ⟨_, rfl⟩ := Vector.getElem?_eq_some_iff.mp hq
      exact hend
  have hsave : saveProcessList processList = .ok text := by
    rw [saveProcessList, hcount, htext]
    exact if_pos hfits
  -- the text that is read back has filled slots that were zero
  obtain ⟨loaded, hloaded, hin, hout⟩ := parseProcessListFromPath_save .zero processList hsave junk
  rw [hcount] at hloaded hin hout
  refine ⟨hsave, loaded, hloaded, fun k hk => ?_, fun k hk => ?_⟩
  · have h := hin k hk processList[k] (by simp)
    rw [zero_slot k.isLt] at h
    obtain ⟨_, hget⟩ := Vector.getElem?_eq_some_iff.mp h
    have hload : loaded[k] = Process.zero.load processList[k] := hget
    rw [hload]
    exact ⟨rfl, rfl, rfl, rfl⟩
  · have h := hout k hk
    rw [zero_slot k.isLt] at h
    obtain ⟨_, hget⟩ := Vector.getElem?_eq_some_iff.mp h
    exact hget

/-- One app, and a reader's buffer that goes on with brackets. -/
theorem parseProcessListFromPath_saveProcessList_web :
    ∃ text, saveProcessList (ProcessList.zero.set 0 .web) = .ok text ∧
      ∃ loaded : ProcessList,
        parseProcessListFromPath (some text) (str "]]") .zero = .ok (loaded, 1) ∧
        (∀ k < (1 : Fin listSize),
          loaded[k].appName = (ProcessList.zero.set 0 .web)[k].appName ∧
          loaded[k].cmd = (ProcessList.zero.set 0 .web)[k].cmd ∧
          loaded[k].dir = (ProcessList.zero.set 0 .web)[k].dir ∧
          loaded[k].isRunning = (ProcessList.zero.set 0 .web)[k].isRunning) ∧
        ∀ k ≥ (1 : Fin listSize), loaded[k] = Process.zero := by
  have hnames : ∀ k < (1 : Fin listSize),
      (ProcessList.zero.set 0 .web)[k].appName ≠ StrBuf.empty := by
    intro k hk
    obtain rfl : k = 0 := Fin.ext (Nat.lt_one_iff.mp hk)
    decide
  exact ⟨_, parseProcessListFromPath_saveProcessList (ProcessList.zero.set 0 .web) 1 hnames
    (by decide) (createProcessListJsonStr_eq _ (by decide)) (by decide +kernel) (str "]]")⟩

end KbPm
