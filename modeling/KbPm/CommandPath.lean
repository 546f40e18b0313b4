/-
What the client makes of a command path (`start_process` of `client.c`, `str_split` of
`utils.c`).

* `strtok`, `strSplit`, `startProcess` — the code;
* `runs` — the parts of a text between separators, without the empty ones;
* `strSplit_runs` — what is stored, as long as there is room for it;
* `app_name_iff` — the paths that have a last part, which becomes the name;
* `start_whole_iff` — the requests that reach the service whole.
-/
import KbPm.TextSize

namespace KbPm

open Scan

/-! ### The code -/

/-- The character is one of the separators. -/
def separates (spl : Text) (c : UInt8) : Bool := spl.contains c

/-- `strtok`: the token, and the place where the next call goes on. -/
def strtok (spl str : Text) : Option (Text × Text) :=
  match str.dropWhile (separates spl) with
  | [] => none
  | c :: rest =>
    some (c :: rest.takeWhile (fun c => !separates spl c),
      (rest.dropWhile fun c => !separates spl c).drop 1)

theorem strtok_shorter {spl str result rest : Text} (h : strtok spl str = some (result, rest)) :
    rest.length < str.length := by
  rw [strtok] at h
  split at h
  · cases h
  · rename_i c tail htail
    cases h
    have h1 := (List.dropWhile_suffix (separates spl) (l := str)).length_le
    have h2 := (List.dropWhile_suffix (fun c => !separates spl c) (l := tail)).length_le
    rw [htail, List.length_cons] at h1
    rw [List.length_drop]
    omega

/-- The loop of `str_split`, where `dst` holds what has been stored so far. -/
def strSplitFrom (spl str : Text) (dst : List StrBuf) : Except Fault (List StrBuf) :=
  match _h : strtok spl str with
  | none => .ok dst
  | some (result, rest) =>
    -- `dst[n++]`, in an array of `LIST_SIZE` buffers
    if dst.length < listSize then
      (strcpy result).bind fun result => strSplitFrom spl rest (dst ++ [result])
    else .error .overrun
  termination_by str.length
  decreasing_by exact strtok_shorter _h

/-- `str_split`; the result is the length of what is stored. -/
def strSplit (str spl : Text) : Except Fault (List StrBuf) := strSplitFrom spl str []

/-- `dst[size - 1]`, which is in front of the array if nothing has been stored. -/
def lastPart (dst : List StrBuf) : Except Fault StrBuf :=
  match dst.getLast? with
  | none => .error .overrun
  | some part => .ok part

/-- The process that is asked for. -/
def Process.requested (appName cmd dir : StrBuf) : Process :=
  { Process.zero with appName := appName, cmd := cmd, dir := dir, isRunning := 1 }

/-- `start_process`, when the service is online: the operand of the start request, if one is sent.
`exist` and `execute` are the answers of `access`. -/
def startProcess (exist execute : Text → Bool) (cwd : StrBuf) (appNameOrCmd : Text) :
    Except Fault (Option Text) :=
  if !exist appNameOrCmd then .ok (some appNameOrCmd)
  else if !execute appNameOrCmd then .ok none
  else do
    let cmdCopy ← strcpy appNameOrCmd
    let dst ← strSplit cmdCopy.bytes (str "/")
    let appName ← lastPart dst
    let cmd ← strcpy appNameOrCmd
    return some (createProcessJsonStr (.requested appName cmd cwd))

/-! ### Parts -/

/-- The longest parts of a text that are free of separators, in order. -/
def runs (spl str : Text) : List Text := (str.splitOnP (separates spl)).filter fun run => run ≠ []

section Runs

variable {spl str : Text}

theorem runs_separator {c : UInt8} (hc : separates spl c = true) (str : Text) :
    runs spl (c :: str) = runs spl str := by
  rw [runs, List.splitOnP_cons_eq_if_modifyHead, if_pos hc]
  rfl

theorem runs_dropWhile (spl str : Text) :
    runs spl (str.dropWhile (separates spl)) = runs spl str := by
  induction str with
  | nil => rfl
  | cons c str ih =>
    rw [List.dropWhile_cons]
    split
    · rename_i hc
      rw [ih, runs_separator hc]
    · rfl

theorem runs_run {run : Text} (hne : run ≠ []) (hrun : ∀ c ∈ run, separates spl c = false) :
    runs spl run = [run] := by
  rw [runs, List.splitOnP_eq_singleton hrun]
  simp [hne]

theorem runs_append {run rest : Text} {sep : UInt8} (hne : run ≠ [])
    (hrun : ∀ c ∈ run, separates spl c = false) (hsep : separates spl sep = true) :
    runs spl (run ++ sep :: rest) = run :: runs spl rest := by
  rw [runs, List.splitOnP_append_cons_of_forall_mem hrun sep hsep]
  simp [hne, runs]

/-- What a call of `strtok` does to the parts, and how many bytes it takes for that. -/
theorem strtok_cases (spl str : Text) :
    (strtok spl str = none ∧ runs spl str = []) ∨
    ∃ result rest, strtok spl str = some (result, rest) ∧
      runs spl str = result :: runs spl rest ∧ result ≠ [] ∧ (∀ c ∈ result, c ∈ str) ∧
      (∀ c ∈ rest, c ∈ str) ∧ result.length ≤ str.length ∧
      (rest = [] ∨ rest.length + 2 ≤ str.length) := by
  rw [strtok, ← runs_dropWhile]
  have hsuffix := List.dropWhile_suffix (separates spl) (l := str)
  cases htail : str.dropWhile (separates spl) with
  | nil => exact Or.inl ⟨rfl, rfl⟩
  | cons c tail =>
    rw [htail] at hsuffix
    have hc : separates spl c = false := by
      have hhead := List.head?_dropWhile_not (separates spl) str
      simpa [htail] using hhead
    obtain ⟨run, hrun⟩ : ∃ run, tail.takeWhile (fun c => !separates spl c) = run := ⟨_, rfl⟩
    obtain ⟨behind, hbehind⟩ : ∃ behind, tail.dropWhile (fun c => !separates spl c) = behind :=
      ⟨_, rfl⟩
    have hsplit : tail = run ++ behind := by
      rw [← hrun, ← hbehind, List.takeWhile_append_dropWhile]
    have hfree : ∀ b ∈ c :: run, separates spl b = false := by
      intro b hb
      rcases List.mem_cons.mp hb with rfl | hb
      · exact hc
      · rw [← hrun] at hb
        simpa using List.mem_takeWhile_imp hb
    have hlen := hsuffix.length_le
    have hmem : ∀ b ∈ c :: (run ++ behind), b ∈ str := fun b hb => hsuffix.mem (hsplit ▸ hb)
    rw [hsplit, List.length_cons, List.length_append] at hlen
    refine Or.inr ⟨c :: run, behind.drop 1, by simp only [hrun, hbehind], ?_, by simp,
      fun b hb => hmem b ?_, fun b hb => hmem b ?_, by simp only [List.length_cons]; omega, ?_⟩
    · -- the token ends at a separator or with the text
      cases behind with
      | nil =>
        rw [hsplit, List.append_nil, runs_run (by simp) hfree]
        rfl
      | cons sep rest =>
        have hsep : separates spl sep = true := by
          have hhead := List.head?_dropWhile_not (fun c => !separates spl c) tail
          simpa [hbehind] using hhead
        rw [hsplit, ← List.cons_append, runs_append (by simp) hfree hsep]
        rfl
    · rw [← List.cons_append]
      exact List.mem_append_left _ hb
    · exact List.mem_cons_of_mem _ (List.mem_append_right _ (List.mem_of_mem_drop hb))
    · cases behind with
      | nil => exact Or.inl rfl
      | cons sep rest =>
        rw [List.length_cons] at hlen
        exact Or.inr (by simp only [List.drop_succ_cons, List.drop_zero]; omega)

/-- Every part but the last one takes a separator. -/
theorem length_runs (spl str : Text) : 2 * (runs spl str).length ≤ str.length + 1 := by
  induction h : str.length using Nat.strong_induction_on generalizing str with
  | _ n ih =>
    subst h
    rcases strtok_cases spl str with ⟨-, hruns⟩ |
      ⟨result, rest, -, hruns, hne, -, -, hlen, hrest⟩
    · simp [hruns]
    · have hpos := List.length_pos_iff.mpr hne
      rw [hruns, List.length_cons]
      rcases hrest with rfl | hrest
      · have hnil : (runs spl []).length = 0 := rfl
        omega
      · have hle := ih rest.length (by omega) rest rfl
        omega

theorem strSplitFrom_none {dst : List StrBuf} (h : strtok spl str = none) :
    strSplitFrom spl str dst = .ok dst := by
  rw [strSplitFrom]
  split
  · rfl
  · rename_i heq
    rw [h] at heq
    cases heq

theorem strSplitFrom_some {dst : List StrBuf} {part : StrBuf} {rest : Text}
    (h : strtok spl str = some (part.bytes, rest)) (hroom : dst.length < listSize) :
    strSplitFrom spl str dst = strSplitFrom spl rest (dst ++ [part]) := by
  rw [strSplitFrom]
  split
  · rename_i heq
    rw [h] at heq
    cases heq
  · rename_i result rest' heq
    obtain ⟨rfl, rfl⟩ := Prod.mk.inj (Option.some_inj.mp (h.symm.trans heq))
    rw [if_pos hroom, strcpy_bytes]
    rfl

/-- The parts are stored, as long as there is room for them. -/
theorem strSplitFrom_runs {dst : List StrBuf} (h0 : 0 ∉ str) (hlen : str.length < strBufferSize)
    (hroom : dst.length + (runs spl str).length ≤ listSize) :
    ∃ parts, strSplitFrom spl str dst = .ok (dst ++ parts) ∧
      parts.map StrBuf.bytes = runs spl str := by
  induction h : str.length using Nat.strong_induction_on generalizing str dst with
  | _ n ih =>
    subst h
    rcases strtok_cases spl str with ⟨htok, hruns⟩ |
      ⟨result, rest, htok, hruns, -, hresult, hrest, hle, -⟩
    · exact ⟨[], by rw [strSplitFrom_none htok, List.append_nil], hruns.symm⟩
    · rw [hruns, List.length_cons] at hroom
      obtain ⟨part, rfl⟩ : ∃ part : StrBuf, part.bytes = result :=
        ⟨⟨result, fun h => h0 (hresult 0 h), by omega⟩, rfl⟩
      have hshort := strtok_shorter htok
      have hmore : (dst ++ [part]).length + (runs spl rest).length ≤ listSize := by
        rw [List.length_append, List.length_singleton]
        omega
      obtain ⟨parts, hparts, hbytes⟩ :=
        ih rest.length hshort (fun h => h0 (hrest 0 h)) (by omega) hmore rfl
      refine ⟨part :: parts, ?_, by rw [List.map_cons, hbytes, hruns]⟩
      rw [strSplitFrom_some htok (by omega), hparts, List.append_assoc, List.singleton_append]

theorem strtok_eq_none_iff : strtok spl str = none ↔ ∀ c ∈ str, separates spl c = true := by
  rw [strtok, ← List.dropWhile_eq_nil_iff]
  split
  · rename_i hnil
    exact iff_of_true rfl hnil
  · rename_i hcons
    exact iff_of_false (by simp) (by simp [hcons])

theorem runs_eq_nil_iff : runs spl str = [] ↔ ∀ c ∈ str, separates spl c = true := by
  rw [← strtok_eq_none_iff]
  rcases strtok_cases spl str with ⟨htok, hruns⟩ | ⟨result, rest, htok, hruns, -⟩
  · exact iff_of_true hruns htok
  · exact iff_of_false (by simp [hruns]) (by simp [htok])

theorem ne_nil_of_mem_runs {run : Text} (h : run ∈ runs spl str) : run ≠ [] := by
  simpa using (List.mem_filter.mp h).2

end Runs

/-! ### The name of an app -/

abbrev slash : UInt8 := 47

theorem separates_slash (c : UInt8) : separates (str "/") c = true ↔ c = slash := by
  have hstr : str "/" = [slash] := by decide
  rw [separates, hstr]
  simp

theorem runs_slash_ne_nil {path : Text} : runs (str "/") path ≠ [] ↔ ∃ c ∈ path, c ≠ slash := by
  rw [ne_eq, runs_eq_nil_iff]
  simp [separates_slash]

/-- The parts of a path that fits its buffer. -/
theorem strSplit_path (path : StrBuf) :
    ∃ parts, strSplit path.bytes (str "/") = .ok parts ∧
      parts.map StrBuf.bytes = runs (str "/") path.bytes ∧ parts.length ≤ listSize := by
  have hlen := length_runs (str "/") path.bytes
  have hfits := path.fits
  have hsize : strBufferSize = 512 := rfl
  have hlist : listSize = 256 := rfl
  have hroom : ([] : List StrBuf).length + (runs (str "/") path.bytes).length ≤ listSize := by
    rw [List.length_nil]
    omega
  obtain ⟨parts, hparts, hbytes⟩ := strSplitFrom_runs path.nulFree hfits hroom
  refine ⟨parts, hparts, hbytes, ?_⟩
  rw [← List.length_map (f := StrBuf.bytes), hbytes]
  omega

/-- The last part exists, and it is the name that is sent. -/
theorem startProcess_requested {exist execute : Text → Bool} {path : StrBuf} (cwd : StrBuf)
    (hexist : exist path.bytes = true) (hexecute : execute path.bytes = true)
    (hpath : ∃ c ∈ path.bytes, c ≠ slash) :
    ∃ name : StrBuf, (runs (str "/") path.bytes).getLast? = some name.bytes ∧
      startProcess exist execute cwd path.bytes =
        .ok (some (createProcessJsonStr (.requested name path cwd))) := by
  obtain ⟨parts, hparts, hbytes, -⟩ := strSplit_path path
  have hne : parts ≠ [] := by
    rintro rfl
    exact runs_slash_ne_nil.mpr hpath hbytes.symm
  have hlast := List.getLast?_eq_getLast_of_ne_nil hne
  refine ⟨parts.getLast hne, ?_, ?_⟩
  · rw [← hbytes, List.getLast?_map, hlast]
    rfl
  · have hpart : lastPart parts = .ok (parts.getLast hne) := by rw [lastPart, hlast]
    simp only [startProcess, hexist, hexecute, strcpy_bytes]
    change (strSplit path.bytes (str "/") >>= _) = _
    rw [hparts]
    change (lastPart parts >>= _) = _
    rw [hpart]
    rfl

/-- The parts of the path are stored as they are, there is a last one, and it is the name that is
sent. -/
def NamesApp (exist execute : Text → Bool) (cwd path : StrBuf) : Prop :=
  ∃ parts name, strSplit path.bytes (str "/") = .ok parts ∧
    parts.map StrBuf.bytes = runs (str "/") path.bytes ∧ 1 ≤ parts.length ∧
    parts.length ≤ listSize ∧ parts[parts.length - 1]? = some name ∧ name ≠ .empty ∧
    startProcess exist execute cwd path.bytes =
      .ok (some (createProcessJsonStr (.requested name path cwd)))

/-- The name of an app is well defined exactly for the paths that are not slashes only. -/
theorem app_name_iff {exist execute : Text → Bool} {path : StrBuf} (cwd : StrBuf)
    (hexist : exist path.bytes = true) (hexecute : execute path.bytes = true) :
    NamesApp exist execute cwd path ↔ ∃ c ∈ path.bytes, c ≠ slash := by
  obtain ⟨parts, hparts, hbytes, hroom⟩ := strSplit_path path
  rw [← runs_slash_ne_nil]
  constructor
  · rintro ⟨parts', name, hparts', hbytes', hpos, -⟩ hnil
    rw [hnil, List.map_eq_nil_iff] at hbytes'
    rw [hbytes'] at hpos
    exact absurd hpos (by simp)
  · intro hne
    obtain ⟨name, hname, hsent⟩ := startProcess_requested cwd hexist hexecute
      (runs_slash_ne_nil.mp hne)
    have hlast : parts.getLast? = some name := by
      rw [← hbytes, List.getLast?_map] at hname
      obtain ⟨last, hlast, heq⟩ := Option.map_eq_some_iff.mp hname
      rw [hlast, StrBuf.ext heq]
    refine ⟨parts, name, hparts, hbytes, ?_, hroom, ?_, ?_, hsent⟩
    · exact List.length_pos_iff.mpr (List.ne_nil_of_mem (List.mem_of_getLast? hlast))
    · rw [← hlast, List.getLast?_eq_getElem?]
    · rintro rfl
      exact ne_nil_of_mem_runs (List.mem_of_getLast? hname) rfl

theorem app_name_iff_web :
    NamesApp (fun _ => true) (fun _ => true) Process.web.dir Process.web.cmd :=
  (app_name_iff Process.web.dir rfl rfl).mpr ⟨111, by decide, by decide⟩

def root : StrBuf := ⟨str "/", by decide, by decide⟩

/-- The root directory passes the checks, and it has no parts. -/
theorem root_nameless :
    ¬NamesApp (fun _ => true) (fun _ => true) root root ∧
      strSplit root.bytes (str "/") = .ok [] ∧
      startProcess (fun _ => true) (fun _ => true) root root.bytes = .error .overrun := by
  have hsplit : strSplit root.bytes (str "/") = .ok [] := strSplitFrom_none (by decide)
  refine ⟨?_, hsplit, ?_⟩
  · rintro ⟨parts, name, hparts, -, hpos, -⟩
    obtain rfl := Except.ok.inj (hsplit.symm.trans hparts)
    exact absurd hpos (by simp)
  · simp only [startProcess, strcpy_bytes]
    change (strSplit root.bytes (str "/") >>= _) = _
    rw [hsplit]
    rfl

/-! ### Requests that are sent -/

/-- The request reaches the service whole. -/
def ReachesWhole (s : Server) (p : Process) : Prop :=
  (createProcessJsonStr p).length ≤ strBufferSize ∧
    parseProcess .zero (s.operandBuffer ⟨str "start", createProcessJsonStr p⟩) = .ok (p, 0)

theorem length_requested (name path cwd : StrBuf) :
    (createProcessJsonStr (.requested name path cwd)).length =
      61 + textSize name.bytes + textSize path.bytes + textSize cwd.bytes := by
  have hlen := length_createProcessCJson 0 (.requested name path cwd)
  have hrun : numberSize (((1 : Int32).toInt : ℤ) : ℚ) = 1 := by decide +kernel
  rw [Process.saveSize] at hlen
  simp only [Process.requested, hrun] at hlen
  rw [createProcessJsonStr, cJsonPrint]
  simp only [Process.requested]
  omega

theorem operandBuffer_start (s : Server) (operand : Text) :
    ∃ behind, s.operandBuffer ⟨str "start", operand⟩ = operand.take strBufferSize ++ behind ∧
      (Exhausted s.buffer → Exhausted behind) := by
  refine ⟨_, rfl, fun hbuffer => Exhausted.drop (fun b hb => ?_) _⟩
  rcases List.mem_append.mp hb with hb | hb
  · exact List.eq_of_mem_replicate hb
  · -- behind the command
    have hcommand : s.commandBuffer ⟨str "start", operand⟩ = str "start" ++ s.buffer.drop 5 := rfl
    rw [hcommand, List.drop_append, List.drop_eq_nil_of_le (by decide), List.nil_append] at hb
    exact hbuffer b (List.mem_of_mem_drop (List.mem_of_mem_drop hb))

/-- The requests of the client that reach the service whole; a longer one is not decoded at all. -/
theorem start_whole_iff {exist execute : Text → Bool} {path : StrBuf} (cwd : StrBuf)
    (hexist : exist path.bytes = true) (hexecute : execute path.bytes = true)
    (hpath : ∃ c ∈ path.bytes, c ≠ slash) :
    ∃ name : StrBuf, (runs (str "/") path.bytes).getLast? = some name.bytes ∧
      startProcess exist execute cwd path.bytes =
        .ok (some (createProcessJsonStr (.requested name path cwd))) ∧
      ∀ s : Server, (ReachesWhole s (.requested name path cwd) ↔
          textSize name.bytes + textSize path.bytes + textSize cwd.bytes ≤ 451) ∧
        (451 < textSize name.bytes + textSize path.bytes + textSize cwd.bytes →
          Exhausted s.buffer → parseProcess .zero (s.operandBuffer
            ⟨str "start", createProcessJsonStr (.requested name path cwd)⟩) = .ok (.zero, -1)) := by
  obtain ⟨name, hname, hsent⟩ := startProcess_requested cwd hexist hexecute hpath
  refine ⟨name, hname, hsent, fun s => ?_⟩
  have hlen := length_requested name path cwd
  have hsize : strBufferSize = 512 := rfl
  obtain ⟨behind, hbuffer, hzero⟩ :=
    operandBuffer_start s (createProcessJsonStr (.requested name path cwd))
  constructor
  · rw [ReachesWhole, hlen]
    constructor
    · rintro ⟨hle, -⟩
      omega
    · intro hle
      refine ⟨by omega, ?_⟩
      rw [hbuffer, List.take_of_length_le (by omega), parseProcess_createProcessJsonStr]
      rfl
  · intro hlong hclear
    rw [hbuffer]
    exact parseProcess_cut .zero _ (by omega) (hzero hclear)

theorem start_whole_iff_web :
    ReachesWhole .empty (.requested Process.web.appName Process.web.cmd Process.web.dir) := by
  obtain ⟨name, hname, -, hall⟩ := @start_whole_iff (fun _ => true) (fun _ => true)
    Process.web.cmd Process.web.dir rfl rfl ⟨111, by decide, by decide⟩
  have hweb : (runs (str "/") Process.web.cmd.bytes).getLast? = some Process.web.appName.bytes := by
    decide
  obtain rfl : Process.web.appName = name := StrBuf.ext (Option.some_inj.mp (hweb.symm.trans hname))
  exact (hall .empty).1.mpr (by decide +kernel)

def longName : StrBuf := fill 225 120

def longPath : StrBuf := ⟨slash :: longName.bytes, by decide +kernel, by decide +kernel⟩

/-- An app with a name of 225 bytes in the root directory cannot be started from there. -/
theorem long_start_cut :
    startProcess (fun _ => true) (fun _ => true) root longPath.bytes =
        .ok (some (createProcessJsonStr (.requested longName longPath root))) ∧
      ¬ReachesWhole .empty (.requested longName longPath root) ∧
      parseProcess .zero (Server.empty.operandBuffer
        ⟨str "start", createProcessJsonStr (.requested longName longPath root)⟩) =
          .ok (.zero, -1) := by
  have hlen : (createProcessJsonStr (.requested longName longPath root)).length = 513 := by
    rw [length_requested]
    decide +kernel
  refine ⟨?_, fun h => ?_, ?_⟩
  · obtain ⟨name, hname, hsent⟩ := @startProcess_requested (fun _ => true) (fun _ => true) longPath
      root rfl rfl ⟨120, by decide +kernel, by decide⟩
    have hruns : runs (str "/") longPath.bytes = [longName.bytes] := by
      rw [longPath, runs_separator (by decide),
        runs_run (by decide +kernel) (by decide +kernel)]
    rw [hruns] at hname
    rw [hsent, StrBuf.ext (Option.some_inj.mp hname)]
  · have hle := h.1
    rw [hlen] at hle
    exact absurd hle (by norm_num)
  · obtain ⟨behind, hbuffer, hzero⟩ := operandBuffer_start .empty
      (createProcessJsonStr (.requested longName longPath root))
    rw [hbuffer]
    exact parseProcess_cut .zero _ (by rw [hlen]; norm_num) (hzero exhausted_nil)

end KbPm
