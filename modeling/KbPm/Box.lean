/-
The status table (`print_box` of `box_drawing.c`, `ansi_escape.h`).

What is printed is a list of bytes that are shown and of escape sequences, which take
no room.  The cells may hold any bytes; they are shown as they are.

* `printBox` — the code;
* `ruleText`, `rowText` — the lines between the rows, and the rows;
* `longest_isGreatest` — the recorded maximum of a column is the length of its longest
  cell;
* `printBox_rectangular` — what is printed is a rectangle with all the cells in it.
-/
import KbPm.CJson

namespace KbPm

/-! ### The code -/

/-- `#define VAR_NUM 7` -/
abbrev varNum : ℕ := 7

/-- Something that `printf` writes to the terminal. -/
inductive Output
  /-- an escape sequence of `ansi_escape.h` or `box_drawing.h` -/
  | escape (sequence : Text)
  | byte (c : UInt8)
  deriving DecidableEq

def plain (t : Text) : List Output := t.map .byte

def lineFeed : Output := .byte 10

def ansiColorGray : Output := .escape (27 :: str "[30m")
def ansiColorRed : Output := .escape (27 :: str "[31m")
def ansiColorGreen : Output := .escape (27 :: str "[32m")
def ansiColorCyan : Output := .escape (27 :: str "[36m")
def ansiColorReset : Output := .escape (27 :: str "[0m")
def ansiFontBold : Output := .escape (27 :: str "[1m")

/-- A character of the line-drawing set, between the sequences that switch to it and back. -/
def drawing (c : UInt8) : List Output :=
  [.escape (27 :: str "(0"), .byte c, .escape (27 :: str "(B")]

/-- `print_ch`, of the character `c` of the line-drawing set. -/
def printCh (c : UInt8) : List Output :=
  [ansiFontBold, ansiColorGray] ++ drawing c ++ [ansiColorReset]

abbrev rb : UInt8 := 0x6a
abbrev rt : UInt8 := 0x6b
abbrev lt : UInt8 := 0x6c
abbrev lb : UInt8 := 0x6d
abbrev mc : UInt8 := 0x6e
abbrev hl : UInt8 := 0x71
abbrev lc : UInt8 := 0x74
abbrev rc : UInt8 := 0x75
abbrev bc : UInt8 := 0x76
abbrev tc : UInt8 := 0x77
abbrev vl : UInt8 := 0x78

/-- A row of the table, `char [VAR_NUM][STR_BUFFER_SIZE]`. -/
abbrev BoxLine := Vector StrBuf varNum

/-- The inner loop of `get_varible_strlen_max`. -/
def longest (boxLineList : List BoxLine) (i : Fin varNum) : ℕ :=
  boxLineList.foldl (fun max boxLine =>
    let strLen := boxLine[i].bytes.length
    if strLen > max then strLen else max) 0

/-- `get_varible_strlen_max` -/
def getVaribleStrlenMax (boxLineList : List BoxLine) : Vector ℕ varNum :=
  Vector.ofFn (longest boxLineList)

/-- A horizontal line, without the line feed. -/
def horizontal (left cross right : UInt8) (max : Vector ℕ varNum) : List Output :=
  printCh left ++ (List.finRange varNum).flatMap fun i =>
    (List.replicate max[i] hl).flatMap printCh ++
      if i.val = varNum - 1 then printCh right else printCh cross

/-- `print_top_line` -/
def printTopLine (max : Vector ℕ varNum) : List Output := horizontal lt tc rt max ++ [lineFeed]

/-- `print_mid_line` -/
def printMidLine (max : Vector ℕ varNum) : List Output := horizontal lc mc rc max ++ [lineFeed]

/-- `print_bot_line` -/
def printBotLine (max : Vector ℕ varNum) : List Output := horizontal lb bc rb max ++ [lineFeed]

/-- `var_strlen_max[i] - strlen(box_line[i])`, an `int` and a `size_t`. -/
def padding (max strLen : ℕ) : ℕ := (UInt64.ofNat max - UInt64.ofNat strLen).toNat

/-- The `printf` of a cell. -/
def printCell (allBold : Bool) (i : Fin varNum) (text : Text) : List Output :=
  if allBold ∨ i.val = 0 then [ansiColorCyan, ansiFontBold] ++ plain text ++ [ansiColorReset]
  else if i.val = 3 then
    if text = str " online " then [ansiColorGreen, ansiFontBold] ++ plain text ++ [ansiColorReset]
    else [ansiColorRed, ansiFontBold] ++ plain text ++ [ansiColorReset]
  else plain text

/-- `print_box_letters`, without the line feed. -/
def boxLetters (boxLine : BoxLine) (max : Vector ℕ varNum) (allBold : Bool) : List Output :=
  printCh vl ++ (List.finRange varNum).flatMap fun i =>
    printCell allBold i boxLine[i].bytes ++
      List.replicate (padding max[i] boxLine[i].bytes.length) (.byte space) ++ printCh vl

/-- `print_box_letters` -/
def printBoxLetters (boxLine : BoxLine) (max : Vector ℕ varNum) (allBold : Bool) : List Output :=
  boxLetters boxLine max allBold ++ [lineFeed]

/-- The loop of `print_box`, from row `i` on. -/
def printRows (max : Vector ℕ varNum) (i : ℕ) : List BoxLine → List Output
  | [] => []
  | boxLine :: boxLines =>
    (if i ≠ 0 then printBoxLetters boxLine max false else printBoxLetters boxLine max true) ++
      (if boxLines.isEmpty then [] else printMidLine max) ++ printRows max (i + 1) boxLines

/-- `print_box`, of the rows below `list_count`. -/
def printBox (boxLineList : List BoxLine) : List Output :=
  let max := getVaribleStrlenMax boxLineList
  printTopLine max ++ printRows max 0 boxLineList ++ printBotLine max

/-! ### What is shown -/

/-- The bytes that are shown. -/
def shown : List Output → Text
  | [] => []
  | .escape _ :: out => shown out
  | .byte c :: out => c :: shown out

theorem shown_append (a b : List Output) : shown (a ++ b) = shown a ++ shown b := by
  induction a with
  | nil => rfl
  | cons o a ih =>
    cases o with
    | escape sequence => exact ih
    | byte c => exact congrArg (c :: ·) ih

theorem shown_flatMap {α : Type} (f : α → List Output) (l : List α) :
    shown (l.flatMap f) = l.flatMap fun x => shown (f x) := by
  induction l with
  | nil => rfl
  | cons x l ih => rw [List.flatMap_cons, shown_append, ih, List.flatMap_cons]

@[simp] theorem shown_plain (t : Text) : shown (plain t) = t := by
  induction t with
  | nil => rfl
  | cons c t ih => exact congrArg (c :: ·) ih

theorem mem_shown {c : UInt8} {out : List Output} : c ∈ shown out ↔ .byte c ∈ out := by
  induction out with
  | nil => simp [shown]
  | cons o out ih =>
    cases o with
    | escape sequence => simp [shown, ih]
    | byte b => simp [shown, ih]

@[simp] theorem shown_printCh (c : UInt8) : shown (printCh c) = [c] := rfl

@[simp] theorem shown_printCell (allBold : Bool) (i : Fin varNum) (text : Text) :
    shown (printCell allBold i text) = text := by
  rw [printCell]
  split_ifs <;> simp [shown_append, shown, ansiColorCyan, ansiColorGreen, ansiColorRed,
    ansiFontBold, ansiColorReset]

/-- The text of a horizontal line between columns of the given widths. -/
def ruleText (left cross right : UInt8) (width : Fin varNum → ℕ) : Text :=
  left :: (List.finRange varNum).flatMap fun i =>
    List.replicate (width i) hl ++ [if i.val = varNum - 1 then right else cross]

/-- The text of a row: the cells, padded on the right, between vertical lines. -/
def rowText (boxLine : BoxLine) (width : Fin varNum → ℕ) : Text :=
  vl :: (List.finRange varNum).flatMap fun i =>
    boxLine[i].bytes ++ List.replicate (width i - boxLine[i].bytes.length) space ++ [vl]

theorem shown_horizontal (left cross right : UInt8) (max : Vector ℕ varNum) :
    shown (horizontal left cross right max) = ruleText left cross right fun i => max[i] := by
  have hline : ∀ n : ℕ, (List.replicate n hl).flatMap (fun c => [c]) = List.replicate n hl :=
    fun n => List.flatMap_singleton' _
  rw [horizontal, shown_append, shown_flatMap, shown_printCh, ruleText, List.singleton_append]
  congr 2
  funext i
  rw [shown_append, shown_flatMap]
  simp only [shown_printCh, hline]
  split <;> rfl

theorem shown_spaces (n : ℕ) : shown (List.replicate n (.byte space)) = List.replicate n space := by
  rw [← List.map_replicate]
  exact shown_plain _

/-- The subtraction does not wrap. -/
theorem padding_eq {max strLen : ℕ} (hle : strLen ≤ max) (hmax : max < 2 ^ 64) :
    padding max strLen = max - strLen := by
  have hmax' : (UInt64.ofNat max).toNat = max :=
    UInt64.toNat_ofNat'.trans (Nat.mod_eq_of_lt hmax)
  have hlen' : (UInt64.ofNat strLen).toNat = strLen :=
    UInt64.toNat_ofNat'.trans (Nat.mod_eq_of_lt (hle.trans_lt hmax))
  have hle' : UInt64.ofNat strLen ≤ UInt64.ofNat max := by
    rw [UInt64.le_iff_toNat_le, hmax', hlen']
    exact hle
  rw [padding, UInt64.toNat_sub_of_le _ _ hle', hmax', hlen']

theorem shown_boxLetters {boxLine : BoxLine} {max : Vector ℕ varNum} (allBold : Bool)
    (hmax : ∀ i : Fin varNum, boxLine[i].bytes.length ≤ max[i] ∧ max[i] < strBufferSize) :
    shown (boxLetters boxLine max allBold) = rowText boxLine fun i => max[i] := by
  rw [boxLetters, shown_append, shown_flatMap, shown_printCh, rowText, List.singleton_append]
  congr 2
  funext i
  have hlt : max[i] < 2 ^ 64 := (hmax i).2.trans (by norm_num)
  rw [shown_append, shown_append, shown_printCell, shown_spaces, shown_printCh,
    padding_eq (hmax i).1 hlt]

/-! ### Widths -/

theorem length_columns (f : Fin varNum → Text) (width : Fin varNum → ℕ)
    (hf : ∀ i, (f i).length = width i + 1) :
    ((List.finRange varNum).flatMap f).length + 1 = varNum + 1 + ∑ i, width i := by
  rw [List.length_flatMap, List.map_congr_left fun i _ => hf i, ← Fin.sum_univ_def,
    Finset.sum_add_distrib]
  simp
  omega

theorem length_ruleText (left cross right : UInt8) (width : Fin varNum → ℕ) :
    (ruleText left cross right width).length = varNum + 1 + ∑ i, width i := by
  refine length_columns _ width fun i => ?_
  rw [List.length_append, List.length_replicate, List.length_singleton]

theorem length_rowText {boxLine : BoxLine} {width : Fin varNum → ℕ}
    (h : ∀ i, boxLine[i].bytes.length ≤ width i) :
    (rowText boxLine width).length = varNum + 1 + ∑ i, width i := by
  refine length_columns _ width fun i => ?_
  rw [List.length_append, List.length_append, List.length_replicate, List.length_singleton]
  have hi := h i
  omega

/-- The search keeps the greatest length seen so far. -/
theorem longest_from (i : Fin varNum) (boxLineList : List BoxLine) (m : ℕ) :
    ∃ r, boxLineList.foldl (fun max boxLine =>
        let strLen := boxLine[i].bytes.length
        if strLen > max then strLen else max) m = r ∧ m ≤ r ∧
      (∀ boxLine ∈ boxLineList, boxLine[i].bytes.length ≤ r) ∧
      (r = m ∨ ∃ boxLine ∈ boxLineList, boxLine[i].bytes.length = r) := by
  induction boxLineList generalizing m with
  | nil => exact ⟨m, rfl, le_refl m, by simp, Or.inl rfl⟩
  | cons boxLine boxLineList ih =>
    obtain ⟨r, hr, hle, hall, hcase⟩ := ih (if boxLine[i].bytes.length > m
      then boxLine[i].bytes.length else m)
    refine ⟨r, hr, ?_, ?_, ?_⟩
    · split_ifs at hle <;> omega
    · refine List.forall_mem_cons.mpr ⟨?_, hall⟩
      split_ifs at hle <;> omega
    · rcases hcase with rfl | ⟨boxLine', hmem, hlen⟩
      · split_ifs
        · exact Or.inr ⟨boxLine, List.mem_cons_self, rfl⟩
        · exact Or.inl rfl
      · exact Or.inr ⟨boxLine', List.mem_cons_of_mem _ hmem, hlen⟩

theorem longest_isGreatest {boxLineList : List BoxLine} (hne : boxLineList ≠ [])
    (i : Fin varNum) :
    IsGreatest {n | ∃ boxLine ∈ boxLineList, boxLine[i].bytes.length = n}
      (longest boxLineList i) := by
  obtain ⟨r, hr, -, hall, hcase⟩ := longest_from i boxLineList 0
  rw [longest, hr]
  refine ⟨?_, ?_⟩
  · rcases hcase with rfl | h
    · -- then all cells are empty
      obtain ⟨boxLine, hmem⟩ := List.exists_mem_of_ne_nil _ hne
      exact ⟨boxLine, hmem, Nat.le_zero.mp (hall boxLine hmem)⟩
    · exact h
  · rintro n ⟨boxLine, hmem, rfl⟩
    exact hall boxLine hmem

/-! ### Lines -/

/-- The lines between the top and the bottom. -/
def rowLines (max : Vector ℕ varNum) (allBold : Bool) : List BoxLine → List (List Output)
  | [] => []
  | [boxLine] => [boxLetters boxLine max allBold]
  | boxLine :: boxLine' :: boxLines =>
    boxLetters boxLine max allBold :: horizontal lc mc rc max ::
      rowLines max false (boxLine' :: boxLines)

theorem printRows_first (max : Vector ℕ varNum) (i : ℕ) (boxLine : BoxLine) :
    (if i ≠ 0 then printBoxLetters boxLine max false else printBoxLetters boxLine max true) =
      boxLetters boxLine max (decide (i = 0)) ++ [lineFeed] := by
  by_cases hi : i = 0 <;> simp [hi, printBoxLetters]

theorem printRows_lines (max : Vector ℕ varNum) (i : ℕ) (boxLines : List BoxLine) :
    printRows max i boxLines =
      (rowLines max (decide (i = 0)) boxLines).flatMap (· ++ [lineFeed]) := by
  induction boxLines generalizing i with
  | nil => rfl
  | cons boxLine boxLines ih =>
    rw [printRows, printRows_first, ih (i + 1)]
    cases boxLines with
    | nil => simp [rowLines]
    | cons boxLine' boxLines => simp [rowLines, printMidLine]

theorem length_rowLines (max : Vector ℕ varNum) (allBold : Bool) {boxLines : List BoxLine}
    (hne : boxLines ≠ []) : (rowLines max allBold boxLines).length + 1 = 2 * boxLines.length := by
  induction boxLines generalizing allBold with
  | nil => exact absurd rfl hne
  | cons boxLine boxLines ih =>
    cases boxLines with
    | nil => rfl
    | cons boxLine' boxLines =>
      have hrest := ih false (by simp)
      rw [rowLines]
      simp only [List.length_cons] at hrest ⊢
      omega

/-- The rows are at the even places, each with its own boldness. -/
theorem rowLines_row (max : Vector ℕ varNum) (allBold : Bool) {boxLines : List BoxLine} {r : ℕ}
    {boxLine : BoxLine} (h : boxLines[r]? = some boxLine) :
    ∃ b, (rowLines max allBold boxLines)[2 * r]? = some (boxLetters boxLine max b) := by
  induction boxLines generalizing allBold r with
  | nil => cases h
  | cons first boxLines ih =>
    cases r with
    | zero =>
      obtain rfl : first = boxLine := by simpa using h
      cases boxLines <;> exact ⟨allBold, rfl⟩
    | succ r =>
      cases boxLines with
      | nil => cases h
      | cons second boxLines => exact ih false h

/-- Between two rows there is a line. -/
theorem rowLines_mid (max : Vector ℕ varNum) (allBold : Bool) {boxLines : List BoxLine} {r : ℕ}
    (h : r + 1 < boxLines.length) :
    (rowLines max allBold boxLines)[2 * r + 1]? = some (horizontal lc mc rc max) := by
  induction boxLines generalizing allBold r with
  | nil => cases h
  | cons first boxLines ih =>
    cases boxLines with
    | nil => exact absurd h (by simp)
    | cons second boxLines =>
      cases r with
      | zero => rfl
      | succ r => exact ih false (Nat.lt_of_succ_lt_succ h)

/-- Each of these lines is a row or stands between two. -/
theorem mem_rowLines {max : Vector ℕ varNum} {allBold : Bool} {boxLines : List BoxLine}
    {line : List Output} (h : line ∈ rowLines max allBold boxLines) :
    line = horizontal lc mc rc max ∨ ∃ boxLine ∈ boxLines, ∃ b,
      line = boxLetters boxLine max b := by
  induction boxLines generalizing allBold with
  | nil => cases h
  | cons first boxLines ih =>
    cases boxLines with
    | nil => exact Or.inr ⟨first, List.mem_cons_self, allBold, List.mem_singleton.mp h⟩
    | cons second boxLines =>
      rcases List.mem_cons.mp h with rfl | h
      · exact Or.inr ⟨first, List.mem_cons_self, allBold, rfl⟩
      rcases List.mem_cons.mp h with rfl | h
      · exact Or.inl rfl
      · rcases ih h with hmid | ⟨boxLine, hmem, b, hline⟩
        · exact Or.inl hmid
        · exact Or.inr ⟨boxLine, List.mem_cons_of_mem _ hmem, b, hline⟩

theorem lineFeed_notMem_ruleText {left cross right : UInt8} (width : Fin varNum → ℕ)
    (h : 10 ≠ left ∧ 10 ≠ cross ∧ 10 ≠ right) : 10 ∉ ruleText left cross right width := by
  intro hmem
  rcases List.mem_cons.mp hmem with hleft | hmem
  · exact h.1 hleft
  · obtain ⟨i, -, hmem⟩ := List.mem_flatMap.mp hmem
    rcases List.mem_append.mp hmem with hmem | hmem
    · exact absurd (List.eq_of_mem_replicate hmem) (by decide)
    · split at hmem
      · exact h.2.2 (List.mem_singleton.mp hmem)
      · exact h.2.1 (List.mem_singleton.mp hmem)

theorem lineFeed_notMem_rowText {boxLine : BoxLine} (width : Fin varNum → ℕ)
    (h : ∀ i : Fin varNum, 10 ∉ boxLine[i].bytes) : 10 ∉ rowText boxLine width := by
  intro hmem
  rcases List.mem_cons.mp hmem with hleft | hmem
  · exact absurd hleft (by decide)
  · obtain ⟨i, -, hmem⟩ := List.mem_flatMap.mp hmem
    rcases List.mem_append.mp hmem with hmem | hmem
    · rcases List.mem_append.mp hmem with hmem | hmem
      · exact h i hmem
      · exact absurd (List.eq_of_mem_replicate hmem) (by decide)
    · exact absurd (List.mem_singleton.mp hmem) (by decide)

/-- Lines that show the rows in a rectangle whose columns have these widths. -/
structure Rectangle (boxLineList : List BoxLine) (width : Fin varNum → ℕ)
    (lines : List (List Output)) : Prop where
  count : lines.length = 2 * boxLineList.length + 1
  single : ∀ line ∈ lines, lineFeed ∉ line
  widths : ∀ line ∈ lines, (shown line).length = varNum + 1 + ∑ i, width i
  top : (lines[0]?).map shown = some (ruleText lt tc rt width)
  row : ∀ (r : ℕ) boxLine, boxLineList[r]? = some boxLine →
    (lines[2 * r + 1]?).map shown = some (rowText boxLine width)
  mid : ∀ r, r + 1 < boxLineList.length →
    (lines[2 * r + 2]?).map shown = some (ruleText lc mc rc width)
  bot : (lines[2 * boxLineList.length]?).map shown = some (ruleText lb bc rb width)

theorem rectangle_lines {boxLineList : List BoxLine} {max : Vector ℕ varNum}
    (hne : boxLineList ≠ [])
    (hfeed : ∀ boxLine ∈ boxLineList, ∀ i : Fin varNum, 10 ∉ boxLine[i].bytes)
    (hmax : ∀ boxLine ∈ boxLineList, ∀ i : Fin varNum,
      boxLine[i].bytes.length ≤ max[i] ∧ max[i] < strBufferSize) :
    Rectangle boxLineList (fun i => max[i])
      (horizontal lt tc rt max :: (rowLines max true boxLineList ++
        [horizontal lb bc rb max])) := by
  have hlen := length_rowLines max true hne
  have hrule : ∀ left cross right : UInt8, 10 ≠ left ∧ 10 ≠ cross ∧ 10 ≠ right →
      10 ∉ shown (horizontal left cross right max) ∧
        (shown (horizontal left cross right max)).length = varNum + 1 + ∑ i :
          Fin varNum, max[i] := by
    intro left cross right h
    rw [shown_horizontal]
    exact ⟨lineFeed_notMem_ruleText _ h, length_ruleText _ _ _ _⟩
  have hline : ∀ line ∈ horizontal lt tc rt max :: (rowLines max true boxLineList ++
      [horizontal lb bc rb max]),
      10 ∉ shown line ∧ (shown line).length = varNum + 1 + ∑ i : Fin varNum, max[i] := by
    intro line hmem
    rcases List.mem_cons.mp hmem with rfl | hmem
    · exact hrule _ _ _ (by decide)
    rcases List.mem_append.mp hmem with hmem | hmem
    · rcases mem_rowLines hmem with rfl | ⟨boxLine, hboxLine, b, rfl⟩
      · exact hrule _ _ _ (by decide)
      · rw [shown_boxLetters b (hmax boxLine hboxLine)]
        exact ⟨lineFeed_notMem_rowText _ (hfeed boxLine hboxLine),
          length_rowText fun i => (hmax boxLine hboxLine i).1⟩
    · rw [List.mem_singleton.mp hmem]
      exact hrule _ _ _ (by decide)
  refine ⟨?_, fun line hmem h => (hline line hmem).1 (mem_shown.mpr h),
    fun line hmem => (hline line hmem).2, ?_, fun r boxLine hr => ?_, fun r hr => ?_, ?_⟩
  · rw [List.length_cons, List.length_append, List.length_singleton]
    omega
  · exact congrArg some (shown_horizontal _ _ _ _)
  · obtain ⟨b, hrow⟩ := rowLines_row max true hr
    rw [List.getElem?_cons_succ, List.getElem?_append_left (List.getElem?_eq_some_iff.mp hrow).1,
      hrow, Option.map_some, shown_boxLetters b (hmax boxLine (List.mem_of_getElem? hr))]
  · have hmid := rowLines_mid max true hr
    rw [List.getElem?_cons_succ, List.getElem?_append_left (List.getElem?_eq_some_iff.mp hmid).1,
      hmid, Option.map_some, shown_horizontal]
  · rw [← hlen, List.getElem?_cons_succ, List.getElem?_concat_length, Option.map_some,
      shown_horizontal]

/-- The table is a rectangle that is as wide as its longest cells need, and no padding is
negative. -/
theorem printBox_rectangular {boxLineList : List BoxLine} (hne : boxLineList ≠ [])
    (hfeed : ∀ boxLine ∈ boxLineList, ∀ i : Fin varNum, 10 ∉ boxLine[i].bytes) :
    ∃ (width : Fin varNum → ℕ) (lines : List (List Output)),
      (∀ i, IsGreatest {n | ∃ boxLine ∈ boxLineList, boxLine[i].bytes.length = n} (width i)) ∧
      printBox boxLineList = lines.flatMap (· ++ [lineFeed]) ∧
      Rectangle boxLineList width lines ∧
      ∀ boxLine ∈ boxLineList, ∀ i : Fin varNum, boxLine[i].bytes.length ≤ width i ∧
        padding (getVaribleStrlenMax boxLineList)[i] boxLine[i].bytes.length =
          width i - boxLine[i].bytes.length := by
  obtain ⟨max, hmax⟩ : ∃ max, getVaribleStrlenMax boxLineList = max := ⟨_, rfl⟩
  have hgreatest : ∀ i : Fin varNum,
      IsGreatest {n | ∃ boxLine ∈ boxLineList, boxLine[i].bytes.length = n} max[i] := by
    intro i
    have hi := longest_isGreatest hne i
    rw [← hmax, getVaribleStrlenMax]
    simpa using hi
  have hfits : ∀ boxLine ∈ boxLineList, ∀ i : Fin varNum,
      boxLine[i].bytes.length ≤ max[i] ∧ max[i] < strBufferSize := by
    intro boxLine hmem i
    obtain ⟨longest, -, hlen⟩ := (hgreatest i).1
    exact ⟨(hgreatest i).2 ⟨boxLine, hmem, rfl⟩, hlen ▸ longest[i].fits⟩
  refine ⟨fun i => max[i], horizontal lt tc rt max :: (rowLines max true boxLineList ++
    [horizontal lb bc rb max]), hgreatest, ?_, ?_, ?_⟩
  · rw [printBox, hmax, printRows_lines, printTopLine, printBotLine]
    simp
  · exact rectangle_lines hne hfeed hfits
  · intro boxLine hmem i
    obtain ⟨hle, hlt⟩ := hfits boxLine hmem i
    rw [hmax]
    exact ⟨hle, padding_eq hle (hlt.trans (by norm_num))⟩

/-- A header and a row whose cells are shorter. -/
def smallTable : List BoxLine :=
  [Vector.replicate varNum ⟨str " app name ", by decide, by decide⟩,
    Vector.replicate varNum ⟨str " web ", by decide, by decide⟩]

theorem printBox_rectangular_small :
    ∃ lines : List (List Output), printBox smallTable = lines.flatMap (· ++ [lineFeed]) ∧
      lines.length = 5 ∧
      ∀ line ∈ lines, (shown line).length = 78 := by
  obtain ⟨width, lines, hgreatest, hlines, hrectangle, -⟩ := @printBox_rectangular smallTable
    (by simp [smallTable]) (by decide +kernel)
  have hwidth : width = fun _ => 10 := by
    funext i
    exact (hgreatest i).unique ⟨⟨_, List.mem_cons_self, by revert i; decide⟩, by
      rintro n ⟨boxLine, hmem, rfl⟩
      revert boxLine i
      decide⟩
  refine ⟨lines, hlines, hrectangle.count, fun line hline => ?_⟩
  rw [hrectangle.widths line hline, hwidth]
  rfl

end KbPm
