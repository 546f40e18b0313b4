/-
The printed text of an item determines the item, for the parser too.

* `Printable` — items built from strings without NUL, integers, arrays and
  objects, as the service creates them;
* `parses_parseValue` — the parser reads the text of a printable item back, and
  a text cut short makes it refuse or run dry;
* `cJsonParse_print` — `cJSON_Parse` undoes `cJSON_Print`, whatever follows;
* `cJsonParse_cut` — `cJSON_Parse` refuses the text of an array or object that
  is cut anywhere.
-/
import KbPm.CJsonFuel
import KbPm.CJsonString
import KbPm.CJsonNumber

namespace KbPm

open Scan

mutual

/-- Items as the service builds them. -/
def Printable : CJson → Prop
  | .null => False
  | .bool _ => False
  | .number d => ∃ n : ℤ, d = n ∧ |n| < 2 ^ 53
  | .string s => 0 ∉ s
  | .array vs => PrintableItems vs
  | .object ms => PrintableMembers ms

def PrintableItems : List CJson → Prop
  | [] => True
  | v :: vs => Printable v ∧ PrintableItems vs

def PrintableMembers : List (Text × CJson) → Prop
  | [] => True
  | (k, v) :: ms => 0 ∉ k ∧ Printable v ∧ PrintableMembers ms

end

theorem blank_tabs (depth : ℕ) : ∀ b ∈ tabs depth, blank b = true := by
  intro b hb
  rw [List.eq_of_mem_replicate hb]
  decide

/-- No printed item starts with a blank or a closing bracket. -/
theorem printValue_head {v : CJson} (hv : Printable v) (depth : ℕ) :
    ∃ c t, printValue depth v = c :: t ∧ blank c = false ∧ c ≠ rbracket := by
  cases v with
  | null => exact hv.elim
  | bool b => exact hv.elim
  | number d =>
    obtain ⟨n, rfl, hn⟩ := hv
    obtain ⟨c, t, hct, hc⟩ := decimal_head n
    refine ⟨c, t, by rw [printValue, printNumber_intCast hn, hct], ?_⟩
    rcases hc with rfl | hc
    · exact ⟨by decide, by decide⟩
    · simp only [isDigit, Bool.and_eq_true, decide_eq_true_eq, UInt8.le_iff_toNat_le,
        UInt8.reduceToNat] at hc
      refine ⟨?_, fun h => ?_⟩
      · simp only [blank, Bool.and_eq_false_iff, decide_eq_false_iff_not, UInt8.le_iff_toNat_le,
          UInt8.reduceToNat]
        omega
      · rw [h] at hc
        exact absurd hc.2 (by decide)
  | string s =>
    exact ⟨quote, _, by rw [printValue, printStringPtr_eq hv]; rfl, by decide, by decide⟩
  | array vs => exact ⟨lbracket, _, by rw [printValue]; rfl, by decide, by decide⟩
  | object ms => exact ⟨lbrace, _, by rw [printValue]; rfl, by decide, by decide⟩

/-! ### The three kinds of scanners -/

theorem peek_of_take {t : Text} {k : ℕ} {c : UInt8} {w : Text} (h : t.take k = c :: w) :
    peek t = c := by
  cases t with
  | nil => simp at h
  | cons b t =>
    cases k with
    | zero => simp at h
    | succ k => exact (List.cons.inj h).1

theorem parseWord_none {t : Text} (h : peek t ≠ 110 ∧ peek t ≠ 102 ∧ peek t ≠ 116) :
    parseWord t = none := by
  have hnull : t.take 4 ≠ str "null" := fun hw => h.1 (peek_of_take (w := [117, 108, 108]) hw)
  have hfalse : t.take 5 ≠ str "false" :=
    fun hw => h.2.1 (peek_of_take (w := [97, 108, 115, 101]) hw)
  have htrue : t.take 4 ≠ str "true" := fun hw => h.2.2 (peek_of_take (w := [114, 117, 101]) hw)
  rw [parseWord, if_neg hnull, if_neg hfalse, if_neg htrue]

/-- A value that does not start with a letter goes to the scanner for its first byte. -/
theorem parseValue_run (n : ℕ) {t : Text} (h : peek t ≠ 110 ∧ peek t ≠ 102 ∧ peek t ≠ 116) :
    parseValue (n + 1) t =
      if peek t = quote then (parseString >>= fun s => pure (.string s)) t
      else if peek t = minus ∨ isDigit (peek t) then (parseNumber >>= fun d => pure (.number d)) t
      else if peek t = lbracket then (parseArray (parseItems n) >>= fun vs => pure (.array vs)) t
      else if peek t = lbrace then
        (parseObject (parseMembers n) >>= fun ms => pure (.object ms)) t
      else .error .refused :=
  parseValue_rest (parseWord_none h)

theorem parseValue_cons (n : ℕ) {c : UInt8} (h : c ≠ 110 ∧ c ≠ 102 ∧ c ≠ 116) (t : Text) :
    parseValue (n + 1) (c :: t) =
      if c = quote then (parseString >>= fun s => pure (.string s)) (c :: t)
      else if c = minus ∨ isDigit c then (parseNumber >>= fun d => pure (.number d)) (c :: t)
      else if c = lbracket then
        (parseArray (parseItems n) >>= fun vs => pure (.array vs)) (c :: t)
      else if c = lbrace then
        (parseObject (parseMembers n) >>= fun ms => pure (.object ms)) (c :: t)
      else .error .refused :=
  parseValue_run n (t := c :: t) h

theorem refuses_parseValue (n : ℕ) : Refuses (parseValue n) := by
  intro t ht
  cases n with
  | zero => rw [parseValue]
  | succ n =>
    rw [parseValue_run n (by rw [ht.peek]; decide), ht.peek]
    rfl

theorem skipThen_refuses {β : Type} {m : Scanner UInt8 Fault β} (h : Refuses m) :
    Refuses (skip >>= fun _ => m) :=
  h.skipThen (by decide)

theorem delimits_skip {β : Type} {m : Scanner UInt8 Fault β} {ws b : Text} {c : UInt8} {v : β}
    (hws : ∀ b ∈ ws, blank b = true) (hc : blank c = false) (hm : Delimits m (c :: b) v) :
    Delimits (skip >>= fun _ => m) (ws ++ c :: b) v :=
  hm.skipThen (by decide) hws hc

theorem parseValue_parses {n : ℕ} {m : Scanner UInt8 Fault CJson} {c : UInt8} {a : Text} {v : CJson}
    {F : UInt8 → Prop} (hm : Parses m (c :: a) v F)
    (heq : ∀ t, parseValue (n + 1) (c :: t) = m (c :: t)) :
    Parses (parseValue (n + 1)) (c :: a) v F := by
  refine ⟨fun x hx => ?_, fun k hk zs hz => ?_⟩
  · rw [List.cons_append, heq]
    exact hm.whole x hx
  · rcases k with _ | k
    · exact Or.inl (refuses_parseValue _ _ (by simpa using hz))
    · rw [List.take_succ_cons, List.cons_append, heq]
      exact hm.cut (k + 1) hk zs hz

theorem parseValue_delimits {n : ℕ} {m : Scanner UInt8 Fault CJson} {c : UInt8} {a : Text}
    {v : CJson} (hm : Delimits m (c :: a) v) (heq : ∀ t, parseValue (n + 1) (c :: t) = m (c :: t)) :
    Delimits (parseValue (n + 1)) (c :: a) v := by
  refine ⟨fun x => ?_, fun k hk zs hz => ?_⟩
  · rw [List.cons_append, heq]
    exact hm.whole x
  · rcases k with _ | k
    · exact refuses_parseValue _ _ (by simpa using hz)
    · rw [List.take_succ_cons, List.cons_append, heq]
      exact hm.cut (k + 1) hk zs hz

/-- One member: the key, the colon, the value, and what comes behind it. -/
theorem delimits_member {β : Type} {n : ℕ} {k V R ws : Text} {v : CJson} {e : UInt8}
    {tail : Text → CJson → Scanner UInt8 Fault β} {w : β} (hk : 0 ∉ k)
    (hV : Parses (parseValue n) V v numEnd) (hhead : ∃ c t, V = c :: t ∧ blank c = false)
    (htail : Delimits (tail k v) (e :: R) w) (hrefuse : ∀ j u, Refuses (tail j u)) (he : numEnd e)
    (hws : ∀ b ∈ ws, blank b = true) :
    Delimits (skip >>= fun _ => parseString >>= fun j => skip >>= fun _ => expect colon >>= fun _ =>
      skip >>= fun _ => parseValue n >>= tail j)
      (ws ++ (printStringPtr k ++ [colon, tab] ++ V ++ e :: R)) w := by
  obtain ⟨c, t, rfl, hc⟩ := hhead
  have htab : ∀ b ∈ [tab], blank b = true := by
    intro b hb
    rw [List.mem_singleton.mp hb]
    decide
  have hnone : ∀ b ∈ ([] : Text), blank b = true := by simp
  -- from the value back to the key, each scanner in front of what is behind it
  have hvalue : Delimits (parseValue n >>= tail k) (c :: (t ++ e :: R)) w :=
    hV.bind htail (hrefuse k) he ⟨by decide, by decide, by decide, by decide⟩
  have hskip : Delimits (skip >>= fun _ => parseValue n >>= tail k)
      (tab :: (c :: (t ++ e :: R))) w :=
    delimits_skip htab hc hvalue
  have hcolon : Delimits (expect colon >>= fun _ => skip >>= fun _ => parseValue n >>= tail k)
      (colon :: tab :: (c :: (t ++ e :: R))) w :=
    ((delimits_expect (c := colon) (by decide)).parses fun _ => True).bind hskip
      (fun _ => skipThen_refuses ((refuses_parseValue n).bind (tail k))) trivial trivial
  have hcolon' := delimits_skip hnone (c := colon) (by decide) hcolon
  have hkey := (parses_parseString hk fun _ => True).bind
    (f := fun j => skip >>= fun _ => expect colon >>= fun _ => skip >>= fun _ =>
      parseValue n >>= tail j) hcolon'
    (fun _ => skipThen_refuses ((refuses_expect (c := colon) (by decide)).bind _)) trivial trivial
  rw [printStringPtr_eq hk] at hkey ⊢
  have hall := delimits_skip hws (c := quote) (by decide) hkey
  simpa using hall

theorem refuses_parseItems (n : ℕ) : Refuses (parseItems n) := by
  cases n with
  | zero => exact fun t _ => rfl
  | succ n => exact skipThen_refuses ((refuses_parseValue n).bind _)

theorem refuses_parseMembers (n : ℕ) : Refuses (parseMembers n) := by
  cases n with
  | zero => exact fun t _ => rfl
  | succ n => exact skipThen_refuses (refuses_parseString.bind _)

/-- What ends a list: the closing bracket, behind blanks. -/
theorem delimits_close {β : Type} {c : UInt8} {ws : Text} {m : Scanner UInt8 Fault β} (w : β)
    (hc0 : c ≠ 0) (hcomma : c ≠ comma) (hblank : blank c = false)
    (hws : ∀ b ∈ ws, blank b = true) :
    Delimits (skip >>= fun _ => branch comma m (expect c >>= fun _ => pure w)) (ws ++ [c]) w :=
  delimits_skip hws hblank
    (Delimits.branch_else (by decide) hcomma ((delimits_expect hc0).map fun _ => w))

/-- What goes on with a list: the comma, and the rest of it. -/
theorem delimits_more {β : Type} {c : UInt8} {a : Text} {m : Scanner UInt8 Fault β} {w u : β}
    (hc0 : c ≠ 0) (hm : Delimits m a w) :
    Delimits (skip >>= fun _ => branch comma m (expect c >>= fun _ => pure u)) (comma :: a) w :=
  have hnone : ∀ b ∈ ([] : Text), blank b = true := by simp
  delimits_skip hnone (by decide)
    (hm.branch (by decide) ((refuses_expect hc0).bind _))

theorem refuses_more {β : Type} {c : UInt8} {m : Scanner UInt8 Fault β} {u : β} (hc0 : c ≠ 0) :
    Refuses (skip >>= fun _ => branch comma m (expect c >>= fun _ => pure u)) :=
  skipThen_refuses (refuses_branch (by decide) ((refuses_expect hc0).bind _))

theorem numEnd_of_blank {c : UInt8} (h : blank c = true) : numEnd c := by
  simp only [blank, Bool.and_eq_true, bne_iff_ne, decide_eq_true_eq, UInt8.le_iff_toNat_le,
    UInt8.reduceToNat] at h
  refine ⟨?_, ?_, ?_, ?_⟩
  · simp only [isDigit, Bool.and_eq_false_iff, decide_eq_false_iff_not, UInt8.le_iff_toNat_le,
      UInt8.reduceToNat]
    omega
  all_goals
    rintro rfl
    exact absurd h.2 (by decide)

/-! ### Reading values back -/

/-- The text of an object from the name of its first member on: its closing
brace stands behind the blanks `ts`. -/
def membersText (depth : ℕ) (k : Text) (v : CJson) (ms : List (Text × CJson)) (ts : Text) : Text :=
  printStringPtr k ++ [colon, tab] ++ printValue depth v ++
    ((if ms.isEmpty then [] else [comma]) ++ newline :: (printMembers depth ms ++ ts ++ [rbrace]))

theorem printMembers_cons (depth : ℕ) (k : Text) (v : CJson) (ms : List (Text × CJson))
    (ts : Text) :
    printMembers depth ((k, v) :: ms) ++ ts ++ [rbrace] =
      tabs depth ++ membersText depth k v ms ts := by
  rw [printMembers, membersText]
  simp

theorem blank_newline_cons {ts : Text} (h : ∀ b ∈ ts, blank b = true) :
    ∀ b ∈ newline :: ts, blank b = true := by
  intro b hb
  rcases List.mem_cons.mp hb with rfl | hb
  · decide
  · exact h b hb

theorem numEnd_comma : numEnd comma := ⟨by decide, by decide, by decide, by decide⟩

theorem numEnd_zero : numEnd 0 := ⟨by decide, by decide, by decide, by decide⟩

/-- What follows an item of an array. -/
def itemsTail (n : ℕ) (v : CJson) : Scanner UInt8 Fault (List CJson) :=
  skip >>= fun _ => branch comma (parseItems n >>= fun vs => pure (v :: vs))
    (expect rbracket >>= fun _ => pure [v])

/-- What follows a member of an object. -/
def membersTail (n : ℕ) (k : Text) (v : CJson) : Scanner UInt8 Fault (List (Text × CJson)) :=
  skip >>= fun _ => branch comma (parseMembers n >>= fun ms => pure ((k, v) :: ms))
    (expect rbrace >>= fun _ => pure [(k, v)])

theorem parseItems_succ (n : ℕ) :
    parseItems (n + 1) = skip >>= fun _ => parseValue n >>= itemsTail n := rfl

/-- An array is read back if its items are. -/
theorem delimits_array {depth n : ℕ} {vs : List CJson}
    (h : Delimits (skip >>= fun _ => branch rbracket (pure []) (parseItems n))
      (printItems (depth + 1) vs ++ [rbracket]) vs) :
    Delimits (parseValue (n + 1)) (printValue depth (.array vs)) (.array vs) := by
  have heq : ∀ t, parseValue (n + 1) (lbracket :: t) =
      (parseArray (parseItems n) >>= fun vs => pure (.array vs)) (lbracket :: t) :=
    fun t => parseValue_cons n (c := lbracket) (by decide) t
  rw [printValue]
  refine parseValue_delimits ?_ heq
  obtain ⟨c, t, hct⟩ : ∃ c t, printItems (depth + 1) vs ++ [rbracket] = c :: t :=
    List.exists_cons_of_ne_nil (by simp)
  rw [hct] at h
  have ha := ((delimits_expect (c := lbracket) (by decide)).parses fun _ => True).bind h
    (fun _ => skipThen_refuses (refuses_branch (by decide) (refuses_parseItems n)))
    trivial trivial
  rw [← hct] at ha
  exact ha.map CJson.array

theorem delimits_object {depth n : ℕ} {ms : List (Text × CJson)}
    (h : Delimits (skip >>= fun _ => branch rbrace (pure []) (parseMembers n))
      (newline :: (printMembers (depth + 1) ms ++ tabs depth ++ [rbrace])) ms) :
    Delimits (parseValue (n + 1)) (printValue depth (.object ms)) (.object ms) := by
  have heq : ∀ t, parseValue (n + 1) (lbrace :: t) =
      (parseObject (parseMembers n) >>= fun ms => pure (.object ms)) (lbrace :: t) :=
    fun t => parseValue_cons n (c := lbrace) (by decide) t
  rw [printValue]
  refine parseValue_delimits ?_ heq
  have ho := ((delimits_expect (c := lbrace) (by decide)).parses fun _ => True).bind h
    (fun _ => skipThen_refuses (refuses_branch (by decide) (refuses_parseMembers n)))
    trivial trivial
  exact ho.map CJson.object

mutual

/-- The text of a printable item is read back.  The induction is on the item,
and the fuel pays twice for every byte of its text. -/
theorem parses_parseValue : ∀ (v : CJson), Printable v → ∀ (depth n : ℕ),
    2 * (printValue depth v).length < n →
    Parses (parseValue n) (printValue depth v) v numEnd ∧
      ((∃ vs, v = .array vs) ∨ (∃ ms, v = .object ms) →
        Delimits (parseValue n) (printValue depth v) v)
  | .null, hv, _, _, _ => hv.elim
  | .bool _, hv, _, _, _ => hv.elim
  | .number d, hv, depth, n, hn => by
    obtain ⟨i, rfl, hi⟩ := hv
    obtain ⟨n, rfl⟩ : ∃ k, n = k + 1 := ⟨n - 1, by omega⟩
    obtain ⟨c, t, hct, hc⟩ := decimal_head i
    have hp := (parses_parseNumber hi).map CJson.number
    refine ⟨?_, by simp⟩
    rw [printValue]
    rw [printNumber_intCast hi, hct] at hp ⊢
    -- the first byte is a digit or the sign, and starts no other value
    have hnot : ∀ b : UInt8, isDigit b = false → b ≠ minus → c ≠ b := by
      rintro b hb hm rfl
      rcases hc with rfl | hc
      · exact hm rfl
      · exact absurd hc (by rw [hb]; decide)
    refine parseValue_parses hp fun t => ?_
    rw [parseValue_cons n ⟨hnot 110 rfl (by decide), hnot 102 rfl (by decide),
      hnot 116 rfl (by decide)⟩, if_neg (hnot quote rfl (by decide)), if_pos hc]
  | .string s, hv, depth, n, hn => by
    obtain ⟨n, rfl⟩ : ∃ k, n = k + 1 := ⟨n - 1, by omega⟩
    have hp := (parses_parseString hv numEnd).map CJson.string
    refine ⟨?_, by simp⟩
    rw [printValue]
    rw [printStringPtr_eq hv] at hp ⊢
    exact parseValue_parses hp fun t => parseValue_cons n (c := quote) (by decide) t
  | .array [], _, depth, n, hn => by
    obtain ⟨n, rfl⟩ : ∃ k, n = k + 1 := ⟨n - 1, by omega⟩
    have hitems : Delimits (skip >>= fun _ => branch rbracket (pure []) (parseItems n))
        ([] ++ [rbracket]) [] :=
      delimits_skip (by simp) (by decide)
        ((delimits_pure []).branch (by decide) (refuses_parseItems n))
    have hd : Delimits (parseValue (n + 1)) (printValue depth (.array [])) (.array []) :=
      delimits_array (by rw [printItems]; exact hitems)
    exact ⟨hd.parses numEnd, fun _ => hd⟩
  | .array (v :: vs), hv, depth, n, hn => by
    obtain ⟨n, rfl⟩ : ∃ k, n = k + 1 := ⟨n - 1, by omega⟩
    rw [printValue, List.length_append, List.length_cons, List.length_singleton] at hn
    have h := delimits_parseItems v vs hv (depth + 1) n [] (by simp)
      (by rw [List.length_append, List.length_singleton]; omega)
    obtain ⟨c, t, hct, hblank, hne⟩ := printValue_head hv.1 (depth + 1)
    have hitems : Delimits (skip >>= fun _ => branch rbracket (pure []) (parseItems n))
        (printItems (depth + 1) (v :: vs) ++ [rbracket]) (v :: vs) := by
      rw [printItems, hct] at h ⊢
      simp only [List.cons_append, List.nil_append] at h ⊢
      have hnone : ∀ b ∈ ([] : Text), blank b = true := by simp
      exact delimits_skip hnone hblank (h.branch_else (by decide) hne)
    have hd := delimits_array hitems
    exact ⟨hd.parses numEnd, fun _ => hd⟩
  | .object [], _, depth, n, hn => by
    obtain ⟨n, rfl⟩ : ∃ k, n = k + 1 := ⟨n - 1, by omega⟩
    have hmembers : Delimits (skip >>= fun _ => branch rbrace (pure []) (parseMembers n))
        ((newline :: tabs depth) ++ [rbrace]) [] :=
      delimits_skip (blank_newline_cons (blank_tabs depth)) (by decide)
        ((delimits_pure []).branch (by decide) (refuses_parseMembers n))
    have hd : Delimits (parseValue (n + 1)) (printValue depth (.object [])) (.object []) :=
      delimits_object (by rw [printMembers]; exact hmembers)
    exact ⟨hd.parses numEnd, fun _ => hd⟩
  | .object ((k, v) :: ms), hv, depth, n, hn => by
    obtain ⟨n, rfl⟩ : ∃ k, n = k + 1 := ⟨n - 1, by omega⟩
    have hlen : (printMembers (depth + 1) ((k, v) :: ms) ++ tabs depth ++ [rbrace]).length ≤
        (printValue depth (.object ((k, v) :: ms))).length := by
      rw [printValue]
      simp only [List.length_append, List.length_cons]
      omega
    rw [printMembers_cons, List.length_append] at hlen
    have h := delimits_parseMembers k v ms hv (depth + 1) n [] (tabs depth) (by simp)
      (blank_tabs depth) (by omega)
    have hmembers : Delimits (skip >>= fun _ => branch rbrace (pure []) (parseMembers n))
        (newline :: (printMembers (depth + 1) ((k, v) :: ms) ++ tabs depth ++ [rbrace]))
        ((k, v) :: ms) := by
      rw [printMembers_cons, ← List.cons_append]
      rw [membersText, printStringPtr_eq hv.1] at h ⊢
      exact delimits_skip (blank_newline_cons (blank_tabs (depth + 1))) (by decide)
        (h.branch_else (by decide) (by decide))
    have hd := delimits_object hmembers
    exact ⟨hd.parses numEnd, fun _ => hd⟩
termination_by v => sizeOf v

theorem delimits_parseItems : ∀ (v : CJson) (vs : List CJson), PrintableItems (v :: vs) →
    ∀ (depth n : ℕ) (ws : Text), (∀ b ∈ ws, blank b = true) →
    2 * (printItems depth (v :: vs) ++ [rbracket]).length ≤ n →
    Delimits (parseItems n) (ws ++ (printItems depth (v :: vs) ++ [rbracket])) (v :: vs)
  | v, vs, hv, depth, n, ws, hws, hn => by
    rw [List.length_append, List.length_singleton] at hn
    obtain ⟨n, rfl⟩ : ∃ k, n = k + 1 := ⟨n - 1, by omega⟩
    rw [printItems, List.length_append, List.length_append] at hn
    have hV := (parses_parseValue v hv.1 depth n (by omega)).1
    obtain ⟨c, t, hct, hblank, -⟩ := printValue_head hv.1 depth
    have hnone : ∀ b ∈ ([] : Text), blank b = true := by simp
    rw [hct] at hV
    rw [printItems, hct]
    -- the last item is followed by the bracket, and the others by a comma
    cases vs with
    | nil =>
      have hclose : Delimits (itemsTail n v) ([] ++ [rbracket]) [v] :=
        delimits_close [v] (by decide) (by decide) (by decide) hnone
      have h := delimits_skip hws hblank (hV.bind hclose (fun _ => refuses_more (by decide))
        ⟨by decide, by decide, by decide, by decide⟩ numEnd_zero)
      rw [← parseItems_succ] at h
      simpa [printItems] using h
    | cons v' vs =>
      simp only [List.isEmpty_cons, Bool.false_eq_true, if_false, List.length_cons,
        List.length_nil] at hn
      have hspace : ∀ b ∈ [space], blank b = true := by
        intro b hb
        rw [List.mem_singleton.mp hb]
        decide
      have hrest := (delimits_parseItems v' vs hv.2 depth n [space] hspace
        (by rw [List.length_append, List.length_singleton]; omega)).map fun vs => v :: vs
      have htail : Delimits (itemsTail n v) _ (v :: v' :: vs) := delimits_more (by decide) hrest
      have h := delimits_skip hws hblank (hV.bind htail (fun _ => refuses_more (by decide))
        numEnd_comma numEnd_zero)
      rw [← parseItems_succ] at h
      simpa using h
termination_by v vs => sizeOf v + sizeOf vs + 1

theorem delimits_parseMembers : ∀ (k : Text) (v : CJson) (ms : List (Text × CJson)),
    PrintableMembers ((k, v) :: ms) → ∀ (depth n : ℕ) (ws ts : Text),
    (∀ b ∈ ws, blank b = true) → (∀ b ∈ ts, blank b = true) →
    2 * (membersText depth k v ms ts).length ≤ n →
    Delimits (parseMembers n) (ws ++ membersText depth k v ms ts) ((k, v) :: ms)
  | k, v, [], hv, depth, n, ws, ts, hws, hts, hn => by
    rw [membersText] at hn ⊢
    simp only [List.length_append, List.length_cons, List.length_nil] at hn
    obtain ⟨n, rfl⟩ : ∃ k, n = k + 1 := ⟨n - 1, by omega⟩
    have hV := (parses_parseValue v hv.2.1 depth n (by omega)).1
    obtain ⟨c, t, hct, hblank, -⟩ := printValue_head hv.2.1 depth
    have hclose : Delimits (membersTail n k v) ((newline :: ts) ++ [rbrace]) [(k, v)] :=
      delimits_close [(k, v)] (by decide) (by decide) (by decide) (blank_newline_cons hts)
    exact delimits_member hv.1 hV ⟨c, t, hct, hblank⟩ hclose
      (fun _ _ => refuses_more (by decide)) (numEnd_of_blank rfl) hws
  | k, v, (k', v') :: ms, hv, depth, n, ws, ts, hws, hts, hn => by
    rw [membersText, printMembers_cons] at hn ⊢
    simp only [List.length_append, List.length_cons, List.length_nil] at hn
    obtain ⟨n, rfl⟩ : ∃ k, n = k + 1 := ⟨n - 1, by omega⟩
    have hV := (parses_parseValue v hv.2.1 depth n (by omega)).1
    obtain ⟨c, t, hct, hblank, -⟩ := printValue_head hv.2.1 depth
    have hrest := (delimits_parseMembers k' v' ms hv.2.2 depth n (newline :: tabs depth) ts
      (blank_newline_cons (blank_tabs depth)) hts (by omega)).map fun ms => (k, v) :: ms
    have htail : Delimits (membersTail n k v) _ ((k, v) :: (k', v') :: ms) :=
      delimits_more (by decide) hrest
    exact delimits_member hv.1 hV ⟨c, t, hct, hblank⟩ htail
      (fun _ _ => refuses_more (by decide)) numEnd_comma hws
termination_by _ v ms => sizeOf v + sizeOf ms + 1

end

/-! ### Whole texts -/

/-- An array or an object is read back, whatever follows its text. -/
theorem cJsonParse_print {v : CJson} (hv : Printable v)
    (hc : (∃ vs, v = .array vs) ∨ (∃ ms, v = .object ms)) (x : Text) :
    cJsonParse (cJsonPrint v ++ x) = .ok (some v) := by
  obtain ⟨c, t, hct, hblank, -⟩ := printValue_head hv 0
  have hskip : (cJsonPrint v ++ x).dropWhile blank = cJsonPrint v ++ x := by
    rw [cJsonPrint, hct, List.cons_append, List.dropWhile_cons, hblank]
    rfl
  have hlt : 2 * (cJsonPrint v).length < 2 * (cJsonPrint v ++ x).length + 1 := by
    rw [List.length_append]
    omega
  have hd := (parses_parseValue v hv 0 _ hlt).2 hc
  rw [cJsonParse, hskip]
  exact congrArg outcome (hd.whole x)

/-- The text of an array or an object that is cut anywhere is refused. -/
theorem cJsonParse_cut {v : CJson} (hv : Printable v)
    (hc : (∃ vs, v = .array vs) ∨ (∃ ms, v = .object ms)) {k : ℕ}
    (hk : k < (cJsonPrint v).length) {zs : Text} (hz : Exhausted zs) :
    cJsonParse ((cJsonPrint v).take k ++ zs) = .ok none := by
  obtain ⟨c, t, hct, hblank, -⟩ := printValue_head hv 0
  have hskip : ((cJsonPrint v).take k ++ zs).dropWhile blank = (cJsonPrint v).take k ++ zs := by
    have hnone : ∀ b ∈ ([] : Text), blank b = true := by simp
    have h := dropWhile_take (b := t) (by decide) hnone hblank k hz
    rw [cJsonPrint, hct]
    simpa using h
  -- with a bound that is large enough for the whole text the cut one is refused
  have hd := (parses_parseValue v hv 0 (2 * ((cJsonPrint v).length + zs.length) + 1)
    (by rw [← cJsonPrint]; omega)).2 hc
  have hlen : ((cJsonPrint v).take k ++ zs).length ≤ (cJsonPrint v).length + zs.length := by
    rw [List.length_append, List.length_take]
    omega
  rw [cJsonParse_eq (n := 2 * ((cJsonPrint v).length + zs.length) + 1) (by omega), hskip]
  exact congrArg outcome (hd.cut k hk zs hz)

/-! How long the text of an array is. -/

theorem length_printItems (depth : ℕ) (vs : List CJson) :
    (printItems depth vs).length =
      (vs.map fun v => (printValue depth v).length).sum + 2 * (vs.length - 1) := by
  induction vs with
  | nil => simp [printItems]
  | cons v vs ih =>
    rw [printItems, List.length_append, List.length_append, ih, List.map_cons, List.sum_cons,
      List.length_cons]
    cases vs with
    | nil => simp
    | cons w vs =>
      simp only [List.isEmpty_cons, Bool.false_eq_true, if_false, List.length_cons, List.length_nil]
      omega

theorem length_cJsonPrint_array (vs : List CJson) :
    (cJsonPrint (.array vs)).length =
      2 + (vs.map fun v => (printValue 1 v).length).sum + 2 * (vs.length - 1) := by
  rw [cJsonPrint, printValue, List.cons_append, List.length_cons, List.length_append,
    length_printItems,
    List.length_singleton, Nat.zero_add]
  omega

end KbPm
