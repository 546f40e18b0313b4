/-
Configs that are refused.

The loop of `parse_process_list` writes into the slots before it knows whether it
will come to the end.

* `parseSlots_res` — whether a config is refused does not depend on the list;
* `parseSlots_before` — the slots before the first item stay as they are;
* `ProcessList.Holds`, `parseSlots_keeps_iff` — a list is left as it was exactly if
  all that is copied is there already;
* `refused_keeps_iff` — what this means for the service that is starting.
-/
import KbPm.Load
import KbPm.Persistence

namespace KbPm

/-! ### What decoding returns -/

/-- What decoding returns does not depend on what is in the slot. -/
theorem parseProcessCJson_res (p q : Process) (json : CJson) :
    (parseProcessCJson p json).map Prod.snd = (parseProcessCJson q json).map Prod.snd := by
  unfold parseProcessCJson
  -- field by field, as far as decoding comes
  cases happ : getObjectItem json (str "app_name") with
  | none => rfl
  | some app =>
    cases hb : copyValuestring app with
    | error f =>
      simp only [hb]
      rfl
    | ok b =>
      cases hcmd : getObjectItem json (str "cmd") with
      | none =>
        simp only [hb]
        rfl
      | some cmd =>
        cases hc : copyValuestring cmd with
        | error f =>
          simp only [hb, hc]
          rfl
        | ok c =>
          cases hdir : getObjectItem json (str "dir") with
          | none =>
            simp only [hb, hc]
            rfl
          | some dir =>
            cases hd : copyValuestring dir with
            | error f =>
              simp only [hb, hc, hd]
              rfl
            | ok d =>
              cases hrun : getObjectItem json (str "is_running") <;>
              · simp only [hb, hc, hd]
                rfl

theorem parseSlot_res (l l' : ProcessList) (i : ℕ) (item : CJson) :
    (parseSlot l i item).map Prod.snd = (parseSlot l' i item).map Prod.snd := by
  have hslot : ∀ (l : ProcessList) (hi : i < listSize),
      (parseSlot l i item).map Prod.snd = (parseProcessCJson l[i] item).map Prod.snd := by
    intro l hi
    have hp : l[i]? = some l[i] := by simp
    rw [parseSlot, hp]
    cases h : parseProcessCJson l[i] item <;> simp only [h] <;> rfl
  by_cases hi : i < listSize
  · rw [hslot l hi, hslot l' hi]
    exact parseProcessCJson_res _ _ item
  · have hnone : ∀ l : ProcessList, l[i]? = none := fun l => by simp; omega
    rw [parseSlot, parseSlot, hnone l, hnone l']
    cases getObjectItem item (str "app_name") with
    | none => rfl
    | some name => cases hvalue : name.valuestring <;> simp only [hvalue]

theorem parseSlots_res (l l' : ProcessList) (i : ℕ) (items : List CJson) :
    (parseSlots l i items).map Prod.snd = (parseSlots l' i items).map Prod.snd := by
  induction items generalizing l l' i with
  | nil => rfl
  | cons item items ih =>
    have hres := parseSlot_res l l' i item
    rw [parseSlots, parseSlots]
    cases h : parseSlot l i item with
    | error f =>
      cases h' : parseSlot l' i item with
      | error f' =>
        rw [h, h'] at hres
        cases hres
        rfl
      | ok r' =>
        rw [h, h'] at hres
        cases hres
    | ok r =>
      cases h' : parseSlot l' i item with
      | error f' =>
        rw [h, h'] at hres
        cases hres
      | ok r' =>
        rw [h, h'] at hres
        -- both loops go on, or both end here
        have hsnd : r.2 = r'.2 := Except.ok.inj hres
        change (if r.2 = -1 then _ else _ : Except Fault _).map _ =
          (if r'.2 = -1 then _ else _ : Except Fault _).map _
        rw [hsnd]
        split
        · rfl
        · exact ih r.1 r'.1 (i + 1)

/-! ### What decoding leaves behind -/

/-- What is copied from the item is in the process already. -/
def Process.Holds (process : Process) (json : CJson) : Prop :=
  ∀ app b, getObjectItem json (str "app_name") = some app → copyValuestring app = .ok b →
    b = process.appName ∧
    ∀ cmd c, getObjectItem json (str "cmd") = some cmd → copyValuestring cmd = .ok c →
      c = process.cmd ∧
      ∀ dir d, getObjectItem json (str "dir") = some dir → copyValuestring dir = .ok d →
        d = process.dir ∧
        ∀ run, getObjectItem json (str "is_running") = some run → run.valueint = process.isRunning

/-- What is copied from the items, the first one into slot `i`, is in the list already. -/
def ProcessList.Holds (l : ProcessList) : ℕ → List CJson → Prop
  | _, [] => True
  | i, item :: items => ∀ process, l[i]? = some process →
      process.Holds item ∧ (Decodes item → l.Holds (i + 1) items)

/-- A field that is copied. -/
theorem holds_field {json item : CJson} {tag : Text} {b d : StrBuf} {P : Prop}
    (hitem : getObjectItem json tag = some item) (hcopy : copyValuestring item = .ok b) :
    (∀ item c, getObjectItem json tag = some item → copyValuestring item = .ok c → c = d ∧ P) ↔
      b = d ∧ P := by
  constructor
  · intro h
    exact h item b hitem hcopy
  · intro h item' c hitem' hcopy'
    obtain rfl := Option.some_inj.mp (hitem.symm.trans hitem')
    obtain rfl := Except.ok.inj (hcopy.symm.trans hcopy')
    exact h

theorem parseProcessCJson_keeps_iff {p q : Process} {json : CJson} {res : ℤ}
    (h : parseProcessCJson p json = .ok (q, res)) : q = p ↔ p.Holds json := by
  obtain ⟨appName, cmd, dir, pid, isRunning, id, memory, restartTimes, startTime⟩ := p
  unfold parseProcessCJson at h
  unfold Process.Holds
  -- decoding ends at the first field that is missing, and keeps what is behind it
  split at h
  · rename_i happ
    cases h
    exact iff_of_true rfl fun app b happ' => by simp [happ] at happ'
  rename_i app happ
  obtain ⟨b, hb, h⟩ := Slots.bind_eq_ok h
  rw [holds_field happ hb]
  split at h
  · rename_i hmissing
    cases h
    simp [hmissing]
  rename_i item hcmd
  obtain ⟨c, hc, h⟩ := Slots.bind_eq_ok h
  rw [holds_field hcmd hc]
  split at h
  · rename_i hmissing
    cases h
    simp [hmissing]
  rename_i item hdir
  obtain ⟨d, hd, h⟩ := Slots.bind_eq_ok h
  rw [holds_field hdir hd]
  split at h
  · rename_i hmissing
    cases h
    simp [hmissing]
  · rename_i run hrun
    cases h
    simp [hrun]

theorem parseProcessCJson_appName {p q : Process} {json : CJson} {res : ℤ}
    (h : parseProcessCJson p json = .ok (q, res)) :
    (getObjectItem json (str "app_name") = none ∧ q = p) ∨
      ∃ app, getObjectItem json (str "app_name") = some app ∧
        copyValuestring app = .ok q.appName := by
  unfold parseProcessCJson at h
  split at h
  · rename_i happ
    cases h
    exact Or.inl ⟨happ, rfl⟩
  rename_i app happ
  obtain ⟨b, hb, h⟩ := Slots.bind_eq_ok h
  have hname : q.appName = b := by
    split at h
    · cases h
      rfl
    obtain ⟨c, -, h⟩ := Slots.bind_eq_ok h
    split at h
    · cases h
      rfl
    obtain ⟨d, -, h⟩ := Slots.bind_eq_ok h
    split at h <;>
    · cases h
      rfl
  exact Or.inr ⟨app, happ, hname ▸ hb⟩

/-- A slot that is filled, or refused. -/
theorem parseSlot_ok {l l' : ProcessList} {i : ℕ} {item : CJson} {res : ℤ}
    (h : parseSlot l i item = .ok (l', res)) :
    (l[i]? = none ∧ l' = l ∧ res = -1) ∨ ∃ p q, l[i]? = some p ∧
      parseProcessCJson p item = .ok (q, res) ∧ l' = l.setIfInBounds i q := by
  unfold parseSlot at h
  split at h
  · rename_i p hp
    obtain ⟨⟨q, res'⟩, hq, h⟩ := Slots.bind_eq_ok h
    cases h
    exact Or.inr ⟨p, q, hp, hq, rfl⟩
  · rename_i hp
    split at h
    · cases h
      exact Or.inl ⟨hp, rfl, rfl⟩
    · split at h <;> cases h

/-- The slots before the first item stay as they are. -/
theorem parseSlots_before {l l' : ProcessList} {i : ℕ} {items : List CJson} {res : ℤ}
    (h : parseSlots l i items = .ok (l', res)) : ∀ k < i, l'[k]? = l[k]? := by
  induction items generalizing l i with
  | nil =>
    cases h
    exact fun _ _ => rfl
  | cons item items ih =>
    rw [parseSlots] at h
    obtain ⟨⟨l₁, res₁⟩, hslot, h⟩ := Slots.bind_eq_ok h
    have hfirst : ∀ k < i, l₁[k]? = l[k]? := by
      intro k hk
      rcases parseSlot_ok hslot with ⟨-, rfl, -⟩ | ⟨p, q, -, -, rfl⟩
      · rfl
      · rw [Vector.getElem?_setIfInBounds, if_neg (by omega)]
    intro k hk
    by_cases hres : res₁ = -1
    · simp only [hres, if_true] at h
      cases h
      exact hfirst k hk
    · simp only [hres, if_false] at h
      rw [ih h k (by omega), hfirst k hk]

/-- The first item stays as it is decoded. -/
theorem parseSlots_first {l l' : ProcessList} {i : ℕ} {p : Process} {item : CJson}
    {items : List CJson} {res : ℤ} (hp : l[i]? = some p)
    (h : parseSlots l i (item :: items) = .ok (l', res)) :
    ∃ q res', parseProcessCJson p item = .ok (q, res') ∧ l'[i]? = some q := by
  rw [parseSlots] at h
  obtain ⟨⟨l₁, res₁⟩, hslot, h⟩ := Slots.bind_eq_ok h
  rcases parseSlot_ok hslot with ⟨hnone, -, -⟩ | ⟨p', q, hp', hq, rfl⟩
  · rw [hp] at hnone
    cases hnone
  · obtain rfl := Option.some_inj.mp (hp.symm.trans hp')
    have hi : i < listSize := (Vector.getElem?_eq_some_iff.mp hp).1
    refine ⟨q, res₁, hq, ?_⟩
    by_cases hres : res₁ = -1
    · simp only [hres, if_true] at h
      cases h
      exact Vector.getElem?_setIfInBounds_self_of_lt hi
    · simp only [hres, if_false] at h
      rw [parseSlots_before h i (Nat.lt_succ_self i)]
      exact Vector.getElem?_setIfInBounds_self_of_lt hi

theorem setIfInBounds_eq_iff {l : ProcessList} {i : ℕ} {p q : Process} (hp : l[i]? = some p) :
    l.setIfInBounds i q = l ↔ q = p := by
  constructor
  · intro h
    have hi : i < listSize := (Vector.getElem?_eq_some_iff.mp hp).1
    have hget := congrArg (fun v : ProcessList => v[i]?) h
    simp only [Vector.getElem?_setIfInBounds_self_of_lt hi] at hget
    exact Option.some_inj.mp (hget.trans hp)
  · rintro rfl
    refine Vector.ext fun k hk => ?_
    rw [Vector.getElem_setIfInBounds]
    split
    · rename_i hik
      subst hik
      exact (Vector.getElem?_eq_some_iff.mp hp).2.symm
    · rfl

theorem parseSlots_keeps_iff {l l' : ProcessList} {i : ℕ} {items : List CJson}
    (h : parseSlots l i items = .ok (l', -1)) : l' = l ↔ l.Holds i items := by
  induction items generalizing l i with
  | nil =>
    -- the end of the array is no refusal
    cases h
  | cons item items ih =>
    rw [parseSlots] at h
    obtain ⟨⟨l₁, res⟩, hslot, h⟩ := Slots.bind_eq_ok h
    rw [ProcessList.Holds]
    rcases parseSlot_ok hslot with ⟨hp, rfl, rfl⟩ | ⟨p, q, hp, hq, rfl⟩
    · cases h
      exact iff_of_true rfl fun process hprocess => by simp [hp] at hprocess
    · have hkeeps := parseProcessCJson_keeps_iff hq
      have hforall : ∀ {P : Process → Prop}, (∀ process, l[i]? = some process → P process) ↔ P p :=
        ⟨fun hP => hP p hp, fun hP process h' => Option.some_inj.mp (hp.symm.trans h') ▸ hP⟩
      rw [hforall]
      -- the item is complete, or it is the one that is refused
      rcases parseProcessCJson_cases p item with ⟨hd, r, hr⟩ | ⟨hd, ⟨r, hr⟩ | ⟨f, -, hr⟩⟩
      · obtain ⟨rfl, rfl⟩ := Prod.mk.inj (Except.ok.inj (hq.symm.trans hr))
        have hrest : parseSlots (l.setIfInBounds i q) (i + 1) items = .ok (l', -1) := h
        have hi : i < listSize := (Vector.getElem?_eq_some_iff.mp hp).1
        constructor
        · -- the later items leave this slot as the first one has left it
          rintro rfl
          have hslot := parseSlots_before hrest i (Nat.lt_succ_self i)
          rw [hp, Vector.getElem?_setIfInBounds_self_of_lt hi] at hslot
          obtain rfl : p = q := Option.some_inj.mp hslot
          have hsame := (setIfInBounds_eq_iff hp).mpr rfl
          rw [hsame] at hrest
          exact ⟨hkeeps.mp rfl, fun _ => (ih hrest).mp rfl⟩
        · rintro ⟨hholds, hitems⟩
          have hsame := (setIfInBounds_eq_iff hp).mpr (hkeeps.mpr hholds)
          rw [hsame] at hrest
          exact (ih hrest).mpr (hitems hd)
      · obtain ⟨rfl, rfl⟩ := Prod.mk.inj (Except.ok.inj (hq.symm.trans hr))
        cases h
        rw [setIfInBounds_eq_iff hp, hkeeps]
        exact (and_iff_left fun hd' => absurd hd' hd).symm
      · rw [hq] at hr
        cases hr

/-! ### Configs -/

/-- The items of a config. -/
def items (json : CJson) : List CJson := json.children.map Prod.snd

/-- Whether a config is refused does not depend on the list. -/
theorem parseProcessList_refused {l l' : ProcessList} {text : Text} (source : ProcessList)
    (h : parseProcessList l text = .ok (l', -1)) :
    ∃ loaded, parseProcessList source text = .ok (loaded, -1) := by
  rcases parseProcessList_ok h with ⟨hjson, -, -⟩ | ⟨json, hjson, h⟩
  · exact ⟨source, by simp only [parseProcessList, hjson]⟩
  · have hres := parseSlots_res l source 0 (json.children.map Prod.snd)
    rw [h] at hres
    simp only [parseProcessList, hjson]
    cases hparse : parseSlots source 0 (json.children.map Prod.snd) with
    | error f =>
      rw [hparse] at hres
      cases hres
    | ok r =>
      rw [hparse] at hres
      exact ⟨r.1, congrArg Except.ok (Prod.ext rfl (Except.ok.inj hres).symm)⟩

/-- The name that is the first thing a config copies. -/
def FirstName (text : Text) (b : StrBuf) : Prop :=
  ∃ json item rest app, cJsonParse text = .ok (some json) ∧ items json = item :: rest ∧
    getObjectItem item (str "app_name") = some app ∧ copyValuestring app = .ok b

theorem parseProcessList_keeps_iff {l l' : ProcessList} {text : Text}
    (h : parseProcessList l text = .ok (l', -1)) :
    l' = l ↔ ∀ json, cJsonParse text = .ok (some json) → l.Holds 0 (items json) := by
  rcases parseProcessList_ok h with ⟨hjson, rfl, -⟩ | ⟨json, hjson, h⟩
  · rw [hjson]
    exact iff_of_true rfl (by simp)
  · simp only [hjson, Except.ok.injEq, Option.some.injEq, forall_eq']
    exact parseSlots_keeps_iff h

theorem count_zero_iff (l : ProcessList) :
    getProcessListCount l = 0 ↔ ∀ p, l[0]? = some p → p.appName = .empty := by
  constructor
  · intro h p hp
    rw [← h] at hp
    exact unnamed_count hp
  · exact count_eq (Nat.zero_le _) fun k p hk => absurd hk (Nat.not_lt_zero k)

/-- The first slot, when a config for the zeroed list is refused. -/
theorem refused_count_iff {loaded : ProcessList} {text : Text}
    (h : parseProcessList .zero text = .ok (loaded, -1)) :
    getProcessListCount loaded = 0 ↔ ∀ b, FirstName text b → b = .empty := by
  rcases parseProcessList_ok h with ⟨hjson, rfl, -⟩ | ⟨json, hjson, h⟩
  · refine iff_of_true ((count_zero_iff _).mpr fun p hp => zero_get hp ▸ rfl) ?_
    rintro b ⟨json, item, rest, app, hjson', -⟩
    rw [hjson] at hjson'
    cases hjson'
  · replace h : parseSlots .zero 0 (items json) = .ok (loaded, -1) := h
    cases hitems : items json with
    | nil =>
      rw [hitems] at h
      cases h
    | cons item rest =>
      rw [hitems] at h
      -- the count is zero exactly if the first slot has no name
      obtain ⟨q, res, hq, hget⟩ := parseSlots_first (zero_slot (by decide)) h
      have hcount : getProcessListCount loaded = 0 ↔ q.appName = .empty := by
        rw [count_zero_iff, hget]
        simp
      rw [hcount]
      rcases parseProcessCJson_appName hq with ⟨hmissing, rfl⟩ | ⟨app, happ, hcopy⟩
      · refine iff_of_true rfl ?_
        rintro b ⟨json', item', rest', app, hjson', hitems', happ, -⟩
        obtain rfl := Option.some_inj.mp (Except.ok.inj (hjson.symm.trans hjson'))
        obtain ⟨rfl, rfl⟩ := List.cons.inj (hitems.symm.trans hitems')
        rw [hmissing] at happ
        cases happ
      · constructor
        · rintro hname b ⟨json', item', rest', app', hjson', hitems', happ', hcopy'⟩
          obtain rfl := Option.some_inj.mp (Except.ok.inj (hjson.symm.trans hjson'))
          obtain ⟨rfl, rfl⟩ := List.cons.inj (hitems.symm.trans hitems')
          obtain rfl := Option.some_inj.mp (happ.symm.trans happ')
          rw [hcopy] at hcopy'
          rw [← Except.ok.inj hcopy', hname]
        · intro hfirst
          exact hfirst _ ⟨json, item, rest, app, hjson, hitems, happ, hcopy⟩

/-- A config that is refused leaves a list as it was exactly if all that it copies is there already,
and every list exactly if it copies nothing.  The service that is starting then has an empty list by
both notions of length exactly if no name is copied into its first slot. -/
theorem refused_keeps_iff {processList loaded : ProcessList} {text : Text}
    (h : parseProcessList processList text = .ok (loaded, -1)) :
    (loaded = processList ↔ ∀ json, cJsonParse text = .ok (some json) →
      processList.Holds 0 (items json)) ∧
    ((∀ l l', parseProcessList l text = .ok (l', -1) → l' = l) ↔ ∀ b, ¬FirstName text b) ∧
    (processList = .zero →
      (getProcessListCount loaded = 0 ↔ ∀ b, FirstName text b → b = .empty) ∧
      (getProcessListCount loaded = 0 → saveProcessList loaded = .ok (str "[]")) ∧
      ∀ content junk, content.take bufferSize ≠ [] → text = content.take bufferSize ++ junk →
        serviceLoad (some content) junk = .ok (loaded, 0)) := by
  refine ⟨parseProcessList_keeps_iff h, ⟨fun hkeeps b hfirst => ?_, fun hfirst l l' hl => ?_⟩, ?_⟩
  · -- a list with another name in its first slot
    obtain ⟨json, item, rest, app, hjson, hitems, happ, hcopy⟩ := hfirst
    obtain ⟨q, hq⟩ : ∃ q : Process, b ≠ q.appName := by
      by_cases hb : b = Process.web.appName
      · exact ⟨.api, by rw [hb]; decide⟩
      · exact ⟨.web, hb⟩
    set source := ProcessList.zero.setIfInBounds 0 q with hsource
    have hget : source[0]? = some q := Vector.getElem?_setIfInBounds_self_of_lt (by decide)
    obtain ⟨changed, hchanged⟩ := parseProcessList_refused source h
    have hholds := (parseProcessList_keeps_iff hchanged).mp (hkeeps _ _ hchanged) json hjson
    rw [hitems] at hholds
    exact hq ((hholds q hget).1 app b happ hcopy).1
  · -- without a first name nothing is copied, and the first item is the one that is refused
    refine (parseProcessList_keeps_iff hl).mpr fun json hjson => ?_
    cases hitems : items json with
    | nil => trivial
    | cons item rest =>
      have hnone : ∀ app b, getObjectItem item (str "app_name") = some app →
          copyValuestring app ≠ .ok b := fun app b happ hcopy =>
        hfirst b ⟨json, item, rest, app, hjson, hitems, happ, hcopy⟩
      intro process hp
      refine ⟨fun app b happ hcopy => absurd hcopy (hnone app b happ), fun hd => ?_⟩
      obtain ⟨app, b, happ, hcopy⟩ := hd.fields (str "app_name") (by simp)
      exact absurd hcopy (hnone app b happ)
  · rintro rfl
    refine ⟨refused_count_iff h, fun hcount => ?_, ?_⟩
    · rw [saveProcessList, hcount]
      rfl
    · rintro content junk hcontent rfl
      rw [serviceLoad, parseProcessListFromPath, if_neg (by simpa using hcontent), h]
      rfl

/-- Of an item without fields nothing is copied. -/
theorem parseSlot_nameless {processList : ProcessList} {i : ℕ} {process : Process}
    (hi : processList[i]? = some process) :
    parseSlot processList i (.object []) = .ok (processList, -1) := by
  have hrefused : parseProcessCJson process (.object []) = .ok (process, -1) := rfl
  simp only [parseSlot, hi, hrefused]
  exact congrArg (fun l => Except.ok (l, -1)) ((setIfInBounds_eq_iff hi).mpr rfl)

/-- The first item has no name, and the second one is complete. -/
def namelessConfig : Text := cJsonPrint (.array [.object [], createProcessCJson .web])

theorem refused_keeps_iff_nameless :
    parseProcessList .zero namelessConfig = .ok (.zero, -1) ∧
      (∀ l l', parseProcessList l namelessConfig = .ok (l', -1) → l' = l) ∧
      serviceLoad (some namelessConfig) [] = .ok (.zero, 0) ∧
      saveProcessList .zero = .ok (str "[]") := by
  have hprint : Printable (.array [.object [], createProcessCJson .web]) :=
    ⟨trivial, printable_createProcessCJson _, trivial⟩
  have hparse : cJsonParse namelessConfig =
      .ok (some (.array [.object [], createProcessCJson .web])) := by
    rw [← List.append_nil namelessConfig]
    exact cJsonParse_print hprint (Or.inl ⟨_, rfl⟩) []
  have hrefused : parseProcessList .zero namelessConfig = .ok (.zero, -1) := by
    rw [← List.append_nil namelessConfig, namelessConfig, parseProcessList_array hprint]
    exact parseSlots_refused (parseSlot_nameless (zero_slot (by decide)))
  obtain ⟨-, hkeeps, hzero⟩ := refused_keeps_iff hrefused
  obtain ⟨hcount, hsaved, hload⟩ := hzero rfl
  have hnone : ∀ b, ¬FirstName namelessConfig b := by
    rintro b ⟨json, item, rest, app, hjson, hitems, happ, -⟩
    obtain rfl := Option.some_inj.mp (Except.ok.inj (hjson.symm.trans hparse))
    obtain ⟨rfl, -⟩ := List.cons.inj hitems
    cases happ
  refine ⟨hrefused, hkeeps.mpr hnone, ?_, hsaved (hcount.mpr fun b hb => absurd hb (hnone b))⟩
  exact hload namelessConfig [] (by decide +kernel) (by decide +kernel)

/-- The first item is complete, and the second one has no name. -/
def brokenConfig : Text := cJsonPrint (.array [createProcessCJson .web, .object []])

theorem brokenConfig_refused :
    parseProcessList .zero brokenConfig = .ok (webList, -1) ∧ webList ≠ .zero ∧
      serviceLoad (some brokenConfig) [] = .ok (webList, 0) ∧
      getProcessListCount webList = 1 ∧ saveProcessList webList = .ok webConfig := by
  have hprint : Printable (.array [createProcessCJson .web, .object []]) :=
    ⟨printable_createProcessCJson _, trivial, trivial⟩
  obtain ⟨hweb, hnext⟩ := webList_slots
  have hparse : parseProcessList .zero brokenConfig = .ok (webList, -1) := by
    rw [← List.append_nil brokenConfig, brokenConfig, parseProcessList_array hprint,
      parseSlots_cons hweb]
    exact parseSlots_refused (parseSlot_nameless hnext)
  have hcount : getProcessListCount ProcessList.zero = 0 := by decide +kernel
  refine ⟨hparse, fun heq => ?_, ?_, webList_count, webList_saved⟩
  · have hone := webList_count
    rw [heq, hcount] at hone
    cases hone
  · rw [serviceLoad, parseProcessListFromPath_fits (by decide +kernel) (by decide +kernel),
      List.append_nil, hparse]
    rfl

end KbPm
