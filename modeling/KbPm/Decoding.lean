/-
When the decoder ends.

* `Typed`, `parseProcessCJson_ok` — an object is decoded or refused exactly if the fields
  that decoding comes to are strings that fit;
* `TypedItems`, `parseSlots_ok_iff` — so are the items of a config, one by one, and
  those without a slot are not to have a name;
* `decoding_iff` — texts are decoded or refused if besides the parser breaks no block,
  for requests and configs; otherwise they end the service.
-/
import KbPm.Length
import KbPm.Load

namespace KbPm

open Trace

/-! ### Fields that are no strings -/

/-- Of the fields, those that decoding comes to are strings that fit: it ends at one that is
missing. -/
def TypedFields (json : CJson) : List Text → Prop
  | [] => True
  | tag :: tags => ∀ item, getObjectItem json tag = some item →
      (∃ s, item.valuestring = some s ∧ (cstr s).length < strBufferSize) ∧ TypedFields json tags

def Typed (json : CJson) : Prop := TypedFields json [str "app_name", str "cmd", str "dir"]

theorem copyValuestring_ok_iff {item : CJson} :
    (∃ b, copyValuestring item = .ok b) ↔
      ∃ s, item.valuestring = some s ∧ (cstr s).length < strBufferSize := by
  unfold copyValuestring
  cases hs : item.valuestring with
  | none => simp
  | some s =>
    simp only [Option.some.injEq, exists_eq_left']
    rw [strcpy]
    split
    · exact iff_of_true ⟨_, rfl⟩ (by assumption)
    · exact iff_of_false (by simp) (by assumption)

/-- One field of `parse_process_cJSON`: it is missing, not copied, or copied. -/
theorem field_ok {β : Type} {json : CJson} {tag : Text} {tags : List Text} {e : Except Fault β}
    (hmissing : getObjectItem json tag = none → ∃ r, e = .ok r)
    (herror : ∀ item f, getObjectItem json tag = some item → copyValuestring item = .error f →
      e = .error f)
    (hrest : ∀ item b, getObjectItem json tag = some item → copyValuestring item = .ok b →
      ((∃ r, e = .ok r) ↔ TypedFields json tags)) :
    (∃ r, e = .ok r) ↔ TypedFields json (tag :: tags) := by
  rw [TypedFields]
  cases hitem : getObjectItem json tag with
  | none => exact iff_of_true (hmissing hitem) (by simp)
  | some item =>
    simp only [Option.some.injEq, forall_eq', ← copyValuestring_ok_iff]
    cases hcopy : copyValuestring item with
    | error f =>
      rw [herror item f hitem hcopy]
      simp
    | ok b =>
      rw [hrest item b hitem hcopy]
      simp

theorem parseProcessCJson_ok (process : Process) (json : CJson) :
    (∃ r, parseProcessCJson process json = .ok r) ↔ Typed json := by
  unfold parseProcessCJson
  -- each field in turn: behind the last one nothing is copied
  refine field_ok (fun h => ?_) (fun item f h hc => ?_) fun app b happ hb => ?_
  · simp only [h]
    exact ⟨_, rfl⟩
  · simp only [h, hc]
    rfl
  refine field_ok (fun h => ?_) (fun item f h hc => ?_) fun cmd c hcmd hc => ?_
  · simp only [happ, hb, h]
    exact ⟨_, rfl⟩
  · simp only [happ, hb, h, hc]
    rfl
  refine field_ok (fun h => ?_) (fun item f h hd => ?_) fun dir d hdir hd => ?_
  · simp only [happ, hb, hcmd, hc, h]
    exact ⟨_, rfl⟩
  · simp only [happ, hb, hcmd, hc, h, hd]
    rfl
  refine iff_of_true ?_ trivial
  simp only [happ, hb, hcmd, hc, hdir, hd]
  cases getObjectItem json (str "is_running") <;> exact ⟨_, rfl⟩

/-! Items of a config, with `room` slots for them.  Behind the last slot an item is refused if it
has no name, and otherwise it is copied to where no slot is. -/

def TypedItems : ℕ → List CJson → Prop
  | _, [] => True
  | 0, item :: _ => getObjectItem item (str "app_name") = none
  | room + 1, item :: items => Typed item ∧ (Decodes item → TypedItems room items)

theorem parseSlot_ok_iff {l : ProcessList} {i : ℕ} (hi : i < listSize) (item : CJson) :
    (∃ r, parseSlot l i item = .ok r) ↔ Typed item := by
  have hp : l[i]? = some l[i] := by simp
  rw [← parseProcessCJson_ok l[i] item, parseSlot, hp]
  cases h : parseProcessCJson l[i] item with
  | error f =>
    simp only [h]
    change (∃ r, Except.error f = _) ↔ _
    simp
  | ok r =>
    simp only [h]
    exact iff_of_true ⟨_, rfl⟩ ⟨_, rfl⟩

theorem parseSlot_ok_behind (l : ProcessList) (item : CJson) :
    (∃ r, parseSlot l listSize item = .ok r) ↔ getObjectItem item (str "app_name") = none := by
  have hp : l[listSize]? = none := by simp
  rw [parseSlot, hp]
  cases hname : getObjectItem item (str "app_name") with
  | none => simp
  | some name => cases hvalue : name.valuestring <;> simp [hvalue]

theorem parseSlots_ok_iff {l : ProcessList} {i : ℕ} (hi : i ≤ listSize) (items : List CJson) :
    (∃ r, parseSlots l i items = .ok r) ↔ TypedItems (listSize - i) items := by
  induction items generalizing l i with
  | nil => exact iff_of_true ⟨_, rfl⟩ (by cases listSize - i <;> trivial)
  | cons item items ih =>
    rcases Nat.eq_or_lt_of_le hi with rfl | hlt
    · -- the item has no slot
      have hbehind : (∃ r, parseSlots l listSize (item :: items) = .ok r) ↔
          ∃ r, parseSlot l listSize item = .ok r := by
        rcases parseSlot_behind l item with ⟨-, h⟩ | ⟨-, h | h⟩
        · rw [parseSlots_error h, h]
        · rw [parseSlots_refused h, h]
        · rw [parseSlots_error h, h]
      rw [hbehind, parseSlot_ok_behind, Nat.sub_self, TypedItems]
    · -- the item is decoded, refused, or ends the service
      obtain ⟨room, hroom⟩ : ∃ room, listSize - i = room + 1 := ⟨listSize - i - 1, by omega⟩
      have hrest : listSize - (i + 1) = room := by omega
      rw [hroom, TypedItems, ← parseSlot_ok_iff (l := l) hlt]
      rcases parseSlot_inside (l := l) hlt item with ⟨hd, l', h⟩ | ⟨hd, ⟨l', h⟩ | ⟨f, hf, h⟩⟩
      · rw [parseSlots_cons h, ih (by omega), hrest, h]
        simp [hd]
      · rw [parseSlots_refused h, h]
        simp [hd]
      · rw [parseSlots_error h, h]
        simp

/-! ### Texts -/

/-- The parser breaks no block on the text, and if it is JSON the fields are strings that fit. -/
def TypedText (text : Text) : Prop :=
  ∃ parsed, cJsonParse text = .ok parsed ∧ ∀ json, parsed = some json → Typed json

/-- So it is for the items of a config. -/
def TypedConfig (text : Text) : Prop :=
  ∃ parsed, cJsonParse text = .ok parsed ∧
    ∀ json, parsed = some json → TypedItems listSize (json.children.map Prod.snd)

theorem parseProcess_ok_iff (process : Process) (text : Text) :
    (∃ r, parseProcess process text = .ok r) ↔ TypedText text := by
  unfold parseProcess TypedText
  rcases cJsonParse text with f | _ | json
  · simp
  · simp
  · simp only [Except.ok.injEq, exists_eq_left', Option.some.injEq, forall_eq']
    exact parseProcessCJson_ok process json

theorem parseProcessList_ok_iff (processList : ProcessList) (text : Text) :
    (∃ r, parseProcessList processList text = .ok r) ↔ TypedConfig text := by
  unfold parseProcessList TypedConfig
  rcases cJsonParse text with f | _ | json
  · simp
  · simp
  · simp only [Except.ok.injEq, exists_eq_left', Option.some.injEq, forall_eq']
    exact parseSlots_ok_iff (Nat.zero_le _) _

/-- What is not refused has all fields. -/
theorem parseProcess_decodes {process q : Process} {text : Text} {res : ℤ}
    (h : parseProcess process text = .ok (q, res)) (hres : res ≠ -1) :
    ∃ json, cJsonParse text = .ok (some json) ∧ Decodes json := by
  unfold parseProcess at h
  split at h
  · cases h
  · cases h
    exact absurd rfl hres
  · rename_i json hjson
    refine ⟨json, hjson, ?_⟩
    rcases parseProcessCJson_cases process json with ⟨hd, -⟩ | ⟨-, ⟨p, hp⟩ | ⟨f, -, hp⟩⟩
    · exact hd
    · rw [hp] at h
      cases h
      exact absurd rfl hres
    · rw [hp] at h
      cases h

theorem parseSlots_decodes {l l' : ProcessList} {i : ℕ} {items : List CJson} {res : ℤ}
    (hi : i ≤ listSize) (h : parseSlots l i items = .ok (l', res)) (hres : res ≠ -1) :
    ∀ item ∈ items, Decodes item := by
  induction items generalizing l i with
  | nil => simp
  | cons item items ih =>
    have hrefused : ∀ {a}, parseSlot l i item ≠ .ok (a, -1) := by
      intro a ha
      rw [parseSlots_refused ha] at h
      cases h
      exact hres rfl
    have herror : ∀ {f}, parseSlot l i item ≠ .error f := by
      intro f hf
      rw [parseSlots_error hf] at h
      cases h
    -- behind the last slot nothing is decoded
    rcases Nat.eq_or_lt_of_le hi with rfl | hlt
    · rcases parseSlot_behind l item with ⟨-, hs⟩ | ⟨-, hs | hs⟩
      · exact absurd hs herror
      · exact absurd hs hrefused
      · exact absurd hs herror
    · rcases parseSlot_inside (l := l) hlt item with ⟨hd, a, hs⟩ | ⟨-, ⟨a, hs⟩ | ⟨f, -, hs⟩⟩
      · rw [parseSlots_cons hs] at h
        intro x hx
        rcases List.mem_cons.mp hx with rfl | hx
        · exact hd
        · exact ih (by omega) h x hx
      · exact absurd hs hrefused
      · exact absurd hs herror

/-! ### Requests -/

/-- The commands that have an operand. -/
def Command.HasOperand : Command → Prop
  | .start => True
  | .stop => True
  | .restart => True
  | .remove => True
  | _ => False

instance : DecidablePred Command.HasOperand := fun command =>
  match command with
  | .start => .isTrue trivial
  | .stop => .isTrue trivial
  | .restart => .isTrue trivial
  | .remove => .isTrue trivial
  | .startall => .isFalse id
  | .stopall => .isFalse id
  | .status => .isFalse id
  | .ping => .isFalse id
  | .error => .isFalse id

section Requests

variable {s : Server} {request : Request}

/-- An operand is decoded only if it is no id and no listed name. -/
theorem parse_ok_iff (hn : s.processCount ≤ listSize) (buffer : Text) :
    (∃ r, parseProcessAndProcessType s.processList s.processCount buffer = .ok r) ↔
      (s.lookup buffer = none → TypedText buffer) := by
  cases hk : s.lookup buffer with
  | some k =>
    obtain ⟨type, p, -, -, -, hparse⟩ := parse_listed hn hk
    exact iff_of_true ⟨_, hparse⟩ (by simp)
  | none =>
    simp only [parse_unlisted hn hk, ← parseProcess_ok_iff .zero buffer, true_implies]
    cases parseProcess .zero buffer with
    | error f => exact iff_of_false (by rintro ⟨r, hr⟩; cases hr) (by simp)
    | ok r => exact iff_of_true ⟨_, rfl⟩ ⟨_, rfl⟩

theorem plan_operand {command : Command} (hcommand : command.HasOperand)
    (hread : readCommand (s.commandBuffer request) = command) :
    s.plan request = s.operandOps command (s.operandBuffer request) := by
  unfold Server.plan
  rw [hread]
  cases command <;> first | rfl | exact hcommand.elim

/-- An operand that does not decode ends the service, before anything is done. -/
theorem serve_undecoded (hn : s.processCount ≤ listSize)
    (hcommand : (readCommand (s.commandBuffer request)).HasOperand) {f : Fault}
    (hparse : parseProcessAndProcessType s.processList s.processCount (s.operandBuffer request) =
      .error f) : ∃ t, serve request s = .error f t := by
  have hplan : s.plan request = .error f := by
    rw [plan_operand hcommand rfl, Server.operandOps, Server.operand, hparse]
    rfl
  have hperforms := handleRequest_performs hn request
  cases hhandle : handleRequest request s with
  | ok response u =>
    obtain ⟨ops, -, hops⟩ := hperforms.ok hhandle
    rw [hplan] at hops
    cases hops
  | error f' u =>
    obtain ⟨ops, v, -, hbreaks⟩ := hperforms.error hhandle
    rw [hplan] at hbreaks
    cases hbreaks with
    | operand hf =>
      cases hf
      exact ⟨_, by rw [serve, bind_error hhandle]⟩
    | op hf => cases hf
    | text hf => cases hf

/-- No operation ends in the decoder. -/
theorem Fails.decoder {t : Server} {op : Op} {f : Fault} (h : Fails s op f t) :
    f ≠ .nullString ∧ f ≠ .heap := by
  cases h with
  | remove hdel =>
    obtain ⟨-, rfl⟩ := delProcessByAppName_error hdel
    exact ⟨by simp, by simp⟩
  | note hp hs =>
    rcases createProcessCJsonWithStatus_error hs with rfl | rfl | rfl <;>
      exact ⟨by simp, by simp⟩
  | stop hk hp hrun hkill =>
    rcases Walk.kill_error hkill with rfl | rfl | rfl | ⟨rfl, -⟩ <;> exact ⟨by simp, by simp⟩
  | _ => exact ⟨by simp, by simp⟩

/-- And a service that ends there has not decoded an operand. -/
theorem serve_decoder {t : Server} {f : Fault} (hn : s.processCount ≤ listSize)
    (h : serve request s = .error f t) (hf : f = .nullString ∨ f = .heap) :
    (readCommand (s.commandBuffer request)).HasOperand ∧
      parseProcessAndProcessType s.processList s.processCount (s.operandBuffer request) =
        .error f := by
  rcases serve_error h with hhandle | ⟨response, u, -, hsave, -⟩
  · obtain ⟨ops, u, -, hbreaks⟩ := (handleRequest_performs hn request).error hhandle
    cases hbreaks with
    | operand hplan =>
      have hoperand : ∀ {command : Command}, command.HasOperand →
          readCommand (s.commandBuffer request) = command →
          parseProcessAndProcessType s.processList s.processCount (s.operandBuffer request) =
            .error f := by
        intro command hcommand hread
        rw [plan_operand hcommand hread, Server.operandOps] at hplan
        cases resolves hn (s.operandBuffer request) with
        | listed _ _ _ _ ho =>
          rw [ho] at hplan
          cases hplan
        | decoded _ _ _ ho =>
          rw [ho] at hplan
          cases hplan
        | unknown _ ho =>
          rw [ho] at hplan
          cases hplan
        | fault hparse _ ho =>
          rw [ho] at hplan
          cases hplan
          exact hparse
      cases hread : readCommand (s.commandBuffer request) with
      | start => exact ⟨trivial, @hoperand .start trivial hread⟩
      | stop => exact ⟨trivial, @hoperand .stop trivial hread⟩
      | restart => exact ⟨trivial, @hoperand .restart trivial hread⟩
      | remove => exact ⟨trivial, @hoperand .remove trivial hread⟩
      | _ =>
        unfold Server.plan at hplan
        rw [hread] at hplan
        cases hplan
    | op hplan hfails => exact (hf.elim hfails.decoder.1 hfails.decoder.2).elim
    | text hplan => rcases hf with h | h <;> cases h
  · obtain rfl := saveProcessList_error hsave
    rcases hf with h | h <;> cases h

end Requests

/-- Texts are decoded or refused, and what is decoded has all fields, exactly if the parser breaks
no block and decoding comes to no field that is not a string or does not fit, nor to a name without
a slot; of a request this is asked of an operand that is no id and no listed name, and otherwise
the service ends. -/
theorem decoding_iff {s : Server} (hn : s.processCount ≤ listSize) (request : Request)
    (answers : Answers) (process : Process) (processList : ProcessList) (text : Text) :
    ((∃ r, parseProcess process text = .ok r) ↔ TypedText text) ∧
    (∀ q res, parseProcess process text = .ok (q, res) → res = -1 ∨
      ∃ json, cJsonParse text = .ok (some json) ∧ Decodes json) ∧
    ((∃ r, parseProcessList processList text = .ok r) ↔ TypedConfig text) ∧
    (∀ loaded res, parseProcessList processList text = .ok (loaded, res) → res = -1 ∨
      ∃ json, cJsonParse text = .ok (some json) ∧
        ∀ item ∈ json.children.map Prod.snd, Decodes item) ∧
    ((readCommand (s.commandBuffer request)).HasOperand →
      ((∃ r, parseProcessAndProcessType s.processList s.processCount (s.operandBuffer request) =
          .ok r) ↔ (s.lookup (s.operandBuffer request) = none →
        TypedText (s.operandBuffer request))) ∧
      ∀ f, parseProcessAndProcessType s.processList s.processCount (s.operandBuffer request) =
        .error f → ∃ t, serve request (s.asked answers) = .error f t) ∧
    ∀ f t, serve request (s.asked answers) = .error f t → f = .nullString ∨ f = .heap →
      (readCommand (s.commandBuffer request)).HasOperand ∧
        parseProcessAndProcessType s.processList s.processCount (s.operandBuffer request) =
          .error f := by
  refine ⟨parseProcess_ok_iff process text, fun q res h => ?_, parseProcessList_ok_iff _ _,
    fun loaded res h => ?_, fun hcommand => ⟨parse_ok_iff hn _, fun f hparse => ?_⟩,
    fun f t h hf => ?_⟩
  · by_cases hres : res = -1
    · exact Or.inl hres
    · exact Or.inr (parseProcess_decodes h hres)
  · by_cases hres : res = -1
    · exact Or.inl hres
    · rcases parseProcessList_ok h with ⟨-, -, hrefused⟩ | ⟨json, hjson, hslots⟩
      · exact absurd hrefused hres
      · exact Or.inr ⟨json, hjson, parseSlots_decodes (Nat.zero_le _) hslots hres⟩
  · exact serve_undecoded (s := s.asked answers) hn hcommand hparse
  · exact serve_decoder (s := s.asked answers) hn h hf

/-- The operand is JSON with all fields, and the config is refused. -/
theorem decoding_iff_web :
    TypedText (Server.empty.operandBuffer (startCall .web 7).1) ∧
      TypedConfig (str "[\x7b\x7d]") := by
  have hdecoded : (parseProcess .zero (Server.empty.operandBuffer (startCall .web 7).1)).map
      Prod.snd = .ok 0 := by decide +kernel
  have hrefused : (parseProcessList .zero (str "[\x7b\x7d]")).map Prod.snd = .ok (-1) := by
    decide +kernel
  have hiff := fun text => decoding_iff (s := .empty) (Nat.zero_le _) (startCall .web 7).1
    (startCall .web 7).2 .zero .zero text
  refine ⟨(hiff _).1.mp ?_, (hiff _).2.2.1.mp ?_⟩
  · cases h : parseProcess .zero (Server.empty.operandBuffer (startCall .web 7).1) with
    | error f =>
      rw [h] at hdecoded
      cases hdecoded
    | ok r => exact ⟨r, rfl⟩
  · cases h : parseProcessList .zero (str "[\x7b\x7d]") with
    | error f =>
      rw [h] at hrefused
      cases hrefused
    | ok r => exact ⟨r, rfl⟩

/-- An app whose name is a number. -/
def numberName : Text := str "\x7b\"app_name\":1\x7d"

/-- A name with an escape that lacks two digits: the quote behind it is skipped. -/
def cutEscape : Text :=
  str "\x7b\"app_name\":\"\\u12\",AAAAAAAAAAAAAAAAAAAAAAAAAAAAAA\",\"cmd\":\"x\",\"dir\":\"y\"\x7d"

theorem numberName_null :
    (∃ t, serve ⟨str "start", numberName⟩ .empty = .error .nullString t) ∧
      parseProcessList .zero (lbracket :: numberName ++ [rbracket]) = .error .nullString ∧
      ∃ t, serve ⟨str "start", cutEscape⟩ .empty = .error .heap t := by
  refine ⟨?_, by decide +kernel, ?_⟩
  · exact serve_undecoded (s := .empty) (Nat.zero_le _) (by decide +kernel) (by decide +kernel)
  · exact serve_undecoded (s := .empty) (Nat.zero_le _) (by decide +kernel) (by decide +kernel)

end KbPm
