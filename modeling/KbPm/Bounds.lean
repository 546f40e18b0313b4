/-
The slots that are touched.

* `parseProcessCJson_cases` — an item is decoded, or it is refused or ends the
  service, and which of them does not depend on the slot it is for;
* `parseSlots_index` — a config touches the slot behind the array exactly if it
  has an item for it and every item before that is decoded;
* `handleRequest_index` — so does a request only if it appends to, or deletes
  from, a list without a free slot;
* `index_inside` — the two together, over runs of requests and all configs.
-/
import KbPm.CJsonBlocks
import KbPm.Entries
import KbPm.ProcessText

namespace KbPm

open Trace

/-! ### Configs -/

/-- The fields of a process are there, and the strings fit. -/
structure Decodes (json : CJson) : Prop where
  fields : ∀ tag ∈ [str "app_name", str "cmd", str "dir"],
    ∃ item b, getObjectItem json tag = some item ∧ copyValuestring item = .ok b
  running : ∃ item, getObjectItem json (str "is_running") = some item

theorem copyValuestring_error {item : CJson} {f : Fault} (h : copyValuestring item = .error f) :
    f = .nullString ∨ f = .overflow := by
  unfold copyValuestring at h
  split at h
  · cases h
    exact Or.inl rfl
  · rw [strcpy] at h
    split at h
    · cases h
    · cases h
      exact Or.inr rfl

theorem parseProcessCJson_cases (process : Process) (json : CJson) :
    (Decodes json ∧ ∃ p, parseProcessCJson process json = .ok (p, 0)) ∨
      (¬Decodes json ∧ ((∃ p, parseProcessCJson process json = .ok (p, -1)) ∨
        ∃ f, (f = .nullString ∨ f = .overflow) ∧ parseProcessCJson process json = .error f)) := by
  -- a field that is missing or is not copied
  have hmissing : ∀ tag ∈ [str "app_name", str "cmd", str "dir"],
      getObjectItem json tag = none → ¬Decodes json := by
    rintro tag htag hnone ⟨hfields, -⟩
    obtain ⟨item, b, hitem, -⟩ := hfields tag htag
    rw [hnone] at hitem
    cases hitem
  have hrefused : ∀ tag ∈ [str "app_name", str "cmd", str "dir"], ∀ item f,
      getObjectItem json tag = some item → copyValuestring item = .error f → ¬Decodes json := by
    rintro tag htag item f hsome herror ⟨hfields, -⟩
    obtain ⟨item', b, hitem, hcopy⟩ := hfields tag htag
    obtain rfl := Option.some_inj.mp (hsome.symm.trans hitem)
    rw [herror] at hcopy
    cases hcopy
  unfold parseProcessCJson
  cases happ : getObjectItem json (str "app_name") with
  | none => exact Or.inr ⟨hmissing _ (by simp) happ, Or.inl ⟨_, rfl⟩⟩
  | some app =>
    cases happ' : copyValuestring app with
    | error f =>
      exact Or.inr ⟨hrefused _ (by simp) _ _ happ happ',
        Or.inr ⟨f, copyValuestring_error happ', by simp only [happ']; rfl⟩⟩
    | ok b =>
      cases hcmd : getObjectItem json (str "cmd") with
      | none =>
        exact Or.inr ⟨hmissing _ (by simp) hcmd, Or.inl ⟨_, by simp only [happ']; rfl⟩⟩
      | some cmd =>
        cases hcmd' : copyValuestring cmd with
        | error f =>
          exact Or.inr ⟨hrefused _ (by simp) _ _ hcmd hcmd',
            Or.inr ⟨f, copyValuestring_error hcmd', by simp only [happ', hcmd']; rfl⟩⟩
        | ok c =>
          cases hdir : getObjectItem json (str "dir") with
          | none =>
            exact Or.inr ⟨hmissing _ (by simp) hdir,
              Or.inl ⟨_, by simp only [happ', hcmd']; rfl⟩⟩
          | some dir =>
            cases hdir' : copyValuestring dir with
            | error f =>
              exact Or.inr ⟨hrefused _ (by simp) _ _ hdir hdir',
                Or.inr ⟨f, copyValuestring_error hdir', by simp only [happ', hcmd', hdir']; rfl⟩⟩
            | ok d =>
              cases hrun : getObjectItem json (str "is_running") with
              | none =>
                refine Or.inr ⟨fun h => ?_, Or.inl ⟨_, by simp only [happ', hcmd', hdir']; rfl⟩⟩
                obtain ⟨item, hitem⟩ := h.running
                rw [hrun] at hitem
                cases hitem
              | some running =>
                refine Or.inl ⟨⟨?_, _, hrun⟩, _, by simp only [happ', hcmd', hdir']; rfl⟩
                intro tag htag
                simp only [List.mem_cons, List.not_mem_nil, or_false] at htag
                rcases htag with rfl | rfl | rfl
                · exact ⟨app, b, happ, happ'⟩
                · exact ⟨cmd, c, hcmd, hcmd'⟩
                · exact ⟨dir, d, hdir, hdir'⟩

/-- The item has a name that is a string: a slot is touched for it. -/
def Named (json : CJson) : Prop :=
  ∃ item name, getObjectItem json (str "app_name") = some item ∧ item.valuestring = some name

theorem parseSlot_inside {l : ProcessList} {i : ℕ} (hi : i < listSize) (json : CJson) :
    (Decodes json ∧ ∃ l', parseSlot l i json = .ok (l', 0)) ∨
      (¬Decodes json ∧ ((∃ l', parseSlot l i json = .ok (l', -1)) ∨
        ∃ f, (f = .nullString ∨ f = .overflow) ∧ parseSlot l i json = .error f)) := by
  have hp : l[i]? = some l[i] := by simp
  rcases parseProcessCJson_cases l[i] json with ⟨hd, q, h⟩ | ⟨hd, ⟨q, h⟩ | ⟨f, hf, h⟩⟩
  · exact Or.inl ⟨hd, _, by rw [parseSlot, hp]; simp only [h]; rfl⟩
  · exact Or.inr ⟨hd, Or.inl ⟨_, by rw [parseSlot, hp]; simp only [h]; rfl⟩⟩
  · exact Or.inr ⟨hd, Or.inr ⟨f, hf, by rw [parseSlot, hp]; simp only [h]; rfl⟩⟩

/-- Behind the array. -/
theorem parseSlot_behind (l : ProcessList) (json : CJson) :
    (Named json ∧ parseSlot l listSize json = .error (.index listSize)) ∨
      (¬Named json ∧ (parseSlot l listSize json = .ok (l, -1) ∨
        parseSlot l listSize json = .error .nullString)) := by
  have hp : l[listSize]? = none := by simp
  rw [parseSlot, hp]
  cases hname : getObjectItem json (str "app_name") with
  | none =>
    refine Or.inr ⟨?_, Or.inl rfl⟩
    rintro ⟨item, name, hitem, -⟩
    rw [hname] at hitem
    cases hitem
  | some item =>
    cases hvalue : item.valuestring with
    | none =>
      refine Or.inr ⟨?_, Or.inr (by simp only [hvalue])⟩
      rintro ⟨item', name, hitem, hv⟩
      obtain rfl := Option.some_inj.mp (hname.symm.trans hitem)
      rw [hvalue] at hv
      cases hv
    | some name => exact Or.inl ⟨⟨item, name, hname, hvalue⟩, by simp only [hvalue]⟩

/-- There is an item for the slot behind the array, with `i` slots filled. -/
def Overlong (i : ℕ) (items : List CJson) : Prop :=
  (∀ item ∈ items.take (listSize - i), Decodes item) ∧
    ∃ item, items[listSize - i]? = some item ∧ Named item

theorem overlong_cons {i : ℕ} (hi : i < listSize) (item : CJson) (items : List CJson) :
    Overlong i (item :: items) ↔ Decodes item ∧ Overlong (i + 1) items := by
  obtain ⟨d, hd⟩ : ∃ d, listSize - i = d + 1 := ⟨listSize - i - 1, by omega⟩
  have hd' : listSize - (i + 1) = d := by omega
  rw [Overlong, Overlong, hd, hd', List.take_succ_cons, List.forall_mem_cons,
    List.getElem?_cons_succ, and_assoc]

section Items

variable {l l' : ProcessList} {i : ℕ} {item : CJson} {items : List CJson}

theorem parseSlots_cons (h : parseSlot l i item = .ok (l', 0)) :
    parseSlots l i (item :: items) = parseSlots l' (i + 1) items := by
  simp only [parseSlots, h]
  rfl

theorem parseSlots_refused (h : parseSlot l i item = .ok (l', -1)) :
    parseSlots l i (item :: items) = .ok (l', -1) := by
  simp only [parseSlots, h]
  rfl

theorem parseSlots_error {f : Fault} (h : parseSlot l i item = .error f) :
    parseSlots l i (item :: items) = .error f := by
  simp only [parseSlots, h]
  rfl

end Items

theorem parseSlots_index {l : ProcessList} {i : ℕ} (hi : i ≤ listSize) (items : List CJson) :
    (∃ k, parseSlots l i items = .error (.index k)) ↔ Overlong i items := by
  induction items generalizing l i with
  | nil =>
    refine iff_of_false ?_ ?_
    · rintro ⟨k, hk⟩
      cases hk
    · rintro ⟨-, item, hitem, -⟩
      simp at hitem
  | cons item items ih =>
    rcases Nat.eq_or_lt_of_le hi with rfl | hlt
    · have hover : Overlong listSize (item :: items) ↔ Named item := by
        rw [Overlong, Nat.sub_self]
        simp
      rw [hover]
      rcases parseSlot_behind l item with ⟨hn, h⟩ | ⟨hn, h | h⟩
      · exact iff_of_true ⟨listSize, parseSlots_error h⟩ hn
      · rw [parseSlots_refused h]
        exact iff_of_false (by simp) hn
      · rw [parseSlots_error h]
        exact iff_of_false (by simp) hn
    · -- inside the array the loop goes on behind an item that is decoded
      rw [overlong_cons hlt]
      rcases parseSlot_inside (l := l) hlt item with ⟨hd, l', h⟩ | ⟨hd, ⟨l', h⟩ | ⟨f, hf, h⟩⟩
      · rw [parseSlots_cons h, ih (by omega)]
        exact (and_iff_right hd).symm
      · rw [parseSlots_refused h]
        exact iff_of_false (by simp) fun hover => hd hover.1
      · rw [parseSlots_error h]
        refine iff_of_false ?_ fun hover => hd hover.1
        rcases hf with rfl | rfl <;> simp

/-- The length that is loaded fits the array. -/
theorem parseSlots_le {l l' : ProcessList} {i : ℕ} {n : ℤ} (hi : i ≤ listSize) (items : List CJson)
    (h : parseSlots l i items = .ok (l', n)) : n ≤ listSize := by
  induction items generalizing l i with
  | nil =>
    cases h
    exact_mod_cast hi
  | cons item items ih =>
    have hrefused : ∀ {a}, parseSlot l i item = .ok (a, -1) → n ≤ listSize := by
      intro a ha
      rw [parseSlots_refused ha] at h
      cases h
      norm_num
    have herror : ∀ {f}, parseSlot l i item = .error f → n ≤ listSize := by
      intro f hf
      rw [parseSlots_error hf] at h
      cases h
    -- behind the last slot no item is decoded, so the loop does not get beyond it
    rcases Nat.eq_or_lt_of_le hi with rfl | hlt
    · rcases parseSlot_behind l item with ⟨-, hs⟩ | ⟨-, hs | hs⟩
      · exact herror hs
      · exact hrefused hs
      · exact herror hs
    · rcases parseSlot_inside (l := l) hlt item with ⟨-, a, hs⟩ | ⟨-, ⟨a, hs⟩ | ⟨f, -, hs⟩⟩
      · rw [parseSlots_cons hs] at h
        exact ih (by omega) h
      · exact hrefused hs
      · exact herror hs

/-! ### Requests -/

theorem parseProcess_res {process q : Process} {text : Text} {res : ℤ}
    (h : parseProcess process text = .ok (q, res)) : res = 0 ∨ res = -1 := by
  unfold parseProcess at h
  split at h
  · cases h
  · cases h
    exact Or.inr rfl
  · rename_i json hjson
    rcases parseProcessCJson_cases process json with ⟨-, p, hp⟩ | ⟨-, ⟨p, hp⟩ | ⟨f, -, hp⟩⟩ <;>
      rw [hp] at h <;> cases h
    · exact Or.inl rfl
    · exact Or.inr rfl

theorem parseProcess_error {process : Process} {text : Text} {f : Fault}
    (h : parseProcess process text = .error f) :
    f = .nullString ∨ f = .overflow ∨ f = .heap := by
  unfold parseProcess at h
  split at h
  · rename_i f' hf'
    cases h
    exact Or.inr (Or.inr (cJsonParse_error hf'))
  · cases h
  · rename_i json hjson
    rcases parseProcessCJson_cases process json with ⟨-, p, hp⟩ | ⟨-, ⟨p, hp⟩ | ⟨f', hf', hp⟩⟩
    · rw [hp] at h
      cases h
    · rw [hp] at h
      cases h
    · rw [hp] at h
      cases h
      exact hf'.imp_right Or.inl

theorem delProcessByAppName_error {l : ProcessList} {name : StrBuf} {f : Fault}
    (h : delProcessByAppName l name = .error f) :
    getProcessListCount l = listSize ∧ f = .index listSize := by
  by_cases hlisted : ∃ (k : ℕ) (p : Process),
      k < getProcessListCount l ∧ l[k]? = some p ∧ p.appName = name
  · obtain ⟨k, p, hk, hp, hname⟩ := hlisted
    obtain ⟨j, q, -, -, -, -, -, hfree, hfull⟩ := delProcessByAppName_found hk hp hname
    rcases Nat.eq_or_lt_of_le (getProcessListCount_le l) with heq | hlt
    · rw [hfull heq] at h
      cases h
      exact ⟨heq, rfl⟩
    · obtain ⟨l', hl', -⟩ := hfree hlt
      rw [hl'] at h
      cases h
  · rw [delProcessByAppName_absent fun k p hk hp hname => hlisted ⟨k, p, hk, hp, hname⟩] at h
    cases h

theorem createProcessCJsonWithStatus_error {procStatus : ℤ → Option (List Text)} {p : Process}
    {f : Fault} (h : createProcessCJsonWithStatus procStatus p = .error f) :
    f = .nullFile ∨ f = .overrun ∨ f = .overflow := by
  have hcopy : ∀ {src : Text}, strcpy src = .error f → f = .overflow := by
    intro src hsrc
    rw [strcpy] at hsrc
    split at hsrc
    · cases hsrc
    · cases hsrc
      rfl
  have hmem : getMemByPid procStatus p.pid = .error f := by
    rw [createProcessCJsonWithStatus] at h
    split at h
    · cases hm : getMemByPid procStatus p.pid with
      | error f' =>
        rw [hm] at h
        cases h
        rfl
      | ok memory =>
        rw [hm] at h
        cases h
    · cases h
  -- reading the tag fails without a file or behind a line, the copy in its buffer
  rw [getMemByPid] at hmem
  cases hv : parseProcStatusValByTag procStatus p.pid (str "VmHWM") with
  | error f' =>
    rw [hv] at hmem
    cases hmem
    exact (parseProcStatusValByTag_error hv).imp_right Or.inl
  | ok memory =>
    rw [hv] at hmem
    refine Or.inr (Or.inr ?_)
    change (if memory = errResult then _ else _) = _ at hmem
    split at hmem <;> exact hcopy hmem

/-- There is a slot for the operation. -/
def HasRoom (s : Server) : Op → Prop
  | .append _ => s.processCount < listSize
  | .remove _ => getProcessListCount s.processList < listSize
  | _ => True

def Roomy (s : Server) (request : Request) : Prop :=
  ∀ ops, s.plan request = .ok ops → ∀ op ∈ ops, HasRoom s op

theorem Fails.not_hasRoom {s t : Server} {op : Op} {k : ℕ} (h : Fails s op (.index k) t) :
    ¬HasRoom s op ∧ ¬op.Local := by
  cases h with
  | full hn ht => exact ⟨Nat.not_lt.mpr hn, id⟩
  | remove hdel =>
    have hfull := (delProcessByAppName_error hdel).1
    exact ⟨fun h : getProcessListCount s.processList < listSize => by omega, id⟩
  | stop hk hp hrun hkill => rcases Walk.kill_error hkill with h | h | h | ⟨h, -⟩ <;> cases h
  | note hp hs => rcases createProcessCJsonWithStatus_error hs with h | h | h <;> cases h

theorem hasRoom_run {s t : Server} {ops : List Op} (h : Run Effect s ops t)
    (hops : ∀ op ∈ ops, op.Local) (op : Op) : HasRoom t op ↔ HasRoom s op := by
  obtain ⟨hcount, hlist⟩ := counts_run h hops
  cases op <;> simp only [HasRoom, hcount, hlist]

theorem handleRequest_index {s t : Server} {request : Request} {k : ℕ}
    (hn : s.processCount ≤ listSize) (h : handleRequest request s = .error (.index k) t) :
    ¬Roomy s request := by
  intro hroomy
  obtain ⟨ops, u, hrun, hbreaks⟩ := (handleRequest_performs hn request).error h
  cases hbreaks with
  | operand hplan =>
    obtain ⟨buffer, hparse⟩ := plan_error hn hplan
    rcases parseProcess_error hparse with h | h | h <;> cases h
  | op hplan hf =>
    obtain ⟨hroom, hlocal⟩ := hf.not_hasRoom
    refine hroom ((hasRoom_run hrun ?_ _).mpr (hroomy _ hplan _ (by simp)))
    exact (plan_cases hn hplan).before_local

theorem Effect.inside {s t : Server} {op : Op} (hn : s.processCount ≤ listSize)
    (h : Effect s op t) : t.processCount ≤ listSize := by
  cases h with
  | append hlt hf h0 => exact hlt
  | remove hdel => exact le_trans (Nat.sub_le _ _) hn
  | _ => exact hn

theorem Op.Local.hasRoom {op : Op} (h : op.Local) (s : Server) : HasRoom s op := by
  cases op with
  | append p => exact h.elim
  | remove name => exact h.elim
  | _ => trivial

/-- A plan that has been done had room for its operations. -/
theorem Planned.hasRoom {s t : Server} {ops : List Op} (hn : s.processCount ≤ listSize)
    (h : Planned s ops) (hrun : Run Effect s ops t) : ∀ op ∈ ops, HasRoom s op := by
  rcases h.local with hlocal | ⟨p, buffer, res, rfl, -, -⟩ | ⟨p, pos, hlisted, rfl⟩
  · exact fun op hop => (hlocal op hop).hasRoom s
  · intro op hop
    obtain rfl := List.mem_singleton.mp hop
    obtain ⟨u, hstep, -⟩ := run_cons.mp hrun
    cases hstep with
    | append hlt hf h0 => exact hlt
  · obtain ⟨u, k, r, hstop, hr, hname, hstep⟩ := run_remove hlisted hrun
    obtain ⟨hk, hr⟩ := entries_get hr
    have hku := (Effect.keeps_run hstop (stopOps_local pos)).1
    intro op hop
    rcases List.mem_append.mp hop with hop | hop
    · exact (stopOps_local pos op hop).hasRoom s
    · obtain rfl := List.mem_singleton.mp hop
      rw [← hname, ← hasRoom_run hstop (stopOps_local pos)]
      -- in a full list deletion reads behind the last slot
      by_contra hfull
      have hcount : getProcessListCount u.processList = listSize :=
        le_antisymm (getProcessListCount_le _) (Nat.le_of_not_lt hfull)
      obtain ⟨j, q, -, -, -, -, -, -, herror⟩ :=
        delProcessByAppName_found (show k < getProcessListCount u.processList by omega) hr rfl
      cases hstep with
      | remove hdel =>
        rw [herror hcount] at hdel
        cases hdel

theorem Served.roomy {s t : Server} {call : Request × Answers} (hn : s.processCount ≤ listSize)
    (h : Served s call t) : Roomy s call.1 := by
  obtain ⟨ops, u, text, hplan, hrun, -, -⟩ := h.plan hn
  intro ops' hplan'
  obtain rfl : ops = ops' := Except.ok.inj (hplan.symm.trans hplan')
  exact (plan_cases (s := s.asked call.2) hn hplan).hasRoom (s := s.asked call.2) hn hrun

/-- The operation of a plan without room that fails. -/
theorem Planned.fails {s u t : Server} {ops rest : List Op} {o : Op} {f : Fault}
    (hn : s.processCount ≤ listSize) (h : Planned s (ops ++ o :: rest)) (hrun : Run Effect s ops u)
    (hroom : ¬∀ op ∈ ops ++ o :: rest, HasRoom s op) (hf : Fails u o f t) :
    f = .index listSize ∨ f = .forkFailed ∨ ∃ pid, s.kernel.walk.kill pid = .error f := by
  have hcount := (Effect.keeps_run hrun h.before_local).1
  -- what is on single entries always has room
  have hkind : (∃ k, o = .stop k ∧ ops = []) ∨ (∃ p, o = .append p) ∨ ∃ name, o = .remove name := by
    have hmem : o ∈ ops ++ o :: rest := List.mem_append_right _ List.mem_cons_self
    rcases h.local with hlocal | ⟨p, buffer, res, happend, -, -⟩ | ⟨p, pos, -, hremove⟩
    · exact absurd (fun op hop => (hlocal op hop).hasRoom s) hroom
    · rw [happend] at hmem
      exact Or.inr (Or.inl ⟨p, List.mem_singleton.mp hmem⟩)
    · -- a removal stops the entry first
      rcases stopOps_cases s pos with ⟨hstop, -⟩ | ⟨hstop, -⟩ <;> rw [hstop] at hremove
      · rw [hremove] at hmem
        exact Or.inr (Or.inr ⟨_, List.mem_singleton.mp hmem⟩)
      · cases ops with
        | nil => exact Or.inl ⟨pos, (List.cons_eq_cons.mp hremove).1, rfl⟩
        | cons op ops =>
          have hrest : ops ++ o :: rest = [Op.remove p.appName] := (List.cons_eq_cons.mp hremove).2
          have hlast : o ∈ [Op.remove p.appName] :=
            hrest ▸ List.mem_append_right _ List.mem_cons_self
          exact Or.inr (Or.inr ⟨_, List.mem_singleton.mp hlast⟩)
  rcases hkind with ⟨k, rfl, rfl⟩ | ⟨p, rfl⟩ | ⟨name, rfl⟩
  · obtain rfl := run_nil.mp hrun
    cases hf with
    | stop hk hp hrunning hkill => exact Or.inr (Or.inr ⟨_, hkill⟩)
  · cases hf with
    | append => exact Or.inr (Or.inl rfl)
    | full hfull =>
      have heq : u.processCount = listSize := by omega
      exact Or.inl (by rw [heq])
  · cases hf with
    | remove hdel => exact Or.inl (delProcessByAppName_error hdel).2

/-- A request without room ends the service, unless it ends before it gets there. -/
theorem serve_not_roomy {s : Server} {call : Request × Answers} (hn : s.processCount ≤ listSize)
    (h : ¬Roomy s call.1) :
    ∃ f u, serve call.1 (s.asked call.2) = .error f u ∧
      (f = .index listSize ∨ f = .forkFailed ∨
        ∃ pid, (s.asked call.2).kernel.walk.kill pid = .error f) := by
  -- a plan that has been done had room, so this one fails on the way
  have hdone : ∀ {ops u}, s.plan call.1 = .ok ops → ¬Run Effect (s.asked call.2) ops u := by
    intro ops u hplan hrun
    refine h fun ops' hplan' => ?_
    obtain rfl : ops = ops' := Except.ok.inj (hplan.symm.trans hplan')
    exact (plan_cases (s := s.asked call.2) hn hplan).hasRoom (s := s.asked call.2) hn hrun
  cases hserve : serve call.1 (s.asked call.2) with
  | ok response u => exact absurd (Served.roomy hn ⟨response, hserve⟩) h
  | error f u =>
    refine ⟨f, u, rfl, ?_⟩
    have hperforms := handleRequest_performs (s := s.asked call.2) hn call.1
    rcases serve_error hserve with hhandle | ⟨response, w, hhandle, -, -⟩
    · obtain ⟨ops, w, hrun, hbreaks⟩ := hperforms.error hhandle
      cases hbreaks with
      | operand hplan =>
        exact absurd (fun ops hops => by cases hplan.symm.trans hops) h
      | op hplan hf =>
        refine Planned.fails (s := s.asked call.2) hn
          (plan_cases (s := s.asked call.2) hn hplan) hrun
          (fun hroom => h ?_) hf
        intro ops' hplan'
        obtain rfl := Except.ok.inj (hplan.symm.trans hplan')
        exact hroom
      | text hplan => exact absurd hrun (hdone hplan)
    · obtain ⟨ops, hrun, hplan⟩ := hperforms.ok hhandle
      exact absurd hrun (hdone hplan)

theorem serve_index {s u : Server} {request : Request} {k : ℕ} (hn : s.processCount ≤ listSize)
    (h : serve request s = .error (.index k) u) : ¬Roomy s request := by
  rcases serve_error h with hhandle | ⟨response, w, -, hsave, -⟩
  · exact handleRequest_index hn hhandle
  · cases saveProcessList_error hsave

theorem Served.inside {s t : Server} {call : Request × Answers} (h : Served s call t)
    (hn : s.processCount ≤ listSize) : t.processCount ≤ listSize := by
  obtain ⟨ops, u, text, -, hrun, -, rfl⟩ := h.plan hn
  exact hrun.invariant (I := fun s => s.processCount ≤ listSize) (fun _ _ _ hs h => h.inside hs) hn

/-- No slot outside the array is touched by a request for which there is room, nor by
a config without an item for the slot behind the array; and these are the only
ones.  What comes before the access can end the service first. -/
theorem index_inside (processList : ProcessList) (text : Text) :
    (∀ (s t : Server) (calls : List (Request × Answers)), s.processCount ≤ listSize →
      Run Served s calls t → t.processCount ≤ listSize ∧ ∀ call : Request × Answers,
        (Roomy t call.1 → ∀ k u, serve call.1 (t.asked call.2) ≠ .error (.index k) u) ∧
        (¬Roomy t call.1 → ∃ f u, serve call.1 (t.asked call.2) = .error f u ∧
          (f = .index listSize ∨ f = .forkFailed ∨
            ∃ pid, (t.asked call.2).kernel.walk.kill pid = .error f))) ∧
    ((∃ k, parseProcessList processList text = .error (.index k)) ↔
      ∃ json, cJsonParse text = .ok (some json) ∧ Overlong 0 (json.children.map Prod.snd)) ∧
    ∀ loaded n, parseProcessList processList text = .ok (loaded, n) → n ≤ listSize := by
  refine ⟨fun s t calls hn hrun => ?_, ?_⟩
  · have hnt : t.processCount ≤ listSize :=
      hrun.invariant (I := fun s => s.processCount ≤ listSize) (fun _ _ _ hs h => h.inside hs) hn
    refine ⟨hnt, fun call => ⟨fun hroomy k u h => ?_, fun hroomy => serve_not_roomy hnt hroomy⟩⟩
    exact serve_index (s := t.asked call.2) hnt h hroomy
  · rw [parseProcessList]
    rcases hjson : cJsonParse text with fault | _ | json
    · obtain rfl := cJsonParse_error hjson
      simp
    · simp
    · refine ⟨?_, fun loaded n h => parseSlots_le (Nat.zero_le _) _ h⟩
      rw [parseSlots_index (Nat.zero_le _)]
      simp

/-- A config with an entry more than there are slots. -/
def longConfig : Text :=
  cJsonPrint (.array (List.replicate (listSize + 1) (createProcessCJson .web)))

theorem longConfig_index :
    longConfig.length < bufferSize ∧ ∃ k, parseProcessList .zero longConfig =
      .error (.index k) := by
  have hitem : (printValue 1 (createProcessCJson .web)).length = 81 := by decide +kernel
  have hlength : longConfig.length = 21331 := by
    rw [longConfig, length_cJsonPrint_array, List.map_replicate, List.sum_replicate, hitem,
      List.length_replicate]
    rfl
  refine ⟨by rw [hlength]; norm_num, ?_⟩
  have hprint : Printable (.array ((List.replicate (listSize + 1) Process.web).map
      createProcessCJson)) := printable_map_create _
  rw [List.map_replicate] at hprint
  rw [← List.append_nil longConfig, longConfig, parseProcessList_array hprint,
    parseSlots_index (Nat.zero_le _)]
  set items := List.replicate (listSize + 1) (createProcessCJson .web) with hitems
  have hweb : Decodes (createProcessCJson .web) := by
    rcases parseProcessCJson_cases .zero (createProcessCJson .web) with ⟨h, -⟩ | ⟨-, h⟩
    · exact h
    · rw [parseProcessCJson_create] at h
      simp at h
  refine ⟨fun item hitem => ?_, createProcessCJson .web, ?_,
    .string Process.web.appName.bytes, _, rfl,
    rfl⟩
  · have hmem := List.mem_of_mem_take hitem
    rw [hitems] at hmem
    rw [List.eq_of_mem_replicate hmem]
    exact hweb
  · rw [hitems, List.getElem?_replicate]
    rfl

end KbPm
