/-
The memory of a service that serves requests.

* `serveCalls` — what a round does with the JSON library; `Server.Fits` — the condition under which
  nothing is written behind a block in it (`serveCalls_fit`);
* `memory_run` — over a run whose rounds meet it every block is freed once at most, and the texts
  that have been made are never freed: each request leaves one behind at least.
-/
import KbPm.CJsonMemory
import KbPm.Snapshot
import KbPm.StatusFiles

namespace KbPm

open Trace

/-- The calls of `parse_process_and_process_type`. -/
def operandCalls (s : Server) (buffer : Text) : List JsonCall :=
  if getProcessId s.processCount buffer ≠ -1 then []
  else if s.entries.any fun process => process.appName.bytes == cstr buffer then []
  else [.parse buffer]

/-- The calls of `create_process_list_json_str_with_status`. -/
def statusCalls (s : Server) : List JsonCall :=
  match statusFrom s.processCount 0 s with
  | .ok items _ => [.print (.array items)]
  | .error _ _ => []

/-- The calls of `save_process_list`. -/
def saveCalls (s : Server) : List JsonCall :=
  [.print (.array
    ((Slots.inUse s.processList (getProcessListCount s.processList)).map createProcessCJson))]

/-- The calls while a request is handled, up to its response. -/
def handleCalls (s : Server) (request : Request) : List JsonCall :=
  match readCommand (s.commandBuffer request) with
  | .start => operandCalls s (s.operandBuffer request)
  | .stop => operandCalls s (s.operandBuffer request)
  | .restart => operandCalls s (s.operandBuffer request)
  | .remove => operandCalls s (s.operandBuffer request)
  | .status => statusCalls s
  | _ => []

/-- The calls of a round; the list is saved if the service has come so far. -/
def serveCalls (s : Server) (request : Request) : List JsonCall :=
  handleCalls s request ++
    match handleRequest request s with
    | .ok _ t => saveCalls t
    | .error _ _ => []

/-- No string of the operand outgrows its block if it is parsed, and the numbers of the entries are
in the range of their types. -/
structure Server.Fits (s : Server) (request : Request) : Prop where
  operand : JsonCall.parse (s.operandBuffer request) ∈ handleCalls s request →
    cJsonParse (s.operandBuffer request) ≠ .error .heap
  numbers : ∀ p ∈ s.entries, p.InRange ∧ p.startTime < 2 ^ 53

/-- The calls of a step. -/
def System.calls (σ : System) : Event → List JsonCall
  | .request request answers => serveCalls (σ.server.asked answers) request
  | _ => []

def System.Fits (σ : System) : Event → Prop
  | .request request answers => (σ.server.asked answers).Fits request
  | _ => True

/-- The memory of the process, and how many texts have been made in it. -/
structure Memory where
  heap : Heap
  texts : ℕ

/-- A step, as far as the memory is concerned. -/
def System.Allocates (σ : System) (event : Event) (m m' : Memory) : Prop :=
  (σ.calls event).foldlM JsonCall.on m.heap = some m'.heap ∧
    m'.texts = m.texts + ((σ.calls event).map JsonCall.texts).sum

/-- Whether a client is served. -/
def Event.serves : Event → Bool
  | .request _ _ => true
  | _ => false

/-- Since the memory was `h`, the texts have been added to it. -/
def Memory.Since (h : Heap) (m : Memory) : Prop :=
  ∃ left, h.Grows left m.heap ∧ left.length = m.texts

theorem readSlot_full {s : Server} {k : ℕ} (hk : listSize ≤ k) :
    readSlot k s = .error (.index k) s := by
  have hread : (get : ServerM Server) s = .ok s s := rfl
  rw [readSlot, bind_ok hread, Slots.read_error hk]
  rfl

section Memory

variable {σ τ : System} {events : List Event} {event : Event} {h : Heap} {m : Memory}

/-- The file holds the text that is made last. -/
theorem saveCalls_text {s : Server} {text : Text}
    (hsave : saveProcessList s.processList = .ok text) :
    ∃ json, saveCalls s = [.print json] ∧ cJsonPrint json = text := by
  refine ⟨_, rfl, ?_⟩
  rw [saveProcessList_eq] at hsave
  split_ifs at hsave
  exact Except.ok.inj hsave

theorem handleCalls_texts (s : Server) (request : Request) :
    ((handleCalls s request).map JsonCall.texts).sum ≤ 1 := by
  have hoperand : ∀ buffer, ((operandCalls s buffer).map JsonCall.texts).sum ≤ 1 := by
    intro buffer
    unfold operandCalls
    split_ifs
    · exact Nat.zero_le 1
    · exact Nat.zero_le 1
    · exact Nat.zero_le 1
  unfold handleCalls
  split
  · exact hoperand _
  · exact hoperand _
  · exact hoperand _
  · exact hoperand _
  · unfold statusCalls
    split
    · exact le_refl 1
    · exact Nat.zero_le 1
  · exact Nat.zero_le 1

theorem serveCalls_le (s : Server) (request : Request) :
    ((serveCalls s request).map JsonCall.texts).sum ≤ 2 := by
  rw [serveCalls, List.map_append, List.sum_append]
  refine Nat.add_le_add (b := 1) (d := 1) (handleCalls_texts s request) ?_
  split
  · exact le_refl 1
  · exact Nat.zero_le 1

/-- A request that is served makes the text of the config file. -/
theorem le_serveCalls {s t : Server} {request : Request} {response : Text}
    (hserve : serve request s = .ok response t) :
    1 ≤ ((serveCalls s request).map JsonCall.texts).sum := by
  obtain ⟨u, text, hhandle, hsave, -⟩ := serve_ok hserve
  obtain ⟨json, hcalls, -⟩ := saveCalls_text hsave
  rw [serveCalls, hhandle]
  simp only [hcalls]
  rw [List.map_append, List.sum_append]
  exact Nat.le_add_left _ _

theorem calls_le (σ : System) (event : Event) :
    ((σ.calls event).map JsonCall.texts).sum ≤ 2 * [event].countP Event.serves := by
  cases event with
  | request request answers => exact serveCalls_le _ request
  | startup => exact le_refl 0
  | wait => exact le_refl 0
  | handle => exact le_refl 0
  | exit => exact le_refl 0

theorem le_calls (hstep : Steps σ event τ) (hτ : ∀ fault, τ.phase ≠ .ended fault) :
    [event].countP Event.serves ≤ ((σ.calls event).map JsonCall.texts).sum := by
  cases hstep.cases with
  | @request request answers =>
    obtain ⟨response, hserve⟩ := System.after_running hτ
    exact le_serveCalls hserve
  | iterate => exact le_refl 0
  | finish => exact le_refl 0
  | wait => exact le_refl 0
  | handle => exact le_refl 0
  | exit => exact le_refl 0

/-- The loop comes to its end inside the list only, and its items are those of the entries. -/
theorem statusFrom_printable {s t : Server} {steps i : ℕ} {items : List CJson}
    (hrange : ∀ j p, i ≤ j → j < i + steps → s.processList[j]? = some p →
      p.InRange ∧ p.startTime < 2 ^ 53)
    (h : statusFrom steps i s = .ok items t) : Printable (.array items) := by
  induction steps generalizing s i items with
  | zero =>
    cases h
    exact trivial
  | succ steps ih =>
    rw [statusFrom] at h
    by_cases hi : i < listSize
    · obtain ⟨p, hp⟩ := exists_slot s hi
      rw [bind_ok (readSlot_run hp)] at h
      change (attempt (createProcessCJsonWithStatus s.kernel.answers.procStatus p) >>= _) s = _ at h
      cases hs : createProcessCJsonWithStatus s.kernel.answers.procStatus p with
      | error f =>
        rw [hs, bind_error (attempt_error f s)] at h
        cases h
      | ok made =>
        obtain ⟨q, json⟩ := made
        rw [hs, bind_ok (attempt_ok _ s)] at h
        simp only [bind_ok (writeSlot_run q hi)] at h
        obtain ⟨rest, v, hrest, h⟩ := bind_eq_ok.mp h
        cases h
        obtain ⟨hq, rfl⟩ := queried_of_create hs
        obtain ⟨hprange, hpstart⟩ := hrange i p (le_refl i) (by omega) hp
        obtain ⟨hqrange, hqstart⟩ := hq.inRange hprange
        refine ⟨printable_statusItem hqrange (hqstart.trans_lt hpstart), ih ?_ hrest⟩
        intro j r hij hj hr
        rw [getElem?_setSlot, if_neg (by omega)] at hr
        exact hrange j r (by omega) (by omega) hr
    · rw [bind_error (readSlot_full (not_lt.mp hi))] at h
      cases h

theorem handleCalls_fit {s : Server} {request : Request} (hfits : s.Fits request) :
    ∀ call ∈ handleCalls s request, call.Fits := by
  intro call hcall
  have hparse := hfits.operand
  have hoperand : call ∈ operandCalls s (s.operandBuffer request) → call.Fits := by
    intro hmem
    unfold operandCalls at hmem
    split_ifs at hmem
    · cases hmem
    · cases hmem
    · obtain rfl := List.mem_singleton.mp hmem
      exact hparse hcall
  unfold handleCalls at hcall
  split at hcall
  · exact hoperand hcall
  · exact hoperand hcall
  · exact hoperand hcall
  · exact hoperand hcall
  · unfold statusCalls at hcall
    split at hcall
    · rename_i items t hitems
      obtain rfl := List.mem_singleton.mp hcall
      refine statusFrom_printable (fun j p _ hj hp => hfits.numbers p ?_) hitems
      have hentry : s.entries[j]? = some p := by
        rw [Server.entries, Slots.getElem?_inUse, if_pos (by omega), hp]
      exact List.mem_of_getElem? hentry
    · cases hcall
  · cases hcall

theorem serveCalls_fit {s : Server} {request : Request} (hfits : s.Fits request) :
    ∀ call ∈ serveCalls s request, call.Fits := by
  intro call hcall
  rcases List.mem_append.mp hcall with hcall | hcall
  · exact handleCalls_fit hfits call hcall
  · split at hcall
    · obtain rfl := List.mem_singleton.mp hcall
      exact printable_map_create _
    · cases hcall

theorem calls_fit {σ : System} {event : Event} (hfits : σ.Fits event) :
    ∀ call ∈ σ.calls event, call.Fits := by
  cases event with
  | request request answers => exact serveCalls_fit hfits
  | startup => exact fun _ hcall => nomatch hcall
  | wait => exact fun _ hcall => nomatch hcall
  | handle => exact fun _ hcall => nomatch hcall
  | exit => exact fun _ hcall => nomatch hcall

/-- What a step allocates it frees, but for its texts. -/
theorem Memory.Since.step (hm : m.Since h) {σ : System} {event : Event} (hfits : σ.Fits event) :
    ∃ m', σ.Allocates event m m' ∧ m'.Since h := by
  obtain ⟨left, g, hlen⟩ := hm
  obtain ⟨more, heap, hcalls, g', hmore⟩ := JsonCall.run_grows (calls_fit hfits) m.heap
  refine ⟨⟨heap, m.texts + ((σ.calls event).map JsonCall.texts).sum⟩, ⟨hcalls, rfl⟩,
    left ++ more, g.trans g', ?_⟩
  rw [List.length_append, hlen, hmore]

theorem Memory.Since.run (hrun : Guarded Steps System.Fits σ events τ) (hm : m.Since h) :
    ∃ m', Run (Along Steps System.Allocates) (σ, m) events (τ, m') ∧ m'.Since h ∧
      m'.texts ≤ m.texts + 2 * events.countP Event.serves ∧
      ((∀ fault, τ.phase ≠ .ended fault) →
        m.texts + events.countP Event.serves ≤ m'.texts) := by
  induction hrun generalizing m with
  | nil σ => exact ⟨m, .nil (σ, m), hm, le_refl _, fun _ => le_refl _⟩
  | @cons σ ρ τ event events hfits hstep hrest ih =>
    obtain ⟨m₁, halloc, hm₁⟩ := hm.step hfits
    obtain ⟨m₂, hrun₂, hm₂, hle, hge⟩ := ih hm₁
    have hcount : (event :: events).countP Event.serves =
        [event].countP Event.serves + events.countP Event.serves :=
      @List.countP_append _ _ [event] events
    have hmost := calls_le σ event
    have htexts := halloc.2
    refine ⟨m₂, .cons ⟨hstep, halloc⟩ hrun₂, hm₂, by omega, fun hτ => ?_⟩
    -- a service that runs in the end was running before
    have hρ : ∀ fault, ρ.phase ≠ .ended fault := fun fault hended =>
      hτ fault (hrest.run.invariant (fun _ _ _ hs hsteps => hsteps.ended hs) hended)
    have hleast := le_calls hstep hρ
    have hrest₂ := hge hτ
    omega

/-- In no run whose rounds fit into their blocks is a block freed that is not live, and what stays
behind is the texts: two of each request at most, and one at least of each that has been served. -/
theorem memory_run (hrun : Guarded Steps System.Fits σ events τ) (h : Heap) :
    ∃ m, Run (Along Steps System.Allocates) (σ, ⟨h, 0⟩) events (τ, m) ∧ h.live ⊆ m.heap.live ∧
      m.heap.live.card = h.live.card + m.texts ∧ m.texts ≤ 2 * events.countP Event.serves ∧
      ((∀ fault, τ.phase ≠ .ended fault) → events.countP Event.serves ≤ m.texts) := by
  have hstart : Memory.Since h ⟨h, 0⟩ := ⟨[], Heap.Grows.refl h, rfl⟩
  obtain ⟨m, halong, hsince, hle, hge⟩ := hstart.run hrun
  obtain ⟨left, g, hlen⟩ := hsince
  refine ⟨m, halong, g.subset, ?_, ?_, fun hτ => ?_⟩
  · rw [g.card, hlen]
  · rw [Nat.zero_add] at hle
    exact hle
  · rw [← Nat.zero_add (events.countP Event.serves)]
    exact hge hτ

/-- Behind the app of the config another one is started, whose operand is parsed. -/
theorem memory_run_api : ∃ τ m,
    Run (Along Steps System.Allocates) (webSystem, ⟨⟨∅, 0, fun _ => 0, by simp⟩, 0⟩)
      [.startup (onePid 7), .startup (onePid 8),
        .request (startCall .api 8).1 (startCall .api 8).2] (τ, m) ∧
      τ.phase = .waiting ∧ 1 ≤ m.heap.live.card ∧ m.heap.live.card ≤ 2 := by
  have hparse : (cJsonParse ((webStarted.server.asked (startCall .api 8).2).operandBuffer
      (startCall .api 8).1)).toOption.isSome = true := by decide +kernel
  have hrange : ∀ p ∈ (webStarted.server.asked (startCall .api 8).2).entries,
      ((-2 ^ 31 ≤ p.id ∧ p.id < 2 ^ 31) ∧ (-2 ^ 31 ≤ p.pid ∧ p.pid < 2 ^ 31) ∧
        0 ≤ p.startTime ∧ p.startTime < 2 ^ 53) := by decide +kernel
  have hfits : (webStarted.server.asked (startCall .api 8).2).Fits (startCall .api 8).1 := by
    refine ⟨fun _ hbroken => ?_, fun p hp => ?_⟩
    · rw [hbroken] at hparse
      cases hparse
    · obtain ⟨hid, hpid, h0, hstart⟩ := hrange p hp
      exact ⟨⟨hid, hpid, h0, hstart.trans (by norm_num)⟩, hstart⟩
  have hphase : ((webStarted.step (.request (startCall .api 8).1 (startCall .api 8).2)).getD
      webStarted).phase = .waiting := by decide +kernel
  have hlast : Guarded Steps System.Fits webStarted
      [.request (startCall .api 8).1 (startCall .api 8).2] _ :=
    .cons hfits (steps_of_isSome (by decide +kernel)) (.nil _)
  have hfirst : Guarded Steps System.Fits webSystem [.startup (onePid 7), .startup (onePid 8)]
      webStarted := by
    refine webStarted_run.guarded fun as event bs σ hevents _ => ?_
    have hmem : event ∈ [Event.startup (onePid 7), .startup (onePid 8)] := by
      rw [hevents]
      exact List.mem_append_right as List.mem_cons_self
    rcases List.mem_pair.mp hmem with rfl | rfl
    · trivial
    · trivial
  obtain ⟨m, halong, -, hcard, hle, hge⟩ :=
    memory_run (hfirst.append hlast) ⟨∅, 0, fun _ => 0, by simp⟩
  have hleast := hge (fun fault => by rw [hphase]; simp)
  rw [Finset.card_empty, Nat.zero_add] at hcard
  refine ⟨_, m, halong, hphase, ?_, ?_⟩
  · rw [hcard]
    exact hleast
  · rw [hcard]
    exact hle

end Memory

end KbPm
