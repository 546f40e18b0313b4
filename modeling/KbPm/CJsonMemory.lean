/-
The memory of the JSON library: which blocks an item holds, and who frees them.

* `Item` — an item, by its block and the blocks of its `valuestring` and its `string`;
* `Item.delete` — `cJSON_Delete`, which frees the blocks of an item once each
  (`delete_eq`);
* `parseValueInto`, `cJsonParseOn` — the parser again, with the blocks that it
  allocates and fills on the way, also on the way to a failure (`parseValueInto_mirrors`);
* `printValueOn`, `createOn` — the printer and the constructors in the same way; the
  blocks of the printer hold its texts (`printValueOn_grows`);
* `parsed_deleted` — of a text that is refused, or read and deleted, nothing is left,
  and the others write behind a block;
* `JsonCall` — the calls of the service; `run_grows` — a text that is made is left
  behind, and nothing else.

Allocation does not fail here either.
-/
import KbPm.CJsonBlocks
import KbPm.CJsonText
import KbPm.Lib.Heap

namespace KbPm

open Scan

/-- An item, by the blocks that it holds. -/
inductive Item
  | mk (block : ℕ) (valuestring string : Option ℕ) (child : List Item)

namespace Item

mutual

/-- The blocks of an item, as they are freed. -/
def blocks : Item → List ℕ
  | mk block valuestring string child =>
    chainBlocks child ++ (valuestring.toList ++ (string.toList ++ [block]))

def chainBlocks : List Item → List ℕ
  | [] => []
  | c :: next => c.blocks ++ chainBlocks next

end

/-- `if (p) cJSON_free(p)` -/
def freeIf (h : Heap) : Option ℕ → Option Heap
  | none => some h
  | some b => h.free b

mutual

/-- `cJSON_Delete`, for one item of the chain. -/
def delete (h : Heap) : Item → Option Heap
  | mk block valuestring string child => do
    let h ← deleteChain h child
    let h ← freeIf h valuestring
    let h ← freeIf h string
    h.free block

/-- `cJSON_Delete` -/
def deleteChain (h : Heap) : List Item → Option Heap
  | [] => some h
  | c :: next => do
    let h ← delete h c
    deleteChain h next

end

/-- `item->child = child` -/
def setChild : Item → List Item → Item
  | mk block valuestring string _, child => mk block valuestring string child

/-- `item->valuestring = out` -/
def setValuestring : Item → ℕ → Item
  | mk block _ string child, out => mk block (some out) string child

/-- `item->string = string` -/
def setString : Item → ℕ → Item
  | mk block valuestring _ child, string => mk block valuestring (some string) child

/-- `child->string=child->valuestring;child->valuestring=0;` -/
def named : Item → Item
  | mk block valuestring _ child => mk block none valuestring child

end Item

open Item

/-- `sizeof(cJSON)` -/
def itemSize : ℕ := 64

/-- `cJSON_New_Item` -/
def newItem (h : Heap) : Item × Heap :=
  (.mk (h.malloc itemSize).1 none none [], (h.malloc itemSize).2)

/-! ### Parsing -/

/-- What a parser leaves: the item it was given or the chain it has made, the
memory, and the place where it stopped, null on failure. -/
structure Parsed (α : Type) where
  item : α
  heap : Heap
  rest : Option Text

/-- `parse_string`; it is none if more is written than the block holds. -/
def parseStringInto (item : Item) (h : Heap) (str : Text) : Option (Parsed Item) :=
  if peek str ≠ quote then some ⟨item, h, none⟩
  else
    let out := h.malloc (stringLength 0 (str.drop 1) + 1)
    let r := unescape 0 (str.drop 1)
    (out.2.write out.1 (r.1.length + 1)).map fun h =>
      ⟨item.setValuestring out.1, h, some (if peek r.2 = quote then r.2.drop 1 else r.2)⟩

/-- `parse_array` and `parse_object`, over the parser for what is inside. -/
def parseInside (opening closing : UInt8) (inside : Heap → Text → Option (Parsed (List Item)))
    (item : Item) (h : Heap) (value : Text) : Option (Parsed Item) :=
  if peek value ≠ opening then some ⟨item, h, none⟩
  else
    let value := (value.drop 1).dropWhile blank
    if peek value = closing then some ⟨item, h, some (value.drop 1)⟩
    else (inside h value).map fun r => ⟨item.setChild r.item, r.heap, r.rest⟩

/-- What stands behind a child: more of them, or the end. -/
def parseBehind (closing : UInt8) (more : Heap → Text → Option (Parsed (List Item)))
    (r : Parsed Item) : Option (Parsed (List Item)) :=
  match r.rest with
  | none => some ⟨[r.item], r.heap, none⟩
  | some value =>
    let value := value.dropWhile blank
    if peek value = comma then
      (more r.heap (value.drop 1)).map fun rs => ⟨r.item :: rs.item, rs.heap, rs.rest⟩
    else if peek value = closing then some ⟨[r.item], r.heap, some (value.drop 1)⟩
    else some ⟨[r.item], r.heap, none⟩

mutual

/-- `parse_value`, with the bound of `parseValue`. -/
def parseValueInto : ℕ → Item → Heap → Text → Option (Parsed Item)
  | 0, item, h, _ => some ⟨item, h, none⟩
  | n + 1, item, h, value =>
    if (parseWord value).isSome then some ⟨item, h, (parseWord value).map Prod.snd⟩
    else if peek value = quote then parseStringInto item h value
    else if peek value = minus ∨ isDigit (peek value) then
      some ⟨item, h, (parseNumber value).toOption.map Prod.snd⟩
    else if peek value = lbracket then
      parseInside lbracket rbracket (parseItemsInto n) item h value
    else if peek value = lbrace then
      parseInside lbrace rbrace (parseMembersInto n) item h value
    else some ⟨item, h, none⟩

def parseItemsInto : ℕ → Heap → Text → Option (Parsed (List Item))
  | 0, h, _ => some ⟨[], h, none⟩
  | n + 1, h, value =>
    let child := newItem h
    (parseValueInto n child.1 child.2 (value.dropWhile blank)).bind
      (parseBehind rbracket (parseItemsInto n))

def parseMembersInto : ℕ → Heap → Text → Option (Parsed (List Item))
  | 0, h, _ => some ⟨[], h, none⟩
  | n + 1, h, value =>
    let child := newItem h
    (parseStringInto child.1 child.2 (value.dropWhile blank)).bind fun k =>
      match k.rest with
      | none => some ⟨[k.item], k.heap, none⟩
      | some value =>
        let value := value.dropWhile blank
        if peek value ≠ colon then some ⟨[k.item.named], k.heap, none⟩
        else
          (parseValueInto n k.item.named k.heap ((value.drop 1).dropWhile blank)).bind
            (parseBehind rbrace (parseMembersInto n))

end

/-- `cJSON_Parse`; on failure the item is deleted with what is in it. -/
def cJsonParseOn (h : Heap) (value : Text) : Option (Option Item × Heap) :=
  let c := newItem h
  let value := value.dropWhile blank
  (parseValueInto (2 * value.length + 1) c.1 c.2 value).bind fun r =>
    if r.rest.isSome then some (some r.item, r.heap)
    else (r.item.delete r.heap).map fun h => (none, h)

/-! ### Printing -/

/-- A text is written with its NUL into a new block. -/
def printInto (size : ℕ) (text : Text) (h : Heap) : Option (ℕ × Heap) :=
  let out := h.malloc size
  (out.2.write out.1 (text.length + 1)).map fun h => (out.1, h)

/-- What `print_string_ptr` asks for. -/
def stringBlock (s : Text) : ℕ := (if s.any special then textSize s else s.length) + 3

/-- What `print_number` asks for. -/
def numberBlock (d : ℚ) : ℕ :=
  if d = 0 then 2
  else if |((intOfDouble d).toInt : ℚ) - d| ≤ dblEpsilon ∧ d ≤ 2 ^ 31 - 1 ∧ -2 ^ 31 ≤ d then 21
  else 64

/-- `len` of `print_array` -/
def arrayBlock (depth : ℕ) (child : List CJson) : ℕ :=
  5 + (child.map fun v => (printValue (depth + 1) v).length + 3).sum

/-- `len` of `print_object` -/
def objectBlock (depth : ℕ) (child : List (Text × CJson)) : ℕ :=
  7 + (depth + 1) + (child.map fun m => (printValue (depth + 1) m.2).length +
    (printStringPtr m.1).length + 2 + (2 + (depth + 1))).sum

mutual

/-- `print_value`: the block of the text; the texts of the children are freed when it is
put together. -/
def printValueOn (depth : ℕ) : CJson → Heap → Option (ℕ × Heap)
  | .null, h => printInto 5 (str "null") h
  | .bool false, h => printInto 6 (str "false") h
  | .bool true, h => printInto 5 (str "true") h
  | .number d, h => printInto (numberBlock d) (printNumber d) h
  | .string s, h => printInto (stringBlock s) (printStringPtr s) h
  | .array child, h =>
    if child.isEmpty then printInto 3 (printValue depth (.array child)) h
    else do
      let entries := h.malloc (8 * child.length)
      let printed ← printItemsOn (depth + 1) child entries.2
      let out ← printInto (arrayBlock depth child) (printValue depth (.array child)) printed.2
      let h ← out.2.freeAll (printed.1 ++ [entries.1])
      return (out.1, h)
  | .object child, h =>
    if child.isEmpty then printInto (depth + 4) (printValue depth (.object child)) h
    else do
      let entries := h.malloc (8 * child.length)
      let names := entries.2.malloc (8 * child.length)
      let printed ← printMembersOn (depth + 1) child names.2
      let out ← printInto (objectBlock depth child) (printValue depth (.object child)) printed.2
      let h ← out.2.freeAll (printed.1 ++ [names.1, entries.1])
      return (out.1, h)

def printItemsOn (depth : ℕ) : List CJson → Heap → Option (List ℕ × Heap)
  | [], h => some ([], h)
  | v :: vs, h => do
    let ret ← printValueOn depth v h
    let rest ← printItemsOn depth vs ret.2
    return (ret.1 :: rest.1, rest.2)

def printMembersOn (depth : ℕ) : List (Text × CJson) → Heap → Option (List ℕ × Heap)
  | [], h => some ([], h)
  | (k, v) :: ms, h => do
    let str ← printInto (stringBlock k) (printStringPtr k) h
    let ret ← printValueOn depth v str.2
    let rest ← printMembersOn depth ms ret.2
    return (str.1 :: ret.1 :: rest.1, rest.2)

end

/-! ### Constructors -/

/-- `cJSON_strdup`, which copies as many bytes as it asks for. -/
def strdup (s : Text) (h : Heap) : ℕ × Heap := h.malloc (s.length + 1)

mutual

/-- `cJSON_CreateString` and its companions, for an item and all that is added to it. -/
def createOn : CJson → Heap → Item × Heap
  | .null, h => newItem h
  | .bool _, h => newItem h
  | .number _, h => newItem h
  | .string s, h =>
    let item := h.malloc itemSize
    let valuestring := strdup s item.2
    (.mk item.1 (some valuestring.1) none [], valuestring.2)
  | .array child, h =>
    let item := h.malloc itemSize
    let r := createItemsOn child item.2
    (.mk item.1 none none r.1, r.2)
  | .object child, h =>
    let item := h.malloc itemSize
    let r := createMembersOn child item.2
    (.mk item.1 none none r.1, r.2)

/-- `cJSON_AddItemToArray`, for each item. -/
def createItemsOn : List CJson → Heap → List Item × Heap
  | [], h => ([], h)
  | v :: vs, h =>
    let r := createOn v h
    let rs := createItemsOn vs r.2
    (r.1 :: rs.1, rs.2)

/-- `cJSON_AddItemToObject`, for each member: the item gets a copy of the name. -/
def createMembersOn : List (Text × CJson) → Heap → List Item × Heap
  | [], h => ([], h)
  | (k, v) :: ms, h =>
    let r := createOn v h
    let string := strdup k r.2
    let rs := createMembersOn ms string.2
    (r.1.setString string.1 :: rs.1, rs.2)

end

/-! ### What is freed -/

namespace Item

theorem freeIf_eq (h : Heap) (p : Option ℕ) : freeIf h p = h.freeAll p.toList := by
  cases p with
  | none => rfl
  | some b =>
    show h.free b = h.freeAll [b]
    rw [Heap.freeAll, List.foldlM_cons]
    exact (Option.bind_fun_some _).symm

mutual

/-- An item is deleted by freeing its blocks. -/
theorem delete_eq : ∀ (c : Item) (h : Heap), c.delete h = h.freeAll c.blocks
  | mk block valuestring string child, h => by
    rw [delete, deleteChain_eq child h, blocks, Heap.freeAll_append]
    congr 1
    funext h₁
    rw [freeIf_eq, Heap.freeAll_append]
    congr 1
    funext h₂
    rw [freeIf_eq, Heap.freeAll_append]
    congr 1
    funext h₃
    exact freeIf_eq h₃ (some block)

theorem deleteChain_eq : ∀ (cs : List Item) (h : Heap), deleteChain h cs = h.freeAll
    (chainBlocks cs)
  | [], _ => rfl
  | c :: next, h => by
    rw [deleteChain, chainBlocks, Heap.freeAll_append, delete_eq c h]
    congr 1
    funext h₁
    exact deleteChain_eq next h₁

end

variable {h h' : Heap}

/-- The blocks that an item holds are given back by its deletion. -/
theorem delete_grows {c : Item} {bs : List ℕ} (g : h.Grows (c.blocks ++ bs) h') :
    ∃ h'', c.delete h' = some h'' ∧ h.Grows bs h'' := by
  rw [delete_eq]
  exact g.freeAll

end Item

/-! ### What a parser leaves -/

section Parse

variable {α β γ : Type} {h : Heap}

theorem grows_newItem (h : Heap) : h.Grows (newItem h).1.blocks (newItem h).2 :=
  Heap.grows_malloc h itemSize

/-- What a parser does on the heap, by what it makes of the text: it stops at the same place
and leaves `Q` behind, and if the text breaks it, it writes behind a block. -/
inductive Mirrors (Q : Parsed α → Prop) :
    Except (Stop Fault) (β × Text) → Option (Parsed α) → Prop
  | read {v : β} {rest : Text} {r : Parsed α} (hrest : r.rest = some rest) (hr : Q r) :
    Mirrors Q (.ok (v, rest)) (some r)
  | refused {r : Parsed α} (hrest : r.rest = none) (hr : Q r) :
    Mirrors Q (.error .refused) (some r)
  | broken {f : Fault} : Mirrors Q (.error (.broken f)) none

section Mirrors

variable {Q : Parsed α → Prop} {R : Parsed γ → Prop} {m : Scanner UInt8 Fault β} {t : Text}
variable {p : Option (Parsed α)} {δ : Type}

theorem Mirrors.pure (hp : Mirrors Q (m t) p) (f : β → δ) :
    Mirrors Q ((m >>= fun v => Pure.pure (f v)) t) p := by
  generalize hm : m t = result at hp
  cases hp with
  | @read v rest r hrest hr =>
    rw [bind_ok hm]
    exact .read hrest hr
  | refused hrest hr =>
    rw [bind_error hm]
    exact .refused hrest hr
  | broken =>
    rw [bind_error hm]
    exact .broken

/-- One parser behind the other; the second one is not called when the first has failed. -/
theorem Mirrors.bind {f : β → Scanner UInt8 Fault δ} {k : Parsed α → Option (Parsed γ)}
    (hp : Mirrors Q (m t) p)
    (hread : ∀ v rest r, r.rest = some rest → Q r → Mirrors R (f v rest) (k r))
    (hrefused : ∀ r, r.rest = none → Q r → Mirrors (β := δ) R (.error .refused) (k r)) :
    Mirrors R ((m >>= f) t) (p.bind k) := by
  generalize hm : m t = result at hp
  cases hp with
  | @read v rest r hrest hr =>
    rw [bind_ok hm]
    exact hread v rest r hrest hr
  | @refused r hrest hr =>
    rw [bind_error hm]
    exact hrefused r hrest hr
  | broken =>
    rw [bind_error hm]
    exact .broken

theorem Mirrors.map {r : Except (Stop Fault) (β × Text)} (hp : Mirrors Q r p)
    {f : Parsed α → Parsed γ} (hrest : ∀ q, (f q).rest = q.rest) (hf : ∀ q, Q q → R (f q)) :
    Mirrors R r (p.map f) := by
  cases hp with
  | @read v rest q hq hr => exact .read ((hrest q).trans hq) (hf q hr)
  | @refused q hq hr => exact .refused ((hrest q).trans hq) (hf q hr)
  | broken => exact .broken

theorem Mirrors.imp {Q' : Parsed α → Prop} {r : Except (Stop Fault) (β × Text)}
    (hp : Mirrors Q r p) (h : ∀ q, Q q → Q' q) : Mirrors Q' r p := by
  cases hp with
  | read hrest hr => exact .read hrest (h _ hr)
  | refused hrest hr => exact .refused hrest (h _ hr)
  | broken => exact .broken

end Mirrors

/-- The blocks that an item has after the parser: those it had, and new ones. -/
def Parsed.Adds (item : Item) (h : Heap) (r : Parsed Item) : Prop :=
  ∃ new, r.item.blocks.Perm (item.blocks ++ new) ∧ h.Grows new r.heap

/-- The chain owns what the parser has allocated. -/
def Parsed.Fills (h : Heap) (r : Parsed (List Item)) : Prop :=
  h.Grows (Item.chainBlocks r.item) r.heap

theorem adds_nothing (item : Item) (h : Heap) (rest : Option Text) :
    Parsed.Adds item h ⟨item, h, rest⟩ :=
  ⟨[], by rw [List.append_nil], Heap.Grows.refl h⟩

theorem Parsed.Adds.grows {r : Parsed Item} {item : Item} {h h₁ : Heap} (hadds : r.Adds item h₁)
    (g : h.Grows item.blocks h₁) : h.Grows r.item.blocks r.heap := by
  obtain ⟨new, hperm, gnew⟩ := hadds
  exact (g.trans gnew).perm hperm.symm

theorem setChild_adds {block : ℕ} {string : Option ℕ} {r : Parsed (List Item)} (hr : r.Fills h) :
    Parsed.Adds (.mk block none string []) h
      ⟨(Item.mk block none string []).setChild r.item, r.heap, r.rest⟩ :=
  ⟨_, List.perm_append_comm, hr⟩

theorem fills_single {r : Parsed Item} (g : h.Grows r.item.blocks r.heap) (rest : Option Text) :
    Parsed.Fills h ⟨[r.item], r.heap, rest⟩ := by
  rw [Parsed.Fills, Item.chainBlocks, Item.chainBlocks, List.append_nil]
  exact g

theorem parseStringInto_mirrors (block : ℕ) (string : Option ℕ) (h : Heap) (str : Text) :
    Mirrors (fun r => r.Adds (.mk block none string []) h ∧
        ∃ valuestring, r.item = .mk block valuestring string [])
      (parseString str) (parseStringInto (.mk block none string []) h str) := by
  rw [parseString, parseStringInto]
  split_ifs with hquote
  · exact .refused rfl ⟨adds_nothing _ h none, none, rfl⟩
  · simp only [Heap.write_malloc]
    by_cases hfits :
      (unescape 0 (str.drop 1)).1.length + 1 ≤ stringLength 0 (str.drop 1) + 1
    · rw [if_neg (not_lt.mpr hfits), if_pos hfits]
      refine .read rfl ⟨⟨[_], ?_, Heap.grows_malloc h _⟩, _, rfl⟩
      exact @List.perm_append_comm _ [_] _
    · rw [if_pos (not_le.mp hfits), if_neg hfits]
      exact .broken

theorem parseInside_mirrors {opening closing : UInt8}
    {inside : Heap → Text → Option (Parsed (List Item))} {m : Scanner UInt8 Fault (List β)}
    (hinside : ∀ h t, Mirrors (Parsed.Fills h) (m t) (inside h t))
    (block : ℕ) (string : Option ℕ) (h : Heap) (value : Text) :
    Mirrors (Parsed.Adds (.mk block none string []) h)
      ((do
        expect opening
        skip
        branch closing (pure []) m : Scanner UInt8 Fault (List β)) value)
      (parseInside opening closing inside (.mk block none string []) h value) := by
  rw [parseInside]
  rw [expect_run]
  by_cases hopen : peek value = opening
  · rw [if_neg (not_not.mpr hopen), if_pos hopen, skip, skipThen_run, branch_run]
    simp only
    split_ifs
    · exact .read rfl (adds_nothing _ h _)
    · exact (hinside h _).map (fun _ => rfl) fun r hr => setChild_adds hr
  · rw [if_pos hopen, if_neg hopen]
    exact .refused rfl (adds_nothing _ h none)

theorem parseBehind_none {closing : UInt8} {more : Heap → Text → Option (Parsed (List Item))}
    {r : Parsed Item} (hr : r.rest = none) (g : h.Grows r.item.blocks r.heap) :
    Mirrors (β := β) (Parsed.Fills h) (.error .refused) (parseBehind closing more r) := by
  rw [parseBehind, hr]
  exact .refused rfl (fills_single g none)

theorem parseBehind_mirrors {closing : UInt8} {more : Heap → Text → Option (Parsed (List Item))}
    {m : Scanner UInt8 Fault (List β)}
    (hmore : ∀ h t, Mirrors (Parsed.Fills h) (m t) (more h t)) (v : β)
    {r : Parsed Item} {rest : Text} (hr : r.rest = some rest)
    (g : h.Grows r.item.blocks r.heap) :
    Mirrors (Parsed.Fills h)
      ((do
        skip
        branch comma
          (do
            let vs ← m
            return v :: vs)
          (do
            expect closing
            return [v]) : Scanner UInt8 Fault (List β)) rest)
      (parseBehind closing more r) := by
  rw [parseBehind, hr, skip, skipThen_run, branch_run]
  simp only
  split_ifs with hcomma hclose
  · refine ((hmore r.heap _).map (fun rs => ?_) fun rs hrs => ?_).pure _
    · rfl
    · exact g.trans hrs
  · rw [expect_run, if_pos hclose]
    exact .read rfl (fills_single g _)
  · rw [expect_run, if_neg hclose]
    exact .refused rfl (fills_single g _)

mutual

/-- An item keeps its blocks and owns the new ones, whether its text is read or not. -/
theorem parseValueInto_mirrors : ∀ (n block : ℕ) (string : Option ℕ) (h : Heap) (value : Text),
    Mirrors (Parsed.Adds (.mk block none string []) h) (parseValue n value)
      (parseValueInto n (.mk block none string []) h value)
  | 0, _, _, h, _ => .refused rfl (adds_nothing _ h none)
  | n + 1, block, string, h, value => by
    rw [parseValueInto]
    rcases hword : parseWord value with _ | ⟨v, rest⟩
    · rw [if_neg (by simp), parseValue_rest hword]
      split_ifs
      · exact ((parseStringInto_mirrors block string h value).pure _).imp fun r hr => hr.1
      · exact .read rfl (adds_nothing _ h _)
      · exact (parseInside_mirrors (parseItemsInto_mirrors n) block string h value).pure _
      · exact (parseInside_mirrors (parseMembersInto_mirrors n) block string h value).pure _
      · exact .refused rfl (adds_nothing _ h none)
    · rw [if_pos Option.isSome_some, parseValue_word hword]
      exact .read rfl (adds_nothing _ h _)

theorem parseItemsInto_mirrors : ∀ (n : ℕ) (h : Heap) (value : Text),
    Mirrors (Parsed.Fills h) (parseItems n value) (parseItemsInto n h value)
  | 0, h, _ => .refused rfl (Heap.Grows.refl h)
  | n + 1, h, value => by
    rw [parseItemsInto, parseItems, skip, skipThen_run]
    refine (parseValueInto_mirrors n _ none _ _).bind (fun v rest r hrest hr => ?_)
      fun r hrest hr => ?_
    · exact parseBehind_mirrors (parseItemsInto_mirrors n) v hrest (hr.grows (grows_newItem h))
    · exact parseBehind_none hrest (hr.grows (grows_newItem h))

theorem parseMembersInto_mirrors : ∀ (n : ℕ) (h : Heap) (value : Text),
    Mirrors (Parsed.Fills h) (parseMembers n value) (parseMembersInto n h value)
  | 0, h, _ => .refused rfl (Heap.Grows.refl h)
  | n + 1, h, value => by
    rw [parseMembersInto, parseMembers, skip, skipThen_run]
    refine (parseStringInto_mirrors _ none _ _).bind (fun k rest r hrest hr => ?_)
      fun r hrest hr => ?_
    · obtain ⟨hadds, name, hname⟩ := hr
      have hnamed : r.item.named = .mk (h.malloc itemSize).1 none name [] := by
        rw [hname]
        rfl
      have g : h.Grows r.item.named.blocks r.heap := by
        have gname := hadds.grows (grows_newItem h)
        rw [hname] at gname ⊢
        exact gname
      simp only [hrest]
      rw [skipThen_run, expect_run]
      by_cases hcolon : peek (rest.dropWhile blank) = colon
      · rw [if_neg (not_not.mpr hcolon), if_pos hcolon, skipThen_run]
        rw [hnamed] at g ⊢
        refine (parseValueInto_mirrors n _ name r.heap _).bind (fun v rest r' hrest hr' => ?_)
          fun r' hrest hr' => ?_
        · exact parseBehind_mirrors (parseMembersInto_mirrors n) (k, v) hrest (hr'.grows g)
        · exact parseBehind_none hrest (hr'.grows g)
      · rw [if_pos hcolon, if_neg hcolon]
        exact .refused rfl (@fills_single h ⟨r.item.named, r.heap, none⟩ g none)
    · simp only [hrest]
      exact .refused rfl (fills_single (hr.1.grows (grows_newItem h)) none)

end

/-- The blocks of what `cJSON_Parse` returns. -/
def heldBlocks : Option Item → List ℕ
  | none => []
  | some item => item.blocks

/-- Of a text that is refused nothing is left in memory. -/
theorem cJsonParseOn_grows (h : Heap) (value : Text) :
    (cJsonParse value = .error .heap ∧ cJsonParseOn h value = none) ∨
      ∃ json c h', cJsonParse value = .ok json ∧ cJsonParseOn h value = some (c, h') ∧
        c.isSome = json.isSome ∧ h.Grows (heldBlocks c) h' := by
  have hmirrors := parseValueInto_mirrors (2 * (value.dropWhile blank).length + 1)
    (h.malloc itemSize).1 none (h.malloc itemSize).2 (value.dropWhile blank)
  rw [cJsonParseOn]
  simp only [newItem]
  cases hparse : cJsonParse value with
  | error f =>
    obtain rfl := cJsonParse_error hparse
    rw [outcome_eq_error.mp hparse] at hmirrors
    generalize parseValueInto _ _ _ _ = p at hmirrors ⊢
    cases hmirrors
    exact Or.inl ⟨rfl, rfl⟩
  | ok json =>
    refine Or.inr ⟨json, ?_⟩
    cases json with
    | none =>
      rw [outcome_eq_none.mp hparse] at hmirrors
      generalize parseValueInto _ _ _ _ = p at hmirrors ⊢
      cases hmirrors with
      | @refused r hrest hr =>
        have g := hr.grows (grows_newItem h)
        rw [← List.append_nil (Item.blocks _)] at g
        obtain ⟨h', hdelete, g'⟩ := Item.delete_grows g
        refine ⟨none, h', rfl, ?_, rfl, g'⟩
        rw [Option.bind_some, hrest, if_neg (by simp), hdelete]
        rfl
    | some v =>
      obtain ⟨rest, hread⟩ := outcome_eq_some.mp hparse
      rw [hread] at hmirrors
      generalize parseValueInto _ _ _ _ = p at hmirrors ⊢
      cases hmirrors with
      | @read _ _ r hrest hr =>
        refine ⟨some r.item, r.heap, rfl, ?_, rfl, hr.grows (grows_newItem h)⟩
        rw [Option.bind_some, hrest, if_pos Option.isSome_some]

/-- A text makes the parser write behind a block, or it is refused or read; what is read can be
deleted, which frees it once, and nothing of it is live then. -/
theorem parsed_deleted (h : Heap) (value : Text) :
    (cJsonParse value = .error .heap ∧ cJsonParseOn h value = none) ∨
      ∃ json c h', cJsonParse value = .ok json ∧ cJsonParseOn h value = some (c, h') ∧
        c.isSome = json.isSome ∧ (c = none → h'.live = h.live) ∧
        ∀ item, c = some item → ∃ h'', item.delete h' = some h'' ∧ h''.live = h.live := by
  rcases cJsonParseOn_grows h value with hbroken | ⟨json, c, h', hjson, hparse, hsome, g⟩
  · exact Or.inl hbroken
  refine Or.inr ⟨json, c, h', hjson, hparse, hsome, ?_, ?_⟩
  · rintro rfl
    exact g.live_nil
  · rintro item rfl
    rw [heldBlocks, ← List.append_nil item.blocks] at g
    obtain ⟨h'', hdelete, g'⟩ := Item.delete_grows g
    exact ⟨h'', hdelete, g'.live_nil⟩

end Parse

/-! ### What a printer leaves -/

section Print

theorem printInto_fits {size : ℕ} {text : Text} (hfits : text.length < size) (h : Heap) :
    printInto size text h = some (h.malloc size) := by
  rw [printInto, Heap.write_malloc_fits h hfits]
  rfl

theorem length_printStringPtr_lt {s : Text} (hs : 0 ∉ s) :
    (printStringPtr s).length < stringBlock s := by
  rw [stringBlock]
  split_ifs with hspecial
  · rw [length_printStringPtr hs]
    omega
  · rw [printStringPtr, if_neg hspecial, List.length_append, List.length_cons,
      List.length_singleton]
    omega

theorem length_printNumber_lt {n : ℤ} (hn : |n| < 2 ^ 53) :
    (printNumber n).length < numberBlock n := by
  rw [length_printNumber, numberSize_intCast hn, numberBlock]
  by_cases h0 : n = 0
  · subst h0
    rw [if_pos Int.cast_zero]
    decide
  have hsize : decimalSize n < 21 := by
    have hnat : n.natAbs < 2 ^ 53 := by
      rw [Int.abs_eq_natAbs] at hn
      exact_mod_cast hn
    have hlog : Nat.log 10 n.natAbs < 16 :=
      Nat.log_lt_of_lt_pow (by omega) (hnat.trans (by norm_num))
    rw [decimalSize, digitCount, signSize]
    split_ifs
    · omega
    · omega
  rw [if_neg (by exact_mod_cast h0)]
  split_ifs
  · exact hsize
  · omega

theorem length_printItems_le (depth : ℕ) (vs : List CJson) :
    (printItems depth vs).length ≤ (vs.map fun v => (printValue depth v).length + 3).sum := by
  induction vs with
  | nil => exact le_refl 0
  | cons v vs ih =>
    have hsep : (if vs.isEmpty then [] else [comma, space]).length ≤ 2 := by
      split
      · exact Nat.zero_le 2
      · exact le_refl 2
    rw [printItems, List.length_append, List.length_append, List.map_cons, List.sum_cons]
    omega

theorem length_printMembers_le (depth : ℕ) (ms : List (Text × CJson)) :
    (printMembers depth ms).length ≤ (ms.map fun m => (printValue depth m.2).length +
      (printStringPtr m.1).length + 2 + (2 + depth)).sum := by
  induction ms with
  | nil => exact le_refl 0
  | cons m ms ih =>
    obtain ⟨k, v⟩ := m
    have hsep : (if ms.isEmpty then [] else [comma]).length ≤ 1 := by
      split
      · exact Nat.zero_le 1
      · exact le_refl 1
    rw [printMembers, List.map_cons, List.sum_cons]
    simp only [tabs, List.length_append, List.length_replicate, List.length_cons, List.length_nil]
    omega

theorem length_array_lt (depth : ℕ) (child : List CJson) :
    (printValue depth (.array child)).length < arrayBlock depth child := by
  have hitems := length_printItems_le (depth + 1) child
  rw [printValue, List.length_append, List.length_cons, List.length_singleton, arrayBlock]
  omega

theorem length_object_lt (depth : ℕ) (child : List (Text × CJson)) :
    (printValue depth (.object child)).length < objectBlock depth child := by
  have hmembers := length_printMembers_le (depth + 1) child
  rw [printValue, objectBlock]
  simp only [tabs, List.length_append, List.length_replicate, List.length_cons, List.length_nil]
  omega

/-- A text that fits is what a printer leaves of one block. -/
theorem printInto_grows {size : ℕ} {text : Text} (hfits : text.length < size) (h : Heap) :
    ∃ out h', printInto size text h = some (out, h') ∧ h.Grows [out] h' :=
  ⟨_, _, printInto_fits hfits h, Heap.grows_malloc h size⟩

mutual

/-- The blocks hold what is printed into them, and only the text is left. -/
theorem printValueOn_grows : ∀ (v : CJson), Printable v → ∀ (depth : ℕ) (h : Heap),
    ∃ out h', printValueOn depth v h = some (out, h') ∧ h.Grows [out] h'
  | .number _, ⟨n, rfl, hn⟩, _, h => printInto_grows (length_printNumber_lt hn) h
  | .string _, hs, _, h => printInto_grows (length_printStringPtr_lt hs) h
  | .array child, hchild, depth, h => by
    rw [printValueOn]
    split
    · rename_i hempty
      obtain rfl := List.isEmpty_iff.mp hempty
      exact printInto_grows (Nat.lt_succ_self 2) h
    · obtain ⟨printed, h₁, hprint, g⟩ := printItemsOn_grows child hchild (depth + 1)
        (h.malloc (8 * child.length)).2
      have hout := printInto_fits (length_array_lt depth child) h₁
      have hperm := @List.perm_append_comm _ [(h.malloc (8 * child.length)).1] printed
      obtain ⟨h₂, hfree, g'⟩ :=
        ((((Heap.grows_malloc h _).trans g).perm hperm).malloc (arrayBlock depth child)).freeAll
      refine ⟨_, h₂, ?_, g'⟩
      simp only [Option.bind_eq_bind, hprint, Option.bind_some, hout, hfree]
      rfl
  | .object child, hchild, depth, h => by
    rw [printValueOn]
    split
    · rename_i hempty
      obtain rfl := List.isEmpty_iff.mp hempty
      refine printInto_grows ?_ h
      simp [printValue, printMembers, tabs]
    · obtain ⟨printed, h₁, hprint, g⟩ := printMembersOn_grows child hchild (depth + 1)
        ((h.malloc (8 * child.length)).2.malloc (8 * child.length)).2
      have hout := printInto_fits (length_object_lt depth child) h₁
      have hperm : ([(h.malloc (8 * child.length)).1,
          ((h.malloc (8 * child.length)).2.malloc (8 * child.length)).1] ++ printed).Perm
          (printed ++ [((h.malloc (8 * child.length)).2.malloc (8 * child.length)).1,
            (h.malloc (8 * child.length)).1]) :=
        List.perm_append_comm.trans ((List.Perm.swap _ _ _).append_left _)
      obtain ⟨h₂, hfree, g'⟩ := (((((Heap.grows_malloc h _).malloc _).trans g).perm hperm).malloc
        (objectBlock depth child)).freeAll
      refine ⟨_, h₂, ?_, g'⟩
      simp only [Option.bind_eq_bind, hprint, Option.bind_some, hout, hfree]
      rfl

theorem printItemsOn_grows : ∀ (vs : List CJson), PrintableItems vs → ∀ (depth : ℕ) (h : Heap),
    ∃ printed h', printItemsOn depth vs h = some (printed, h') ∧ h.Grows printed h'
  | [], _, _, h => ⟨[], h, rfl, Heap.Grows.refl h⟩
  | v :: vs, ⟨hv, hvs⟩, depth, h => by
    obtain ⟨ret, h₁, hret, g₁⟩ := printValueOn_grows v hv depth h
    obtain ⟨printed, h₂, hrest, g₂⟩ := printItemsOn_grows vs hvs depth h₁
    refine ⟨ret :: printed, h₂, ?_, g₁.trans g₂⟩
    rw [printItemsOn]
    simp only [Option.bind_eq_bind, hret, Option.bind_some, hrest]
    rfl

theorem printMembersOn_grows : ∀ (ms : List (Text × CJson)), PrintableMembers ms →
    ∀ (depth : ℕ) (h : Heap),
    ∃ printed h', printMembersOn depth ms h = some (printed, h') ∧ h.Grows printed h'
  | [], _, _, h => ⟨[], h, rfl, Heap.Grows.refl h⟩
  | (k, v) :: ms, ⟨hk, hv, hms⟩, depth, h => by
    have hstr := printInto_fits (length_printStringPtr_lt hk) h
    obtain ⟨ret, h₁, hret, g₁⟩ := printValueOn_grows v hv depth (h.malloc (stringBlock k)).2
    obtain ⟨printed, h₂, hrest, g₂⟩ := printMembersOn_grows ms hms depth h₁
    refine ⟨(h.malloc (stringBlock k)).1 :: ret :: printed, h₂, ?_,
      ((Heap.grows_malloc h _).trans g₁).trans g₂⟩
    rw [printMembersOn]
    simp only [Option.bind_eq_bind, hstr, hret, Option.bind_some, hrest]
    rfl

end

end Print

/-! ### What a constructor leaves -/

section Create

theorem createOn_item (v : CJson) (h : Heap) : ∃ block valuestring child,
    (createOn v h).1 = .mk block valuestring none child := by
  cases v with
  | null => exact ⟨_, _, _, rfl⟩
  | bool b => exact ⟨_, _, _, rfl⟩
  | number d => exact ⟨_, _, _, rfl⟩
  | string s => exact ⟨_, _, _, rfl⟩
  | array child => exact ⟨_, _, _, rfl⟩
  | object child => exact ⟨_, _, _, rfl⟩

theorem setString_blocks (block string : ℕ) (valuestring : Option ℕ) (child : List Item) :
    ((Item.mk block valuestring none child).setString string).blocks.Perm
      ((Item.mk block valuestring none child).blocks ++ [string]) := by
  simp only [Item.setString, Item.blocks, List.append_assoc]
  exact ((@List.perm_append_comm _ [string] _).append_left _).append_left _

mutual

/-- An item that is made owns all that was allocated for it. -/
theorem createOn_grows : ∀ (v : CJson) (h : Heap),
    h.Grows (createOn v h).1.blocks (createOn v h).2
  | .null, h => grows_newItem h
  | .bool _, h => grows_newItem h
  | .number _, h => grows_newItem h
  | .string s, h => ((Heap.grows_malloc h _).malloc (s.length + 1)).perm List.perm_append_comm
  | .array child, h =>
    ((Heap.grows_malloc h _).trans (createItemsOn_grows child _)).perm List.perm_append_comm
  | .object child, h =>
    ((Heap.grows_malloc h _).trans (createMembersOn_grows child _)).perm List.perm_append_comm

theorem createItemsOn_grows : ∀ (vs : List CJson) (h : Heap),
    h.Grows (Item.chainBlocks (createItemsOn vs h).1) (createItemsOn vs h).2
  | [], h => Heap.Grows.refl h
  | v :: vs, h => (createOn_grows v h).trans (createItemsOn_grows vs _)

theorem createMembersOn_grows : ∀ (ms : List (Text × CJson)) (h : Heap),
    h.Grows (Item.chainBlocks (createMembersOn ms h).1) (createMembersOn ms h).2
  | [], h => Heap.Grows.refl h
  | (k, v) :: ms, h => by
    have g := (createOn_grows v h).malloc (k.length + 1)
    obtain ⟨block, valuestring, child, hitem⟩ := createOn_item v h
    rw [createMembersOn]
    refine (g.perm ?_).trans (createMembersOn_grows ms _)
    rw [hitem]
    exact (setString_blocks block _ valuestring child).symm

end

end Create

/-! ### The calls -/

/-- What the functions of `process.c` do with the library. -/
inductive JsonCall
  /-- `parse_process`, `parse_process_list`: a text is parsed, and what came of it deleted -/
  | parse (text : Text)
  /-- `create_process_list_json_str` and its companion: an item is made, printed and
  deleted; nobody frees the text -/
  | print (json : CJson)

namespace JsonCall

def on (h : Heap) : JsonCall → Option Heap
  | parse text => do
    let r ← cJsonParseOn h text
    match r.1 with
    | none => return r.2
    | some json => json.delete r.2
  | print json => do
    let item := createOn json h
    let str ← printValueOn 0 json item.2
    item.1.delete str.2

/-- How many texts a call makes. -/
def texts : JsonCall → ℕ
  | parse _ => 0
  | print _ => 1

/-- The strings of the text fit into their blocks, the numbers that are printed into theirs. -/
def Fits : JsonCall → Prop
  | parse text => cJsonParse text ≠ .error .heap
  | print json => Printable json

/-- A call frees what it has allocated, once each, but for the text that it makes. -/
theorem on_grows {call : JsonCall} (hfits : call.Fits) (h : Heap) :
    ∃ left h', call.on h = some h' ∧ h.Grows left h' ∧ left.length = call.texts := by
  cases call with
  | parse text =>
    rcases cJsonParseOn_grows h text with ⟨hbroken, -⟩ | ⟨json, c, h₁, -, hparse, -, g⟩
    · exact absurd hbroken hfits
    rw [on, hparse]
    cases c with
    | none => exact ⟨[], h₁, rfl, g, rfl⟩
    | some c =>
      rw [heldBlocks, ← List.append_nil c.blocks] at g
      obtain ⟨h₂, hdelete, g'⟩ := Item.delete_grows g
      exact ⟨[], h₂, hdelete, g', rfl⟩
  | print json =>
    have g := createOn_grows json h
    obtain ⟨str, h₁, hprint, gtext⟩ := printValueOn_grows json hfits 0 (createOn json h).2
    obtain ⟨h₂, hdelete, g'⟩ := Item.delete_grows (g.trans gtext)
    refine ⟨[str], h₂, ?_, g', rfl⟩
    rw [on]
    simp only [Option.bind_eq_bind, hprint, Option.bind_some]
    exact hdelete

/-- Over any calls no block is freed twice, and one is left of each text. -/
theorem run_grows {calls : List JsonCall} (hfits : ∀ call ∈ calls, call.Fits) (h : Heap) :
    ∃ left h', calls.foldlM on h = some h' ∧ h.Grows left h' ∧
      left.length = (calls.map texts).sum := by
  induction calls generalizing h with
  | nil => exact ⟨[], h, rfl, Heap.Grows.refl h, rfl⟩
  | cons call calls ih =>
    obtain ⟨hcall, hcalls⟩ := List.forall_mem_cons.mp hfits
    obtain ⟨first, h₁, hfirst, g₁, hlen₁⟩ := on_grows hcall h
    obtain ⟨rest, h₂, hrest, g₂, hlen₂⟩ := ih hcalls h₁
    refine ⟨first ++ rest, h₂, ?_, g₁.trans g₂, ?_⟩
    · rw [List.foldlM_cons, hfirst]
      exact hrest
    · rw [List.length_append, hlen₁, hlen₂, List.map_cons, List.sum_cons]

end JsonCall

end KbPm
