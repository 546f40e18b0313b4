/-
Traversing a tree that falls apart meanwhile.

Nodes are linked to their parents.  A traversal looks up the children of a node,
marks the node, and goes on with each child; marking a node hands its children
over to `top`.

* `IsForest`, `Below`, `below_disjoint` — a finite forest, and its subtrees;
* `after`, `children_after` — the links after some nodes have been marked: in a
  subtree without a marked node they are as they were;
* `traverse_error_iff` — a traversal fails where it looks up children;
* `Shallow`, `preorder` — how deep a subtree is, and its nodes in order;
* `traverse_iff` — so the traversal marks the nodes of the subtree, each of them once, as long as
  it can go on.
-/
import Mathlib

namespace Subtree

variable {α : Type}

/-- `c` is a child of `p`. -/
def IsChild (links : List (α × α)) (c p : α) : Prop := (c, p) ∈ links

/-- `x` is in the subtree of `v`. -/
def Below (links : List (α × α)) : α → α → Prop := Relation.ReflTransGen (IsChild links)

/-- Every node has one parent at most, and none is below itself. -/
structure IsForest (links : List (α × α)) : Prop where
  unique : (links.map Prod.fst).Nodup
  acyclic : ∀ v, ¬Relation.TransGen (IsChild links) v v

section Forest

variable {links : List (α × α)}

theorem IsForest.parent_unique (h : IsForest links) : Relator.RightUnique (IsChild links) := by
  intro c p q hp hq
  obtain ⟨i, hi⟩ := List.mem_iff_getElem?.mp hp
  obtain ⟨j, hj⟩ := List.mem_iff_getElem?.mp hq
  have hi' : (links.map Prod.fst)[i]? = some c := by rw [List.getElem?_map, hi, Option.map_some]
  have hj' : (links.map Prod.fst)[j]? = some c := by rw [List.getElem?_map, hj, Option.map_some]
  obtain rfl : i = j :=
    (List.getElem?_inj (List.getElem?_eq_some_iff.mp hi').1 h.unique).mp (hi'.trans hj'.symm)
  exact congrArg Prod.snd (Option.some_inj.mp (hi.symm.trans hj))

theorem below_cases {x v : α} : Below links x v ↔ x = v ∨ ∃ c, Below links x c ∧
    IsChild links c v := by
  rw [Below, Relation.ReflTransGen.cases_tail_iff]
  exact or_congr_left eq_comm

/-- The subtrees of different children have no node in common. -/
theorem below_disjoint (h : IsForest links) {v c d x : α} (hc : IsChild links c v)
    (hd : IsChild links d v) (hxc : Below links x c) (hxd : Below links x d) : c = d := by
  have hloop : ∀ {a b : α}, IsChild links a v → IsChild links b v → Below links a b → a = b := by
    intro a b ha hb hab
    rcases Relation.ReflTransGen.cases_head hab with heq | ⟨p, hap, hpb⟩
    · exact heq
    · -- the parent of `a` is `v`, which is then below itself
      obtain rfl := h.parent_unique hap ha
      exact absurd (Relation.TransGen.tail' hpb hb) (h.acyclic p)
  rcases Relation.ReflTransGen.total_of_right_unique h.parent_unique hxc hxd with hcd | hdc
  · exact hloop hc hd hcd
  · exact (hloop hd hc hdc).symm

theorem isChild_mono {links' : List (α × α)} (hsub : links ⊆ links') :
    IsChild links ≤ IsChild links' :=
  fun _ _ h => hsub h

theorem Below.mono {links' : List (α × α)} (hsub : links ⊆ links') {x v : α} (h : Below links x v) :
    Below links' x v := Relation.ReflTransGen.mono (isChild_mono hsub) x v h

theorem IsForest.sublist {links' : List (α × α)} (h : IsForest links')
    (hsub : links.Sublist links') :
    IsForest links :=
  ⟨h.unique.sublist (hsub.map Prod.fst), fun v hv =>
    h.acyclic v (Relation.TransGen.mono (isChild_mono hsub.subset) v v hv)⟩

/-- Children that come after their parents. -/
theorem isForest_of_lt [Preorder α] (hunique : (links.map Prod.fst).Nodup)
    (hlt : ∀ link ∈ links, link.2 < link.1) : IsForest links := by
  refine ⟨hunique, fun v hv => ?_⟩
  have hless : ∀ {x}, Relation.TransGen (IsChild links) x v → v < x := by
    intro x hx
    induction hx using Relation.TransGen.head_induction_on with
    | single h => exact hlt _ h
    | head h _ ih => exact ih.trans (hlt _ h)
  exact lt_irrefl v (hless hv)

/-- Going from a node to its children ends. -/
theorem IsForest.wellFounded (h : IsForest links) : WellFounded (IsChild links) := by
  classical
  -- there are fewer nodes below a child than below its parent
  let below (v : α) : Finset α :=
    (links.map Prod.fst).toFinset.filter (Relation.TransGen (IsChild links) · v)
  refine Subrelation.wf (r := InvImage (· < ·) fun v => (below v).card) (fun {c v} hc => ?_)
    (InvImage.wf _ wellFounded_lt)
  refine Finset.card_lt_card (Finset.ssubset_iff_subset_ne.mpr ⟨fun x hx => ?_, fun heq => ?_⟩)
  · obtain ⟨hmem, hx⟩ := Finset.mem_filter.mp hx
    exact Finset.mem_filter.mpr ⟨hmem, hx.tail hc⟩
  · -- the child is below `v`, but not below itself
    have hmem : c ∈ below v := by
      refine Finset.mem_filter.mpr ⟨?_, .single hc⟩
      exact List.mem_toFinset.mpr (List.mem_map.mpr ⟨(c, v), hc, rfl⟩)
    rw [← heq] at hmem
    exact h.acyclic c (Finset.mem_filter.mp hmem).2

end Forest

/-! ### Visits -/

section Visits

variable {ε : Type}

/-- Visit the nodes one after the other; `none` is the lack of depth. -/
def each (f : α → List α → Except ε (Option (List α))) :
    List α → List α → Except ε (Option (List α))
  | [], marked => .ok (some marked)
  | v :: vs, marked => do
    match ← f v marked with
    | none => return none
    | some marked => each f vs marked

/-- Visits that each mark nodes of their own area, as long as what has been marked `fits`: they
come to their end exactly if each of them does. -/
theorem each_iff {f : α → List α → Except ε (Option (List α))} {orders : α → List α}
    {area : α → α → Prop} {ends : α → Prop} {fits : List α → Prop}
    (hfits : ∀ {l l'}, fits (l ++ l') → fits l) {vs : List α}
    (hf : ∀ v ∈ vs, ∀ marked result, (∀ x, area v x → x ∉ marked) → fits marked →
      (f v marked = .ok (some result) ↔
        ends v ∧ fits (marked ++ orders v) ∧ result = marked ++ orders v))
    (horders : ∀ v, ∀ x ∈ orders v, area v x)
    (hdisjoint : vs.Pairwise fun v w => ∀ x, area v x → ¬area w x) {marked result : List α}
    (hmarked : ∀ v ∈ vs, ∀ x, area v x → x ∉ marked) (hroom : fits marked) :
    each f vs marked = .ok (some result) ↔
      (∀ v ∈ vs, ends v) ∧ fits (marked ++ vs.flatMap orders) ∧
        result = marked ++ vs.flatMap orders := by
  induction vs generalizing marked with
  | nil =>
    rw [each, Except.ok.injEq, Option.some.injEq]
    simpa [hroom] using eq_comm
  | cons v vs ih =>
    obtain ⟨hfirst, hrest⟩ := List.pairwise_cons.mp hdisjoint
    have hv := hf v List.mem_cons_self marked
    -- what is left to visit is still unmarked behind the first visit: the areas are disjoint
    have hfree : ∀ w ∈ vs, ∀ x, area w x → x ∉ marked ++ orders v := by
      intro w hw x hx hmem
      rcases List.mem_append.mp hmem with hmem | hmem
      · exact hmarked w (List.mem_cons_of_mem _ hw) x hx hmem
      · exact hfirst w hw x (horders v x hmem) hx
    have hih := ih (fun w hw => hf w (List.mem_cons_of_mem _ hw)) hrest hfree
    rw [List.forall_mem_cons, List.flatMap_cons, ← List.append_assoc]
    constructor
    · intro h
      rw [each] at h
      cases hresult : f v marked with
      | error e =>
        rw [hresult] at h
        cases h
      | ok visited =>
        rw [hresult] at h
        cases visited with
        | none => cases h
        | some visited =>
          obtain ⟨hends, hroom', rfl⟩ :=
            (hv visited (hmarked v List.mem_cons_self) hroom).mp hresult
          obtain ⟨hothers, hall, heq⟩ := (hih hroom').mp h
          exact ⟨⟨hends, hothers⟩, hall, heq⟩
    · rintro ⟨⟨hends, hothers⟩, hall, rfl⟩
      have hroom' : fits (marked ++ orders v) := hfits hall
      have hresult := (hv _ (hmarked v List.mem_cons_self) hroom).mpr ⟨hends, hroom', rfl⟩
      rw [each, hresult]
      exact (hih hroom').mpr ⟨hothers, hall, rfl⟩

/-- Visits fail at the first that does. -/
theorem each_error_iff {f : α → List α → Except ε (Option (List α))} {vs marked : List α} {e : ε} :
    each f vs marked = .error e ↔ ∃ before v after marked', vs = before ++ v :: after ∧
      each f before marked = .ok (some marked') ∧ f v marked' = .error e := by
  induction vs generalizing marked with
  | nil =>
    refine iff_of_false (by simp [each]) ?_
    rintro ⟨before, v, after, marked', h, -⟩
    simp at h
  | cons v vs ih =>
    have hhere : ∀ {r : Except ε (Option (List α))}, f v marked = r →
        ((∃ before w after marked', v :: vs = before ++ w :: after ∧
          each f before marked = .ok (some marked') ∧ f w marked' = .error e) ↔
        r = .error e ∨ ∃ marked₁, r = .ok (some marked₁) ∧ each f vs marked₁ = .error e) := by
      rintro r rfl
      constructor
      · rintro ⟨before, w, after, marked', hvs, hbefore, hw⟩
        cases before with
        | nil =>
          obtain ⟨rfl, rfl⟩ := List.cons_eq_cons.mp hvs
          cases hbefore
          exact Or.inl hw
        | cons b before =>
          obtain ⟨rfl, rfl⟩ := List.cons_eq_cons.mp hvs
          rw [each] at hbefore
          rcases hv : f v marked with e' | _ | marked₁
          · rw [hv] at hbefore
            cases hbefore
          · rw [hv] at hbefore
            cases hbefore
          · rw [hv] at hbefore
            exact Or.inr ⟨marked₁, rfl, ih.mpr ⟨before, w, after, marked', rfl, hbefore, hw⟩⟩
      · rintro (herror | ⟨marked₁, hv, hrest⟩)
        · exact ⟨[], v, vs, marked, rfl, rfl, herror⟩
        · obtain ⟨before, w, after, marked', rfl, hbefore, hw⟩ := ih.mp hrest
          refine ⟨v :: before, w, after, marked', rfl, ?_, hw⟩
          rw [each, hv]
          exact hbefore
    rw [each]
    rcases hv : f v marked with e' | _ | marked₁
    · rw [hhere hv]
      change Except.error e' = _ ↔ _
      simp
    · rw [hhere hv]
      change Except.ok none = _ ↔ _
      simp
    · rw [hhere hv]
      change each f vs marked₁ = _ ↔ _
      simp

/-- Look up the children of `v`, mark it, and go on with each child. -/
def traverse (look : List α → α → Except ε (List α)) : ℕ → α → List α → Except ε (Option (List α))
  | 0, _, _ => .ok none
  | depth + 1, v, marked => do
    let vs ← look marked v
    each (traverse look depth) vs (marked ++ [v])

/-- The traversal from `v` comes to look up the children of `w`, when it has marked some nodes. -/
inductive Looks (look : List α → α → Except ε (List α)) :
    ℕ → α → List α → List α → α → Prop
  | here {depth : ℕ} {v : α} {marked : List α} : Looks look (depth + 1) v marked marked v
  | child {depth : ℕ} {v c w : α} {marked marked' marked'' before after : List α}
    (hlook : look marked v = .ok (before ++ c :: after))
    (hbefore : each (traverse look depth) before (marked ++ [v]) = .ok (some marked'))
    (h : Looks look depth c marked' marked'' w) : Looks look (depth + 1) v marked marked'' w

/-- The traversal fails exactly if it fails to look up the children of a node. -/
theorem traverse_error_iff {look : List α → α → Except ε (List α)} {depth : ℕ} {v : α}
    {marked : List α} {e : ε} :
    traverse look depth v marked = .error e ↔
      ∃ marked' w, Looks look depth v marked marked' w ∧ look marked' w = .error e := by
  induction depth generalizing v marked with
  | zero =>
    refine iff_of_false (by simp [traverse]) ?_
    rintro ⟨marked', w, h, -⟩
    cases h
  | succ depth ih =>
    rw [traverse]
    cases hlook : look marked v with
    | error e' =>
      constructor
      · intro h
        cases h
        exact ⟨marked, v, .here, hlook⟩
      · rintro ⟨marked', w, hlooks, hw⟩
        cases hlooks with
        | here =>
          rw [hlook] at hw
          cases hw
          rfl
        | child hlook' =>
          rw [hlook] at hlook'
          cases hlook'
    | ok vs =>
      change each (traverse look depth) vs (marked ++ [v]) = .error e ↔ _
      rw [each_error_iff]
      constructor
      · rintro ⟨before, c, after, marked', rfl, hbefore, hc⟩
        obtain ⟨marked'', w, hlooks, hw⟩ := ih.mp hc
        exact ⟨marked'', w, .child hlook hbefore hlooks, hw⟩
      · rintro ⟨marked'', w, hlooks, hw⟩
        cases hlooks with
        | here =>
          rw [hlook] at hw
          cases hw
        | child hlook' hbefore h =>
          rw [hlook, Except.ok.injEq] at hlook'
          exact ⟨_, _, _, _, hlook', hbefore, ih.mpr ⟨_, _, h, hw⟩⟩

end Visits

/-! ### Marking -/

section Links

variable [DecidableEq α] {links : List (α × α)}

def children (links : List (α × α)) (v : α) : List α :=
  (links.filter fun link => link.2 = v).map Prod.fst

theorem children_cons (link : α × α) (links : List (α × α)) (v : α) :
    children (link :: links) v = if link.2 = v then link.1 :: children links v else
      children links v := by
  rw [children, List.filter_cons]
  by_cases h : link.2 = v
  · rw [if_pos (by simpa using h), if_pos h]
    rfl
  · rw [if_neg (by simpa using h), if_neg h]
    rfl

theorem mem_children {c v : α} : c ∈ children links v ↔ IsChild links c v := by
  rw [children, IsChild, List.mem_map]
  constructor
  · rintro ⟨⟨c', p⟩, hmem, rfl⟩
    obtain ⟨hlink, hp⟩ := List.mem_filter.mp hmem
    obtain rfl : p = v := by simpa using hp
    exact hlink
  · intro h
    exact ⟨(c, v), List.mem_filter.mpr ⟨h, by simp⟩, rfl⟩

theorem IsForest.children_nodup (h : IsForest links) (v : α) : (children links v).Nodup :=
  h.unique.sublist (List.filter_sublist.map Prod.fst)

/-- The links when the nodes `marked` have been marked, in this order.  Their children are those of
`top` then, and some of them may be gone. -/
def after (top : α) (stays : List α → α → Bool) (links : List (α × α)) (marked : List α) :
    List (α × α) :=
  (links.filter fun link => link.1 ∉ marked ∨ stays marked link.1).map fun link =>
    if link.2 ∈ marked then (link.1, top) else link

theorem after_cons (top : α) (stays : List α → α → Bool) (link : α × α) (links : List (α × α))
    (marked : List α) :
    after top stays (link :: links) marked =
      if link.1 ∉ marked ∨ stays marked link.1 then
        (if link.2 ∈ marked then (link.1, top) else link) :: after top stays links marked
      else after top stays links marked := by
  rw [after, List.filter_cons]
  by_cases h : link.1 ∉ marked ∨ stays marked link.1
  · rw [if_pos (by simpa using h), if_pos h]
    rfl
  · rw [if_neg (by simpa using h), if_neg h]
    rfl

theorem length_children_le (links : List (α × α)) (v : α) :
    (children links v).length ≤ links.length := by
  rw [children, List.length_map]
  exact List.length_filter_le _ _

theorem mem_after {top : α} {stays : List α → α → Bool} {marked : List α} {link : α × α}
    (h : link ∈ after top stays links marked) :
    ∃ link' ∈ links, link.1 = link'.1 ∧ (link.2 = link'.2 ∨ link.2 = top) := by
  obtain ⟨link', hlink', rfl⟩ := List.mem_map.mp h
  refine ⟨link', (List.mem_filter.mp hlink').1, ?_⟩
  split
  · exact ⟨rfl, Or.inr rfl⟩
  · exact ⟨rfl, Or.inl rfl⟩

/-- A subtree without a marked node is as it was. -/
theorem children_after {top : α} {stays : List α → α → Bool} {marked : List α} {v : α}
    (htop : v ≠ top)
    (hmarked : ∀ x, Below links x v → x ∉ marked) :
    children (after top stays links marked) v = children links v := by
  have hall : ∀ rest : List (α × α), rest ⊆ links →
      children (after top stays rest marked) v = children rest v := by
    intro rest hrest
    induction rest with
    | nil => rfl
    | cons link rest ih =>
      have hrest' := ih (List.subset_of_cons_subset hrest)
      rw [after_cons, children_cons]
      by_cases hv : link.2 = v
      · -- neither the child nor its parent is marked
        have hchild : IsChild links link.1 v := hv ▸ hrest List.mem_cons_self
        have hkept : link.1 ∉ marked := hmarked _ (.single hchild)
        have hparent : link.2 ∉ marked := hv ▸ hmarked v .refl
        rw [if_pos (Or.inl hkept), if_neg hparent, children_cons, if_pos hv, if_pos hv, hrest']
      · -- the link is not one of `v`, and to hand it to `top` does not make it one
        rw [if_neg hv]
        split
        · rw [children_cons, hrest', if_neg]
          split
          · exact Ne.symm htop
          · exact hv
        · exact hrest'
  exact hall links (List.Subset.refl _)

/-! ### Levels -/

/-- Going down from `v` there are at most `d` levels. -/
def Shallow (links : List (α × α)) : ℕ → α → Prop
  | 0, _ => False
  | d + 1, v => ∀ c, IsChild links c v → Shallow links d c

theorem shallow_succ {d : ℕ} {v : α} :
    Shallow links (d + 1) v ↔ ∀ c ∈ children links v, Shallow links d c :=
  forall_congr' fun c => by rw [mem_children]

instance decidableShallow : ∀ (d : ℕ) (v : α), Decidable (Shallow links d v)
  | 0, _ => .isFalse id
  | d + 1, v =>
    have := decidableShallow d
    decidable_of_iff' (∀ c ∈ children links v, Shallow links d c) shallow_succ

omit [DecidableEq α] in
theorem Shallow.mono {d e : ℕ} {v : α} (h : Shallow links d v) (hle : d ≤ e) :
    Shallow links e v := by
  induction d generalizing e v with
  | zero => exact h.elim
  | succ d ih =>
    obtain ⟨e, rfl⟩ : ∃ e', e = e' + 1 := ⟨e - 1, by omega⟩
    exact fun c hc => ih (h c hc) (by omega)

theorem IsForest.shallow (h : IsForest links) (v : α) : ∃ d, Shallow links d v := by
  induction v using h.wellFounded.induction with
  | h v ih =>
    choose! depth hdepth using ih
    refine ⟨((children links v).map depth).sum + 1, fun c hc => (hdepth c hc).mono ?_⟩
    exact List.single_le_sum (by simp) _ (List.mem_map_of_mem (mem_children.mpr hc))

/-- The nodes of the first `d` levels from `v` on, parents before their children. -/
def preorder (links : List (α × α)) : ℕ → α → List α
  | 0, _ => []
  | d + 1, v => v :: (children links v).flatMap (preorder links d)

theorem below_of_mem_preorder {d : ℕ} {v x : α} (h : x ∈ preorder links d v) : Below links x v := by
  induction d generalizing v with
  | zero => cases h
  | succ d ih =>
    rcases List.mem_cons.mp h with rfl | h
    · exact .refl
    · obtain ⟨c, hc, hx⟩ := List.mem_flatMap.mp h
      exact (ih hx).tail (mem_children.mp hc)

theorem Shallow.mem_preorder {d : ℕ} {v x : α} (h : Shallow links d v) :
    x ∈ preorder links d v ↔ Below links x v := by
  refine ⟨below_of_mem_preorder, fun hx => ?_⟩
  induction d generalizing v with
  | zero => exact h.elim
  | succ d ih =>
    rcases below_cases.mp hx with rfl | ⟨c, hx, hc⟩
    · exact List.mem_cons_self
    · exact List.mem_cons_of_mem _ (List.mem_flatMap.mpr ⟨c, mem_children.mpr hc, ih (h c hc) hx⟩)

theorem Shallow.preorder_eq {d e : ℕ} {v : α} (h : Shallow links d v) (hle : d ≤ e) :
    preorder links d v = preorder links e v := by
  induction d generalizing e v with
  | zero => exact h.elim
  | succ d ih =>
    obtain ⟨e, rfl⟩ : ∃ e', e = e' + 1 := ⟨e - 1, by omega⟩
    rw [preorder, preorder]
    congr 1
    exact List.flatMap_congr fun c hc => ih (h c (mem_children.mp hc)) (by omega)

omit [DecidableEq α] in
theorem IsForest.ne_of_below (h : IsForest links) {c v x : α} (hc : IsChild links c v)
    (hx : Below links x c) : x ≠ v := by
  rintro rfl
  exact h.acyclic x (Relation.TransGen.tail' hx hc)

/-- The subtrees of the children are apart. -/
theorem IsForest.children_disjoint (h : IsForest links) (v : α) :
    (children links v).Pairwise fun c d => ∀ x, Below links x c → ¬Below links x d := by
  refine (h.children_nodup v).pairwise_of_forall_ne fun c hc d hd hne x hxc hxd => hne ?_
  exact below_disjoint h (mem_children.mp hc) (mem_children.mp hd) hxc hxd

theorem IsForest.preorder_nodup (h : IsForest links) (d : ℕ) (v : α) :
    (preorder links d v).Nodup := by
  induction d generalizing v with
  | zero => exact List.nodup_nil
  | succ d ih =>
    refine List.nodup_cons.mpr ⟨fun hv => ?_, List.nodup_flatMap.mpr ⟨fun c _ => ih c, ?_⟩⟩
    · obtain ⟨c, hc, hvc⟩ := List.mem_flatMap.mp hv
      exact h.ne_of_below (mem_children.mp hc) (below_of_mem_preorder hvc) rfl
    · exact (h.children_disjoint v).imp fun hcd x hx hx' =>
        hcd x (below_of_mem_preorder hx) (below_of_mem_preorder hx')

/-! ### The traversal -/

section Traverse

variable {ε : Type}

/-- If the children of a node are looked up in the links as they are then, as long as what has been
marked `fits`, the traversal marks the nodes of the subtree, each of them once; it comes to its end
exactly if it goes deep enough, and all of them fit. -/
theorem traverse_iff (hforest : IsForest links) {look : List α → α → Except ε (List α)}
    {fits : List α → Prop} (hfits : ∀ {l l'}, fits (l ++ l') → fits l) {v : α}
    (hlook : ∀ w, Below links w v → ∀ marked, (∀ x, Below links x w → x ∉ marked) →
      fits (marked ++ [w]) → look marked w = .ok (children links w))
    (hfull : ∀ w, Below links w v → ∀ marked, fits marked → ¬fits (marked ++ [w]) →
      ∀ vs, look marked w ≠ .ok vs) {d : ℕ} {marked result : List α}
    (hmarked : ∀ x, Below links x v → x ∉ marked) (hroom : fits marked) :
    traverse look d v marked = .ok (some result) ↔
      Shallow links d v ∧ fits (marked ++ preorder links d v) ∧
        result = marked ++ preorder links d v := by
  induction d generalizing v marked result with
  | zero =>
    rw [traverse]
    simp [Shallow]
  | succ d ih =>
    have hpreorder : marked ++ preorder links (d + 1) v =
        marked ++ [v] ++ (children links v).flatMap (preorder links d) := by
      rw [preorder, List.append_cons]
    rw [traverse, hpreorder]
    by_cases hhere : fits (marked ++ [v])
    · rw [hlook v .refl marked hmarked hhere]
      -- each child is visited when its subtree is unmarked still
      have heach : each (traverse look d) (children links v) (marked ++ [v]) =
          .ok (some result) ↔
            (∀ c ∈ children links v, Shallow links d c) ∧
              fits (marked ++ [v] ++ (children links v).flatMap (preorder links d)) ∧
              result = marked ++ [v] ++ (children links v).flatMap (preorder links d) := by
        refine each_iff hfits (fun c hc marked' result' hfree hroom' => ?_)
          (fun _ _ => below_of_mem_preorder) (hforest.children_disjoint v) (fun c hc x hx hx' => ?_)
          hhere
        · rw [mem_children] at hc
          exact ih (fun w hw => hlook w (hw.tail hc)) (fun w hw => hfull w (hw.tail hc)) hfree
            hroom'
        · rw [mem_children] at hc
          rcases List.mem_append.mp hx' with hx' | hx'
          · exact hmarked x (hx.tail hc) hx'
          · exact hforest.ne_of_below hc hx (List.mem_singleton.mp hx')
      exact heach.trans (and_congr_left fun _ => shallow_succ.symm)
    · refine iff_of_false (fun h => ?_) fun h => hhere (hfits h.2.1)
      cases hresult : look marked v with
      | error e =>
        rw [hresult] at h
        cases h
      | ok vs => exact hfull v .refl marked hroom hhere vs hresult

/-- Without a limit it comes to its end if it goes deep enough. -/
theorem traverse_spec (hforest : IsForest links) {look : List α → α → Except ε (List α)} {v : α}
    (hlook : ∀ w, Below links w v → ∀ marked, (∀ x, Below links x w → x ∉ marked) →
      look marked w = .ok (children links w)) {d : ℕ} (hd : Shallow links d v) {marked : List α}
    (hmarked : ∀ x, Below links x v → x ∉ marked) :
    traverse look d v marked = .ok (some (marked ++ preorder links d v)) := by
  have htraverse := @traverse_iff α _ links ε hforest look (fun _ => True) (fun _ => trivial) v
    (fun w hw marked hfree _ => hlook w hw marked hfree)
    (fun _ _ _ _ hfull => absurd trivial hfull) d marked (marked ++ preorder links d v) hmarked
    trivial
  exact htraverse.mpr ⟨hd, trivial, rfl⟩

/-- A subtree has as many nodes as are marked. -/
theorem Shallow.ncard_below (hforest : IsForest links) {d : ℕ} {v : α} (h : Shallow links d v) :
    {x | Below links x v}.ncard = (preorder links d v).length := by
  have hset : {x | Below links x v} = ((preorder links d v).toFinset : Set α) := by
    ext x
    simp [h.mem_preorder]
  rw [hset, Set.ncard_coe_finset, List.toFinset_card_of_nodup (hforest.preorder_nodup d v)]

end Traverse

end Links

end Subtree
