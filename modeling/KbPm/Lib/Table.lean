/-
Lists as tables: an entry is found by its key.

A removal moves the entries behind it down, and changes each of them (the position that an
entry carries, say).

* `Edit`, `Edit.apply` — an entry is changed or removed, in a way that does not depend on
  where it is;
* `Edit.apply_comm` — edits of entries with different keys commute;
* `Edit.apply_related` — edits that are related, of lists that are;
* `Edit.apply_set`, `Edit.getElem?_apply_remove` — the same with indices.
-/
import Mathlib

namespace Table

variable {α κ : Type*}

/-- The key of an entry, and what becomes of one that moves down. -/
structure Layout (α κ : Type*) where
  key : α → κ
  moved : α → α
  key_moved : ∀ a, key (moved a) = key a

/-- What is done to an entry.  A change keeps the key, and goes together with moving down. -/
inductive Edit (L : Layout α κ)
  | change (f : α → α) (hkey : ∀ a, L.key (f a) = L.key a)
    (hmoved : ∀ a, f (L.moved a) = L.moved (f a))
  | remove

namespace Edit

variable {L : Layout α κ}

/-- The edit of the first entry of a list. -/
def here : Edit L → α → List α → List α
  | change f _ _, a, l => f a :: l
  | remove, _, l => l.map L.moved

theorem here_moved (e : Edit L) (a : α) (l : List α) :
    e.here (L.moved a) (l.map L.moved) = (e.here a l).map L.moved := by
  cases e with
  | change f hkey hmoved => rw [here, here, List.map_cons, hmoved]
  | remove => rfl

theorem keys_moved (L : Layout α κ) (l : List α) : (l.map L.moved).map L.key = l.map L.key := by
  rw [List.map_map]
  exact List.map_congr_left fun a _ => L.key_moved a

variable [DecidableEq κ]

/-- The edit of the first entry with key `k`. -/
def apply (e : Edit L) (k : κ) : List α → List α
  | [] => []
  | a :: l => if L.key a = k then e.here a l else a :: e.apply k l

theorem apply_cons_self (e : Edit L) (a : α) (l : List α) :
    e.apply (L.key a) (a :: l) = e.here a l := if_pos rfl

theorem apply_cons_of_ne (e : Edit L) {k : κ} {a : α} (h : L.key a ≠ k) (l : List α) :
    e.apply k (a :: l) = a :: e.apply k l := if_neg h

/-! ### Edits of different entries -/

theorem apply_moved (e : Edit L) (k : κ) (l : List α) :
    e.apply k (l.map L.moved) = (e.apply k l).map L.moved := by
  induction l with
  | nil => rfl
  | cons a l ih =>
    rw [List.map_cons, apply, apply, L.key_moved]
    split
    · exact here_moved e a l
    · rw [List.map_cons, ih]

theorem apply_here (e e' : Edit L) {k : κ} {a : α} (h : L.key a ≠ k) (l : List α) :
    e'.apply k (e.here a l) = e.here a (e'.apply k l) := by
  cases e with
  | change f hkey hmoved => exact apply_cons_of_ne e' (by rwa [hkey]) l
  | remove => exact apply_moved e' k l

theorem apply_comm (e e' : Edit L) {k k' : κ} (h : k ≠ k') (l : List α) :
    e.apply k (e'.apply k' l) = e'.apply k' (e.apply k l) := by
  induction l with
  | nil => rfl
  | cons a l ih =>
    by_cases hk : L.key a = k
    · subst hk
      rw [apply_cons_of_ne e' h, apply_cons_self, apply_cons_self, apply_here e e' h]
    · by_cases hk' : L.key a = k'
      · subst hk'
        rw [apply_cons_of_ne e hk, apply_cons_self, apply_cons_self, apply_here e' e hk]
      · rw [apply_cons_of_ne e' hk', apply_cons_of_ne e hk, apply_cons_of_ne e hk,
          apply_cons_of_ne e' hk', ih]

/-- What is removed may have been changed before. -/
theorem remove_change {f : α → α} {hkey hmoved} (k : κ) (l : List α) :
    (remove : Edit L).apply k ((change f hkey hmoved : Edit L).apply k l) =
      (remove : Edit L).apply k l := by
  induction l with
  | nil => rfl
  | cons a l ih =>
    by_cases hk : L.key a = k
    · subst hk
      rw [apply_cons_self, apply_cons_self, here, ← hkey a, apply_cons_self]
      rfl
    · rw [apply_cons_of_ne _ hk, apply_cons_of_ne _ hk, apply_cons_of_ne _ hk, ih]

/-! ### What an edit leaves -/

/-- An entry with another key is still there, or has moved down. -/
theorem mem_apply (e : Edit L) {k : κ} {a : α} (h : L.key a ≠ k) {l : List α} (ha : a ∈ l) :
    a ∈ e.apply k l ∨ L.moved a ∈ e.apply k l := by
  induction l with
  | nil => cases ha
  | cons b l ih =>
    by_cases hb : L.key b = k
    · have hal : a ∈ l := by
        rcases List.mem_cons.mp ha with rfl | hal
        · exact absurd hb h
        · exact hal
      subst hb
      rw [apply_cons_self]
      cases e with
      | change f hkey hmoved => exact Or.inl (List.mem_cons_of_mem _ hal)
      | remove => exact Or.inr (List.mem_map_of_mem hal)
    · rw [apply_cons_of_ne e hb]
      rcases List.mem_cons.mp ha with rfl | hal
      · exact Or.inl List.mem_cons_self
      · exact (ih hal).imp (List.mem_cons_of_mem _) (List.mem_cons_of_mem _)

theorem keys_apply (e : Edit L) (k : κ) (l : List α) :
    ((e.apply k l).map L.key).Sublist (l.map L.key) := by
  induction l with
  | nil => exact List.Sublist.refl _
  | cons a l ih =>
    rw [apply]
    split
    · cases e with
      | change f hkey hmoved => rw [here, List.map_cons, hkey, List.map_cons]
      | remove =>
        rw [here, keys_moved, List.map_cons]
        exact List.sublist_cons_self _ _
    · rw [List.map_cons, List.map_cons]
      exact ih.cons_cons _

/-! ### Related edits -/

/-- Both remove, or both change related entries to related ones. -/
inductive Related (R : α → α → Prop) : Edit L → Edit L → Prop
  | change {f g : α → α} {hkey hmoved hkey' hmoved'} (h : ∀ a b, R a b → R (f a) (g b)) :
    Related R (change f hkey hmoved) (change g hkey' hmoved')
  | remove : Related R remove remove

theorem apply_related {R : α → α → Prop} (hkey : ∀ a b, R a b → L.key a = L.key b)
    (hmoved : ∀ a b, R a b → R (L.moved a) (L.moved b)) {e e' : Edit L} (h : Related R e e') (k : κ)
    {l l' : List α} (hl : List.Forall₂ R l l') :
    List.Forall₂ R (e.apply k l) (e'.apply k l') := by
  induction hl with
  | nil => exact .nil
  | @cons a b l l' hab hl ih =>
    rw [apply, apply, ← hkey a b hab]
    split
    · cases h with
      | change h => exact .cons (h a b hab) hl
      | remove =>
        exact List.forall₂_map_left_iff.mpr (List.forall₂_map_right_iff.mpr (hl.imp hmoved))
    · exact .cons hab ih

/-! ### Indices -/

/-- Where the key of the entry is the first one. -/
theorem apply_set {f : α → α} {hkey hmoved} {l : List α} (hl : (l.map L.key).Nodup) {j : ℕ} {a : α}
    (ha : l[j]? = some a) : (change f hkey hmoved : Edit L).apply (L.key a) l = l.set j (f a) := by
  induction l generalizing j with
  | nil => cases ha
  | cons b l ih =>
    obtain ⟨hb, hl⟩ := List.nodup_cons.mp hl
    cases j with
    | zero =>
      obtain rfl := Option.some_inj.mp ha
      exact apply_cons_self _ b l
    | succ j =>
      have hne : L.key b ≠ L.key a := fun heq =>
        hb (heq ▸ List.mem_map_of_mem (List.mem_of_getElem? ha))
      rw [apply_cons_of_ne _ hne, ih hl ha, List.set_cons_succ]

theorem getElem?_apply_remove {l : List α} (hl : (l.map L.key).Nodup) {j : ℕ} {a : α}
    (ha : l[j]? = some a) (i : ℕ) :
    ((remove : Edit L).apply (L.key a) l)[i]? =
      if i < j then l[i]? else (l[i + 1]?).map L.moved := by
  induction l generalizing i j with
  | nil => cases ha
  | cons b l ih =>
    obtain ⟨hb, hl⟩ := List.nodup_cons.mp hl
    cases j with
    | zero =>
      obtain rfl := Option.some_inj.mp ha
      rw [apply_cons_self, here, List.getElem?_map, if_neg (Nat.not_lt_zero i),
        List.getElem?_cons_succ]
    | succ j =>
      have hne : L.key b ≠ L.key a := fun heq =>
        hb (heq ▸ List.mem_map_of_mem (List.mem_of_getElem? ha))
      rw [apply_cons_of_ne _ hne]
      cases i with
      | zero => rfl
      | succ i =>
        rw [List.getElem?_cons_succ, ih hl ha, List.getElem?_cons_succ, List.getElem?_cons_succ]
        simp only [Nat.succ_lt_succ_iff]

end Edit

end Table
