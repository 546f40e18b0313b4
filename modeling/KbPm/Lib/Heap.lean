/-
Blocks of memory that are allocated, written and freed.

* `Heap` — the blocks that are live, and their sizes; `malloc` gives a new one, `write` fails on
  one that is not live or too small, and `free` on one that is not live;
* `Grows h bs h'` — behind `h` the blocks `bs` have been allocated and not been freed;
* `Grows.freeAll` — blocks that are freed once each, in any order, are live when they are.
-/
import Mathlib

structure Heap where
  live : Finset ℕ
  next : ℕ
  size : ℕ → ℕ
  bounded : ∀ b ∈ live, b < next

namespace Heap

/-- A new block of `n` bytes. -/
def malloc (h : Heap) (n : ℕ) : ℕ × Heap where
  fst := h.next
  snd :=
    { live := insert h.next h.live
      next := h.next + 1
      size := Function.update h.size h.next n
      bounded := by
        intro b hb
        rcases Finset.mem_insert.mp hb with rfl | hb
        · exact Nat.lt_succ_self _
        · exact Nat.lt_succ_of_lt (h.bounded b hb) }

/-- The first `n` bytes of a block are written. -/
def write (h : Heap) (b n : ℕ) : Option Heap :=
  if b ∈ h.live ∧ n ≤ h.size b then some h else none

def free (h : Heap) (b : ℕ) : Option Heap :=
  if b ∈ h.live then
    some
      { live := h.live.erase b
        next := h.next
        size := h.size
        bounded := fun c hc => h.bounded c (Finset.mem_of_mem_erase hc) }
  else none

def freeAll (h : Heap) (bs : List ℕ) : Option Heap := bs.foldlM free h

/-- A new block can be written up to its size. -/
theorem write_malloc (h : Heap) (n k : ℕ) :
    (h.malloc n).2.write (h.malloc n).1 k = if k ≤ n then some (h.malloc n).2 else none := by
  have hlive : (h.malloc n).1 ∈ (h.malloc n).2.live := Finset.mem_insert_self _ _
  have hsize : (h.malloc n).2.size (h.malloc n).1 = n := Function.update_self _ _ _
  rw [write, hsize]
  simp only [hlive, true_and]

theorem write_malloc_fits (h : Heap) {n k : ℕ} (hk : k ≤ n) :
    (h.malloc n).2.write (h.malloc n).1 k = some (h.malloc n).2 := by
  rw [write_malloc, if_pos hk]

/-- The blocks `bs` are new, and the others as they were. -/
structure Grows (h : Heap) (bs : List ℕ) (h' : Heap) : Prop where
  live : h'.live = h.live ∪ bs.toFinset
  nodup : bs.Nodup
  fresh : ∀ b ∈ bs, h.next ≤ b
  next : h.next ≤ h'.next

section Grows

variable {h h' h'' : Heap} {as bs : List ℕ} {b : ℕ}

theorem Grows.refl (h : Heap) : Grows h [] h :=
  ⟨by simp, List.nodup_nil, by simp, le_rfl⟩

theorem grows_malloc (h : Heap) (n : ℕ) : Grows h [(h.malloc n).1] (h.malloc n).2 := by
  refine ⟨?_, List.nodup_singleton _, ?_, Nat.le_succ _⟩
  · rw [List.toFinset_cons, List.toFinset_nil, Finset.union_comm]
    rfl
  · intro b hb
    rw [List.mem_singleton.mp hb]
    exact le_refl h.next

theorem Grows.perm (g : Grows h as h') (hperm : as.Perm bs) : Grows h bs h' :=
  ⟨by rw [g.live, List.toFinset_eq_of_perm _ _ hperm], hperm.nodup_iff.mp g.nodup,
    fun b hb => g.fresh b (hperm.mem_iff.mpr hb), g.next⟩

theorem Grows.trans (g : Grows h as h') (g' : Grows h' bs h'') : Grows h (as ++ bs) h'' := by
  refine ⟨?_, ?_, ?_, g.next.trans g'.next⟩
  · rw [g'.live, g.live, List.toFinset_append, Finset.union_assoc]
  · refine List.nodup_append.mpr ⟨g.nodup, g'.nodup, ?_⟩
    rintro a ha b hb rfl
    have hlive : a ∈ h'.live := by
      rw [g.live]
      exact Finset.mem_union_right _ (List.mem_toFinset.mpr ha)
    exact absurd (h'.bounded a hlive) (not_lt.mpr (g'.fresh a hb))
  · intro b hb
    rcases List.mem_append.mp hb with hb | hb
    · exact g.fresh b hb
    · exact g.next.trans (g'.fresh b hb)

theorem Grows.malloc (g : Grows h bs h') (n : ℕ) :
    Grows h (bs ++ [(h'.malloc n).1]) (h'.malloc n).2 :=
  g.trans (grows_malloc h' n)

/-- A new block is not among the old ones. -/
theorem Grows.notMem (g : Grows h bs h') (hb : b ∈ bs) : b ∉ h.live := fun hlive =>
  absurd (h.bounded b hlive) (not_lt.mpr (g.fresh b hb))

theorem Grows.free (g : Grows h (b :: bs) h') : ∃ h'', h'.free b = some h'' ∧ Grows h bs h'' := by
  have hlive : b ∈ h'.live := by
    rw [g.live]
    exact Finset.mem_union_right _ (by simp)
  obtain ⟨hnew, hnodup⟩ := List.nodup_cons.mp g.nodup
  rw [Heap.free, if_pos hlive]
  refine ⟨_, rfl, ?_, hnodup, fun c hc => g.fresh c (List.mem_cons_of_mem b hc), g.next⟩
  show h'.live.erase b = _
  rw [g.live, List.toFinset_cons, Finset.union_insert, Finset.erase_insert]
  rw [Finset.mem_union, List.mem_toFinset, not_or]
  exact ⟨g.notMem List.mem_cons_self, hnew⟩

theorem freeAll_append (h : Heap) (as bs : List ℕ) :
    h.freeAll (as ++ bs) = (h.freeAll as).bind fun h' => h'.freeAll bs :=
  List.foldlM_append

/-- New blocks are freed without a mistake, once each. -/
theorem Grows.freeAll (g : Grows h (as ++ bs) h') :
    ∃ h'', h'.freeAll as = some h'' ∧ Grows h bs h'' := by
  induction as generalizing h' with
  | nil => exact ⟨h', rfl, g⟩
  | cons a as ih =>
    obtain ⟨h₁, hfree, g₁⟩ := Grows.free g
    obtain ⟨h₂, hrest, g₂⟩ := ih g₁
    refine ⟨h₂, ?_, g₂⟩
    rw [Heap.freeAll, List.foldlM_cons, hfree]
    exact hrest

theorem Grows.live_nil (g : Grows h [] h') : h'.live = h.live := by simpa using g.live

theorem Grows.subset (g : Grows h bs h') : h.live ⊆ h'.live := by
  rw [g.live]
  exact Finset.subset_union_left

theorem Grows.card (g : Grows h bs h') : h'.live.card = h.live.card + bs.length := by
  rw [g.live, Finset.card_union_of_disjoint, List.toFinset_card_of_nodup g.nodup]
  rw [Finset.disjoint_right]
  intro b hb
  exact g.notMem (List.mem_toFinset.mp hb)

end Grows

end Heap
